import Cyan.Base.Ends

/-!
# Loops and fuel

A loop whose end has to be proved gets fuel, and throws `out` when there is none left.
`Comes x s r` says that the program has the result `r` with any sufficient amount of it, and
`Halts Q E x s` that there is such a result and that it meets `Q` or `E`.

`Halts` has the rules of `Ends`: a proof follows the text of the program, and a loop is left
by an invariant with a number that falls in every round.
-/

namespace Cyan
namespace Base

universe u

variable {σ ε α β : Type u}

/-- Rounds of `body`, until one of them ends the loop. -/
def loop (out : ε) (body : β → EStateM ε σ (β ⊕ α)) : Nat → β → EStateM ε σ α
  | 0, _ => throw out
  | fuel + 1, b => do
      match ← body b with
      | .inl b' => loop out body fuel b'
      | .inr a => return a

/-- The operations one after the other, and what they return. -/
def sequence {ω : Type u} (run : ω → Nat → EStateM ε σ β) : List ω → Nat → EStateM ε σ (List β)
  | [], _ => return []
  | op :: ops, fuel => do
      let b ← run op fuel
      let bs ← sequence run ops fuel
      return b :: bs

/-- What the operations return, and where they lead, when each of them is `spec`. -/
def replay {ω : Type u} (spec : ω → α → β × α) : List ω → α → List β × α
  | [], a => ([], a)
  | op :: ops, a =>
      let (b, a) := spec op a
      let (bs, a) := replay spec ops a
      (b :: bs, a)

/-- With enough fuel the result is `r`. -/
def Comes (x : Nat → EStateM ε σ α) (s : σ) (r : EStateM.Result ε σ α) : Prop :=
  ∃ enough, ∀ fuel, enough ≤ fuel → x fuel s = r

/-- The program comes to a result, which meets `Q` if it returns and `E` if it throws. -/
def Halts (Q : α → σ → Prop) (E : ε → σ → Prop) (x : Nat → EStateM ε σ α) (s : σ) : Prop :=
  ∃ r, Comes x s r ∧ Ends Q E r

/-- There is only one result. -/
theorem Comes.unique {x : Nat → EStateM ε σ α} {s : σ} {r r' : EStateM.Result ε σ α}
    (h : Comes x s r) (h' : Comes x s r') : r = r' := by
  obtain ⟨enough, hr⟩ := h
  obtain ⟨enough', hr'⟩ := h'
  have hr := hr (max enough enough') (Nat.le_max_left ..)
  have hr' := hr' (max enough enough') (Nat.le_max_right ..)
  exact hr.symm.trans hr'

namespace Halts

variable {Q Q' : α → σ → Prop} {E E' : ε → σ → Prop} {s : σ}

theorem mono {x : Nat → EStateM ε σ α} (h : Halts Q E x s) (hQ : ∀ a s, Q a s → Q' a s)
    (hE : ∀ e s, E e s → E' e s) : Halts Q' E' x s := by
  obtain ⟨r, hcomes, hends⟩ := h
  exact ⟨r, hcomes, hends.mono hQ hE⟩

/-- What the program comes to meets what it halts with. -/
theorem ends {x : Nat → EStateM ε σ α} {r : EStateM.Result ε σ α} (h : Halts Q E x s)
    (hr : Comes x s r) : Ends Q E r := by
  obtain ⟨r', hcomes, hends⟩ := h
  rw [hr.unique hcomes]
  exact hends

/-- The state behind an exception `e`, where `c` decides about it. -/
theorem throws_iff {x : Nat → EStateM ε σ α} {e : ε} {p : σ → Prop} {c : Prop}
    (h : Halts (fun _ _ => c) E x s)
    (hthrow : ∀ e' s', E e' s' → e' = e ∧ (p s' ↔ c)) :
    (∀ s', Comes x s (.error e s') → p s') ↔ c := by
  obtain ⟨r, hcomes, hends⟩ := h
  cases r with
  | ok a s' =>
      refine ⟨fun _ => hends, fun _ s'' herror => ?_⟩
      cases hcomes.unique herror
  | error e' s' =>
      obtain ⟨rfl, hiff⟩ := hthrow e' s' hends
      refine ⟨fun hall => hiff.mp (hall s' hcomes), fun hc s'' herror => ?_⟩
      cases hcomes.unique herror
      exact hiff.mpr hc

/-- Without loops there is no need of fuel. -/
@[simp] theorem const_iff {x : EStateM ε σ α} : Halts Q E (fun _ => x) s ↔ Ends Q E (x s) := by
  constructor
  · exact fun h => h.ends ⟨0, fun _ _ => rfl⟩
  · exact fun h => ⟨x s, ⟨0, fun _ _ => rfl⟩, h⟩

theorem ite_iff {c : Prop} [Decidable c] {x y : Nat → EStateM ε σ α} :
    Halts Q E (fun fuel => if c then x fuel else y fuel) s ↔
      (c → Halts Q E x s) ∧ (¬c → Halts Q E y s) := by
  by_cases hc : c <;> simp [hc]

/-- One program behind the other. -/
theorem bind {x : Nat → EStateM ε σ β} {f : Nat → β → EStateM ε σ α}
    (h : Halts (fun b s' => Halts Q E (fun fuel => f fuel b) s') E x s) :
    Halts Q E (fun fuel => x fuel >>= f fuel) s := by
  obtain ⟨r, ⟨enough, hx⟩, hends⟩ := h
  cases r with
  | ok b s' =>
      obtain ⟨r', ⟨enough', hf⟩, hends'⟩ := hends
      refine ⟨r', ⟨max enough enough', fun fuel hfuel => ?_⟩, hends'⟩
      have hfirst := hx fuel (by omega)
      have hrest := hf fuel (by omega)
      show EStateM.bind (x fuel) (f fuel) s = r'
      rw [EStateM.bind, hfirst]
      exact hrest
  | error e s' =>
      refine ⟨.error e s', ⟨enough, fun fuel hfuel => ?_⟩, hends⟩
      show EStateM.bind (x fuel) (f fuel) s = .error e s'
      rw [EStateM.bind, hx fuel hfuel]

/-- A first step without loops. -/
theorem step {x : EStateM ε σ β} {f : Nat → β → EStateM ε σ α}
    (h : Ends (fun b s' => Halts Q E (fun fuel => f fuel b) s') E (x s)) :
    Halts Q E (fun fuel => x >>= f fuel) s :=
  bind (const_iff.mpr h)

/-- A loop ends when a number falls in every round that goes on. -/
theorem loop {out : ε} {body : Nat → β → EStateM ε σ (β ⊕ α)} {I : Nat → β → σ → Prop}
    (hbody : ∀ k b s, I k b s → Halts
      (fun r s' => r.elim (fun b' => ∃ k', k' < k ∧ I k' b' s') fun a => Q a s') E
      (fun fuel => body fuel b) s)
    {k : Nat} {b : β} (h : I k b s) :
    Halts Q E (fun fuel => Base.loop out (body fuel) fuel b) s := by
  -- the rounds and the loops inside them get their fuel apart
  have hrounds : ∀ k b s, I k b s → ∃ r, (∃ enough, ∀ fuel rounds, enough ≤ fuel →
      enough ≤ rounds → Base.loop out (body fuel) rounds b s = r) ∧ Ends Q E r := by
    intro k
    induction k using Nat.strongRecOn with
    | ind k ih =>
        intro b s h
        obtain ⟨r, ⟨enough, hround⟩, hends⟩ := hbody k b s h
        replace hround : ∀ fuel, enough ≤ fuel → body fuel b s = r := hround
        have hunfold : ∀ fuel rounds, Base.loop out (body fuel) (rounds + 1) b s =
            EStateM.bind (body fuel b) (fun r => match r with
              | .inl b' => Base.loop out (body fuel) rounds b'
              | .inr a => pure a) s := fun _ _ => rfl
        cases r with
        | error e s' =>
            -- an exception ends the loop in this round
            refine ⟨.error e s', ⟨enough + 1, fun fuel rounds hfuel hle => ?_⟩, hends⟩
            obtain ⟨rounds, rfl⟩ := Nat.exists_eq_add_of_le' (show 1 ≤ rounds by omega)
            rw [hunfold, EStateM.bind, hround fuel (by omega)]
        | ok r s' =>
            cases r with
            | inr a =>
                refine ⟨.ok a s', ⟨enough + 1, fun fuel rounds hfuel hle => ?_⟩, hends⟩
                obtain ⟨rounds, rfl⟩ := Nat.exists_eq_add_of_le' (show 1 ≤ rounds by omega)
                rw [hunfold, EStateM.bind, hround fuel (by omega)]
                rfl
            | inl b' =>
                -- the loop goes on with a smaller number
                obtain ⟨k', hlt, hinv⟩ := hends
                obtain ⟨r, ⟨enough', hrest⟩, hends'⟩ := ih k' hlt b' s' hinv
                refine ⟨r, ⟨max enough enough' + 1, fun fuel rounds hfuel hle => ?_⟩, hends'⟩
                obtain ⟨rounds, rfl⟩ := Nat.exists_eq_add_of_le' (show 1 ≤ rounds by omega)
                rw [hunfold, EStateM.bind, hround fuel (by omega)]
                exact hrest fuel rounds (by omega) (by omega)
  obtain ⟨r, ⟨enough, hcomes⟩, hends⟩ := hrounds k b s h
  exact ⟨r, ⟨enough, fun fuel hfuel => hcomes fuel fuel hfuel hfuel⟩, hends⟩

/-- Programs that refine the operations of `spec` refine every sequence of them. -/
theorem sequence {ω : Type u} {run : ω → Nat → EStateM ε σ β} {spec : ω → α → β × α}
    {I : α → σ → Prop}
    (hstep : ∀ op a s, I a s →
      Halts (fun b s' => b = (spec op a).1 ∧ I (spec op a).2 s') E (run op) s)
    (ops : List ω) {a : α} (h : I a s) :
    Halts (fun bs s' => bs = (replay spec ops a).1 ∧ I (replay spec ops a).2 s') E
      (Base.sequence run ops) s := by
  induction ops generalizing a s with
  | nil => exact const_iff.mpr ⟨rfl, h⟩
  | cons op ops ih =>
      refine bind ((hstep op a s h).mono ?_ fun _ _ he => he)
      rintro b s' ⟨rfl, h'⟩
      refine bind ((ih h').mono ?_ fun _ _ he => he)
      rintro bs s'' ⟨rfl, h''⟩
      exact const_iff.mpr ⟨rfl, h''⟩

end Halts

end Base
end Cyan
