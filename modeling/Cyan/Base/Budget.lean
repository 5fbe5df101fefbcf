import Mathlib.Order.WellFounded
import Mathlib.Order.Monotone.Basic
import Cyan.Base.Machine

/-!
# What a run costs

Steps have a cost, and states have a budget that pays for them.

* `Meets` says that every step of a run meets a condition, and `spent` adds up what its steps
  cost.
* `Pays` is the step rule: the budget falls by the cost of the step.
* `Pays.spent_add_le` bounds what a run spends, and `Pays.exists_free` says that a run without
  end has steps with a cost only at its beginning.
* `Falls` is the rule for what is left to do: it is in a well-founded order, no step adds to it,
  and a step that works takes something off.  `Falls.exists_exit` says that a run comes to an end
  of it, as long as it goes on to work; `exists_run` makes a run without end.
-/

namespace Cyan
namespace Base
namespace Machine

variable {σ α : Type*} (M : Machine σ α)

/-- Every step of the run of `as` from `s` meets `ok`. -/
def Meets (ok : σ → α → Prop) : σ → List α → Prop
  | _, [] => True
  | s, a :: as => ok s a ∧ ∀ s', M.step s a = some s' → Meets ok s' as

/-- What the steps of a run cost together. -/
def spent (cost : σ → α → Nat) : σ → List α → Nat
  | _, [] => 0
  | s, a :: as => cost s a + (M.step s a).elim 0 fun s' => spent cost s' as

/-- A step with `ok` from a state with `I` leads to such a state and is paid from the budget. -/
structure Pays (I : σ → Prop) (ok : σ → α → Prop) (cost : σ → α → Nat) (budget : σ → Nat) :
    Prop where
  keeps : ∀ s a s', I s → ok s a → M.step s a = some s' → I s'
  pays : ∀ s a s', I s → ok s a → M.step s a = some s' → cost s a + budget s' ≤ budget s

variable {M} {I : σ → Prop} {ok : σ → α → Prop} {s s' : σ} {as : List α}

theorem spent_cons {cost : σ → α → Nat} {a : α} (hstep : M.step s a = some s') :
    M.spent cost s (a :: as) = cost s a + M.spent cost s' as := by
  rw [spent, hstep, Option.elim_some]

namespace Pays

variable {cost : σ → α → Nat} {budget : σ → Nat}

/-- The steps of a run are paid together. -/
theorem spent_add_le (h : M.Pays I ok cost budget) (hs : I s) (hmeets : M.Meets ok s as)
    (hexec : M.exec s as = some s') : M.spent cost s as + budget s' ≤ budget s := by
  induction as generalizing s with
  | nil =>
      cases hexec
      exact Nat.le_of_eq (Nat.zero_add _)
  | cons a as ih =>
      obtain ⟨s₁, hstep, hrest⟩ := Option.bind_eq_some_iff.mp hexec
      have hfirst := h.pays s a s₁ hs hmeets.1 hstep
      have hlater := ih (h.keeps s a s₁ hs hmeets.1 hstep) (hmeets.2 s₁ hstep) hrest
      rw [spent_cons hstep]
      omega

/-- From some point on a run without end has only steps that cost nothing. -/
theorem exists_free (h : M.Pays I ok cost budget) {run : Nat → σ} {act : Nat → α}
    (hstart : I (run 0)) (hok : ∀ n, ok (run n) (act n))
    (hstep : ∀ n, M.step (run n) (act n) = some (run (n + 1))) :
    ∃ n, ∀ m, n ≤ m → cost (run m) (act m) = 0 := by
  have hinv : ∀ n, I (run n) := by
    intro n
    induction n with
    | zero => exact hstart
    | succ n ih => exact h.keeps _ _ _ ih (hok n) (hstep n)
  have hpays : ∀ n, cost (run n) (act n) + budget (run (n + 1)) ≤ budget (run n) :=
    fun n => h.pays _ _ _ (hinv n) (hok n) (hstep n)
  -- where the budget is least, nothing can be paid any more
  obtain ⟨n, hleast⟩ : ∃ n, ∀ m, budget (run n) ≤ budget (run m) :=
    ⟨_, fun m => Function.argmin_le (fun n => budget (run n)) m⟩
  have hstays : ∀ m, n ≤ m → budget (run m) ≤ budget (run n) := by
    intro m hm
    induction m, hm using Nat.le_induction with
    | base => exact Nat.le_refl _
    | succ m _ ih => exact (Nat.le_add_left _ _).trans ((hpays m).trans ih)
  refine ⟨n, fun m hm => ?_⟩
  have hpaid := hpays m
  have hbefore := hstays m hm
  have hafter := hleast (m + 1)
  omega

end Pays

/-- A run that ends where an action changes nothing goes on without end. -/
theorem exists_run {idle : α} (hexec : M.exec s as = some s') (hidle : M.step s' idle = some s') :
    ∃ run : Nat → σ, ∃ act : Nat → α, run 0 = s ∧
      (∀ n, M.step (run n) (act n) = some (run (n + 1))) ∧
      ∀ n, as[n]? = some (act n) ∨ as.length ≤ n ∧ run n = s' := by
  induction as generalizing s with
  | nil =>
      cases hexec
      exact ⟨fun _ => s', fun _ => idle, rfl, fun _ => hidle, fun n => .inr ⟨Nat.zero_le n, rfl⟩⟩
  | cons a as ih =>
      obtain ⟨s₁, hstep, hrest⟩ := Option.bind_eq_some_iff.mp hexec
      obtain ⟨run, act, hstart, hrun, hact⟩ := ih hrest
      refine ⟨fun | 0 => s | n + 1 => run n, fun | 0 => a | n + 1 => act n, rfl,
        fun n => ?_, fun n => ?_⟩
      · cases n with
        | zero => exact hstep.trans (congrArg some hstart.symm)
        | succ n => exact hrun n
      · cases n with
        | zero => exact .inl rfl
        | succ n => exact (hact n).imp id (And.imp Nat.succ_le_succ id)

/-- While `P` holds, no step adds to what is left, and a step that works takes something off. -/
structure Falls {β : Type*} [LinearOrder β] (M : Machine σ α) (P : σ → Prop) (works : α → Prop)
    (left : σ → β) : Prop where
  rests : ∀ s a s', P s → P s' → M.step s a = some s' → left s' ≤ left s
  falls : ∀ s a s', P s → P s' → M.step s a = some s' → works a → left s' < left s

namespace Falls

variable {β : Type*} [LinearOrder β] {P Q : σ → Prop} {works : α → Prop} {left : σ → β}

theorem mono (h : M.Falls P works left) (hQP : ∀ s, Q s → P s) : M.Falls Q works left where
  rests s a s' hs hs' := h.rests s a s' (hQP s hs) (hQP s' hs')
  falls s a s' hs hs' := h.falls s a s' (hQP s hs) (hQP s' hs')

/-- A run that goes on to work while `P` holds does not stay there. -/
theorem exists_exit [WellFoundedLT β] (h : M.Falls P works left) {run : Nat → σ} {act : Nat → α}
    {k : Nat} (hstart : P (run k)) (hstep : ∀ n, M.step (run n) (act n) = some (run (n + 1)))
    (hworks : ∀ n, P (run n) → ∃ m, n ≤ m ∧ works (act m)) :
    ∃ n, k ≤ n ∧ (∀ m, k ≤ m → m ≤ n → P (run m)) ∧ ¬P (run (n + 1)) := by
  by_contra hnone
  have hstays : ∀ d, ∀ m, k ≤ m → m ≤ k + d → P (run m) := by
    intro d
    induction d with
    | zero => exact fun m hk hm => Nat.le_antisymm hk hm ▸ hstart
    | succ d ih =>
        intro m hk hm
        rcases Nat.le_succ_iff.mp hm with hm | rfl
        · exact ih m hk hm
        · exact not_not.mp fun hleft => hnone ⟨k + d, Nat.le_add_right k d, ih, hleft⟩
  have hP : ∀ d, P (run (k + d)) := fun d => hstays d _ (Nat.le_add_right k d) le_rfl
  have hanti : Antitone fun d => left (run (k + d)) :=
    antitone_nat_of_succ_le fun d => h.rests _ _ _ (hP d) (hP (d + 1)) (hstep (k + d))
  -- where the least is left, nothing can be taken off any more
  obtain ⟨d, hleast⟩ : ∃ d, ∀ e, left (run (k + d)) ≤ left (run (k + e)) :=
    ⟨_, fun e => Function.argmin_le (fun d => left (run (k + d))) e⟩
  obtain ⟨m, hm, hwork⟩ := hworks (k + d) (hP d)
  obtain ⟨e, rfl⟩ := Nat.exists_eq_add_of_le ((Nat.le_add_right k d).trans hm)
  have hfall := h.falls _ _ _ (hP e) (hP (e + 1)) (hstep (k + e)) hwork
  have hde : d ≤ e := Nat.le_of_add_le_add_left hm
  exact absurd (hfall.trans_le (hanti hde)) (not_lt.mpr (hleast (e + 1)))

end Falls

end Machine
end Base
end Cyan
