import Mathlib.Data.List.Induction
import Cyan.Base.Machine

/-!
# Histories of runs

A statement such as "it has not changed since it was read" is about the run and not about the state
that it ends in.

* `Moment` says that a run comes to a certain step, and what it goes on with.
* `Throughout` says that something holds in all states of a run.
* `exists_moment` looks back: what holds at the end of a run and did not hold at its start came
  about in some step, and has held since.
* `exec_or_moment` looks ahead: what all steps but some keep is kept by a run, or the run comes to
  one of these.
* `throughout_of_count` is the rule for values with a stamp: when every change of a value is counted
  and the count is what it was, the value has been the same all along.
-/

namespace Cyan
namespace Base
namespace Machine

variable {σ α β : Type*} (M : Machine σ α)

/-- `P` holds in every state of the run of `as` from `s`, the first and the last one included. -/
def Throughout (P : σ → Prop) : σ → List α → Prop
  | s, [] => P s
  | s, a :: as => P s ∧ ∀ s', M.step s a = some s' → Throughout P s' as

/-- The run of `as` from `s₀` comes to a step `a` from `s₁` to `s₂`, and goes on with `after`. -/
structure Moment (s₀ : σ) (as : List α) (s₁ : σ) (a : α) (s₂ : σ) (after : List α) : Prop where
  before : ∃ before, as = before ++ a :: after ∧ M.exec s₀ before = some s₁
  step : M.step s₁ a = some s₂

variable {M} {P Q : σ → Prop} {s₀ s s' s₁ s₂ : σ} {a : α} {as bs after : List α}

/-! ## Runs that end in a step -/

theorem exec_concat : M.exec s (as ++ [a]) = some s₂ ↔
    ∃ s₁, M.exec s as = some s₁ ∧ M.step s₁ a = some s₂ := by
  rw [exec_append, Option.bind_eq_some_iff]
  simp only [exec_cons, exec_nil, Option.bind_fun_some]

/-- A reachable state is behind a run. -/
theorem Reachable.exists_exec (h : M.Reachable s) :
    ∃ s₀ as, M.start s₀ ∧ M.exec s₀ as = some s := by
  induction h with
  | start hstart => exact ⟨_, [], hstart, rfl⟩
  | step _ _ hstep ih =>
      obtain ⟨s₀, as, hstart, hexec⟩ := ih
      exact ⟨s₀, as ++ [_], hstart, exec_concat.mpr ⟨_, hexec, hstep⟩⟩

namespace Throughout

theorem first (h : M.Throughout P s as) : P s := by
  cases as with
  | nil => exact h
  | cons a as => exact h.1

theorem last (h : M.Throughout P s as) (hexec : M.exec s as = some s') : P s' := by
  induction as generalizing s with
  | nil =>
      cases hexec
      exact h
  | cons a as ih =>
      obtain ⟨s₁, hstep, hrest⟩ := Option.bind_eq_some_iff.mp hexec
      exact ih (h.2 s₁ hstep) hrest

theorem mono (hPQ : ∀ s, P s → Q s) (h : M.Throughout P s as) : M.Throughout Q s as := by
  induction as generalizing s with
  | nil => exact hPQ s h
  | cons a as ih => exact ⟨hPQ s h.1, fun s' hstep => ih (h.2 s' hstep)⟩

theorem and (h : M.Throughout P s as) (h' : M.Throughout Q s as) :
    M.Throughout (fun s => P s ∧ Q s) s as := by
  induction as generalizing s with
  | nil => exact ⟨h, h'⟩
  | cons a as ih => exact ⟨⟨h.1, h'.1⟩, fun s' hstep => ih (h.2 s' hstep) (h'.2 s' hstep)⟩

/-- One more step at the end. -/
theorem concat (hexec : M.exec s as = some s₁) (h : M.Throughout P s as)
    (hlast : ∀ s₂, M.step s₁ a = some s₂ → P s₂) : M.Throughout P s (as ++ [a]) := by
  induction as generalizing s with
  | nil =>
      cases hexec
      exact ⟨h, hlast⟩
  | cons b as ih =>
      refine ⟨h.1, fun s' hstep => ih ?_ (h.2 s' hstep)⟩
      rwa [M.exec_of_step hstep] at hexec

/-- A run, a step, and another run. -/
theorem join (hexec : M.exec s as = some s₁) (hstep : M.step s₁ a = some s₂)
    (h : M.Throughout P s as) (h' : M.Throughout P s₂ bs) :
    M.Throughout P s (as ++ a :: bs) := by
  induction as generalizing s with
  | nil =>
      cases hexec
      refine ⟨h, fun s' hs' => ?_⟩
      rw [hstep] at hs'
      cases hs'
      exact h'
  | cons b as ih =>
      refine ⟨h.1, fun s' hs' => ih ?_ (h.2 s' hs')⟩
      rwa [M.exec_of_step hs'] at hexec

/-- What every step between states with `P` keeps holds throughout a run through such states. -/
theorem along (hkeep : ∀ s a s', P s → Q s → M.step s a = some s' → P s' → Q s')
    (h : M.Throughout P s as) (hQ : Q s) : M.Throughout Q s as := by
  induction as generalizing s with
  | nil => exact hQ
  | cons a as ih =>
      refine ⟨hQ, fun s' hstep => ih (h.2 s' hstep) ?_⟩
      exact hkeep s a s' h.1 hQ hstep (h.2 s' hstep).first

end Throughout

/-- The states of a run are those that the run comes from and goes on to. -/
theorem throughout_exec (hexec : M.exec s as = some s') :
    M.Throughout (fun u => (∃ bs, M.exec s bs = some u) ∧ ∃ cs, M.exec u cs = some s') s as := by
  induction as generalizing s with
  | nil => exact ⟨⟨[], rfl⟩, [], hexec⟩
  | cons a as ih =>
      refine ⟨⟨⟨[], rfl⟩, a :: as, hexec⟩, fun s₁ hstep => ?_⟩
      have hrest := M.exec_of_step hstep as
      rw [hexec] at hrest
      refine (ih hrest.symm).mono fun u ⟨⟨bs, hbs⟩, hgoes⟩ => ⟨⟨a :: bs, ?_⟩, hgoes⟩
      rw [M.exec_of_step hstep, hbs]

namespace Moment

/-- The last step of a run. -/
theorem last (hexec : M.exec s₀ as = some s₁) (hstep : M.step s₁ a = some s₂) :
    M.Moment s₀ (as ++ [a]) s₁ a s₂ [] :=
  ⟨⟨as, rfl, hexec⟩, hstep⟩

/-- A step of a run is a step of the run with another run in front. -/
theorem prepend (hexec : M.exec s₀ bs = some s) (h : M.Moment s as s₁ a s₂ after) :
    M.Moment s₀ (bs ++ as) s₁ a s₂ after := by
  obtain ⟨⟨before, rfl, hbefore⟩, hstep⟩ := h
  refine ⟨⟨bs ++ before, by rw [List.append_assoc], ?_⟩, hstep⟩
  rw [exec_append, hexec, Option.bind_some, hbefore]

/-- A step of a run is a step of a longer run. -/
theorem append (h : M.Moment s₀ as s₁ a s₂ after) (bs : List α) :
    M.Moment s₀ (as ++ bs) s₁ a s₂ (after ++ bs) := by
  obtain ⟨⟨before, rfl, hbefore⟩, hstep⟩ := h
  exact ⟨⟨before, by rw [List.append_assoc, List.cons_append], hbefore⟩, hstep⟩

/-- What the run goes on with leads to where it ends. -/
theorem exec_after (h : M.Moment s₀ as s₁ a s₂ after) (hexec : M.exec s₀ as = some s) :
    M.exec s₂ after = some s := by
  obtain ⟨⟨before, rfl, hbefore⟩, hstep⟩ := h
  rwa [exec_append, hbefore, Option.bind_some, M.exec_of_step hstep] at hexec

theorem exec_cons_after (h : M.Moment s₀ as s₁ a s₂ after) (hexec : M.exec s₀ as = some s) :
    M.exec s₁ (a :: after) = some s :=
  (M.exec_of_step h.step after).trans (h.exec_after hexec)

/-- A step of a run is a step of the run with another step in front. -/
theorem cons {b : α} (hstep : M.step s₀ b = some s) (h : M.Moment s as s₁ a s₂ after) :
    M.Moment s₀ (b :: as) s₁ a s₂ after := by
  obtain ⟨⟨before, rfl, hbefore⟩, hlast⟩ := h
  exact ⟨⟨b :: before, rfl, (M.exec_of_step hstep before).trans hbefore⟩, hlast⟩

/-- What holds throughout a run holds in front of its steps. -/
theorem throughout (h : M.Moment s₀ as s₁ a s₂ after) (hP : M.Throughout P s₀ as) : P s₁ := by
  obtain ⟨⟨before, rfl, hbefore⟩, -⟩ := h
  induction before generalizing s₀ with
  | nil =>
      cases hbefore
      exact hP.first
  | cons b before ih =>
      obtain ⟨s, hs, hrest⟩ := Option.bind_eq_some_iff.mp hbefore
      exact ih hrest (hP.2 s hs)

theorem reachable (h : M.Moment s₀ as s₁ a s₂ after) (hstart : M.start s₀) : M.Reachable s₁ := by
  obtain ⟨⟨before, -, hbefore⟩, -⟩ := h
  exact .of_exec hstart hbefore

end Moment

/-- What holds at the end of a run and not at its start came about in a step, and has held
since. -/
theorem exists_moment (hstart : ¬P s₀) (hexec : M.exec s₀ as = some s) (h : P s) :
    ∃ s₁ a s₂ after, M.Moment s₀ as s₁ a s₂ after ∧ ¬P s₁ ∧ M.Throughout P s₂ after := by
  induction as using List.reverseRecOn generalizing s with
  | nil =>
      cases hexec
      exact absurd h hstart
  | append_singleton as a ih =>
      obtain ⟨s', has, hstep⟩ := exec_concat.mp hexec
      by_cases hP : P s'
      · obtain ⟨s₁, b, s₂, after, hmoment, hnot, hsince⟩ := ih has hP
        refine ⟨s₁, b, s₂, after ++ [a], hmoment.append [a], hnot, ?_⟩
        refine hsince.concat (hmoment.exec_after has) fun s'' hstep' => ?_
        rw [hstep] at hstep'
        cases hstep'
        exact h
      · exact ⟨s', a, s, [], .last has hstep, hP, h⟩

/-- What every step keeps, but for those with `E`, holds at the end of a run that comes to no such
step. -/
theorem exec_or_moment {I : σ → Prop} {E : σ → α → σ → Prop}
    (hkeep : ∀ s a s', I s → M.step s a = some s' → I s')
    (hstep : ∀ s a s', I s → P s → M.step s a = some s' → P s' ∨ E s a s')
    (hI : I s₀) (h : P s₀) (hexec : M.exec s₀ as = some s) :
    P s ∨ ∃ s₁ a s₂ after, M.Moment s₀ as s₁ a s₂ after ∧ E s₁ a s₂ := by
  induction as generalizing s₀ with
  | nil =>
      cases hexec
      exact .inl h
  | cons a as ih =>
      obtain ⟨s₁, hfirst, hrest⟩ := Option.bind_eq_some_iff.mp hexec
      rcases hstep s₀ a s₁ hI h hfirst with hP | hE
      · refine (ih (hkeep s₀ a s₁ hI hfirst) hP hrest).imp id ?_
        rintro ⟨s₂, b, s₃, after, hmoment, hE⟩
        exact ⟨s₂, b, s₃, after, hmoment.cons hfirst, hE⟩
      · exact .inr ⟨s₀, a, s₁, as, ⟨⟨[], rfl, rfl⟩, hfirst⟩, hE⟩

/-! ## Runs under a condition -/

section Restrict

variable (M) (ok : σ → α → Prop)

open Classical in
/-- The machine that only takes steps that meet `ok`. -/
noncomputable def restrict : Machine σ α where
  start := M.start
  step s a := if ok s a then M.step s a else none

variable {M ok}

theorem restrict_step : (M.restrict ok).step s a = some s' ↔ ok s a ∧ M.step s a = some s' := by
  unfold restrict
  dsimp only
  split
  · rename_i hok
    simp [hok]
  · rename_i hok
    simp [hok]

/-- Its runs from a state that is reachable under the condition stay among these states. -/
theorem ReachableUnder.exec_restrict (h : M.ReachableUnder ok s)
    (hexec : (M.restrict ok).exec s as = some s') : M.ReachableUnder ok s' := by
  refine exec_invariant (I := M.ReachableUnder ok) (fun s a _ s' hreach hstep => ?_) h hexec
  obtain ⟨hok, hstep⟩ := restrict_step.mp hstep
  exact .step hreach hok hstep

/-- A checked execution is such a run. -/
theorem exec_restrict_of_execUnder {check : σ → α → Prop} [∀ s a, Decidable (check s a)]
    (hcheck : ∀ s a, check s a → ok s a) (hexec : M.execUnder check s as = some s') :
    (M.restrict ok).exec s as = some s' := by
  induction as generalizing s with
  | nil => exact hexec
  | cons a as ih =>
      rw [execUnder] at hexec
      split at hexec
      · rename_i hok
        obtain ⟨s₁, hstep, hrest⟩ := Option.bind_eq_some_iff.mp hexec
        rw [(M.restrict ok).exec_of_step (restrict_step.mpr ⟨hcheck _ _ hok, hstep⟩)]
        exact ih hrest
      · cases hexec

/-- `P` holds in every state of the run, checked. -/
def checkAlong (M : Machine σ α) (P : σ → Bool) : σ → List α → Bool
  | s, [] => P s
  | s, a :: as => P s && (M.step s a).all fun s' => checkAlong M P s' as

theorem throughout_of_checkAlong {P : σ → Bool} {Q : σ → Prop} (hPQ : ∀ s, P s = true → Q s)
    (h : M.checkAlong P s as = true) : (M.restrict ok).Throughout Q s as := by
  induction as generalizing s with
  | nil => exact hPQ s h
  | cons a as ih =>
      obtain ⟨hs, hrest⟩ := Bool.and_eq_true_iff.mp h
      refine ⟨hPQ s hs, fun s' hstep => ih ?_⟩
      rw [(restrict_step.mp hstep).2] at hrest
      exact hrest

end Restrict

section Counted

variable (count : σ → Nat) (value : σ → β)
  (hmono : ∀ s a s', M.step s a = some s' → count s ≤ count s')
  (hcounted : ∀ s a s', M.step s a = some s' → count s' = count s → value s' = value s)

include hmono

theorem count_le_of_exec (hexec : M.exec s as = some s') : count s ≤ count s' := by
  induction as generalizing s with
  | nil =>
      cases hexec
      exact Nat.le_refl _
  | cons a as ih =>
      obtain ⟨s₁, hstep, hrest⟩ := Option.bind_eq_some_iff.mp hexec
      exact Nat.le_trans (hmono s a s₁ hstep) (ih hrest)

include hcounted

/-- A value whose changes are counted has not changed while the count is the same. -/
theorem throughout_of_count (hexec : M.exec s as = some s') (hcount : count s' = count s) :
    M.Throughout (fun u => value u = value s) s as := by
  induction as generalizing s with
  | nil => exact rfl
  | cons a as ih =>
      obtain ⟨s₁, hstep, hrest⟩ := Option.bind_eq_some_iff.mp hexec
      refine ⟨rfl, fun s₂ hstep₂ => ?_⟩
      rw [hstep] at hstep₂
      cases hstep₂
      -- the count cannot fall back behind the step, so it is the same there already
      have hlow := hmono s a s₁ hstep
      have hhigh := count_le_of_exec count hmono hrest
      have hsame : count s₁ = count s := by omega
      have hvalue := hcounted s a s₁ hstep hsame
      rw [← hvalue]
      exact ih hrest (hcount.trans hsame.symm)

end Counted

end Machine
end Base
end Cyan
