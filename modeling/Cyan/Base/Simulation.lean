import Cyan.Base.Tally

/-!
# Simulation step by step

A machine `N` says what a part of a larger machine `M` is for.  Every step of `M` is seen
through `label` as an action of `N`, or as none.

* `labels` are the actions that a run of `M` is seen as.
* `exec_labels` is the rule: when `N` answers every step of `M` with the action that it is
  seen as, then it answers every run of `M`.
* `count_labels` counts an action in what a run is seen as.
-/

namespace Cyan
namespace Base
namespace Machine

variable {σ τ α β : Type*}

/-- A step, or none. -/
def stutter (N : Machine τ β) (t : τ) : Option β → Option τ
  | none => some t
  | some b => N.step t b

/-- What the run of `as` from `s` is seen as. -/
def labels (M : Machine σ α) (label : σ → α → σ → Option β) : List α → σ → List β
  | [], _ => []
  | a :: as, s => (M.step s a).elim [] fun s' => (label s a s').toList ++ labels M label as s'

variable {M : Machine σ α} {N : Machine τ β} {label : σ → α → σ → Option β}
variable {s s' : σ} {t : τ} {a : α} {b : β} {as : List α}

theorem labels_of_step (h : M.step s a = some s') (as : List α) :
    M.labels label (a :: as) s = (label s a s').toList ++ M.labels label as s' := by
  rw [labels, h, Option.elim_some]

theorem labels_of_stuck (h : M.step s a = none) (as : List α) :
    M.labels label (a :: as) s = [] := by
  rw [labels, h, Option.elim_none]

/-- A run that begins with a step, or none. -/
theorem exec_toList_append (t : τ) (o : Option β) (bs : List β) :
    N.exec t (o.toList ++ bs) = (N.stutter t o).bind fun t' => N.exec t' bs := by
  cases o <;> rfl

/-- `N` answers a run when it answers every step. -/
theorem exec_labels (abs : σ → τ) {I : σ → Prop}
    (hkeep : ∀ s a s', I s → M.step s a = some s' → I s')
    (hanswer : ∀ s a s', I s → M.step s a = some s' →
      N.stutter (abs s) (label s a s') = some (abs s'))
    (h : I s) (hrun : M.exec s as = some s') :
    N.exec (abs s) (M.labels label as s) = some (abs s') := by
  induction as generalizing s with
  | nil =>
      cases hrun
      rfl
  | cons a as ih =>
      obtain ⟨s₁, hstep, hrest⟩ := Option.bind_eq_some_iff.mp hrun
      rw [labels_of_step hstep, exec_toList_append, hanswer s a s₁ h hstep, Option.bind_some]
      exact ih (hkeep s a s₁ h hstep) hrest

theorem count_toList [DecidableEq β] (o : Option β) (b : β) :
    o.toList.count b = (decide (o = some b)).toNat := by
  cases o with
  | none => rfl
  | some c =>
      rw [Option.toList_some, List.count_singleton]
      by_cases hc : c = b
      · simp [hc]
      · simp [hc]

/-- How often a run is seen as `b`. -/
theorem count_labels [DecidableEq β] {p : σ → α → σ → Bool}
    (hp : ∀ s a s', label s a s' = some b ↔ p s a s' = true) (as : List α) (s : σ) :
    (M.labels label as s).count b = M.tally p as s := by
  induction as generalizing s with
  | nil => rfl
  | cons a as ih =>
      cases hstep : M.step s a with
      | none => rw [labels_of_stuck hstep, tally, hstep, Option.elim_none, List.count_nil]
      | some s' =>
          have hfirst : decide (label s a s' = some b) = p s a s' :=
            Bool.eq_iff_iff.mpr (decide_eq_true_iff.trans (hp s a s'))
          rw [labels_of_step hstep, tally_of_step hstep, List.count_append, count_toList, hfirst,
            ih]

end Machine
end Base
end Cyan
