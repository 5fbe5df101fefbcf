import Cyan.Base.Machine

/-!
# Counting the steps of a run

`tally p` counts the steps of a run that a predicate on steps singles out.

* `tally_add_le` is the accountant's rule.  When every step that counts is paid
  for, out of a store or by a step of another kind that fills the store, then a run
  has no more steps of the one kind than of the other, but for what has been in the
  store at its beginning.
-/

namespace Cyan
namespace Base
namespace Machine

variable {σ α : Type*} (M : Machine σ α)

/-- How many steps of the run of `as` from `s` meet `p`. -/
def tally (p : σ → α → σ → Bool) : List α → σ → Nat
  | [], _ => 0
  | a :: as, s => (M.step s a).elim 0 fun s' => (p s a s').toNat + tally p as s'

variable {M} {p q : σ → α → σ → Bool} {s s' : σ} {a : α} {as : List α}

theorem tally_of_step (h : M.step s a = some s') (as : List α) :
    M.tally p (a :: as) s = (p s a s').toNat + M.tally p as s' := by
  rw [tally, h, Option.elim_some]

/-- Every step with `p` is paid for, out of the store or by a step with `q`. -/
theorem tally_add_le (store : σ → Nat) {I : σ → Prop}
    (hkeep : ∀ s a s', I s → M.step s a = some s' → I s')
    (hpay : ∀ s a s', I s → M.step s a = some s' →
      (p s a s').toNat + store s' ≤ store s + (q s a s').toNat)
    (h : I s) (hrun : M.exec s as = some s') :
    M.tally p as s + store s' ≤ store s + M.tally q as s := by
  induction as generalizing s with
  | nil =>
      cases hrun
      simp [tally]
  | cons a as ih =>
      obtain ⟨s₁, hstep, hrest⟩ := Option.bind_eq_some_iff.mp hrun
      have hfirst := hpay s a s₁ h hstep
      have hafter := ih (hkeep s a s₁ h hstep) hrest
      rw [tally_of_step hstep, tally_of_step hstep]
      omega

end Machine
end Base
end Cyan
