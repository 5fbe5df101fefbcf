import Mathlib.Data.Set.Card

/-!
# How many parties stand somewhere

Every party of a system stands at a place, and a predicate singles out some of
the places.  `headcount` says how many parties stand at one of them; there may
be any number of parties, as long as only finitely many are singled out.

* `headcount_update`: when one party moves, the count changes by what its old
  and its new place contribute.
* `exists_of_headcount_pos`: a count that is not zero has a party behind it.
-/

namespace Cyan
namespace Base

variable {Party Place : Type*}

/-- The parties that stand at a place with `p`. -/
def standing (p : Place → Bool) (place : Party → Place) : Set Party :=
  {t | p (place t) = true}

/-- How many parties stand at a place with `p`. -/
noncomputable def headcount (p : Place → Bool) (place : Party → Place) : ℕ :=
  (standing p place).ncard

variable {p : Place → Bool} {place : Party → Place}

theorem standing_eq_empty (h : ∀ t, p (place t) = false) : standing p place = ∅ := by
  refine Set.eq_empty_iff_forall_notMem.mpr fun t ht => ?_
  cases (h t).symm.trans ht

theorem headcount_eq_zero (h : ∀ t, p (place t) = false) : headcount p place = 0 := by
  rw [headcount, standing_eq_empty h, Set.ncard_empty]

theorem exists_of_headcount_pos (h : 0 < headcount p place) : ∃ t, p (place t) = true :=
  Set.nonempty_of_ncard_ne_zero (Nat.ne_of_gt h)

/-- A finite set counts one of its possible members and the others. -/
theorem ncard_eq_diff_add {A : Set Party} (hfin : A.Finite) (t : Party) {b : Bool}
    (hb : b = true ↔ t ∈ A) : A.ncard = (A \ {t}).ncard + b.toNat := by
  cases b with
  | true => exact (Set.ncard_sdiff_singleton_add_one (hb.mp rfl) hfin).symm
  | false =>
      have ht : t ∉ A := fun hmem => by cases hb.mpr hmem
      rw [Set.sdiff_singleton_eq_self ht]
      rfl

variable [DecidableEq Party]

/-- The other parties stay where they are. -/
theorem standing_update_diff (t : Party) (k : Place) :
    standing p (Function.update place t k) \ {t} = standing p place \ {t} := by
  ext u
  simp only [standing, Set.mem_sdiff, Set.mem_ofPred_eq, Set.mem_singleton_iff]
  refine and_congr_left fun hut => ?_
  rw [Function.update_of_ne hut]

theorem standing_update_finite (hfin : (standing p place).Finite) (t : Party) (k : Place) :
    (standing p (Function.update place t k)).Finite := by
  refine Set.Finite.of_sdiff ?_ (Set.finite_singleton t)
  rw [standing_update_diff]
  exact hfin.sdiff

/-- One party moves. -/
theorem headcount_update (hfin : (standing p place).Finite) (t : Party) (k : Place) :
    headcount p (Function.update place t k) + (p (place t)).toNat =
      headcount p place + (p k).toNat := by
  have hself : p k = true ↔ t ∈ standing p (Function.update place t k) := by
    rw [standing, Set.mem_ofPred_eq, Function.update_self]
  have hafter := ncard_eq_diff_add (standing_update_finite hfin t k) t hself
  have hbefore := ncard_eq_diff_add hfin t (b := p (place t)) Iff.rfl
  rw [standing_update_diff] at hafter
  unfold headcount
  omega

end Base
end Cyan
