import Mathlib.Data.List.Basic
import Mathlib.Data.List.Nodup

/-!
# Things and the places they are in

A system often hands things around: an item sits in one list, moves to another,
and is gone in the end.  `held : Place → List Item` says what is where, and the
relations of this file say what one step changes: an item comes (`Come`), goes
(`Gone`), moves (`Went`) or is replaced by a newer version (`Became`).

`Sole key held` says that every key is in one place only and there only once.
Each of the changes keeps it.
-/

namespace Cyan
namespace Base

variable {Place Item Key : Type*}

/-- `x` comes to `p`. -/
structure Come (held held' : Place → List Item) (p : Place) (x : Item) : Prop where
  target : (held' p).Perm (x :: held p)
  others : ∀ r, r ≠ p → held' r = held r

/-- `x` is gone from `p`. -/
structure Gone (held held' : Place → List Item) (p : Place) (x : Item) : Prop where
  source : (held p).Perm (x :: held' p)
  others : ∀ r, r ≠ p → held' r = held r

/-- `x` goes from `p` to `q`. -/
structure Went (held held' : Place → List Item) (p q : Place) (x : Item) : Prop where
  apart : p ≠ q
  source : (held p).Perm (x :: held' p)
  target : (held' q).Perm (x :: held q)
  others : ∀ r, r ≠ p → r ≠ q → held' r = held r

/-- The only item `x` of `p` becomes `y`. -/
structure Became (held held' : Place → List Item) (p : Place) (x y : Item) : Prop where
  before : held p = [x]
  after : held' p = [y]
  others : ∀ r, r ≠ p → held' r = held r

variable {held held' : Place → List Item} {p q r : Place} {x y z : Item}

namespace Come

theorem mem_target (h : Come held held' p x) : x ∈ held' p :=
  h.target.mem_iff.mpr (List.mem_cons_self ..)

/-- What is there now came or was there before. -/
theorem mem_before_or_eq (h : Come held held' p x) (hz : z ∈ held' r) :
    z ∈ held r ∨ (r = p ∧ z = x) := by
  by_cases hr : r = p
  · subst hr
    rcases List.mem_cons.mp (h.target.mem_iff.mp hz) with rfl | hold
    · exact .inr ⟨rfl, rfl⟩
    · exact .inl hold
  · exact .inl (h.others r hr ▸ hz)

theorem mem_after (h : Come held held' p x) (hz : z ∈ held r) : z ∈ held' r := by
  by_cases hr : r = p
  · subst hr
    exact h.target.mem_iff.mpr (List.mem_cons_of_mem _ hz)
  · exact (h.others r hr).symm ▸ hz

/-- An empty place takes one item. -/
theorem of_update [DecidableEq Place] (h : held p = []) (x : Item) :
    Come held (Function.update held p [x]) p x where
  target := by
    rw [Function.update_self, h]
  others _ hr := Function.update_of_ne hr _ _

end Come

namespace Gone

/-- A place gives up its only item. -/
theorem of_update [DecidableEq Place] (h : held p = [x]) :
    Gone held (Function.update held p []) p x where
  source := by
    rw [Function.update_self, h]
  others _ hr := Function.update_of_ne hr _ _

theorem mem_source (h : Gone held held' p x) : x ∈ held p :=
  h.source.mem_iff.mpr (List.mem_cons_self ..)

theorem mem_before (h : Gone held held' p x) (hz : z ∈ held' r) : z ∈ held r := by
  by_cases hr : r = p
  · subst hr
    exact h.source.mem_iff.mpr (List.mem_cons_of_mem _ hz)
  · exact h.others r hr ▸ hz

/-- What was there is gone or still there. -/
theorem mem_after_or_eq (h : Gone held held' p x) (hz : z ∈ held r) :
    z ∈ held' r ∨ (r = p ∧ z = x) := by
  by_cases hr : r = p
  · subst hr
    rcases List.mem_cons.mp (h.source.mem_iff.mp hz) with rfl | hstays
    · exact .inr ⟨rfl, rfl⟩
    · exact .inl hstays
  · exact .inl ((h.others r hr).symm ▸ hz)

end Gone

namespace Went

/-- The only item of a place goes to an empty one. -/
theorem of_update [DecidableEq Place] (hp : held p = [x]) (hq : held q = []) :
    Went held (Function.update (Function.update held p []) q [x]) p q x := by
  have hpq : p ≠ q := by
    rintro rfl
    rw [hp] at hq
    cases hq
  refine ⟨hpq, ?_, ?_, fun r hrp hrq => ?_⟩
  · rw [Function.update_of_ne hpq, Function.update_self, hp]
  · rw [Function.update_self, hq]
  · rw [Function.update_of_ne hrq, Function.update_of_ne hrp]

/-- Between leaving and arriving the item is nowhere. -/
theorem exists_between [DecidableEq Place] (h : Went held held' p q x) :
    ∃ between, Gone held between p x ∧ Come between held' q x := by
  refine ⟨Function.update held p (held' p), ⟨?_, fun r hr => ?_⟩, ⟨?_, fun r hr => ?_⟩⟩
  · rw [Function.update_self]
    exact h.source
  · exact Function.update_of_ne hr _ _
  · rw [Function.update_of_ne h.apart.symm]
    exact h.target
  · by_cases hrp : r = p
    · subst hrp
      rw [Function.update_self]
    · rw [Function.update_of_ne hrp]
      exact h.others r hrp hr

theorem mem_source (h : Went held held' p q x) : x ∈ held p :=
  h.source.mem_iff.mpr (List.mem_cons_self ..)

theorem mem_target (h : Went held held' p q x) : x ∈ held' q :=
  h.target.mem_iff.mpr (List.mem_cons_self ..)

/-- What is there now arrived or was there before. -/
theorem mem_before_or_eq (h : Went held held' p q x) (hz : z ∈ held' r) :
    z ∈ held r ∨ (r = q ∧ z = x) := by
  classical
  obtain ⟨between, hgone, hcome⟩ := h.exists_between
  exact (hcome.mem_before_or_eq hz).imp_left hgone.mem_before

/-- What was there left or is still there. -/
theorem mem_after_or_eq (h : Went held held' p q x) (hz : z ∈ held r) :
    z ∈ held' r ∨ (r = p ∧ z = x) := by
  classical
  obtain ⟨between, hgone, hcome⟩ := h.exists_between
  exact (hgone.mem_after_or_eq hz).imp_left hcome.mem_after

end Went

/-- Every key is in one place only, and there only once. -/
structure Sole (key : Item → Key) (held : Place → List Item) : Prop where
  nodup : ∀ p, ((held p).map key).Nodup
  sole : ∀ p q x y, x ∈ held p → y ∈ held q → key x = key y → p = q

namespace Sole

variable {key : Item → Key}

/-- The same key is the same item at the same place. -/
theorem eq_of_key_eq (h : Sole key held) (hx : x ∈ held p) (hy : y ∈ held q)
    (hkey : key x = key y) : p = q ∧ x = y := by
  have hpq := h.sole p q x y hx hy hkey
  subst hpq
  exact ⟨rfl, List.inj_on_of_nodup_map (h.nodup p) hx hy hkey⟩

theorem of_gone (h : Sole key held) (hgone : Gone held held' p x) : Sole key held' where
  nodup r := by
    by_cases hr : r = p
    · subst hr
      exact (List.nodup_cons.mp ((hgone.source.map key).nodup_iff.mp (h.nodup r))).2
    · rw [hgone.others r hr]
      exact h.nodup r
  sole r r' y z hy hz hkey := h.sole r r' y z (hgone.mem_before hy) (hgone.mem_before hz) hkey

/-- What is gone leaves no key behind. -/
theorem key_ne_of_gone (h : Sole key held) (hgone : Gone held held' p x) (hz : z ∈ held' r) :
    key z ≠ key x := by
  intro hkey
  obtain ⟨rfl, rfl⟩ := h.eq_of_key_eq (hgone.mem_before hz) hgone.mem_source hkey
  have hnodup := (hgone.source.map key).nodup_iff.mp (h.nodup r)
  exact (List.nodup_cons.mp hnodup).1 (List.mem_map_of_mem hz)

theorem of_come (h : Sole key held) (hcome : Come held held' p x)
    (hfresh : ∀ r, ∀ z ∈ held r, key z ≠ key x) : Sole key held' where
  nodup r := by
    by_cases hr : r = p
    · subst hr
      refine (hcome.target.map key).nodup_iff.mpr (List.nodup_cons.mpr ⟨?_, h.nodup r⟩)
      intro hmem
      obtain ⟨z, hz, hkey⟩ := List.mem_map.mp hmem
      exact hfresh r z hz hkey
    · rw [hcome.others r hr]
      exact h.nodup r
  sole r r' y z hy hz hkey := by
    rcases hcome.mem_before_or_eq hy with hy | ⟨rfl, rfl⟩
    · rcases hcome.mem_before_or_eq hz with hz | ⟨rfl, rfl⟩
      · exact h.sole r r' y z hy hz hkey
      · exact absurd hkey (hfresh r y hy)
    · rcases hcome.mem_before_or_eq hz with hz | ⟨rfl, -⟩
      · exact absurd hkey.symm (hfresh r' z hz)
      · rfl

theorem of_went (h : Sole key held) (hwent : Went held held' p q x) : Sole key held' := by
  classical
  obtain ⟨between, hgone, hcome⟩ := hwent.exists_between
  exact (h.of_gone hgone).of_come hcome fun r z hz => h.key_ne_of_gone hgone hz

theorem of_became (h : Sole key held) (hbecame : Became held held' p x y)
    (hkey : key y = key x) : Sole key held' := by
  have hwas : ∀ r z, z ∈ held' r → ∃ z' ∈ held r, key z' = key z := by
    intro r z hz
    by_cases hr : r = p
    · subst hr
      rw [hbecame.after, List.mem_singleton] at hz
      refine ⟨x, hbecame.before ▸ List.mem_singleton_self x, ?_⟩
      rw [hz, hkey]
    · exact ⟨z, hbecame.others r hr ▸ hz, rfl⟩
  refine ⟨fun r => ?_, fun r r' z w hz hw hzw => ?_⟩
  · by_cases hr : r = p
    · subst hr
      rw [hbecame.after]
      exact List.nodup_singleton _
    · rw [hbecame.others r hr]
      exact h.nodup r
  · obtain ⟨z', hz', hzkey⟩ := hwas r z hz
    obtain ⟨w', hw', hwkey⟩ := hwas r' w hw
    exact h.sole r r' z' w' hz' hw' (by rw [hzkey, hwkey, hzw])

end Sole
end Base
end Cyan
