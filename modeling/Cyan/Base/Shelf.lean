import Mathlib.Data.Set.Insert

/-!
# Shelves

A shelf is an array of entries, each with an owner, and every owner keeps the
position of its entry; position `0` is for those that have none.

* `place` puts an entry into a position and tells its owner; `write` tells nobody.
* `Filed here out` says that the positions of `here` and the owners that are not
  in `out` know each other.
* An entry is taken out (`Filed.take`), put back (`Filed.put`) or moved
  (`Filed.move`), and its owner leaves (`Filed.leave`).
* `lookup` is what an owner finds; only the owner of the entry that is placed
  finds something else afterwards (`Filed.lookup_place`).
-/

namespace Cyan
namespace Base

/-- Entries, and where their owners find them. -/
structure Shelf (W E : Type*) where
  entry : Nat → E
  index : W → Nat

namespace Shelf

variable {W E : Type*} [DecidableEq W] (owner : E → W)

/-- Write `e` into position `k` without telling anybody. -/
def write (s : Shelf W E) (k : Nat) (e : E) : Shelf W E :=
  { s with entry := Function.update s.entry k e }

/-- Put `e` into position `k`. -/
def place (s : Shelf W E) (k : Nat) (e : E) : Shelf W E where
  entry := Function.update s.entry k e
  index := Function.update s.index (owner e) k

/-- `w` has no entry any more. -/
def leave (s : Shelf W E) (w : W) : Shelf W E :=
  { s with index := Function.update s.index w 0 }

/-- What `w` has on the shelf. -/
def lookup (s : Shelf W E) (w : W) : Option E :=
  if s.index w = 0 then none else some (s.entry (s.index w))

/-- The positions of `here` and the owners outside of `out` know each other. -/
structure Filed (s : Shelf W E) (here : Set Nat) (out : Set W) : Prop where
  zero : 0 ∉ here
  index : ∀ k ∈ here, s.index (owner (s.entry k)) = k ∧ owner (s.entry k) ∉ out
  found : ∀ w ∉ out, s.index w ≠ 0 → s.index w ∈ here ∧ owner (s.entry (s.index w)) = w

variable {owner} {s : Shelf W E} {here : Set Nat} {out : Set W} {k p : Nat} {e : E} {w : W}

section

omit [DecidableEq W]

@[simp] theorem write_entry_self : (s.write k e).entry k = e :=
  Function.update_self ..

theorem write_entry_of_ne (h : p ≠ k) : (s.write k e).entry p = s.entry p :=
  Function.update_of_ne h ..

end

@[simp] theorem place_entry_self : (s.place owner k e).entry k = e :=
  Function.update_self ..

theorem place_entry_of_ne (h : p ≠ k) : (s.place owner k e).entry p = s.entry p :=
  Function.update_of_ne h ..

@[simp] theorem place_index_self : (s.place owner k e).index (owner e) = k :=
  Function.update_self ..

theorem place_index_of_ne (h : w ≠ owner e) : (s.place owner k e).index w = s.index w :=
  Function.update_of_ne h ..

@[simp] theorem leave_index_self : (s.leave w).index w = 0 :=
  Function.update_self ..

theorem leave_index_of_ne {v : W} (h : v ≠ w) : (s.leave w).index v = s.index v :=
  Function.update_of_ne h ..

section

omit [DecidableEq W]

theorem lookup_of_index (h : s.index w ≠ 0) : s.lookup w = some (s.entry (s.index w)) :=
  if_neg h

theorem lookup_eq_none_iff : s.lookup w = none ↔ s.index w = 0 := by
  unfold lookup
  split <;> simp_all

end

@[simp] theorem lookup_leave_self : (s.leave w).lookup w = none :=
  lookup_eq_none_iff.mpr leave_index_self

theorem lookup_leave_of_ne {v : W} (h : v ≠ w) : (s.leave w).lookup v = s.lookup v := by
  unfold lookup
  rw [leave_index_of_ne h]
  rfl

namespace Filed

section

omit [DecidableEq W]

theorem ne_zero (h : s.Filed owner here out) (hk : k ∈ here) : k ≠ 0 :=
  fun heq => h.zero (heq ▸ hk)

/-- The owner of an entry of the shelf finds it. -/
theorem lookup_owner (h : s.Filed owner here out) (hk : k ∈ here) :
    s.lookup (owner (s.entry k)) = some (s.entry k) := by
  have hindex := (h.index k hk).1
  rw [lookup_of_index (by rw [hindex]; exact h.ne_zero hk), hindex]

/-- What an owner finds is its own and on the shelf. -/
theorem of_lookup (h : s.Filed owner here out) (hw : w ∉ out) (he : s.lookup w = some e) :
    s.index w ∈ here ∧ s.entry (s.index w) = e ∧ owner e = w := by
  have hindex : s.index w ≠ 0 := by
    intro hzero
    rw [lookup_eq_none_iff.mpr hzero] at he
    cases he
  rw [lookup_of_index hindex] at he
  obtain ⟨hhere, howner⟩ := h.found w hw hindex
  cases he
  exact ⟨hhere, rfl, howner⟩

/-- Different positions have different owners. -/
theorem position_inj (h : s.Filed owner here out) (hk : k ∈ here) (hp : p ∈ here)
    (heq : owner (s.entry k) = owner (s.entry p)) : k = p := by
  rw [← (h.index k hk).1, heq, (h.index p hp).1]

/-- Take the entry of `k` out. -/
theorem take (h : s.Filed owner here out) (hk : k ∈ here) :
    s.Filed owner (here \ {k}) (insert (owner (s.entry k)) out) where
  zero hzero := h.zero hzero.1
  index p hp := by
    obtain ⟨hindex, hout⟩ := h.index p hp.1
    refine ⟨hindex, fun hmem => hp.2 ?_⟩
    rcases hmem with heq | hmem
    · exact h.position_inj hp.1 hk heq
    · exact absurd hmem hout
  found v hv hindex := by
    obtain ⟨hhere, howner⟩ := h.found v (fun hmem => hv (.inr hmem)) hindex
    refine ⟨⟨hhere, fun heq => hv (.inl ?_)⟩, howner⟩
    rw [← howner, Set.mem_singleton_iff.mp heq]

/-- An owner without an entry is out. -/
theorem absent (h : s.Filed owner here out) (hw : s.index w = 0) :
    s.Filed owner here (insert w out) where
  zero := h.zero
  index p hp := by
    obtain ⟨hindex, hout⟩ := h.index p hp
    refine ⟨hindex, ?_⟩
    rintro (heq | hmem)
    · rw [heq, hw] at hindex
      exact h.ne_zero hp hindex.symm
    · exact hout hmem
  found v hv hindex := h.found v (fun hmem => hv (.inr hmem)) hindex

end

/-- Put an entry into a free position. -/
theorem put (h : s.Filed owner here (insert (owner e) out)) (hout : owner e ∉ out)
    (hk : k ∉ here) (hzero : k ≠ 0) :
    (s.place owner k e).Filed owner (insert k here) out where
  zero := by
    rintro (hk | hmem)
    · exact hzero hk.symm
    · exact h.zero hmem
  index p hp := by
    rcases hp with rfl | hp
    · rw [place_entry_self, place_index_self]
      exact ⟨rfl, hout⟩
    · have hne : p ≠ k := fun heq => hk (heq ▸ hp)
      obtain ⟨hindex, hmem⟩ := h.index p hp
      rw [place_entry_of_ne hne, place_index_of_ne fun heq => hmem (.inl heq)]
      exact ⟨hindex, fun hmem' => hmem (.inr hmem')⟩
  found v hv hindex := by
    by_cases hve : v = owner e
    · subst hve
      rw [place_index_self, place_entry_self]
      exact ⟨.inl rfl, rfl⟩
    · rw [place_index_of_ne hve] at hindex ⊢
      have hmem : v ∉ insert (owner e) out := by
        rintro (heq | hmem)
        · exact hve heq
        · exact hv hmem
      obtain ⟨hhere, howner⟩ := h.found v hmem hindex
      have hne : s.index v ≠ k := fun heq => hk (heq ▸ hhere)
      rw [place_entry_of_ne hne]
      exact ⟨.inr hhere, howner⟩

/-- Move an entry into a free position. -/
theorem move (h : s.Filed owner here out) (hp : p ∈ here) (hk : k ∉ here) (hzero : k ≠ 0) :
    (s.place owner k (s.entry p)).Filed owner (insert k (here \ {p})) out :=
  (h.take hp).put (h.index p hp).2 (fun hmem => hk hmem.1) hzero

/-- An owner that is out leaves. -/
theorem leave (h : s.Filed owner here (insert w out)) : (s.leave w).Filed owner here out where
  zero := h.zero
  index p hp := by
    obtain ⟨hindex, hmem⟩ := h.index p hp
    refine ⟨?_, fun hmem' => hmem (.inr hmem')⟩
    exact (leave_index_of_ne fun heq => hmem (.inl heq)).trans hindex
  found v hv hindex := by
    have hvw : v ≠ w := fun heq => hindex (heq ▸ leave_index_self)
    rw [leave_index_of_ne hvw] at hindex ⊢
    have hmem : v ∉ insert w out := by
      rintro (heq | hmem)
      · exact hvw heq
      · exact hv hmem
    exact h.found v hmem hindex

section

omit [DecidableEq W]

/-- A free position can be written to. -/
theorem write (h : s.Filed owner here out) (hk : k ∉ here) (e : E) :
    (s.write k e).Filed owner here out where
  zero := h.zero
  index p hp := by
    have hne : p ≠ k := fun heq => hk (heq ▸ hp)
    rw [write_entry_of_ne hne]
    exact h.index p hp
  found v hv hindex := by
    obtain ⟨hhere, howner⟩ := h.found v hv hindex
    have hne : s.index v ≠ k := fun heq => hk (heq ▸ hhere)
    refine ⟨hhere, ?_⟩
    change owner ((s.write k e).entry (s.index v)) = v
    rw [write_entry_of_ne hne]
    exact howner

/-- Nobody notices that a free position is written to. -/
theorem lookup_write {v : W} (h : s.Filed owner here out) (hk : k ∉ here) (hv : v ∉ out) :
    (s.write k e).lookup v = s.lookup v := by
  unfold lookup
  change (if s.index v = 0 then none else some ((s.write k e).entry (s.index v))) = _
  split
  · rfl
  · rename_i hindex
    have hhere := (h.found v hv hindex).1
    have hne : s.index v ≠ k := fun heq => hk (heq ▸ hhere)
    rw [write_entry_of_ne hne]

end

/-- Nobody else notices that an entry is put into a free position. -/
theorem lookup_place {v : W} (h : s.Filed owner here out) (hk : k ∉ here) (hv : v ∉ out)
    (hne : v ≠ owner e) : (s.place owner k e).lookup v = s.lookup v := by
  unfold lookup
  rw [place_index_of_ne hne]
  split
  · rfl
  · rename_i hindex
    have hhere := (h.found v hv hindex).1
    have hne : s.index v ≠ k := fun heq => hk (heq ▸ hhere)
    rw [place_entry_of_ne hne]

/-- The owner of the entry finds it. -/
theorem lookup_place_self (hzero : k ≠ 0) : (s.place owner k e).lookup (owner e) = some e := by
  rw [lookup_of_index (by rwa [place_index_self]), place_index_self, place_entry_self]

/-- Moving an entry changes nothing that anybody finds. -/
theorem lookup_move {v : W} (h : s.Filed owner here out) (hp : p ∈ here) (hk : k ∉ here)
    (hzero : k ≠ 0) (hv : v ∉ out) :
    (s.place owner k (s.entry p)).lookup v = s.lookup v := by
  by_cases hvp : v = owner (s.entry p)
  · subst hvp
    rw [lookup_place_self hzero, h.lookup_owner hp]
  · exact h.lookup_place hk hv hvp

end Filed
end Shelf
end Base
end Cyan
