import Mathlib.Data.List.Nodup
import Mathlib.Data.List.Basic
import Mathlib.Data.UInt

/-!
# Taking turns

A dispenser hands out consecutive numbers, and whoever draws a number is served
when its turn comes.  `drawn` lists who has drawn, newest first, so the turn of
an entry is the number of the entries behind it.

The counters of a program wrap around.  `ofNat_apart` says that comparing wrapped
numbers is still right while fewer than `2 ^ 64` turns are outstanding.
-/

namespace Cyan
namespace Base

variable {I : Type*} {drawn : List I} {i j : I} {n m : Nat}

/-- `i` has drawn number `n`. -/
def Turn (drawn : List I) (i : I) (n : Nat) : Prop :=
  ∃ later earlier, drawn = later ++ i :: earlier ∧ earlier.length = n

namespace Turn

/-- The newest entry has the highest number. -/
theorem newest (drawn : List I) (i : I) : Turn (i :: drawn) i drawn.length :=
  ⟨[], drawn, rfl, rfl⟩

/-- Later entries change no number. -/
theorem cons (h : Turn drawn i n) (j : I) : Turn (j :: drawn) i n := by
  obtain ⟨later, earlier, rfl, hn⟩ := h
  exact ⟨j :: later, earlier, rfl, hn⟩

theorem lt (h : Turn drawn i n) : n < drawn.length := by
  obtain ⟨later, earlier, rfl, hn⟩ := h
  simp only [List.length_append, List.length_cons]
  omega

theorem mem (h : Turn drawn i n) : i ∈ drawn := by
  obtain ⟨later, earlier, rfl, -⟩ := h
  exact List.mem_append_right _ (List.mem_cons_self ..)

/-- Two splits of a list at the same distance from its end are the same. -/
theorem split_unique {later later' earlier earlier' : List I}
    (heq : later ++ i :: earlier = later' ++ j :: earlier')
    (hlength : earlier.length = earlier'.length) : i = j ∧ earlier = earlier' := by
  have htail : (i :: earlier).length = (j :: earlier').length := by
    simp only [List.length_cons, hlength]
  obtain ⟨-, heq⟩ := List.append_inj' heq htail
  cases heq
  exact ⟨rfl, rfl⟩

/-- One number is one entry. -/
theorem item_unique (hi : Turn drawn i n) (hj : Turn drawn j n) : i = j := by
  obtain ⟨later, earlier, heq, hn⟩ := hi
  obtain ⟨later', earlier', heq', hn'⟩ := hj
  exact (split_unique (heq.symm.trans heq') (hn.trans hn'.symm)).1

/-- An entry that has drawn once has one number. -/
theorem number_unique (hnodup : drawn.Nodup) (hn : Turn drawn i n)
    (hm : Turn drawn i m) : n = m := by
  obtain ⟨later, earlier, heq, rfl⟩ := hn
  obtain ⟨later', earlier', heq', rfl⟩ := hm
  rw [heq] at hnodup heq'
  obtain ⟨-, hearlier, hapart⟩ := List.nodup_append.mp hnodup
  have hlater : i ∉ later := fun hmem => hapart i hmem i (List.mem_cons_self ..) rfl
  have hsplit := (List.append_cons_inj_of_notMem hlater
    (List.nodup_cons.mp hearlier).1).mp heq'
  rw [hsplit.2.2]

/-- Every number below the next one has been drawn. -/
theorem exists_of_lt (h : n < drawn.length) : ∃ i, Turn drawn i n := by
  have hk : drawn.length - 1 - n < drawn.length := by omega
  refine ⟨drawn[drawn.length - 1 - n], drawn.take (drawn.length - 1 - n),
    drawn.drop (drawn.length - 1 - n + 1), ?_, ?_⟩
  · rw [List.getElem_cons_drop, List.take_append_drop]
  · rw [List.length_drop]
    omega

/-- The entry whose turn it is follows the entries that have been served. -/
theorem next {served : List I} (hserved : served <:+ drawn)
    (h : Turn drawn i served.length) : ∃ later, drawn = later ++ i :: served := by
  obtain ⟨later, earlier, heq, hlength⟩ := h
  obtain ⟨rest, hrest⟩ := hserved
  refine ⟨later, ?_⟩
  have hsuffix : later ++ [i] ++ earlier = rest ++ served := by
    rw [List.append_assoc, List.singleton_append, ← heq, hrest]
  obtain ⟨-, hearlier⟩ := List.append_inj' hsuffix hlength
  rw [heq, hearlier]

/-- Who has been served had an earlier number. -/
theorem of_served {served : List I} (hserved : served <:+ drawn) (hi : i ∈ served) :
    ∃ n, n < served.length ∧ Turn drawn i n := by
  obtain ⟨later, earlier, rfl⟩ := List.mem_iff_append.mp hi
  obtain ⟨rest, rfl⟩ := hserved
  refine ⟨earlier.length, ?_, rest ++ later, earlier, ?_, rfl⟩
  · rw [List.length_append, List.length_cons]
    omega
  · rw [List.append_assoc]

end Turn

/-- Two numbers less than `2 ^ 64` apart are equal when they are wrapped to the
same one. -/
theorem ofNat_apart (hlow : n < m + 2 ^ 64) (hhigh : m < n + 2 ^ 64)
    (heq : UInt64.ofNat n = UInt64.ofNat m) : n = m := by
  have hmod : n % 2 ^ 64 = m % 2 ^ 64 := by
    have := congrArg UInt64.toNat heq
    simpa only [UInt64.toNat_ofNat'] using this
  omega

/-- A wrapped number between two wrapped counters belongs to a number between the
counters. -/
theorem exists_between {n m : Nat} {k : UInt64} (hle : n ≤ m) (hlt : m < n + 2 ^ 64)
    (hlow : UInt64.ofNat n ≤ k) (hhigh : k < UInt64.ofNat m) :
    ∃ o, n ≤ o ∧ o < m ∧ UInt64.ofNat o = k := by
  rw [UInt64.le_iff_toNat_le, UInt64.toNat_ofNat'] at hlow
  rw [UInt64.lt_iff_toNat_lt, UInt64.toNat_ofNat'] at hhigh
  have hk := k.toNat_lt
  refine ⟨n + (k.toNat - n % 2 ^ 64), by omega, by omega, ?_⟩
  apply UInt64.toNat_inj.mp
  rw [UInt64.toNat_ofNat']
  omega

/-- What an ordered sublist has behind an entry, the list has behind it too. -/
theorem behind_of_sublist {later earlier later' earlier' : List I}
    (hsub : (later ++ i :: earlier).Sublist (later' ++ i :: earlier'))
    (hnodup : (later' ++ i :: earlier').Nodup) : ∀ x ∈ earlier, x ∈ earlier' := by
  induction later' generalizing later with
  | nil =>
      obtain ⟨hnot, -⟩ := List.nodup_cons.mp hnodup
      cases later with
      | nil => exact (List.cons_sublist_cons.mp hsub).subset
      | cons a later =>
          have htail : (later ++ i :: earlier).Sublist earlier' := hsub.tail
          exact absurd (htail.subset (List.mem_append_right _ (List.mem_cons_self ..))) hnot
  | cons b later' ih =>
      obtain ⟨hnot, hnodup⟩ := List.nodup_cons.mp hnodup
      cases later with
      | nil =>
          -- `b` stands before `i`, so it is not `i`
          have hbi : b ≠ i := fun heq =>
            hnot (heq ▸ List.mem_append_right _ (List.mem_cons_self ..))
          cases hsub with
          | cons _ hsub =>
              have hbehind : ([] ++ i :: earlier).Sublist (later' ++ i :: earlier') := hsub
              exact ih hbehind hnodup
          | cons_cons _ _ => exact absurd rfl hbi
      | cons a later => exact ih hsub.tail hnodup

end Base
end Cyan
