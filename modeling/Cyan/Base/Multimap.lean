import Mathlib.Data.List.Sort
import Mathlib.Order.Defs.LinearOrder

/-!
# Ordered multimaps

A multimap is a list of entries in the order of their keys; entries with equal
keys stand in the order in which they came.  The entries of the multimaps of this
development have values that occur once, so an iterator is known by the value it
points to.

* `emplace` puts an entry behind all entries with smaller or equal keys.
* `find`, `erase` and `next` are what one does with an iterator.
* `upTo` and `beyond` are the two parts between which `emplace` puts an entry.
* Around an entry the list splits into the entries passed before it and those
  behind it; the lemmas say what the operations make of the two parts.
-/

namespace Cyan
namespace Base
namespace Multimap

variable {K V : Type*}

/-- The values in the order of their entries. -/
def values (m : List (K × V)) : List V :=
  m.map Prod.snd

/-- `begin()` -/
def first (m : List (K × V)) : Option V :=
  (values m).head?

@[simp] theorem values_nil : values ([] : List (K × V)) = [] := rfl

@[simp] theorem values_cons (e : K × V) (m : List (K × V)) :
    values (e :: m) = e.2 :: values m := rfl

@[simp] theorem values_append (m n : List (K × V)) :
    values (m ++ n) = values m ++ values n :=
  List.map_append

@[simp] theorem first_nil : first ([] : List (K × V)) = none := rfl

@[simp] theorem first_cons (e : K × V) (m : List (K × V)) : first (e :: m) = some e.2 := rfl

section Iterator

variable [DecidableEq V]

/-- The entry that an iterator points to. -/
def find (v : V) (m : List (K × V)) : Option (K × V) :=
  m.find? (·.2 = v)

/-- `erase(it)` -/
def erase (v : V) (m : List (K × V)) : List (K × V) :=
  m.eraseP (·.2 = v)

/-- The iterator behind `it`, and `none` for `end()`. -/
def next (v : V) (m : List (K × V)) : Option V :=
  first (m.dropWhile (·.2 ≠ v)).tail

variable {passed ahead : List (K × V)} {k : K} {v : V}

theorem find_split (h : v ∉ values passed) :
    find v (passed ++ (k, v) :: ahead) = some (k, v) := by
  induction passed with
  | nil => simp [find]
  | cons e passed ih =>
      rw [values_cons, List.mem_cons, not_or] at h
      have hne : e.2 ≠ v := fun heq => h.1 heq.symm
      simpa [find, hne] using ih h.2

theorem erase_split (h : v ∉ values passed) :
    erase v (passed ++ (k, v) :: ahead) = passed ++ ahead := by
  induction passed with
  | nil => simp [erase]
  | cons e passed ih =>
      rw [values_cons, List.mem_cons, not_or] at h
      have hne : e.2 ≠ v := fun heq => h.1 heq.symm
      simpa [erase, hne] using ih h.2

theorem next_split (h : v ∉ values passed) :
    next v (passed ++ (k, v) :: ahead) = first ahead := by
  induction passed with
  | nil => simp [next]
  | cons e passed ih =>
      rw [values_cons, List.mem_cons, not_or] at h
      have hne : e.2 ≠ v := fun heq => h.1 heq.symm
      simpa [next, hne] using ih h.2

/-- A value of the multimap is the value of one of its entries. -/
theorem exists_split {m : List (K × V)} (h : v ∈ values m) :
    ∃ passed k ahead, m = passed ++ (k, v) :: ahead ∧ v ∉ values passed := by
  induction m with
  | nil => cases h
  | cons e m ih =>
      by_cases heq : e.2 = v
      · exact ⟨[], e.1, m, by rw [← heq]; rfl, by simp⟩
      · have hmem : v ∈ values m := by
          rcases List.mem_cons.mp h with hv | hv
          · exact absurd hv.symm heq
          · exact hv
        obtain ⟨passed, k, ahead, rfl, hpassed⟩ := ih hmem
        refine ⟨e :: passed, k, ahead, rfl, ?_⟩
        rw [values_cons, List.mem_cons, not_or]
        exact ⟨fun hv => heq hv.symm, hpassed⟩

/-- Erasing an entry removes its value. -/
theorem perm_erase {m : List (K × V)} (h : v ∈ values m) :
    (values m).Perm (v :: values (erase v m)) := by
  obtain ⟨passed, k, ahead, rfl, hpassed⟩ := exists_split h
  rw [erase_split hpassed, values_append, values_append, values_cons]
  exact List.perm_middle

/-- An entry that is found is one of the entries. -/
theorem perm_of_find {m : List (K × V)} {e : K × V} (h : find v m = some e) :
    e.2 = v ∧ m.Perm (e :: erase v m) := by
  have hvalue : e.2 = v := by simpa using List.find?_some h
  have hmem : v ∈ values m := hvalue ▸ List.mem_map_of_mem (List.mem_of_find?_eq_some h)
  obtain ⟨passed, k, ahead, rfl, hpassed⟩ := exists_split hmem
  rw [find_split hpassed] at h
  cases h
  rw [erase_split hpassed]
  exact ⟨rfl, List.perm_middle⟩

/-- A value that occurs once leads to its entry. -/
theorem find_of_mem {m : List (K × V)} (honce : (values m).Nodup) (h : (k, v) ∈ m) :
    find v m = some (k, v) := by
  obtain ⟨passed, ahead, rfl⟩ := List.append_of_mem h
  rw [values_append, values_cons, List.perm_middle.nodup_iff, List.nodup_cons] at honce
  exact find_split fun hmem => honce.1 (List.mem_append_left _ hmem)

/-- The entry behind stays where it is. -/
theorem mem_erase_of_next {m : List (K × V)} {u : V} (h : v ∈ values m)
    (hu : next v m = some u) : u ∈ values (erase v m) := by
  obtain ⟨passed, k, ahead, rfl, hpassed⟩ := exists_split h
  rw [next_split hpassed] at hu
  rw [erase_split hpassed, values_append]
  exact List.mem_append_right _ (List.mem_of_mem_head? hu)

/-- Erasing an entry leaves the other values. -/
theorem mem_values_erase {m : List (K × V)} {u : V} (hne : u ≠ v) (hu : u ∈ values m) :
    u ∈ values (erase v m) := by
  by_cases hv : v ∈ values m
  · rcases List.mem_cons.mp ((perm_erase hv).subset hu) with heq | hu
    · exact absurd heq hne
    · exact hu
  · rw [erase, List.eraseP_of_forall_not]
    · exact hu
    · intro e he heq
      exact hv (List.mem_map.mpr ⟨e, he, by simpa using heq⟩)

end Iterator

section Order

variable [LinearOrder K] {m : List (K × V)} {k : K} {v : V}

/-- `emplace(key, value)` -/
def emplace (k : K) (v : V) (m : List (K × V)) : List (K × V) :=
  m.orderedInsert (fun a b => a.1 < b.1) (k, v)

/-- The entries stand in the order of their keys. -/
def Sorted (m : List (K × V)) : Prop :=
  m.Pairwise fun a b => a.1 ≤ b.1

theorem perm_emplace (k : K) (v : V) (m : List (K × V)) :
    (emplace k v m).Perm ((k, v) :: m) :=
  List.perm_orderedInsert ..

theorem values_emplace (k : K) (v : V) (m : List (K × V)) :
    (values (emplace k v m)).Perm (v :: values m) :=
  (perm_emplace k v m).map Prod.snd

/-- A new entry stays when another one is erased. -/
theorem values_erase_emplace [DecidableEq V] {u : V} (hv : v ∈ values m) :
    (values (erase v (emplace k u m))).Perm (u :: values (erase v m)) := by
  have hmem : v ∈ values (emplace k u m) :=
    (values_emplace k u m).symm.subset (List.mem_cons_of_mem _ hv)
  refine List.Perm.cons_inv (a := v) ?_
  calc List.Perm (v :: values (erase v (emplace k u m))) (values (emplace k u m)) :=
        (perm_erase hmem).symm
    List.Perm _ (u :: values m) := values_emplace k u m
    List.Perm _ (u :: v :: values (erase v m)) := (perm_erase hv).cons u
    List.Perm _ (v :: u :: values (erase v m)) := .swap ..

/-- The new entry stands behind those with keys up to its own, and in front of the
others. -/
theorem emplace_split (h : Sorted m) :
    ∃ passed ahead, m = passed ++ ahead ∧
      emplace k v m = passed ++ (k, v) :: ahead ∧
      (∀ e ∈ passed, e.1 ≤ k) ∧ ∀ e ∈ ahead, k < e.1 := by
  induction m with
  | nil => exact ⟨[], [], rfl, rfl, by simp, by simp⟩
  | cons f m ih =>
      by_cases hf : k < f.1
      · refine ⟨[], f :: m, rfl, if_pos hf, by simp, fun e he => ?_⟩
        rcases List.mem_cons.mp he with rfl | hrest
        · exact hf
        · exact hf.trans_le (List.rel_of_pairwise_cons h hrest)
      · obtain ⟨passed, ahead, rfl, hemplace, hpassed, hahead⟩ := ih (List.pairwise_cons.mp h).2
        refine ⟨f :: passed, ahead, rfl, ?_, fun e he => ?_, hahead⟩
        · calc emplace k v (f :: (passed ++ ahead))
              = f :: emplace k v (passed ++ ahead) := if_neg hf
            _ = f :: passed ++ (k, v) :: ahead := by rw [hemplace]; rfl
        · rcases List.mem_cons.mp he with rfl | hrest
          · exact not_lt.mp hf
          · exact hpassed e hrest

/-- The entries with keys up to `k`. -/
def upTo (k : K) (m : List (K × V)) : List (K × V) :=
  m.filter (·.1 ≤ k)

/-- The entries with keys behind `k`. -/
def beyond (k : K) (m : List (K × V)) : List (K × V) :=
  m.filter (k < ·.1)

theorem mem_upTo {e : K × V} : e ∈ upTo k m ↔ e ∈ m ∧ e.1 ≤ k := by
  simp [upTo]

theorem mem_beyond {e : K × V} : e ∈ beyond k m ↔ e ∈ m ∧ k < e.1 := by
  simp [beyond]

/-- A list that is cut at `k` is cut into these two parts. -/
theorem upTo_beyond_of_split {passed ahead : List (K × V)}
    (hpassed : ∀ e ∈ passed, e.1 ≤ k) (hahead : ∀ e ∈ ahead, k < e.1) :
    upTo k (passed ++ ahead) = passed ∧ beyond k (passed ++ ahead) = ahead := by
  constructor
  · rw [upTo, List.filter_append, List.filter_eq_self.mpr (by simpa using hpassed),
      List.filter_eq_nil_iff.mpr (by simpa using hahead), List.append_nil]
  · rw [beyond, List.filter_append, List.filter_eq_nil_iff.mpr (by simpa using hpassed),
      List.filter_eq_self.mpr (by simpa using hahead), List.nil_append]

theorem emplace_eq (h : Sorted m) (k : K) (v : V) :
    emplace k v m = upTo k m ++ (k, v) :: beyond k m := by
  obtain ⟨passed, ahead, rfl, hemplace, hpassed, hahead⟩ := emplace_split (k := k) (v := v) h
  obtain ⟨hupTo, hbeyond⟩ := upTo_beyond_of_split hpassed hahead
  rw [hemplace, hupTo, hbeyond]

theorem upTo_append_beyond (h : Sorted m) (k : K) : upTo k m ++ beyond k m = m := by
  induction m with
  | nil => rfl
  | cons e m ih =>
      obtain ⟨hfirst, hrest⟩ := List.pairwise_cons.mp h
      by_cases hk : e.1 ≤ k
      · have hcut : upTo k (e :: m) = e :: upTo k m ∧ beyond k (e :: m) = beyond k m := by
          simp [upTo, beyond, hk]
        rw [hcut.1, hcut.2, List.cons_append, ih hrest]
      · have hbehind : ∀ f ∈ e :: m, k < f.1 := by
          intro f hf
          rcases List.mem_cons.mp hf with rfl | hf
          · exact not_le.mp hk
          · exact (not_le.mp hk).trans_le (hfirst f hf)
        have hcut := upTo_beyond_of_split
          (fun f (hf : f ∈ ([] : List (K × V))) => (nomatch hf)) hbehind
        rw [List.nil_append] at hcut
        rw [hcut.1, hcut.2, List.nil_append]

theorem sorted_emplace (h : Sorted m) : Sorted (emplace k v m) := by
  obtain ⟨passed, ahead, rfl, hemplace, hpassed, hahead⟩ := emplace_split (k := k) (v := v) h
  obtain ⟨hp, ha, hcross⟩ := List.pairwise_append.mp h
  rw [hemplace]
  refine List.pairwise_append.mpr ⟨hp, List.pairwise_cons.mpr ⟨?_, ha⟩, ?_⟩
  · intro e he
    exact (hahead e he).le
  · intro e he f hf
    rcases List.mem_cons.mp hf with rfl | hf
    · exact hpassed e he
    · exact hcross e he f hf

theorem sorted_erase [DecidableEq V] (h : Sorted m) : Sorted (erase v m) :=
  h.sublist List.eraseP_sublist

end Order

end Multimap
end Base
end Cyan
