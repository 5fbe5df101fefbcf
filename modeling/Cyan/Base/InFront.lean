import Mathlib.Data.List.Nodup

/-!
# Who stands in front of whom

`InFront l a b` says that `a` stands somewhere in front of `b` in the list `l`.  In a
list without duplicates this is a strict total order of the elements (`total`,
`asymm`).  Elements that leave the list and elements that join it change nothing for
the others, so the relation holds as long as both stay (`stay`).
-/

namespace Cyan
namespace Base

variable {α β : Type*}

/-- `a` stands in front of `b`. -/
def InFront (l : List α) (a b : α) : Prop :=
  [a, b].Sublist l

namespace InFront

variable {l l' : List α} {a b x : α}

theorem mem_left (h : InFront l a b) : a ∈ l :=
  h.subset List.mem_cons_self

theorem mem_right (h : InFront l a b) : b ∈ l :=
  h.subset (List.mem_cons_of_mem _ List.mem_cons_self)

theorem of_sublist (h : InFront l a b) (hsub : l.Sublist l') : InFront l' a b :=
  h.trans hsub

theorem map (h : InFront l a b) (f : α → β) : InFront (l.map f) (f a) (f b) :=
  List.Sublist.map f h

theorem reverse (h : InFront l a b) : InFront l.reverse b a :=
  List.Sublist.reverse h

theorem filter {p : α → Bool} (h : InFront l a b) (ha : p a = true) (hb : p b = true) :
    InFront (l.filter p) a b := by
  have hsub : ([a, b].filter p).Sublist (l.filter p) := List.Sublist.filter p h
  rwa [List.filter_cons_of_pos ha, List.filter_cons_of_pos hb, List.filter_nil] at hsub

/-- One half of a list stands in front of the other. -/
theorem append (ha : a ∈ l) (hb : b ∈ l') : InFront (l ++ l') a b :=
  List.Sublist.append (List.singleton_sublist.mpr ha) (List.singleton_sublist.mpr hb)

/-- Of two elements one stands in front of the other. -/
theorem total (ha : a ∈ l) (hb : b ∈ l) (hne : a ≠ b) : InFront l a b ∨ InFront l b a := by
  obtain ⟨l₁, l₂, rfl⟩ := List.append_of_mem ha
  rcases List.mem_append.mp hb with hb | hb
  · exact .inr (append hb List.mem_cons_self)
  · have hb' := (List.mem_cons.mp hb).resolve_left hne.symm
    exact .inl (List.Sublist.trans ((List.singleton_sublist.mpr hb').cons_cons a)
      (List.sublist_append_right l₁ (a :: l₂)))

theorem asymm (h : InFront l a b) (hnodup : l.Nodup) : ¬InFront l b a := by
  intro h'
  induction l with
  | nil => exact absurd h.mem_left List.not_mem_nil
  | cons x l ih =>
      obtain ⟨hx, hnodup⟩ := List.nodup_cons.mp hnodup
      rcases List.cons_sublist_cons'.mp h with hrest | ⟨rfl, hb⟩
      · rcases List.cons_sublist_cons'.mp h' with hrest' | ⟨rfl, -⟩
        · exact ih hrest hnodup hrest'
        · exact hx (mem_right hrest)
      · rcases List.cons_sublist_cons'.mp h' with hrest' | ⟨rfl, -⟩
        · exact hx (mem_right hrest')
        · exact hx (List.singleton_sublist.mp hb)

/-- Nobody overtakes anybody by others leaving. -/
theorem stay (h : InFront l a b) (hnodup : l.Nodup) (hsub : l'.Sublist l) (ha : a ∈ l')
    (hb : b ∈ l') : InFront l' a b := by
  have hne : a ≠ b := by
    rintro rfl
    exact h.asymm hnodup h
  refine (total ha hb hne).resolve_right fun h' => ?_
  exact h.asymm hnodup (h'.of_sublist hsub)

/-- The last element stands in front of nobody. -/
theorem ne_last (h : InFront (l ++ [x]) a b) (hnodup : (l ++ [x]).Nodup) : a ≠ x := by
  rintro rfl
  rcases List.mem_append.mp h.mem_right with hb | hb
  · exact h.asymm hnodup (append hb (List.mem_singleton_self a))
  · rw [List.mem_singleton.mp hb] at h
    exact h.asymm hnodup h

/-- A sorted list has the lesser of two elements in front. -/
theorem of_pairwise {R : α → α → Prop} (hsorted : l.Pairwise R) (ha : a ∈ l) (hb : b ∈ l)
    (hne : a ≠ b) (hnot : ¬R b a) : InFront l a b :=
  (total ha hb hne).resolve_right fun h =>
    hnot (List.pairwise_iff_forall_sublist.mp hsorted h)

end InFront
end Base
end Cyan
