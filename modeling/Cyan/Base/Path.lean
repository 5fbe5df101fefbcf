import Mathlib.Logic.Function.Basic
import Mathlib.Data.List.Basic
import Mathlib.Data.List.Nodup
import Mathlib.Logic.Relation

/-!
# Paths through a successor function

A linked structure in memory is a successor function `next : A → Option A`
together with an entry pointer.  `Path next p l q` says that following `next`
from the pointer `p` visits exactly the nodes of `l`, in order, and then stands
at the pointer `q`; a null-terminated list is a path that ends in `none`.

The lemmas are the ones a pointer program needs: paths split and join, they do
not see updates of nodes they do not visit, a null-terminated path is
determined by its entry pointer, and it never visits a node twice.
-/

namespace Cyan
namespace Base

variable {A : Type*}

/-- Following `next` from `p` visits the nodes of `l` and then stands at `q`. -/
def Path (next : A → Option A) : Option A → List A → Option A → Prop
  | p, [], q => p = q
  | p, a :: l, q => p = some a ∧ Path next (next a) l q

/-- One node is reached from another by following `next`. -/
def Reaches (next : A → Option A) : A → A → Prop :=
  Relation.ReflTransGen fun p q => next p = some q

namespace Path

variable {next next' : A → Option A}

@[simp] theorem nil_iff {p q : Option A} : Path next p [] q ↔ p = q := Iff.rfl

@[simp] theorem cons_iff {p q : Option A} {a : A} {l : List A} :
    Path next p (a :: l) q ↔ p = some a ∧ Path next (next a) l q := Iff.rfl

/-- A path splits at every point, and two paths that meet join. -/
theorem append_iff {p q : Option A} {l₁ l₂ : List A} :
    Path next p (l₁ ++ l₂) q ↔ ∃ r, Path next p l₁ r ∧ Path next r l₂ q := by
  induction l₁ generalizing p with
  | nil => simp
  | cons a l₁ ih =>
      simp only [List.cons_append, cons_iff, ih]
      constructor
      · rintro ⟨hp, r, h₁, h₂⟩
        exact ⟨r, ⟨hp, h₁⟩, h₂⟩
      · rintro ⟨r, ⟨hp, h₁⟩, h₂⟩
        exact ⟨hp, r, h₁, h₂⟩

/-- Two successor functions that agree on the visited nodes have the same
path. -/
theorem congr {p q : Option A} {l : List A}
    (hagree : ∀ a ∈ l, next a = next' a) (h : Path next p l q) :
    Path next' p l q := by
  induction l generalizing p with
  | nil => exact h
  | cons a l ih =>
      obtain ⟨hp, hrest⟩ := h
      refine ⟨hp, ih (fun b hb => hagree b (List.mem_cons_of_mem _ hb)) ?_⟩
      rw [← hagree a List.mem_cons_self]
      exact hrest

/-- A write to a node that the path does not visit leaves the path alone. -/
theorem update [DecidableEq A] {p q : Option A} {l : List A} {a : A}
    {v : Option A} (ha : a ∉ l) (h : Path next p l q) :
    Path (Function.update next a v) p l q := by
  refine h.congr fun b hb => ?_
  have hne : b ≠ a := fun heq => ha (heq ▸ hb)
  rw [Function.update_of_ne hne]

/-- No node follows the null pointer. -/
theorem eq_nil_of_none {l : List A} {q : Option A} (h : Path next none l q) :
    l = [] := by
  cases l with
  | nil => rfl
  | cons a l => exact absurd h.1 (by simp)

/-- The nodes of a null-terminated path are determined by its entry. -/
theorem unique {p : Option A} {l₁ l₂ : List A}
    (h₁ : Path next p l₁ none) (h₂ : Path next p l₂ none) : l₁ = l₂ := by
  induction l₁ generalizing p l₂ with
  | nil =>
      rw [nil_iff] at h₁
      subst h₁
      exact h₂.eq_nil_of_none.symm
  | cons a l₁ ih =>
      obtain ⟨rfl, hrest₁⟩ := h₁
      cases l₂ with
      | nil => exact absurd h₂ (by simp)
      | cons b l₂ =>
          obtain ⟨hab, hrest₂⟩ := h₂
          cases hab
          rw [ih hrest₁ hrest₂]

/-- Every visited node begins a path of its own. -/
theorem suffix_of_mem {p q : Option A} {l : List A} {a : A}
    (h : Path next p l q) (ha : a ∈ l) :
    ∃ l₁ l₂, l = l₁ ++ a :: l₂ ∧ Path next (next a) l₂ q := by
  obtain ⟨l₁, l₂, rfl⟩ := List.append_of_mem ha
  obtain ⟨r, -, -, hrest⟩ := append_iff.mp h
  exact ⟨l₁, l₂, rfl, hrest⟩

/-- A null-terminated path is acyclic: it never visits a node twice. -/
theorem nodup {p : Option A} {l : List A} (h : Path next p l none) :
    l.Nodup := by
  induction l generalizing p with
  | nil => exact List.nodup_nil
  | cons a l ih =>
      obtain ⟨hp, hrest⟩ := h
      refine List.nodup_cons.mpr ⟨fun ha => ?_, ih hrest⟩
      -- a second visit of `a` would start a strictly shorter path from `a`
      obtain ⟨l₁, l₂, hl, hagain⟩ := hrest.suffix_of_mem ha
      have heq : l = l₂ := hrest.unique hagain
      have hlen := congrArg List.length hl
      simp [heq] at hlen
      omega

/-- The last node of a null-terminated path is the one without successor. -/
theorem exists_snoc {p : Option A} {l : List A} {a : A}
    (h : Path next p l none) (ha : a ∈ l) (hlast : next a = none) :
    ∃ l₀, l = l₀ ++ [a] := by
  obtain ⟨l₁, l₂, rfl, hrest⟩ := h.suffix_of_mem ha
  rw [hlast] at hrest
  rw [hrest.eq_nil_of_none]
  exact ⟨l₁, rfl⟩

/-- A visited node is either the last one or is followed by a visited node. -/
theorem next_mem {p : Option A} {l : List A} {a b : A}
    (h : Path next p l none) (ha : a ∈ l) (hnext : next a = some b) :
    b ∈ l := by
  obtain ⟨l₁, l₂, rfl, hrest⟩ := h.suffix_of_mem ha
  rw [hnext] at hrest
  cases l₂ with
  | nil => exact absurd hrest (by simp)
  | cons c l₂ =>
      obtain ⟨hbc, -⟩ := hrest
      cases hbc
      simp

/-- Linking a second path behind the last node of a first one joins them. -/
theorem link [DecidableEq A] {p : Option A} {l₀ l' : List A} {a b : A}
    (h : Path next p (l₀ ++ [a]) none) (h' : Path next (some b) l' none)
    (hdisj : a ∉ l') :
    Path (Function.update next a (some b)) p (l₀ ++ [a] ++ l') none := by
  have hnodup := h.nodup
  obtain ⟨r, hbefore, hr, -⟩ := append_iff.mp h
  have ha : a ∉ l₀ := by
    intro hmem
    exact (List.disjoint_of_nodup_append hnodup) hmem (List.mem_singleton_self a)
  rw [List.append_assoc]
  refine append_iff.mpr ⟨r, hbefore.update ha, hr, ?_⟩
  rw [Function.update_self]
  exact h'.update hdisj

/-- Whatever is reached from a visited node is visited. -/
theorem mem_of_reaches {p : Option A} {l : List A} {a b : A}
    (h : Path next p l none) (ha : a ∈ l) (hreach : Reaches next a b) : b ∈ l := by
  induction hreach with
  | refl => exact ha
  | tail _ hnext ih => exact h.next_mem ih hnext

/-- Whatever is visited is reached from the first node. -/
theorem reaches_of_mem {l : List A} {a b : A} (h : Path next (some a) l none) (hb : b ∈ l) :
    Reaches next a b := by
  induction l generalizing a with
  | nil => cases hb
  | cons c l ih =>
      obtain ⟨hac, hrest⟩ := h
      cases hac
      rcases List.mem_cons.mp hb with rfl | hb
      · exact .refl
      · cases hnext : next c with
        | none =>
            rw [hnext] at hrest
            rw [hrest.eq_nil_of_none] at hb
            cases hb
        | some d =>
            rw [hnext] at hrest
            exact .head hnext (ih hrest hb)

/-- Overwriting a node that the path does not visit, and putting it in front. -/
theorem cons_update [DecidableEq A] {p : Option A} {l : List A} {a : A}
    (ha : a ∉ l) (h : Path next p l none) :
    Path (Function.update next a p) (some a) (a :: l) none := by
  refine ⟨rfl, ?_⟩
  rw [Function.update_self]
  exact h.update ha

end Path
end Base
end Cyan
