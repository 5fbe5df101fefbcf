import Cyan.Base.Path
import Mathlib.Data.Set.Insert

/-!
# What a set of entry pointers reaches

A memory of nodes with one link each is a function `next : A → Option A`.  A
program reaches the nodes that it can get to from its entry pointers along the
links; every other node is garbage to it.

A set that contains the entries and is closed under the links contains whatever
is reached, so the rules are about closed sets: a write keeps a set closed when
the written link stays inside it, and a node whose link leads into a closed set
may join it.
-/

namespace Cyan
namespace Base

variable {A : Type*}

/-- The nodes that `entries` reach along the links. -/
def Reached (next : A → Option A) (entries : Set A) : Set A :=
  {n | ∃ m ∈ entries, Reaches next m n}

/-- No link leads out of the set. -/
def Closed (next : A → Option A) (X : Set A) : Prop :=
  ∀ n ∈ X, ∀ m, next n = some m → m ∈ X

namespace Reached

variable {next : A → Option A} {entries X : Set A}

theorem entry {n : A} (hn : n ∈ entries) : n ∈ Reached next entries :=
  ⟨n, hn, .refl⟩

theorem closed (next : A → Option A) (entries : Set A) :
    Closed next (Reached next entries) := by
  rintro n ⟨m, hm, hreach⟩ q hq
  exact ⟨m, hm, hreach.tail hq⟩

/-- The nodes reached are the least closed set around the entries. -/
theorem subset_of_closed (hclosed : Closed next X) (hentries : entries ⊆ X) :
    Reached next entries ⊆ X := by
  rintro n ⟨m, hm, hreach⟩
  induction hreach with
  | refl => exact hentries hm
  | tail _ hnext ih => exact hclosed _ ih _ hnext

end Reached

namespace Closed

variable {next : A → Option A} {X : Set A}

/-- A write of a link that stays inside. -/
theorem update [DecidableEq A] (h : Closed next X) {a : A} {link : Option A}
    (hlink : ∀ m, link = some m → m ∈ X) : Closed (Function.update next a link) X := by
  intro n hn m hm
  rw [Function.update_apply] at hm
  split at hm
  · exact hlink m hm
  · exact h n hn m hm

/-- A write to a node outside. -/
theorem update_of_notMem [DecidableEq A] (h : Closed next X) {a : A}
    (link : Option A) (ha : a ∉ X) : Closed (Function.update next a link) X := by
  intro n hn m hm
  have hne : n ≠ a := by
    rintro rfl
    exact ha hn
  rw [Function.update_of_ne hne] at hm
  exact h n hn m hm

/-- A node whose link leads inside joins. -/
theorem insert (h : Closed next X) {a : A} (ha : ∀ m, next a = some m → m ∈ X) :
    Closed next (Insert.insert a X) := by
  rintro n (rfl | hn) m hm
  · exact Or.inr (ha m hm)
  · exact Or.inr (h n hn m hm)

end Closed

end Base
end Cyan
