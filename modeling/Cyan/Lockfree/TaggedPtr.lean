import Mathlib.Logic.Function.Basic
import Mathlib.Data.Option.Basic
import Mathlib.Data.UInt

/-!
# Tagged pointers

`detail::tagged_ptr` pairs a pointer with a `std::size_t` counter so that a
compare-exchange can tell two visits of the same address apart.  The counter is
a machine word: `getNextTag` wraps after `2 ^ 64` increments, so a tag tells
the number of increments behind it only below that bound (`ofNat_tag_inj`).
-/

namespace Cyan
namespace Lockfree

/-- `detail::tagged_ptr<T>`: `ptr = none` is the null pointer. -/
structure TaggedPtr (P : Type*) where
  ptr : Option P
  tag : UInt64
  deriving DecidableEq, Repr

namespace TaggedPtr

variable {P : Type*}

/-- `tagged_ptr::get_next_tag`: `(tag_ + 1) & max`, that is, modulo `2 ^ 64`. -/
def getNextTag (p : TaggedPtr P) : UInt64 :=
  (p.tag + 1) &&& 0xFFFFFFFFFFFFFFFF

/-- The mask keeps all 64 bits, so only the wrap of the addition remains. -/
@[simp] theorem getNextTag_eq (p : TaggedPtr P) : p.getNextTag = p.tag + 1 := by
  unfold getNextTag
  exact UInt64.and_neg_one

end TaggedPtr

/-- Below the wrap, the tag determines the number of increments behind it. -/
theorem ofNat_tag_inj {m n : Nat} (hm : m < 2 ^ 64) (hn : n < 2 ^ 64)
    (h : UInt64.ofNat m = UInt64.ofNat n) : m = n := by
  have hnat := congrArg UInt64.toNat h
  rwa [UInt64.toNat_ofNat_of_lt' hm, UInt64.toNat_ofNat_of_lt' hn] at hnat

/-- One more increment is one more on the counter, wrap included. -/
theorem ofNat_tag_succ (n : Nat) :
    UInt64.ofNat n + 1 = UInt64.ofNat (n + 1) := by
  rw [UInt64.ofNat_add]
  rfl

end Lockfree
end Cyan
