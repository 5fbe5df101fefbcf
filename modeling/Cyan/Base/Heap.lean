import Mathlib.Logic.Function.Basic
import Mathlib.Order.Lattice
import Mathlib.Tactic.Common

/-!
# Heaps with a hole

A heap lies on the positions from `root` on, and every later position has a
parent in front of it (`Layout`).  The keys are `Ordered` up to `stop` when no
key is smaller than the key of its parent.

The loops that restore the order take one entry out and move the hole that it
leaves.  `Hole` is what they keep: all pairs off the hole are in order, and so
are the neighbours of the hole, across it.

* `Hole.up` and `Hole.down` move the hole by one step.
* `Hole.fill` puts the entry back where it fits.
* `Ordered.root_le` is what the order is good for.
-/

namespace Cyan
namespace Base
namespace Heap

/-- Where the parents are. -/
structure Layout where
  root : Nat
  parent : Nat → Nat
  le_parent : ∀ {k}, root < k → root ≤ parent k
  parent_lt : ∀ {k}, root < k → parent k < k

variable {α : Type*} [LinearOrder α] (L : Layout) (stop : Nat)

/-- No key is smaller than the key of its parent. -/
def Ordered (key : Nat → α) : Prop :=
  ∀ k, L.root < k → k < stop → key (L.parent k) ≤ key k

/-- The order around a hole. -/
structure Hole (key : Nat → α) (hole : Nat) : Prop where
  /-- the pairs off the hole are in order -/
  off : ∀ k, L.root < k → k < stop → k ≠ hole → L.parent k ≠ hole →
    key (L.parent k) ≤ key k
  /-- the children of the hole are not smaller than its parent -/
  across : L.root < hole → ∀ k, L.root < k → k < stop → L.parent k = hole →
    key (L.parent hole) ≤ key k

variable {L stop} {key key' : Nat → α} {hole c : Nat} {x : α}

/-- Only the positions of the heap matter. -/
theorem Ordered.congr (h : Ordered L stop key)
    (heq : ∀ k, L.root ≤ k → k < stop → key' k = key k) : Ordered L stop key' := by
  intro k hroot hstop
  have hparent := L.parent_lt hroot
  rw [heq k (Nat.le_of_lt hroot) hstop,
    heq _ (L.le_parent hroot) (Nat.lt_trans hparent hstop)]
  exact h k hroot hstop

/-- A shorter heap is in order. -/
theorem Ordered.mono {stop' : Nat} (h : Ordered L stop key) (hle : stop' ≤ stop) :
    Ordered L stop' key :=
  fun k hroot hstop => h k hroot (Nat.lt_of_lt_of_le hstop hle)

/-- The smallest key is at the root. -/
theorem Ordered.root_le (h : Ordered L stop key) {k : Nat} (hroot : L.root ≤ k)
    (hstop : k < stop) : key L.root ≤ key k := by
  induction k using Nat.strongRecOn with
  | ind k ih =>
      rcases Nat.eq_or_lt_of_le hroot with heq | hlt
      · rw [heq]
      · have hparent := L.parent_lt hlt
        have hup := ih (L.parent k) hparent (L.le_parent hlt) (Nat.lt_trans hparent hstop)
        exact le_trans hup (h k hlt hstop)

/-- Any entry can be taken out. -/
theorem Ordered.takeOut (h : Ordered L stop key) (hole : Nat) : Hole L stop key hole where
  off k hroot hstop _ _ := h k hroot hstop
  across hhole k hroot hstop hparent := by
    have hlt : hole < stop := hparent ▸ Nat.lt_trans (L.parent_lt hroot) hstop
    have hchild := h k hroot hstop
    rw [hparent] at hchild
    exact le_trans (h hole hhole hlt) hchild

/-- What is in the hole does not matter. -/
theorem Hole.congr (h : Hole L stop key hole)
    (heq : ∀ k, L.root ≤ k → k < stop → k ≠ hole → key' k = key k) (hlt : hole < stop) :
    Hole L stop key' hole where
  off k hroot hstop hne hparent := by
    have hbefore := Nat.lt_trans (L.parent_lt hroot) hstop
    rw [heq k (Nat.le_of_lt hroot) hstop hne, heq _ (L.le_parent hroot) hbefore hparent]
    exact h.off k hroot hstop hne hparent
  across hhole k hroot hstop hparent := by
    have hne : k ≠ hole := fun hk => Nat.lt_irrefl _ (hk ▸ hparent ▸ L.parent_lt hroot)
    have hbefore := L.parent_lt hhole
    rw [heq k (Nat.le_of_lt hroot) hstop hne,
      heq _ (L.le_parent hhole) (Nat.lt_trans hbefore hlt) (Nat.ne_of_lt hbefore)]
    exact h.across hhole k hroot hstop hparent

/-- A hole behind the last entry. -/
theorem Ordered.hole_last (h : Ordered L stop key) : Hole L (stop + 1) key stop where
  off k hroot hstop hne _ := h k hroot (Nat.lt_of_le_of_ne (Nat.le_of_lt_succ hstop) hne)
  across _ k hroot hstop hparent := by
    have hlt := L.parent_lt hroot
    omega

/-- The parent of the hole goes into it. -/
theorem Hole.up (h : Hole L stop key hole) (hroot : L.root < hole) (hstop : hole < stop) :
    Hole L stop (Function.update key hole (key (L.parent hole))) (L.parent hole) where
  off k hk hks hne hparent := by
    have hkne : k ≠ hole := fun heq => hparent (by rw [heq])
    rw [Function.update_of_ne hkne]
    by_cases hchild : L.parent k = hole
    · rw [hchild, Function.update_self]
      exact h.across hroot k hk hks hchild
    · rw [Function.update_of_ne hchild]
      exact h.off k hk hks hkne hchild
  across hp k hk hks hparent := by
    have hlt := L.parent_lt hroot
    have hup := L.parent_lt hp
    have hgrand : key (L.parent (L.parent hole)) ≤ key (L.parent hole) :=
      h.off _ hp (Nat.lt_trans hlt hstop) (Nat.ne_of_lt hlt)
        (Nat.ne_of_lt (Nat.lt_trans hup hlt))
    rw [Function.update_of_ne (Nat.ne_of_lt (Nat.lt_trans hup hlt))]
    by_cases hkne : k = hole
    · rw [hkne, Function.update_self]
      exact hgrand
    · rw [Function.update_of_ne hkne]
      have hsibling := h.off k hk hks hkne (hparent ▸ Nat.ne_of_lt hlt)
      rw [hparent] at hsibling
      exact le_trans hgrand hsibling

/-- When the hole has moved up, its children are not smaller than its old parent. -/
theorem Hole.up_children (h : Hole L stop key hole) (hroot : L.root < hole) {k : Nat}
    (hk : L.root < k) (hks : k < stop) (hparent : L.parent k = L.parent hole) :
    key (L.parent hole) ≤ Function.update key hole (key (L.parent hole)) k := by
  by_cases hkne : k = hole
  · rw [hkne, Function.update_self]
  · rw [Function.update_of_ne hkne, ← hparent]
    refine h.off k hk hks hkne ?_
    rw [hparent]
    exact Nat.ne_of_lt (L.parent_lt hroot)

/-- The smallest child of the hole goes into it. -/
theorem Hole.down (h : Hole L stop key hole) (hc : L.root < c) (hcs : c < stop)
    (hchild : L.parent c = hole)
    (hmin : ∀ k, L.root < k → k < stop → L.parent k = hole → key c ≤ key k) :
    Hole L stop (Function.update key hole (key c)) c where
  off k hk hks hne hparent := by
    have hlt : hole < c := hchild ▸ L.parent_lt hc
    by_cases hkhole : k = hole
    · have hroot : L.root < hole := hkhole ▸ hk
      have hup := L.parent_lt hroot
      rw [hkhole, Function.update_self, Function.update_of_ne (Nat.ne_of_lt hup)]
      exact h.across hroot c hc hcs hchild
    · rw [Function.update_of_ne hkhole]
      by_cases hsibling : L.parent k = hole
      · rw [hsibling, Function.update_self]
        exact hmin k hk hks hsibling
      · rw [Function.update_of_ne hsibling]
        exact h.off k hk hks hkhole hsibling
  across _ k hk hks hparent := by
    have hlt : hole < c := hchild ▸ L.parent_lt hc
    have hck : c < k := hparent ▸ L.parent_lt hk
    rw [hchild, Function.update_self, Function.update_of_ne (by omega)]
    have hbelow := h.off k hk hks (by omega) (by omega)
    rwa [hparent] at hbelow

/-- An entry that fits between its neighbours fills the hole. -/
theorem Hole.fill (h : Hole L stop key hole)
    (habove : L.root < hole → key (L.parent hole) ≤ x)
    (hbelow : ∀ k, L.root < k → k < stop → L.parent k = hole → x ≤ key k) :
    Ordered L stop (Function.update key hole x) := by
  intro k hk hks
  have hlt := L.parent_lt hk
  by_cases hkhole : k = hole
  · subst hkhole
    rw [Function.update_self, Function.update_of_ne (Nat.ne_of_lt hlt)]
    exact habove hk
  · rw [Function.update_of_ne hkhole]
    by_cases hchild : L.parent k = hole
    · rw [hchild, Function.update_self]
      exact hbelow k hk hks hchild
    · rw [Function.update_of_ne hchild]
      exact h.off k hk hks hkhole hchild

/-! ## Trees of one degree -/

/-- The heap of degree `d` whose first entry is at `root`. -/
def dary (d root : Nat) : Layout where
  root := root
  parent k := (k - root - 1) / d + root
  le_parent _ := Nat.le_add_left ..
  parent_lt {k} h := by
    have hle := Nat.div_le_self (k - root - 1) d
    omega

/-- The children of `p` are the next `d` positions from `d * (p - root) + root + 1`. -/
theorem dary_parent_iff {d root p k : Nat} (hd : 0 < d) (hp : root ≤ p) (hk : root < k) :
    (dary d root).parent k = p ↔
      d * (p - root) + root + 1 ≤ k ∧ k < d * (p - root) + root + 1 + d := by
  have hdiv := Nat.div_add_mod (k - root - 1) d
  have hmod := Nat.mod_lt (k - root - 1) hd
  change (k - root - 1) / d + root = p ↔ _
  constructor
  · intro heq
    have hq : (k - root - 1) / d = p - root := by omega
    rw [hq] at hdiv
    omega
  · rintro ⟨hfrom, hto⟩
    have hq : (k - root - 1) / d = p - root :=
      Nat.div_eq_of_lt_le (by rw [Nat.mul_comm]; omega)
        (by rw [Nat.succ_mul, Nat.mul_comm]; omega)
    omega

end Heap
end Base
end Cyan
