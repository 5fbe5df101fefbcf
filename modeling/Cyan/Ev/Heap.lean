import Cyan.Base.Heap
import Cyan.Base.Shelf

/-!
# The timer heap of libev

This module embeds `upheap`, `downheap` and `adjustheap` for the heap of degree
four.  Its entries cache the time of their watcher (`EV_HEAP_CACHE_AT`), and
every move tells the watcher its new position (`ev_active`).

The times are any linear order: nothing here computes with them.

* `Heaped` says that the heap is in order and that the watchers know where they
  are; `Gap` says the same of a heap from which one entry has been taken out.
* `upheap_spec` and `downheap_spec`: both loops close the gap in their
  direction, and nobody but the entry that they insert notices.
* `adjustheap_spec`: `adjustheap` picks the right one of them.
-/

namespace Cyan
namespace Ev

open Base

/-- `ANHE` -/
structure Anhe (ι T : Type*) where
  /-- `ANHE_w` -/
  w : ι
  /-- `ANHE_at` -/
  anheAt : T
  deriving DecidableEq, Repr

/-- `DHEAP` -/
def dheap : Nat := 4

/-- `HEAP0` -/
def heap0 : Nat := dheap - 1

/-- `HPARENT` -/
def hparent (k : Nat) : Nat :=
  (k - heap0 - 1) / dheap + heap0

/-- The array of a heap, with `ev_active` of its watchers. -/
abbrev HeapArray (ι T : Type*) := Shelf ι (Anhe ι T)

variable {ι T : Type*} [DecidableEq ι] [LinearOrder T]

/-- `heap [k] = he`, and `ev_active (ANHE_w (he)) = k`. -/
def HeapArray.put (heap : HeapArray ι T) (k : Nat) (he : Anhe ι T) : HeapArray ι T :=
  heap.place Anhe.w k he

/-- The times on the heap. -/
def HeapArray.key (heap : HeapArray ι T) (k : Nat) : T :=
  (heap.entry k).anheAt

/-- The loop of `upheap`, at position `k`. -/
def upheapLoop (he : Anhe ι T) : Nat → HeapArray ι T → Nat → HeapArray ι T
  | 0, heap, k => heap.put k he
  | fuel + 1, heap, k =>
      -- `UPHEAP_DONE`: the root is its own parent
      if hparent k = k ∨ heap.key (hparent k) ≤ he.anheAt then heap.put k he
      else upheapLoop he fuel (heap.put k (heap.entry (hparent k))) (hparent k)

/-- `upheap` -/
def upheap (heap : HeapArray ι T) (k : Nat) : HeapArray ι T :=
  upheapLoop (heap.entry k) k heap k

/-- The first child. -/
def firstChild (k : Nat) : Nat :=
  dheap * (k - heap0) + heap0 + 1

/-- One comparison of the fast path. -/
def minFast (key : Nat → T) (minpos pos : Nat) : Nat :=
  if key pos < key minpos then pos else minpos

/-- One comparison of the slow path. -/
def minSlow (key : Nat → T) (E minpos pos : Nat) : Nat :=
  if pos < E ∧ key pos < key minpos then pos else minpos

/-- "find minimum child", and `none` when there is no child in front of `E`. -/
def minChild (key : Nat → T) (E pos : Nat) : Option Nat :=
  if pos + dheap - 1 < E then
    some (minFast key (minFast key (minFast key pos (pos + 1)) (pos + 2)) (pos + 3))
  else if pos < E then
    some (minSlow key E (minSlow key E (minSlow key E pos (pos + 1)) (pos + 2)) (pos + 3))
  else none

/-- The loop of `downheap`, at position `k`. -/
def downheapLoop (he : Anhe ι T) (E : Nat) : Nat → HeapArray ι T → Nat → HeapArray ι T
  | 0, heap, k => heap.put k he
  | fuel + 1, heap, k =>
      match minChild heap.key E (firstChild k) with
      | none => heap.put k he
      | some minpos =>
          if he.anheAt ≤ heap.key minpos then heap.put k he
          else downheapLoop he E fuel (heap.put k (heap.entry minpos)) minpos

/-- `downheap` -/
def downheap (heap : HeapArray ι T) (N k : Nat) : HeapArray ι T :=
  downheapLoop (heap.entry k) (N + heap0) (N + heap0) heap k

/-- `adjustheap` -/
def adjustheap (heap : HeapArray ι T) (N k : Nat) : HeapArray ι T :=
  if heap0 < k ∧ heap.key k ≤ heap.key (hparent k) then upheap heap k
  else downheap heap N k

/-! ## Positions -/

/-- The layout of the heap. -/
def layout : Heap.Layout :=
  Heap.dary dheap heap0

theorem hparent_lt {k : Nat} (h : heap0 < k) : hparent k < k :=
  layout.parent_lt h

theorem heap0_le_hparent (k : Nat) : heap0 ≤ hparent k :=
  Nat.le_add_left ..

/-- The children are four positions in a row. -/
theorem hparent_eq_iff {p k : Nat} (hp : heap0 ≤ p) (hk : heap0 < k) :
    hparent k = p ↔ firstChild p ≤ k ∧ k < firstChild p + dheap :=
  Heap.dary_parent_iff (by decide) hp hk

theorem lt_firstChild {k : Nat} (h : heap0 ≤ k) : k < firstChild k := by
  unfold firstChild dheap
  omega

/-- The positions of a heap that ends in front of `stop`. -/
def positions (stop : Nat) : Set Nat :=
  {k | heap0 ≤ k ∧ k < stop}

/-- A gap that is filled is gone. -/
theorem insert_positions {k stop : Nat} (h : k ∈ positions stop) :
    insert k (positions stop \ {k}) = positions stop := by
  ext j
  simp only [Set.mem_insert_iff, Set.mem_sdiff, Set.mem_singleton_iff]
  grind

/-- A heap without its last position is shorter by one. -/
theorem positions_succ (stop : Nat) : positions (stop + 1) \ {stop} = positions stop := by
  ext j
  simp only [positions, Set.mem_sdiff, Set.mem_ofPred_eq, Set.mem_singleton_iff]
  omega

theorem heap0_ne_zero {k : Nat} (h : heap0 ≤ k) : k ≠ 0 := by
  have hpos : 0 < heap0 := by decide
  omega

/-! ## The minimum child -/

/-- `m` has the smallest time of the positions from `pos` up to `stop` in front of `E`. -/
structure Least (key : Nat → T) (E pos stop m : Nat) : Prop where
  le : pos ≤ m
  lt : m < stop
  before : m < E
  least : ∀ k, pos ≤ k → k < stop → k < E → key m ≤ key k

variable {key : Nat → T} {E pos stop m : Nat}

/-- The slow path makes the comparisons of the fast one, as long as there is a
child to compare with. -/
theorem minSlow_of_lt (h : pos < E) : minSlow key E m pos = minFast key m pos := by
  simp only [minSlow, minFast, h, true_and]

/-- One comparison takes the next position in. -/
theorem Least.next (h : Least key E pos stop m) :
    Least key E pos (stop + 1) (minSlow key E m stop) := by
  have hle := h.le
  have hlt := h.lt
  unfold minSlow
  split
  · rename_i hnext
    refine ⟨by omega, Nat.lt_succ_self _, hnext.1, fun k hfrom hto hk => ?_⟩
    rcases Nat.lt_succ_iff_lt_or_eq.mp hto with hold | rfl
    · exact le_trans (le_of_lt hnext.2) (h.least k hfrom hold hk)
    · exact le_rfl
  · rename_i hnext
    refine ⟨hle, by omega, h.before, fun k hfrom hto hk => ?_⟩
    rcases Nat.lt_succ_iff_lt_or_eq.mp hto with hold | rfl
    · exact h.least k hfrom hold hk
    · exact le_of_not_gt fun hgt => hnext ⟨hk, hgt⟩

/-- Both paths agree. -/
theorem minChild_eq (key : Nat → T) (E pos : Nat) :
    minChild key E pos = if pos < E then
      some (minSlow key E (minSlow key E (minSlow key E pos (pos + 1)) (pos + 2)) (pos + 3))
    else none := by
  unfold minChild
  split
  · rename_i h
    unfold dheap at h
    rw [if_pos (by omega), minSlow_of_lt (by omega), minSlow_of_lt (by omega),
      minSlow_of_lt (by omega)]
  · rfl

theorem minChild_eq_none_iff : minChild key E pos = none ↔ E ≤ pos := by
  rw [minChild_eq]
  split <;> simp <;> omega

/-- `minChild` finds a child in front of `E` with the smallest time of them all. -/
theorem minChild_spec (h : minChild key E pos = some m) : Least key E pos (pos + dheap) m := by
  rw [minChild_eq] at h
  split at h
  · rename_i hpos
    have hfirst : Least key E pos (pos + 1) pos :=
      ⟨le_rfl, Nat.lt_succ_self _, hpos, fun k hfrom hto _ => by
        rw [Nat.le_antisymm (Nat.le_of_lt_succ hto) hfrom]⟩
    cases h
    exact hfirst.next.next.next
  · cases h

/-! ## Closing a gap -/

/-- The heap in front of `stop` is in order, and the watchers know where they
are, those of `out` aside. -/
structure Heaped (heap : HeapArray ι T) (stop : Nat) (out : Set ι) : Prop where
  ordered : Heap.Ordered layout stop heap.key
  filed : heap.Filed Anhe.w (positions stop) out

/-- The same of a heap without the entry `he`, which is to go to position `k` or
further on. -/
structure Gap (heap : HeapArray ι T) (he : Anhe ι T) (k stop : Nat) (out : Set ι) : Prop where
  hole : Heap.Hole layout stop heap.key k
  filed : heap.Filed Anhe.w (positions stop \ {k}) (insert he.w out)
  mem : k ∈ positions stop
  owner : he.w ∉ out

/-- `heap'` is `heap` with `he` back in it. -/
structure Closed (heap heap' : HeapArray ι T) (he : Anhe ι T) (stop : Nat) (out : Set ι) :
    Prop where
  heaped : Heaped heap' stop out
  entry : heap'.lookup he.w = some he
  others : ∀ v, v ∉ out → v ≠ he.w → heap'.lookup v = heap.lookup v

variable {heap heap' : HeapArray ι T} {he : Anhe ι T} {k p : Nat} {out : Set ι} {w : ι}

omit [LinearOrder T] in
theorem HeapArray.key_put :
    (heap.put k he).key = Function.update heap.key k he.anheAt := by
  funext j
  by_cases hj : j = k
  · subst hj
    simp [HeapArray.key, HeapArray.put]
  · rw [Function.update_of_ne hj]
    exact congrArg Anhe.anheAt (Shelf.place_entry_of_ne hj)

/-- `he` goes into the gap where it fits between its neighbours. -/
theorem Gap.fill (h : Gap heap he k stop out)
    (habove : heap0 < k → heap.key (hparent k) ≤ he.anheAt)
    (hbelow : ∀ j, heap0 < j → j < stop → hparent j = k → he.anheAt ≤ heap.key j) :
    Closed heap (heap.put k he) he stop out where
  heaped := by
    refine ⟨?_, ?_⟩
    · rw [HeapArray.key_put]
      exact h.hole.fill habove hbelow
    · have hput := h.filed.put h.owner (fun hmem => hmem.2 rfl) (heap0_ne_zero h.mem.1)
      rwa [insert_positions h.mem] at hput
  entry := Shelf.Filed.lookup_place_self (heap0_ne_zero h.mem.1)
  others v hv hne := by
    refine h.filed.lookup_place (fun hmem => hmem.2 rfl) ?_ hne
    rintro (heq | hmem)
    · exact hne heq
    · exact hv hmem

/-- The entry of `p` goes into the gap, which is at `p` then. -/
theorem Gap.move (h : Gap heap he k stop out) (hp : p ∈ positions stop) (hne : p ≠ k)
    (hhole : Heap.Hole layout stop (Function.update heap.key k (heap.key p)) p) :
    Gap (heap.put k (heap.entry p)) he p stop out where
  hole := by
    rw [HeapArray.key_put]
    exact hhole
  filed := by
    have hmove := h.filed.move (p := p) ⟨hp, hne⟩ (fun hmem => hmem.2 rfl)
      (heap0_ne_zero h.mem.1)
    have hset : insert k ((positions stop \ {k}) \ {p}) = positions stop \ {p} := by
      ext j
      have hk := h.mem
      simp only [Set.mem_insert_iff, Set.mem_sdiff, Set.mem_singleton_iff]
      grind
    rwa [hset] at hmove
  mem := hp
  owner := h.owner

/-- Nobody notices that the gap moves. -/
theorem Gap.closed_of_move (h : Gap heap he k stop out) (hp : p ∈ positions stop) (hne : p ≠ k)
    (hclosed : Closed (heap.put k (heap.entry p)) heap' he stop out) :
    Closed heap heap' he stop out where
  heaped := hclosed.heaped
  entry := hclosed.entry
  others v hv hvne := by
    rw [hclosed.others v hv hvne]
    refine h.filed.lookup_move (p := p) ⟨hp, hne⟩ (fun hmem => hmem.2 rfl)
      (heap0_ne_zero h.mem.1) ?_
    rintro (heq | hmem)
    · exact hvne heq
    · exact hv hmem

/-- Towards the root, as long as `he` is not later than what is below the gap. -/
theorem upheapLoop_spec {fuel : Nat} (h : Gap heap he k stop out)
    (hbelow : ∀ j, heap0 < j → j < stop → hparent j = k → he.anheAt ≤ heap.key j)
    (hfuel : k ≤ fuel) : Closed heap (upheapLoop he fuel heap k) he stop out := by
  induction fuel generalizing heap k with
  | zero => exact absurd (Nat.le_zero.mp hfuel) (heap0_ne_zero h.mem.1)
  | succ fuel ih =>
      unfold upheapLoop
      split
      · rename_i hdone
        refine h.fill (fun hroot => ?_) hbelow
        rcases hdone with hself | hle
        · exact absurd hself (Nat.ne_of_lt (hparent_lt hroot))
        · exact hle
      · rename_i hgo
        rw [not_or, not_le] at hgo
        have hroot : heap0 < k := by
          refine Nat.lt_of_le_of_ne h.mem.1 fun heq => hgo.1 ?_
          rw [← heq]
          rfl
        have hlt := hparent_lt hroot
        have hp : hparent k ∈ positions stop :=
          ⟨heap0_le_hparent k, Nat.lt_trans hlt h.mem.2⟩
        have hmoved := h.move hp (Nat.ne_of_lt hlt) (h.hole.up hroot h.mem.2)
        refine h.closed_of_move hp (Nat.ne_of_lt hlt) (ih hmoved (fun j hj hjs hparent => ?_) ?_)
        · rw [HeapArray.key_put]
          exact le_trans (le_of_lt hgo.2) (h.hole.up_children hroot hj hjs hparent)
        · omega

/-- Away from the root, as long as `he` is not earlier than what is above the gap. -/
theorem downheapLoop_spec {fuel : Nat} (h : Gap heap he k stop out)
    (habove : heap0 < k → heap.key (hparent k) ≤ he.anheAt) (hfuel : stop ≤ fuel + k) :
    Closed heap (downheapLoop he stop fuel heap k) he stop out := by
  induction fuel generalizing heap k with
  | zero =>
      have hlt := h.mem.2
      omega
  | succ fuel ih =>
      have hchildren : ∀ j, heap0 < j → (hparent j = k ↔
          firstChild k ≤ j ∧ j < firstChild k + dheap) :=
        fun j hj => hparent_eq_iff h.mem.1 hj
      unfold downheapLoop
      split
      · rename_i hnone
        have hend := minChild_eq_none_iff.mp hnone
        refine h.fill habove fun j hj hjs hparent => ?_
        have hfrom := ((hchildren j hj).mp hparent).1
        omega
      · rename_i c hsome
        have hleast := minChild_spec hsome
        have hkc : k < c := Nat.lt_of_lt_of_le (lt_firstChild h.mem.1) hleast.le
        have hroot : heap0 < c := Nat.lt_of_le_of_lt h.mem.1 hkc
        have hparent : hparent c = k := (hchildren c hroot).mpr ⟨hleast.le, hleast.lt⟩
        have hmin : ∀ j, heap0 < j → j < stop → Cyan.Ev.hparent j = k →
            heap.key c ≤ heap.key j := by
          intro j hj hjs hjk
          obtain ⟨hfrom, hto⟩ := (hchildren j hj).mp hjk
          exact hleast.least j hfrom hto hjs
        split
        · rename_i hle
          exact h.fill habove fun j hj hjs hjk => le_trans hle (hmin j hj hjs hjk)
        · rename_i hgo
          have hc : c ∈ positions stop := ⟨Nat.le_of_lt hroot, hleast.before⟩
          have hmoved := h.move hc (Nat.ne_of_gt hkc)
            (h.hole.down hroot hleast.before hparent hmin)
          refine h.closed_of_move hc (Nat.ne_of_gt hkc) (ih hmoved (fun _ => ?_) ?_)
          · rw [HeapArray.key_put, hparent, Function.update_self]
            exact le_of_lt (not_le.mp hgo)
          · omega

/-- `upheap` puts an entry right that is too late in the array. -/
theorem upheap_spec (h : Gap heap (heap.entry k) k stop out)
    (hbelow : ∀ j, heap0 < j → j < stop → hparent j = k → heap.key k ≤ heap.key j) :
    Closed heap (upheap heap k) (heap.entry k) stop out :=
  upheapLoop_spec h hbelow le_rfl

/-- `downheap` puts an entry right that is too early in the array. -/
theorem downheap_spec {N : Nat} (h : Gap heap (heap.entry k) k (N + heap0) out)
    (habove : heap0 < k → heap.key (hparent k) ≤ heap.key k) :
    Closed heap (downheap heap N k) (heap.entry k) (N + heap0) out :=
  downheapLoop_spec h habove (Nat.le_add_right ..)

/-- `adjustheap` puts any entry right. -/
theorem adjustheap_spec {N : Nat} (h : Gap heap (heap.entry k) k (N + heap0) out) :
    Closed heap (adjustheap heap N k) (heap.entry k) (N + heap0) out := by
  unfold adjustheap
  split
  · rename_i hup
    exact upheap_spec h fun j hj hjs hparent =>
      le_trans hup.2 (h.hole.across hup.1 j hj hjs hparent)
  · rename_i hdown
    refine downheap_spec h fun hroot => le_of_not_ge fun hle => hdown ⟨hroot, hle⟩

/-! ## Opening a gap -/

omit [DecidableEq ι] [LinearOrder T] in
theorem HeapArray.key_write_of_ne {j : Nat} (h : j ≠ k) :
    HeapArray.key (heap.write k he) j = heap.key j :=
  congrArg Anhe.anheAt (Shelf.write_entry_of_ne h)

/-- A new entry behind the last one. -/
theorem Heaped.start (h : Heaped heap stop out) (hw : heap.index he.w = 0) (hout : he.w ∉ out)
    (hstop : heap0 ≤ stop) : Gap (heap.put stop he) he stop (stop + 1) out where
  hole := by
    refine h.ordered.hole_last.congr (fun j _ _ hne => ?_) (Nat.lt_succ_self stop)
    rw [HeapArray.key_put, Function.update_of_ne hne]
  filed := by
    have hfree : stop ∉ positions stop := fun hmem => Nat.lt_irrefl _ hmem.2
    have hput := (h.filed.absent hw).put hout hfree (heap0_ne_zero hstop)
    have htake := hput.take (k := stop) (.inl rfl)
    rwa [Shelf.place_entry_self, ← positions_succ, insert_positions
      ⟨hstop, Nat.lt_succ_self stop⟩] at htake
  mem := ⟨hstop, Nat.lt_succ_self stop⟩
  owner := hout

section

omit [DecidableEq ι]

/-- The entry of `k` gets a new time. -/
theorem Heaped.retime (h : Heaped heap stop out) (hk : k ∈ positions stop)
    (hw : he.w = (heap.entry k).w) : Gap (heap.write k he) he k stop out where
  hole := (h.ordered.takeOut k).congr (fun _ _ _ hne => HeapArray.key_write_of_ne hne) hk.2
  filed := by
    rw [hw]
    exact (h.filed.take hk).write (fun hmem => hmem.2 rfl) he
  mem := hk
  owner := hw ▸ (h.filed.index k hk).2

/-- The last entry replaces the entry of `k`, whose owner is out from now on. -/
theorem Heaped.remove (h : Heaped heap (stop + 1) out) (hk : k ∈ positions stop) :
    Gap (heap.write k (heap.entry stop)) (heap.entry stop) k stop
      (insert (heap.entry k).w out) where
  hole := ((h.ordered.mono (Nat.le_succ stop)).takeOut k).congr
    (fun _ _ _ hne => HeapArray.key_write_of_ne hne) hk.2
  filed := by
    have hk' : k ∈ positions (stop + 1) := ⟨hk.1, Nat.lt_succ_of_lt hk.2⟩
    have hlast : stop ∈ positions (stop + 1) \ {k} :=
      ⟨⟨Nat.le_of_lt (Nat.lt_of_le_of_lt hk.1 hk.2), Nat.lt_succ_self stop⟩, Nat.ne_of_gt hk.2⟩
    have htake := (h.filed.take hk').take hlast
    have hset : (positions (stop + 1) \ {k}) \ {stop} = positions stop \ {k} := by
      rw [← positions_succ stop]
      ext j
      simp only [Set.mem_sdiff, Set.mem_singleton_iff]
      tauto
    rw [hset] at htake
    exact htake.write (fun hmem => hmem.2 rfl) _
  mem := hk
  owner := by
    have hk' : k ∈ positions (stop + 1) := ⟨hk.1, Nat.lt_succ_of_lt hk.2⟩
    have hlast : stop ∈ positions (stop + 1) :=
      ⟨Nat.le_of_lt (Nat.lt_of_le_of_lt hk.1 hk.2), Nat.lt_succ_self stop⟩
    rintro (heq | hmem)
    · exact Nat.ne_of_gt hk.2 (h.filed.position_inj hlast hk' heq)
    · exact (h.filed.index stop hlast).2 hmem

end

end Ev
end Cyan
