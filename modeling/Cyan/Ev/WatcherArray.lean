import Mathlib.Data.List.Nodup
import Mathlib.Data.List.Range
import Cyan.Base.Shelf

/-!
# Arrays of watchers

`idles [pri]` and `asyncs` are arrays in which every watcher has its position,
one more than the index, in `ev_active`.  A watcher that stops leaves its position
to the last one.

* `WatcherArray.Ok` is what `array_verify` asserts.
* `Ok.start` and `Ok.stop` keep it, and nobody but the watcher changes between
  active and inactive.
-/

namespace Cyan
namespace Ev

open Base

/-- An array `ws`, its length, and `ev_active` of its watchers; position `k` is
`ws [k - 1]`. -/
structure WatcherArray (ι : Type*) where
  shelf : Shelf ι ι
  cnt : Nat

variable {ι : Type*} [DecidableEq ι]

namespace WatcherArray

/-- `ev_active` -/
def active (a : WatcherArray ι) (w : ι) : Nat :=
  a.shelf.index w

/-- `ev_start (EV_A_ (W)w, ++cnt)`, and `ws [cnt - 1] = w`. -/
def start (a : WatcherArray ι) (w : ι) : WatcherArray ι where
  shelf := a.shelf.place id (a.cnt + 1) w
  cnt := a.cnt + 1

/-- `ws [active - 1] = ws [--cnt]`, `ev_active (ws [active - 1]) = active`, and
`ev_stop`. -/
def stop (a : WatcherArray ι) (w : ι) : WatcherArray ι where
  shelf := (a.shelf.place id (a.active w) (a.shelf.entry a.cnt)).leave w
  cnt := a.cnt - 1

/-- The watchers from `ws [0]` on. -/
def watchers (a : WatcherArray ι) : List ι :=
  (List.range a.cnt).map fun i => a.shelf.entry (i + 1)

/-- The positions of the array. -/
def places (cnt : Nat) : Set Nat :=
  {k | 1 ≤ k ∧ k ≤ cnt}

/-- What `array_verify` asserts. -/
def Ok (a : WatcherArray ι) : Prop :=
  a.shelf.Filed id (places a.cnt) ∅

variable {a : WatcherArray ι} {w v : ι}

section

omit [DecidableEq ι]

/-- Where an active watcher is. -/
theorem Ok.active_mem (h : a.Ok) (hw : a.active w ≠ 0) :
    (1 ≤ a.active w ∧ a.active w ≤ a.cnt) ∧ a.shelf.entry (a.active w) = w :=
  h.found w (Set.notMem_empty w) hw

/-- "active index mismatch" -/
theorem Ok.active_entry (h : a.Ok) {k : Nat} (hk : 1 ≤ k) (hcnt : k ≤ a.cnt) :
    a.active (a.shelf.entry k) = k :=
  (h.index k ⟨hk, hcnt⟩).1

/-- The active watchers are those of the array. -/
theorem Ok.mem_watchers (h : a.Ok) : w ∈ a.watchers ↔ a.active w ≠ 0 := by
  rw [watchers, List.mem_map]
  constructor
  · rintro ⟨i, hi, rfl⟩
    rw [h.active_entry (Nat.le_add_left ..) (List.mem_range.mp hi)]
    exact Nat.succ_ne_zero i
  · intro hw
    obtain ⟨hrange, hentry⟩ := h.active_mem hw
    refine ⟨a.active w - 1, List.mem_range.mpr (by omega), ?_⟩
    rwa [Nat.sub_add_cancel hrange.1]

end

theorem start_active : (a.start w).active = Function.update a.active w (a.cnt + 1) := rfl

theorem Ok.start (h : a.Ok) (hw : a.active w = 0) : (a.start w).Ok := by
  have hfree : a.cnt + 1 ∉ places a.cnt := fun hmem => Nat.not_succ_le_self _ hmem.2
  have hput := (h.absent hw).put (Set.notMem_empty w) hfree (Nat.succ_ne_zero _)
  have hset : insert (a.cnt + 1) (places a.cnt) = places (a.cnt + 1) := by
    ext k
    simp only [places, Set.mem_insert_iff, Set.mem_ofPred_eq]
    omega
  rwa [hset] at hput

/-- Nobody but `w` notices that `w` stops. -/
theorem Ok.stop_active (h : a.Ok) (hw : a.active w ≠ 0) :
    (a.stop w).active w = 0 ∧
      ∀ v, v ≠ w → ((a.stop w).active v ≠ 0 ↔ a.active v ≠ 0) := by
  refine ⟨Shelf.leave_index_self, fun v hv => ?_⟩
  have hindex : (a.stop w).active v =
      Function.update a.shelf.index (a.shelf.entry a.cnt) (a.active w) v :=
    Shelf.leave_index_of_ne hv
  rw [hindex]
  by_cases hlast : v = a.shelf.entry a.cnt
  · have hcnt : 1 ≤ a.cnt := by
      have hrange := (h.active_mem hw).1
      omega
    subst hlast
    rw [Function.update_self, h.active_entry hcnt le_rfl]
    exact ⟨fun _ => by omega, fun _ => hw⟩
  · rw [Function.update_of_ne hlast]
    rfl

theorem Ok.stop (h : a.Ok) (hw : a.active w ≠ 0) : (a.stop w).Ok := by
  obtain ⟨hrange, hentry⟩ := h.active_mem hw
  have hmem : a.active w ∈ places a.cnt := hrange
  have hlast : a.cnt ∈ places a.cnt := ⟨by omega, le_rfl⟩
  have htake := h.take hmem
  rw [hentry] at htake
  by_cases heq : a.active w = a.cnt
  · have hset : places a.cnt \ {a.active w} = places (a.cnt - 1) := by
      ext k
      simp only [places, Set.mem_sdiff, Set.mem_ofPred_eq, Set.mem_singleton_iff]
      omega
    have hself : a.shelf.entry a.cnt = w := heq ▸ hentry
    have hput := htake.put (e := w) (k := a.active w) (Set.notMem_empty w)
      (fun hmem => hmem.2 rfl) hw
    have hback := hput.take (k := a.active w) (.inl rfl)
    rw [Shelf.place_entry_self] at hback
    have hgone : insert (a.active w) (places a.cnt \ {a.active w}) \ {a.active w} =
        places (a.cnt - 1) := by
      rw [hset]
      ext k
      simp only [places, Set.mem_insert_iff, Set.mem_sdiff, Set.mem_ofPred_eq,
        Set.mem_singleton_iff]
      omega
    rw [hgone] at hback
    have hleave := hback.leave
    rw [← hself] at hleave
    rw [WatcherArray.Ok, WatcherArray.stop, ← hself]
    exact hleave
  · have hmove := htake.move (k := a.active w) (p := a.cnt) ⟨hlast, Ne.symm heq⟩
      (fun hmem => hmem.2 rfl) hw
    have hset : insert (a.active w) ((places a.cnt \ {a.active w}) \ {a.cnt}) =
        places (a.cnt - 1) := by
      ext k
      simp only [places, Set.mem_insert_iff, Set.mem_sdiff, Set.mem_ofPred_eq,
        Set.mem_singleton_iff]
      omega
    rw [hset] at hmove
    exact hmove.leave

end WatcherArray
end Ev
end Cyan
