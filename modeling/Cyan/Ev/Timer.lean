import Cyan.Ev.Heap

/-!
# Timers

This module embeds what `ev_timer_start`, `ev_timer_stop`, `ev_timer_again` and
`timers_reify` do to the timers of a loop.  The times are a linear order with
some `+` and `-`, and whatever else is used of these is a hypothesis of the result
that uses it, so rounding is covered.

* `Timers.Ok` is what `verify_heap` asserts of them.
* `deadline` is what the heap is for: the time at which an active timer expires.
  Every operation changes the deadline of one timer and of no other
  (`Ok.start`, `Ok.stop`, `Ok.reschedule`, `Ok.rearm`).
* `Ok.first`: the timer at the root expires first.
-/

namespace Cyan
namespace Ev

open Base

/-- `timers`, `timercnt`, and the members `active`, `at` and `repeat` of the
timers. -/
structure Timers (ι T : Type*) where
  /-- `timers`, with `ev_active` -/
  heap : HeapArray ι T
  timercnt : Nat
  /-- `ev_at` -/
  evAt : ι → T
  /-- `repeat` -/
  evRepeat : ι → T

variable {ι T : Type*} [DecidableEq ι] [LinearOrder T] [Add T] [Sub T] [Zero T]

namespace Timers

/-- `ev_active` -/
def active (t : Timers ι T) (w : ι) : Nat :=
  t.heap.index w

/-- The end of the heap, `timercnt + HEAP0`. -/
def stopAt (t : Timers ι T) : Nat :=
  t.timercnt + heap0

/-- `ev_at (w) = time` -/
def setAt (t : Timers ι T) (w : ι) (time : T) : Timers ι T :=
  { t with evAt := Function.update t.evAt w time }

/-- `ANHE_at_cache (timers [k])` -/
def cacheAt (t : Timers ι T) (k : Nat) : Timers ι T :=
  let he := t.heap.entry k
  { t with heap := t.heap.write k { he with anheAt := t.evAt he.w } }

/-- `ev_timer_start`, behind the test for an active timer. -/
def start (t : Timers ι T) (mnNow : T) (w : ι) : Timers ι T :=
  let t := t.setAt w (t.evAt w + mnNow)
  let t := { t with timercnt := t.timercnt + 1 }
  let active := t.timercnt + heap0 - 1
  { t with heap := upheap (t.heap.put active ⟨w, t.evAt w⟩) active }

/-- `ev_timer_stop`, behind the test for an inactive timer. -/
def stop (t : Timers ι T) (mnNow : T) (w : ι) : Timers ι T :=
  let active := t.active w
  let t := { t with timercnt := t.timercnt - 1 }
  let t :=
    if active < t.timercnt + heap0 then
      let heap := t.heap.write active (t.heap.entry (t.timercnt + heap0))
      { t with heap := adjustheap heap t.timercnt active }
    else t
  let t := t.setAt w (t.evAt w - mnNow)
  { t with heap := t.heap.leave w }

/-- `ev_timer_again` for an active timer that repeats. -/
def reschedule (t : Timers ι T) (mnNow : T) (w : ι) : Timers ι T :=
  let t := t.setAt w (mnNow + t.evRepeat w)
  let t := t.cacheAt (t.active w)
  { t with heap := adjustheap t.heap t.timercnt (t.active w) }

/-- The timer at the root. -/
def root (t : Timers ι T) : ι :=
  (t.heap.entry heap0).w

/-- `timercnt && ANHE_at (timers [HEAP0]) < mn_now` -/
def expired (t : Timers ι T) (mnNow : T) : Bool :=
  t.timercnt ≠ 0 && t.heap.key heap0 < mnNow

/-- When a timer that repeats expires next. -/
def nextAt (mnNow time rep : T) : T :=
  if time + rep < mnNow then mnNow else time + rep

/-- `timers_reify` for a timer at the root that repeats. -/
def rearm (t : Timers ι T) (mnNow : T) : Timers ι T :=
  let t := t.setAt t.root (nextAt mnNow (t.evAt t.root) (t.evRepeat t.root))
  let t := t.cacheAt heap0
  { t with heap := downheap t.heap t.timercnt heap0 }

/-- When an active timer expires. -/
def deadline (t : Timers ι T) (w : ι) : Option T :=
  (t.heap.lookup w).map Anhe.anheAt

/-- What `verify_heap` asserts. -/
structure Ok (t : Timers ι T) : Prop where
  heaped : Heaped t.heap t.stopAt ∅
  /-- "heap at cache mismatch" -/
  cached : ∀ w he, t.heap.lookup w = some he → he.anheAt = t.evAt w

variable {t : Timers ι T} {mnNow : T} {w v : ι}

section

omit [Sub T] [Zero T]

@[simp] theorem start_timercnt : (t.start mnNow w).timercnt = t.timercnt + 1 := rfl

@[simp] theorem start_evAt :
    (t.start mnNow w).evAt = Function.update t.evAt w (t.evAt w + mnNow) := rfl

@[simp] theorem start_evRepeat : (t.start mnNow w).evRepeat = t.evRepeat := rfl

end

section

omit [Add T] [Zero T]

@[simp] theorem stop_timercnt : (t.stop mnNow w).timercnt = t.timercnt - 1 := by
  simp only [Timers.stop, setAt]
  split <;> rfl

@[simp] theorem stop_evAt :
    (t.stop mnNow w).evAt = Function.update t.evAt w (t.evAt w - mnNow) := by
  simp only [Timers.stop, setAt]
  split <;> rfl

@[simp] theorem stop_evRepeat : (t.stop mnNow w).evRepeat = t.evRepeat := by
  simp only [Timers.stop, setAt]
  split <;> rfl

end

section

omit [Sub T] [Zero T]

@[simp] theorem reschedule_timercnt : (t.reschedule mnNow w).timercnt = t.timercnt := rfl

@[simp] theorem reschedule_evRepeat : (t.reschedule mnNow w).evRepeat = t.evRepeat := rfl

@[simp] theorem rearm_timercnt : (t.rearm mnNow).timercnt = t.timercnt := rfl

@[simp] theorem rearm_evRepeat : (t.rearm mnNow).evRepeat = t.evRepeat := rfl

end

omit [DecidableEq ι] [LinearOrder T] [Add T] [Sub T] [Zero T] in
theorem deadline_eq_none_iff : t.deadline w = none ↔ t.active w = 0 := by
  rw [deadline, Option.map_eq_none_iff, Shelf.lookup_eq_none_iff]
  rfl

section

omit [DecidableEq ι] [Add T] [Sub T] [Zero T]

/-- An active timer expires at its time. -/
theorem Ok.deadline_of_active (h : t.Ok) (hw : t.active w ≠ 0) :
    t.deadline w = some (t.evAt w) := by
  have hlookup := Shelf.lookup_of_index hw
  rw [deadline, hlookup, Option.map_some, h.cached w _ hlookup]

/-- Where an active timer is. -/
theorem Ok.active_mem (h : t.Ok) (hw : t.active w ≠ 0) :
    t.active w ∈ positions t.stopAt ∧ (t.heap.entry (t.active w)).w = w :=
  h.heaped.filed.found w (Set.notMem_empty w) hw

end

section

omit [Add T] [Sub T] [Zero T]

omit [DecidableEq ι] in
/-- The timer at a position of the heap. -/
theorem Ok.deadline_entry (h : t.Ok) {k : Nat} (hk : k ∈ positions t.stopAt) :
    t.active (t.heap.entry k).w = k ∧
      t.deadline (t.heap.entry k).w = some (t.heap.key k) := by
  refine ⟨(h.heaped.filed.index k hk).1, ?_⟩
  rw [deadline, h.heaped.filed.lookup_owner hk]
  rfl

/-- Nobody but the timer of the entry has a new deadline. -/
theorem deadline_of_closed {r : Timers ι T} {heap : HeapArray ι T} {he : Anhe ι T}
    (h : Closed heap r.heap he r.stopAt ∅)
    (hothers : ∀ v, v ≠ he.w → heap.lookup v = t.heap.lookup v) :
    r.deadline = Function.update t.deadline he.w (some he.anheAt) := by
  funext v
  by_cases hv : v = he.w
  · subst hv
    rw [Function.update_self, deadline, h.entry]
    rfl
  · rw [Function.update_of_ne hv, deadline, h.others v (Set.notMem_empty v) hv, hothers v hv]
    rfl

/-- An entry that is put back with the time of its timer keeps the caches. -/
theorem Ok.of_closed {r : Timers ι T} {heap : HeapArray ι T} {he : Anhe ι T} (h : t.Ok)
    (hclosed : Closed heap r.heap he r.stopAt ∅)
    (hothers : ∀ v, v ≠ he.w → heap.lookup v = t.heap.lookup v)
    (hat : r.evAt = Function.update t.evAt he.w he.anheAt) : r.Ok where
  heaped := hclosed.heaped
  cached v e he' := by
    by_cases hv : v = he.w
    · subst hv
      rw [hclosed.entry] at he'
      cases he'
      rw [hat, Function.update_self]
    · rw [hclosed.others v (Set.notMem_empty v) hv, hothers v hv] at he'
      rw [hat, Function.update_of_ne hv]
      exact h.cached v e he'

end

omit [DecidableEq ι] [Add T] [Sub T] [Zero T] in
/-- The root expires first. -/
theorem Ok.first (h : t.Ok) (hcnt : t.timercnt ≠ 0) :
    t.deadline t.root = some (t.heap.key heap0) ∧
      ∀ v d, t.deadline v = some d → t.heap.key heap0 ≤ d := by
  have hroot : heap0 ∈ positions t.stopAt :=
    ⟨le_rfl, Nat.lt_add_of_pos_left (Nat.pos_of_ne_zero hcnt)⟩
  refine ⟨(h.deadline_entry hroot).2, fun v d hd => ?_⟩
  have hv : t.active v ≠ 0 := by
    intro hzero
    rw [deadline_eq_none_iff.mpr hzero] at hd
    cases hd
  obtain ⟨hmem, howner⟩ := h.active_mem hv
  have hentry := (h.deadline_entry hmem).2
  rw [howner, hd] at hentry
  cases hentry
  exact h.heaped.ordered.root_le hmem.1 hmem.2

omit [Sub T] [Zero T] in
/-- `ev_timer_start` -/
theorem Ok.start (h : t.Ok) (mnNow : T) (hw : t.active w = 0) :
    (t.start mnNow w).Ok ∧
      (t.start mnNow w).deadline = Function.update t.deadline w (some (t.evAt w + mnNow)) := by
  set he : Anhe ι T := ⟨w, t.evAt w + mnNow⟩ with hhe
  have hpos : t.timercnt + 1 + heap0 - 1 = t.stopAt := by
    rw [stopAt]
    omega
  have hheap : (t.start mnNow w).heap = upheap (t.heap.put t.stopAt he) t.stopAt := by
    simp only [Timers.start, setAt, Function.update_self, hpos, hhe]
  have hstop : (t.start mnNow w).stopAt = t.stopAt + 1 := by
    simp only [Timers.start, setAt, stopAt]
    omega
  have hentry : (t.heap.put t.stopAt he).entry t.stopAt = he := Shelf.place_entry_self
  have hgap : Gap (t.heap.put t.stopAt he) ((t.heap.put t.stopAt he).entry t.stopAt) t.stopAt
      (t.stopAt + 1) ∅ := by
    rw [hentry]
    exact h.heaped.start hw (Set.notMem_empty w) (Nat.le_add_left ..)
  have hclosed : Closed (t.heap.put t.stopAt he) (t.start mnNow w).heap he
      (t.start mnNow w).stopAt ∅ := by
    rw [hheap, hstop]
    have hup := upheap_spec hgap fun j hj hjs hparent => by
      have hlt := hparent_lt hj
      omega
    rwa [hentry] at hup
  have hothers : ∀ v, v ≠ he.w → (t.heap.put t.stopAt he).lookup v = t.heap.lookup v :=
    fun v hv => h.heaped.filed.lookup_place (fun hmem => Nat.lt_irrefl _ hmem.2)
      (Set.notMem_empty v) hv
  exact ⟨h.of_closed hclosed hothers rfl, deadline_of_closed hclosed hothers⟩

omit [Add T] [Sub T] [Zero T] in
/-- The entry of an active timer gets a new time. -/
theorem Ok.retime (h : t.Ok) {k : Nat} (hk : k ∈ positions t.stopAt) (time : T) :
    Gap ((t.setAt (t.heap.entry k).w time).cacheAt k).heap ⟨(t.heap.entry k).w, time⟩ k
        t.stopAt ∅ ∧
      ((t.setAt (t.heap.entry k).w time).cacheAt k).heap.entry k = ⟨(t.heap.entry k).w, time⟩ ∧
      ∀ v, v ≠ (t.heap.entry k).w →
        ((t.setAt (t.heap.entry k).w time).cacheAt k).heap.lookup v = t.heap.lookup v := by
  have hheap : ((t.setAt (t.heap.entry k).w time).cacheAt k).heap =
      t.heap.write k ⟨(t.heap.entry k).w, time⟩ := by
    simp only [cacheAt, setAt, Function.update_self]
  rw [hheap]
  refine ⟨h.heaped.retime hk rfl, Shelf.write_entry_self, fun v hv => ?_⟩
  refine (h.heaped.filed.take hk).lookup_write (fun hmem => hmem.2 rfl) ?_
  rintro (heq | hmem)
  · exact hv heq
  · exact hmem

section

omit [Sub T] [Zero T]

/-- `ev_timer_again` for an active timer that repeats. -/
theorem Ok.reschedule (h : t.Ok) (mnNow : T) (hw : t.active w ≠ 0) :
    (t.reschedule mnNow w).Ok ∧
      (t.reschedule mnNow w).deadline =
        Function.update t.deadline w (some (mnNow + t.evRepeat w)) := by
  obtain ⟨hmem, howner⟩ := h.active_mem hw
  obtain ⟨hgap, hentry, hothers⟩ := h.retime hmem (mnNow + t.evRepeat w)
  rw [howner] at hgap hentry hothers
  have hclosed := adjustheap_spec (N := t.timercnt) (hentry ▸ hgap)
  rw [hentry] at hclosed
  exact ⟨h.of_closed (r := t.reschedule mnNow w) hclosed hothers rfl,
    deadline_of_closed (r := t.reschedule mnNow w) hclosed hothers⟩

/-- `timers_reify` for a timer at the root that repeats. -/
theorem Ok.rearm (h : t.Ok) (mnNow : T) (hcnt : t.timercnt ≠ 0) :
    (t.rearm mnNow).Ok ∧
      (t.rearm mnNow).deadline = Function.update t.deadline t.root
        (some (nextAt mnNow (t.evAt t.root) (t.evRepeat t.root))) := by
  have hmem : heap0 ∈ positions t.stopAt :=
    ⟨le_rfl, Nat.lt_add_of_pos_left (Nat.pos_of_ne_zero hcnt)⟩
  obtain ⟨hgap, hentry, hothers⟩ :=
    h.retime hmem (nextAt mnNow (t.evAt t.root) (t.evRepeat t.root))
  have hclosed := downheap_spec (N := t.timercnt) (hentry ▸ hgap) fun hlt =>
    absurd hlt (Nat.lt_irrefl _)
  rw [hentry] at hclosed
  exact ⟨h.of_closed (r := t.rearm mnNow) hclosed hothers rfl,
    deadline_of_closed (r := t.rearm mnNow) hclosed hothers⟩

end

omit [Add T] [Sub T] [Zero T] in
/-- A timer leaves a heap that has closed behind it. -/
theorem Ok.of_leave {t' : Timers ι T} {heap : HeapArray ι T} (h : t.Ok)
    (hheap : t'.heap = heap.leave w) (hheaped : Heaped heap t'.stopAt (insert w ∅))
    (hothers : ∀ v, v ≠ w → heap.lookup v = t.heap.lookup v)
    (hat : ∀ v, v ≠ w → t'.evAt v = t.evAt v) :
    t'.Ok ∧ t'.deadline = Function.update t.deadline w none := by
  have hlookup : ∀ v, v ≠ w → t'.heap.lookup v = t.heap.lookup v := fun v hv => by
    rw [hheap, Shelf.lookup_leave_of_ne hv, hothers v hv]
  have hleft : t'.heap.lookup w = none := by
    rw [hheap, Shelf.lookup_leave_self]
  refine ⟨⟨⟨?_, ?_⟩, fun v he hv => ?_⟩, ?_⟩
  · rw [hheap]
    exact hheaped.ordered
  · rw [hheap]
    exact hheaped.filed.leave
  · have hne : v ≠ w := by
      rintro rfl
      rw [hleft] at hv
      cases hv
    rw [hlookup v hne] at hv
    rw [hat v hne]
    exact h.cached v he hv
  · funext v
    by_cases hv : v = w
    · subst hv
      rw [Function.update_self, deadline, hleft]
      rfl
    · rw [Function.update_of_ne hv, deadline, hlookup v hv]
      rfl

omit [Add T] [Zero T] in
/-- `ev_timer_stop` -/
theorem Ok.stop (h : t.Ok) (mnNow : T) (hw : t.active w ≠ 0) :
    (t.stop mnNow w).Ok ∧ (t.stop mnNow w).deadline = Function.update t.deadline w none := by
  obtain ⟨hmem, howner⟩ := h.active_mem hw
  have hbounds : heap0 ≤ t.active w ∧ t.active w < t.timercnt + heap0 := hmem
  set last := t.timercnt - 1 + heap0 with hlast
  have hstop : t.stopAt = last + 1 := by
    rw [stopAt]
    omega
  have hheaped : Heaped t.heap (last + 1) ∅ := hstop ▸ h.heaped
  have hat : ∀ v, v ≠ w → (t.stop mnNow w).evAt v = t.evAt v := fun v hv => by
    rw [stop_evAt, Function.update_of_ne hv]
  by_cases hlt : t.active w < last
  · have hpos : t.active w ∈ positions last := ⟨hbounds.1, hlt⟩
    have hgap := hheaped.remove hpos
    rw [howner] at hgap
    set heap := t.heap.write (t.active w) (t.heap.entry last) with hwrite
    have hentry : heap.entry (t.active w) = t.heap.entry last := Shelf.write_entry_self
    rw [← hentry] at hgap
    have hclosed := adjustheap_spec hgap
    rw [hentry] at hclosed
    have hheap : (t.stop mnNow w).heap =
        (adjustheap heap (t.timercnt - 1) (t.active w)).leave w := by
      simp only [Timers.stop, ← hlast, if_pos hlt, setAt, hwrite]
    have hend : (t.stop mnNow w).stopAt = last := by
      simp only [Timers.stop, ← hlast, if_pos hlt, setAt, stopAt]
    refine h.of_leave hheap (hend ▸ hclosed.heaped) (fun v hv => ?_) hat
    by_cases hvlast : v = (t.heap.entry last).w
    · subst hvlast
      rw [hclosed.entry, hheaped.filed.lookup_owner
        ⟨by omega, Nat.lt_succ_self last⟩]
    · have hout : v ∉ insert w (∅ : Set ι) := by
        rintro (heq | hmem)
        · exact hv heq
        · exact hmem
      rw [hclosed.others v hout hvlast]
      have htake := h.heaped.filed.take hmem
      rw [howner] at htake
      exact htake.lookup_write (fun hmem => hmem.2 rfl) hout
  · have heq : t.active w = last := by omega
    have hheap : (t.stop mnNow w).heap = t.heap.leave w := by
      simp only [Timers.stop, ← hlast, if_neg hlt, setAt]
    have hend : (t.stop mnNow w).stopAt = last := by
      simp only [Timers.stop, ← hlast, if_neg hlt, setAt, stopAt]
    refine h.of_leave hheap ⟨?_, ?_⟩ (fun _ _ => rfl) hat
    · rw [hend]
      exact hheaped.ordered.mono (Nat.le_succ last)
    · have htake := h.heaped.filed.take hmem
      rw [howner, hstop, heq, positions_succ] at htake
      rw [hend]
      exact htake

/-! ## Who is active -/

omit [DecidableEq ι] [LinearOrder T] [Add T] [Sub T] [Zero T] in
theorem active_iff : t.active v ≠ 0 ↔ t.deadline v ≠ none :=
  not_congr deadline_eq_none_iff.symm

omit [Sub T] [Zero T] in
theorem Ok.start_active_iff (h : t.Ok) (mnNow : T) (hw : t.active w = 0) :
    (t.start mnNow w).active v ≠ 0 ↔ v = w ∨ t.active v ≠ 0 := by
  rw [active_iff, (h.start mnNow hw).2, active_iff]
  by_cases hv : v = w
  · simp [hv]
  · simp [hv]

omit [Add T] [Zero T] in
theorem Ok.stop_active_iff (h : t.Ok) (mnNow : T) (hw : t.active w ≠ 0) :
    (t.stop mnNow w).active v ≠ 0 ↔ v ≠ w ∧ t.active v ≠ 0 := by
  rw [active_iff, (h.stop mnNow hw).2, active_iff]
  by_cases hv : v = w
  · simp [hv]
  · simp [hv]

omit [Sub T] [Zero T] in
theorem Ok.reschedule_active_iff (h : t.Ok) (mnNow : T) (hw : t.active w ≠ 0) :
    (t.reschedule mnNow w).active v ≠ 0 ↔ t.active v ≠ 0 := by
  rw [active_iff, (h.reschedule mnNow hw).2, active_iff]
  by_cases hv : v = w
  · subst hv
    simpa using active_iff.mp hw
  · simp [hv]

omit [DecidableEq ι] [Add T] [Sub T] [Zero T] in
theorem Ok.root_active (h : t.Ok) (hcnt : t.timercnt ≠ 0) : t.active t.root ≠ 0 := by
  rw [active_iff, (h.first hcnt).1]
  exact Option.some_ne_none _

omit [Sub T] [Zero T] in
theorem Ok.rearm_active_iff (h : t.Ok) (mnNow : T) (hcnt : t.timercnt ≠ 0) :
    (t.rearm mnNow).active v ≠ 0 ↔ t.active v ≠ 0 := by
  rw [active_iff, (h.rearm mnNow hcnt).2, active_iff]
  by_cases hv : v = t.root
  · subst hv
    simpa using active_iff.mp (h.root_active hcnt)
  · simp [hv]

omit [Add T] [Sub T] [Zero T] in
/-- A timer that is not active can be set. -/
theorem Ok.setAt (h : t.Ok) (hw : t.active w = 0) (time : T) : (t.setAt w time).Ok where
  heaped := h.heaped
  cached v he hv := by
    change t.heap.lookup v = some he at hv
    have hne : v ≠ w := by
      rintro rfl
      rw [Shelf.lookup_eq_none_iff.mpr hw] at hv
      cases hv
    change he.anheAt = Function.update t.evAt w time v
    rw [Function.update_of_ne hne]
    exact h.cached v he hv

omit [DecidableEq ι] [Add T] [Sub T] [Zero T] in
/-- An active timer is on the heap. -/
theorem Ok.timercnt_ne_zero (h : t.Ok) (hw : t.active w ≠ 0) : t.timercnt ≠ 0 := by
  have hmem : heap0 ≤ t.active w ∧ t.active w < t.timercnt + heap0 := (h.active_mem hw).1
  omega

end Timers
end Ev
end Cyan
