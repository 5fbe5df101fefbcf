import Mathlib.Data.Set.Card
import Mathlib.Algebra.BigOperators.Intervals
import Cyan.Ev.Loop

/-!
# What `ev_verify` asserts

`Loop.Ok refs` is the invariant of a loop, where `refs` is the part of `activecnt`
that no watcher accounts for.

* `Manned` relates the queue to the watchers: whoever is pending has a priority in
  the range, and is active unless it is one of those that `MayLapse`.
* `Idling` says that the idle watchers are in the arrays of their priorities, and
  `Counted` what `activecnt` counts.  `pipe_w` does not count.
* `Verified` lists the assertions of `ev_verify`, and `Ok.verified` derives them.
-/

namespace Cyan
namespace Ev

variable {ι T : Type*} [DecidableEq ι] [LinearOrder T] [Add T] [Sub T] [Zero T]

/-- Whom the queue may hold without being active: a timer may have stopped when it
expired, and `fd_kill` stops a watcher in front of feeding it. -/
def MayLapse : Watcher ι → UInt32 → Prop
  | .timer _, _ => True
  | .io _, events => events &&& evError ≠ 0
  | .idle _, _ => False
  | .async _, _ => False

omit [DecidableEq ι] in
theorem MayLapse.or {w : Watcher ι} {events : UInt32} (h : MayLapse w events) (revents : UInt32) :
    MayLapse w (events ||| revents) := by
  cases w with
  | timer w => trivial
  | io w =>
      intro hzero
      apply h
      rw [← UInt32.toNat_inj, UInt32.toNat_and, UInt32.toNat_or, Nat.and_or_distrib_right] at hzero
      rw [← UInt32.toNat_inj, UInt32.toNat_and]
      exact (Nat.or_eq_zero_iff.mp hzero).1
  | idle w => exact h
  | async w => exact h

namespace Loop

/-- The queue and the watchers. -/
structure Manned (l : Loop ι T) : Prop where
  sound : l.queue.Sound
  inRange : ∀ w, l.active w ≠ 0 ∨ l.queue.pending w ≠ 0 → l.queue.InRange w
  live : ∀ pri w events, (w, events) ∈ l.queue.agenda pri → l.active w ≠ 0 ∨ MayLapse w events

/-- The idle watchers are in the arrays of their priorities. -/
structure Idling (l : Loop ι T) : Prop where
  ok : ∀ pri, (l.idles pri).Ok
  abspri : ∀ pri w, (l.idles pri).active w ≠ 0 → pri = l.queue.abspri (.idle w)
  all : l.idleall = ∑ pri ∈ Finset.range numpri, (l.idles pri).cnt

/-- The io watchers of the program that are active. -/
def ios (l : Loop ι T) : Set ι :=
  {w | l.fds.active (some w) ≠ 0}

/-- What `activecnt` counts. -/
structure Counted (l : Loop ι T) (refs : Int) : Prop where
  finite : l.ios.Finite
  activecnt : l.activecnt =
    refs + l.timers.timercnt + l.ios.ncard + l.idleall + l.asyncs.cnt

/-- The invariant of a loop. -/
structure Ok (l : Loop ι T) (refs : Int) : Prop where
  manned : l.Manned
  timers : l.timers.Ok
  fds : l.fds.Ok
  idling : l.Idling
  asyncs : l.asyncs.Ok
  counted : l.Counted refs

variable {l l' : Loop ι T} {refs : Int} {w : ι} {x v : Watcher ι} {revents : UInt32}

/-! ## The queue -/

section

omit [DecidableEq ι] [LinearOrder T] [Add T] [Sub T] [Zero T]

/-- Who is active, by the parts of a loop. -/
theorem active_congr (htimers : ∀ w, l'.timers.active w ≠ 0 ↔ l.timers.active w ≠ 0)
    (hfds : l'.fds.active = l.fds.active) (hidles : l'.idles = l.idles)
    (habs : ∀ w, l'.queue.abspri (.idle w) = l.queue.abspri (.idle w))
    (hasyncs : l'.asyncs = l.asyncs) (v : Watcher ι) : l'.active v ≠ 0 ↔ l.active v ≠ 0 := by
  cases v with
  | timer w => exact htimers w
  | io w => rw [active, active, hfds]
  | idle w => rw [active, active, idleActive, idleActive, hidles, habs]
  | async w => rw [active, active, hasyncs]

/-- Only the queue and who is active matter. -/
theorem Manned.congr (h : l.Manned) (hqueue : l'.queue = l.queue)
    (hactive : ∀ v, l'.active v ≠ 0 ↔ l.active v ≠ 0) : l'.Manned where
  sound := hqueue ▸ h.sound
  inRange v hv := by
    rw [hactive, hqueue] at hv
    rw [hqueue]
    exact h.inRange v hv
  live pri v events hv := by
    rw [hqueue] at hv
    rw [hactive]
    exact h.live pri v events hv

end

section

omit [LinearOrder T] [Add T] [Sub T] [Zero T]

/-- A watcher becomes active. -/
theorem Manned.start (h : l.Manned) (hqueue : l'.queue = l.queue.priAdjust x)
    (hactive : ∀ v, l'.active v ≠ 0 ↔ v = x ∨ l.active v ≠ 0) : l'.Manned where
  sound := hqueue ▸ h.sound.priAdjust fun hx => h.inRange x (.inr hx)
  inRange v hv := by
    rw [hqueue] at hv ⊢
    by_cases hvx : v = x
    · exact hvx ▸ Queue.priAdjust_inRange ..
    · rw [hactive] at hv
      have hold : l.queue.InRange v := h.inRange v (hv.imp (fun ha => ha.resolve_left hvx) id)
      rwa [Queue.InRange, Queue.priAdjust_priority_of_ne hvx]
  live pri v events hv := by
    rw [hqueue] at hv
    rw [hactive]
    exact (h.live pri v events hv).imp .inr id

/-- A watcher is not pending any more. -/
theorem Manned.clear (h : l.Manned) (hqueue : l'.queue = l.queue.clearPending x)
    (hactive : ∀ v, l'.active v ≠ 0 ↔ l.active v ≠ 0) : l'.Manned where
  sound := hqueue ▸ h.sound.clearPending x
  inRange v hv := by
    rw [hqueue, hactive] at hv
    rw [hqueue, Queue.InRange, Queue.clearPending_priority]
    exact h.inRange v (hv.imp id fun hp => (Queue.pending_of_clearPending hp).2)
  live pri v events hv := by
    rw [hqueue, h.sound.agenda_clearPending, mem_cancel] at hv
    rw [hactive]
    exact h.live pri v events hv.1

omit [DecidableEq ι] in
/-- A watcher that is not pending stops. -/
theorem Manned.stopped (h : l.Manned) (hqueue : l'.queue = l.queue)
    (hpending : l.queue.pending x = 0)
    (hactive : ∀ v, l'.active v ≠ 0 ↔ v ≠ x ∧ l.active v ≠ 0) : l'.Manned where
  sound := hqueue ▸ h.sound
  inRange v hv := by
    rw [hqueue, hactive] at hv
    rw [hqueue]
    exact h.inRange v (hv.imp And.right id)
  live pri v events hv := by
    rw [hqueue] at hv
    have hne : v ≠ x := by
      rintro rfl
      exact h.sound.pending_of_mem (List.mem_map_of_mem hv) hpending
    rw [hactive]
    exact (h.live pri v events hv).imp (fun ha => ⟨hne, ha⟩) id

/-- A watcher is fed. -/
theorem Manned.feed (h : l.Manned) (hqueue : l'.queue = l.queue.feedEvent x revents)
    (hactive : ∀ v, l'.active v ≠ 0 ↔ l.active v ≠ 0) (hrange : l.queue.InRange x)
    (hx : l.active x ≠ 0 ∨ MayLapse x revents) : l'.Manned where
  sound := hqueue ▸ h.sound.feedEvent x revents
  inRange v hv := by
    rw [hqueue] at hv ⊢
    rw [Queue.InRange, Queue.feedEvent_priority]
    rcases hv with ha | hp
    · exact h.inRange v (.inl ((hactive v).mp ha))
    · rcases Queue.pending_of_feedEvent hp with rfl | hold
      · exact hrange
      · exact h.inRange v (.inr hold)
  live pri v events hv := by
    rw [hqueue, h.sound.agenda_feedEvent] at hv
    rw [hactive]
    split at hv
    · rcases mem_post hv with hold | hnew | ⟨old, hold, hboth⟩
      · exact h.live pri v events hold
      · cases hnew
        exact hx
      · cases hboth
        exact (h.live pri x old hold).imp id fun hexc => hexc.or revents
    · exact h.live pri v events hv

/-- The next watcher is taken off the queue. -/
theorem Manned.take {pri : Nat} {p : AnPending (Watcher ι)} (h : l.Manned)
    (htake : l.queue.takePending pri = some (p, l'.queue))
    (hactive : ∀ v, l'.active v ≠ 0 ↔ l.active v ≠ 0) : l'.Manned where
  sound := h.sound.takePending htake
  inRange v hv := by
    obtain ⟨hpriority, hpending, -⟩ := Queue.takePending_pending htake
    rw [Queue.InRange, hpriority]
    exact h.inRange v (hv.imp (hactive v).mp (hpending v))
  live pri' v events hv := by
    rw [hactive]
    refine h.live pri' v events ?_
    rw [Queue.agenda_takePending htake pri']
    exact List.mem_append_left _ hv

end

omit [DecidableEq ι] [LinearOrder T] [Add T] [Sub T] [Zero T] in
/-- Only the arrays and the priorities matter. -/
theorem Idling.congr (h : l.Idling) (hidles : l'.idles = l.idles) (hall : l'.idleall = l.idleall)
    (habs : ∀ w, l'.queue.abspri (.idle w) = l.queue.abspri (.idle w)) : l'.Idling where
  ok := hidles ▸ h.ok
  abspri pri w hw := by
    rw [hidles] at hw
    rw [habs]
    exact h.abspri pri w hw
  all := by
    rw [hall, hidles]
    exact h.all

section

omit [DecidableEq ι] [Add T] [Sub T] [Zero T]

/-- Nobody starts or stops, and the queue has another state. -/
theorem Ok.requeue (h : l.Ok refs) {q : Queue (Watcher ι)}
    (hpriority : ∀ w, q.abspri (.idle w) = l.queue.abspri (.idle w))
    (hmanned : (∀ v, active { l with queue := q } v ≠ 0 ↔ l.active v ≠ 0) →
      Manned { l with queue := q }) : Ok { l with queue := q } refs where
  manned := hmanned (active_congr (fun _ => Iff.rfl) rfl rfl hpriority rfl)
  timers := h.timers
  fds := h.fds
  idling := h.idling.congr rfl rfl hpriority
  asyncs := h.asyncs
  counted := ⟨h.counted.finite, h.counted.activecnt⟩

/-- Members that the invariant is not about change. -/
theorem Ok.congr (h : l.Ok refs) (hqueue : l'.queue = l.queue) (htimers : l'.timers = l.timers)
    (hfds : l'.fds = l.fds) (hidles : l'.idles = l.idles) (hall : l'.idleall = l.idleall)
    (hasyncs : l'.asyncs = l.asyncs) (hcnt : l'.activecnt = l.activecnt) : l'.Ok refs where
  manned := h.manned.congr hqueue
    (active_congr (fun _ => by rw [htimers]) (by rw [hfds]) hidles (fun _ => by rw [hqueue])
      hasyncs)
  timers := htimers ▸ h.timers
  fds := hfds ▸ h.fds
  idling := h.idling.congr hidles hall fun _ => by rw [hqueue]
  asyncs := hasyncs ▸ h.asyncs
  counted := by
    have hios : l'.ios = l.ios := by rw [ios, ios, hfds]
    refine ⟨hios ▸ h.counted.finite, ?_⟩
    rw [hios, hcnt, htimers, hall, hasyncs]
    exact h.counted.activecnt

end

section

omit [Add T] [Sub T] [Zero T]

theorem Ok.feedEvent (h : l.Ok refs) (hrange : l.queue.InRange x)
    (hx : l.active x ≠ 0 ∨ MayLapse x revents) : (l.feedEvent x revents).Ok refs :=
  h.requeue (fun w => by simp [Queue.abspri]) fun hactive => h.manned.feed rfl hactive hrange hx

theorem Ok.clearPending (h : l.Ok refs) (x : Watcher ι) : (l.clearPending x).Ok refs :=
  h.requeue (fun w => by simp [Queue.abspri]) fun hactive => h.manned.clear rfl hactive

theorem Ok.takePending {pri : Nat} {p : AnPending (Watcher ι)} {q : Queue (Watcher ι)}
    (h : l.Ok refs) (htake : l.queue.takePending pri = some (p, q)) :
    Ok { l with queue := q } refs :=
  h.requeue (fun w => by rw [Queue.abspri, (Queue.takePending_pending htake).1]; rfl)
    fun hactive => h.manned.take htake hactive

end

omit [LinearOrder T] [Add T] [Sub T] [Zero T] in
/-- The next watcher is active, or may have lapsed. -/
theorem Manned.next {pri : Nat} {q : Queue (Watcher ι)} {events : UInt32} (h : l.Manned)
    (htake : l.queue.takePending pri = some (⟨some x, events⟩, q)) :
    l.active x ≠ 0 ∨ MayLapse x events :=
  h.live pri x events (Queue.mem_agenda_of_takePending htake)

omit [Add T] [Sub T] [Zero T] in
/-- `ev_set_priority`, for a watcher that is neither active nor pending. -/
theorem Ok.evSetPriority (h : l.Ok refs) (hactive : l.active x = 0)
    (hpending : l.queue.pending x = 0) (pri : Int) : (l.evSetPriority x pri).Ok refs := by
  have habs : ∀ v, v ≠ x → (l.evSetPriority x pri).queue.abspri v = l.queue.abspri v :=
    fun v hv => Queue.setPriority_abspri_of_ne hv
  have hidle : ∀ pri w, (l.idles pri).active w ≠ 0 → Watcher.idle w ≠ x := by
    rintro pri w hw rfl
    rw [active, idleActive, ← h.idling.abspri pri w hw] at hactive
    exact hw hactive
  have hself : ∀ w, x = .idle w → ∀ pri, (l.idles pri).active w = 0 := by
    rintro w rfl pri
    by_contra hw
    exact hidle pri w hw rfl
  have hsame : ∀ v, (l.evSetPriority x pri).active v ≠ 0 ↔ l.active v ≠ 0 := by
    intro v
    cases v with
    | timer v => exact Iff.rfl
    | io v => exact Iff.rfl
    | idle v =>
        by_cases hv : Watcher.idle v = x
        · have hnone := hself v hv.symm
          have hzero : (l.evSetPriority x pri).active (.idle v) = 0 := hnone _
          have hzero' : l.active (.idle v) = 0 := hnone _
          simp only [hzero, hzero']
        · simp only [active, idleActive, habs _ hv]
          rfl
    | async v => exact Iff.rfl
  refine ⟨⟨?_, fun v hv => ?_, fun pri' v events hv => ?_⟩, h.timers, h.fds,
    ⟨h.idling.ok, fun pri' w hw => ?_, h.idling.all⟩, h.asyncs, h.counted.finite,
    h.counted.activecnt⟩
  · exact h.manned.sound.setPriority hpending pri
  · have hne : v ≠ x := by
      rintro rfl
      rw [hsame] at hv
      exact hv.elim (fun ha => ha hactive) fun hp => hp hpending
    have hold : (l.evSetPriority x pri).queue.priority v = l.queue.priority v :=
      Queue.setPriority_priority_of_ne hne
    rw [hsame] at hv
    rw [Queue.InRange, hold]
    exact h.manned.inRange v hv
  · rw [hsame]
    exact h.manned.live pri' v events hv
  · rw [habs _ (hidle pri' w hw)]
    exact h.idling.abspri pri' w hw

/-! ## The assertions -/

/-- `verify_watcher` -/
structure VerifyWatcher (l : Loop ι T) (x : Watcher ι) : Prop where
  /-- "watcher has invalid priority" -/
  abspri : 0 ≤ l.queue.priority x - evMinpri ∧ l.queue.priority x - evMinpri < numpri
  /-- "pending watcher not on pending queue" -/
  pending : l.queue.pending x ≠ 0 →
    l.queue.holder (l.queue.abspri x) (l.queue.pending x - 1) = some x

/-- `array_verify` -/
def ArrayVerify (l : Loop ι T) (a : WatcherArray ι) (watcher : ι → Watcher ι) : Prop :=
  ∀ k, 1 ≤ k → k ≤ a.cnt →
    a.active (a.shelf.entry k) = k ∧ l.VerifyWatcher (watcher (a.shelf.entry k))

/-- `ev_verify` -/
structure Verified (l : Loop ι T) : Prop where
  activecnt : -1 ≤ l.activecnt
  /-- "inactive fd watcher on anfd list" and "fd mismatch between watcher and anfd" -/
  anfds : ∀ fd, ∀ u ∈ (l.fds.anfds fd).head,
    l.VerifyWatcher (.io u) ∧ l.fds.active u = 1 ∧ l.fds.fd u = fd
  /-- "io watcher list contains a loop" -/
  nodup : ∀ fd, (l.fds.anfds fd).head.Nodup
  /-- "active index mismatch in heap" and "heap at cache mismatch" -/
  heap : ∀ k ∈ positions l.timers.stopAt,
    l.timers.active (l.timers.heap.entry k).w = k ∧
      l.timers.heap.key k = l.timers.evAt (l.timers.heap.entry k).w ∧
      l.VerifyWatcher (.timer (l.timers.heap.entry k).w)
  /-- "heap condition violated" -/
  ordered : ∀ k ∈ positions l.timers.stopAt, k = heap0 ∨
    l.timers.heap.key (hparent k) ≤ l.timers.heap.key k
  idles : ∀ pri, pri < numpri → l.ArrayVerify (l.idles pri) .idle
  asyncs : l.ArrayVerify l.asyncs .async

section

omit [DecidableEq ι] [LinearOrder T] [Add T] [Sub T] [Zero T]

theorem Manned.verifyWatcher (h : l.Manned) (hx : l.active x ≠ 0) : l.VerifyWatcher x := by
  refine ⟨?_, h.sound.own x⟩
  obtain ⟨hlow, hhigh⟩ := h.inRange x (.inl hx)
  unfold numpri evMaxpri evMinpri at *
  omega

/-- An active watcher is in its array. -/
theorem Manned.arrayVerify {a : WatcherArray ι} {watcher : ι → Watcher ι} (h : l.Manned)
    (ha : a.Ok) (hactive : ∀ w, a.active w ≠ 0 → l.active (watcher w) ≠ 0) :
    l.ArrayVerify a watcher := by
  intro k hk hcnt
  have hentry := ha.active_entry hk hcnt
  refine ⟨hentry, h.verifyWatcher (hactive _ ?_)⟩
  rw [hentry]
  exact Nat.one_le_iff_ne_zero.mp hk

end

omit [DecidableEq ι] [Add T] [Sub T] [Zero T] in
/-- The invariant implies what `ev_verify` asserts. -/
theorem Ok.verified (h : l.Ok refs) (hrefs : -1 ≤ refs) : l.Verified where
  activecnt := by
    have hcount := h.counted.activecnt
    omega
  anfds fd u hu := by
    obtain ⟨hactive, hfd⟩ := (h.fds.listed u fd).mp hu
    exact ⟨h.manned.verifyWatcher hactive,
      Nat.le_antisymm (h.fds.one u) (Nat.one_le_iff_ne_zero.mpr hactive), hfd⟩
  nodup := h.fds.nodup
  heap k hk := by
    obtain ⟨hindex, hdeadline⟩ := h.timers.deadline_entry hk
    have hactive : l.timers.active (l.timers.heap.entry k).w ≠ 0 := by
      rw [hindex]
      exact Nat.ne_of_gt (Nat.lt_of_lt_of_le (by decide) hk.1)
    rw [h.timers.deadline_of_active hactive] at hdeadline
    exact ⟨hindex, (Option.some.inj hdeadline).symm, h.manned.verifyWatcher hactive⟩
  ordered k hk := by
    rcases Nat.eq_or_lt_of_le hk.1 with heq | hlt
    · exact .inl heq.symm
    · exact .inr (h.timers.heaped.ordered k hlt hk.2)
  idles pri _ := h.manned.arrayVerify (h.idling.ok pri) fun w hw => by
    rw [active, idleActive, ← h.idling.abspri pri w hw]
    exact hw
  asyncs := h.manned.arrayVerify h.asyncs fun _ hw => hw

end Loop
end Ev
end Cyan
