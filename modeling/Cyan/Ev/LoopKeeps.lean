import Mathlib.Algebra.Order.BigOperators.Group.Finset
import Cyan.Ev.LoopOk

/-!
# Starting and stopping watchers

Every function that the program calls to start, stop or change a watcher keeps
the invariant of the loop.  `pipe_w` is the only watcher that `activecnt` does
not account for.
-/

namespace Cyan
namespace Ev

variable {ι T : Type*} [DecidableEq ι] [LinearOrder T] [Add T] [Sub T] [Zero T]

namespace Loop

variable {l l' : Loop ι T} {refs : Int} {w : ι} {x v : Watcher ι} {revents : UInt32}

/-! ## What a function writes -/

omit [Sub T] [Zero T] in
theorem evTimerStart_writes (l : Loop ι T) (w : ι) : ∃ activecnt queue timers,
    l.evTimerStart w =
      { l with activecnt := activecnt, queue := queue, timers := timers } := by
  unfold evTimerStart
  split <;> exact ⟨_, _, _, rfl⟩

omit [Add T] [Zero T] in
theorem evTimerStop_writes (l : Loop ι T) (w : ι) : ∃ activecnt queue timers,
    l.evTimerStop w = { l with activecnt := activecnt, queue := queue, timers := timers } := by
  unfold evTimerStop
  dsimp only
  split <;> exact ⟨_, _, _, rfl⟩

theorem evTimerAgain_writes (l : Loop ι T) (w : ι) : ∃ activecnt queue timers,
    l.evTimerAgain w = { l with activecnt := activecnt, queue := queue, timers := timers } := by
  unfold evTimerAgain
  dsimp only
  split
  · split
    · exact ⟨_, _, _, rfl⟩
    · obtain ⟨_, _, _, hstop⟩ := evTimerStop_writes (l.clearPending (.timer w)) w
      exact ⟨_, _, _, hstop⟩
  · split
    · obtain ⟨_, _, _, hstart⟩ := evTimerStart_writes
        { l.clearPending (.timer w) with timers := l.timers.setAt w (l.timers.evRepeat w) } w
      exact ⟨_, _, _, hstart⟩
    · exact ⟨_, _, _, rfl⟩

omit [Add T] [Zero T] in
/-- A watcher that is stopped leaves the queue. -/
theorem evTimerStop_queue (l : Loop ι T) (w : ι) :
    (l.evTimerStop w).queue = l.queue.clearPending (.timer w) := by
  unfold evTimerStop
  dsimp only
  split <;> rfl

section

omit [LinearOrder T] [Add T] [Sub T] [Zero T]

theorem evIoStart_writes (l : Loop ι T) (w : Option ι) : ∃ activecnt queue fds,
    l.evIoStart w = { l with activecnt := activecnt, queue := queue, fds := fds } := by
  unfold evIoStart
  split <;> exact ⟨_, _, _, rfl⟩

theorem evIoStop_writes (l : Loop ι T) (w : Option ι) : ∃ activecnt queue fds,
    l.evIoStop w = { l with activecnt := activecnt, queue := queue, fds := fds } := by
  unfold evIoStop
  dsimp only
  split <;> exact ⟨_, _, _, rfl⟩

theorem evIdleStart_writes (l : Loop ι T) (w : ι) : ∃ activecnt queue idles idleall,
    l.evIdleStart w =
      { l with activecnt := activecnt, queue := queue, idles := idles, idleall := idleall } := by
  unfold evIdleStart
  split <;> exact ⟨_, _, _, _, rfl⟩

theorem evIdleStop_writes (l : Loop ι T) (w : ι) : ∃ activecnt queue idles idleall,
    l.evIdleStop w =
      { l with activecnt := activecnt, queue := queue, idles := idles, idleall := idleall } := by
  unfold evIdleStop
  dsimp only
  split <;> exact ⟨_, _, _, _, rfl⟩

theorem evpipeInit_writes (l : Loop ι T) (fd : Nat) : ∃ activecnt queue fds,
    l.evpipeInit fd = { l with activecnt := activecnt, queue := queue, fds := fds } := by
  unfold evpipeInit
  split
  · exact ⟨_, _, _, rfl⟩
  · obtain ⟨_, _, _, hstart⟩ :=
      evIoStart_writes { l with fds := l.fds.set none fd evRead } none
    rw [hstart]
    exact ⟨_, _, _, rfl⟩

theorem evAsyncStart_writes (l : Loop ι T) (w : ι) (fd : Nat) : ∃ activecnt queue asyncs sent,
    l.evAsyncStart w fd =
      { l with
        activecnt := activecnt, queue := queue, fds := (l.evAsyncStart w fd).fds
        asyncs := asyncs, sent := sent } := by
  unfold evAsyncStart
  split
  · exact ⟨_, _, _, _, rfl⟩
  · obtain ⟨_, _, _, hinit⟩ :=
      evpipeInit_writes { l with sent := Function.update l.sent w false } fd
    dsimp only
    rw [hinit]
    exact ⟨_, _, _, _, rfl⟩

theorem evAsyncStop_writes (l : Loop ι T) (w : ι) : ∃ activecnt queue asyncs,
    l.evAsyncStop w = { l with activecnt := activecnt, queue := queue, asyncs := asyncs } := by
  unfold evAsyncStop
  dsimp only
  split <;> exact ⟨_, _, _, rfl⟩

theorem evIoStop_queue (l : Loop ι T) (w : Option ι) :
    (l.evIoStop w).queue = l.queue.clearPending (.io w) := by
  unfold evIoStop
  dsimp only
  split <;> rfl

theorem evIdleStop_queue (l : Loop ι T) (w : ι) :
    (l.evIdleStop w).queue = l.queue.clearPending (.idle w) := by
  unfold evIdleStop
  dsimp only
  split <;> rfl

theorem evAsyncStop_queue (l : Loop ι T) (w : ι) :
    (l.evAsyncStop w).queue = l.queue.clearPending (.async w) := by
  unfold evAsyncStop
  dsimp only
  split <;> rfl

end

/-! ## References -/

section

omit [DecidableEq ι] [Add T] [Sub T] [Zero T]

/-- `activecnt` has another value. -/
theorem Ok.recount (h : l.Ok refs) (cnt : Int) :
    Ok { l with activecnt := cnt } (refs + (cnt - l.activecnt)) := by
  refine ⟨h.manned.congr rfl fun v => ?_, h.timers, h.fds, h.idling.congr rfl rfl fun _ => rfl,
    h.asyncs, h.counted.finite, ?_⟩
  · cases v <;> exact Iff.rfl
  · have hcount := h.counted.activecnt
    simp only [ios] at hcount ⊢
    omega

theorem Ok.evRef (h : l.Ok refs) : l.evRef.Ok (refs + 1) := by
  have hcount := h.recount (l.activecnt + 1)
  rwa [show refs + (l.activecnt + 1 - l.activecnt) = refs + 1 by omega] at hcount

theorem Ok.evUnref (h : l.Ok refs) : l.evUnref.Ok (refs - 1) := by
  have hcount := h.recount (l.activecnt - 1)
  rwa [show refs + (l.activecnt - 1 - l.activecnt) = refs - 1 by omega] at hcount

end

/-! ## Timers -/

omit [DecidableEq ι] [Add T] [Sub T] [Zero T] in
/-- A timer has another time. -/
theorem Ok.retimed (h : l.Ok refs) {t : Timers ι T} (ht : t.Ok)
    (hactive : ∀ v, t.active v ≠ 0 ↔ l.timers.active v ≠ 0)
    (hcnt : t.timercnt = l.timers.timercnt) : Ok { l with timers := t } refs := by
  refine ⟨h.manned.congr rfl (active_congr hactive rfl rfl (fun _ => rfl) rfl), ht, h.fds,
    h.idling.congr rfl rfl fun _ => rfl, h.asyncs, h.counted.finite, ?_⟩
  rw [hcnt]
  exact h.counted.activecnt

section

omit [Add T] [Sub T] [Zero T]

theorem Ok.setRepeat (h : l.Ok refs) (w : ι) (rep : T) : (l.setRepeat w rep).Ok refs :=
  h.retimed ⟨h.timers.heaped, h.timers.cached⟩ (fun _ => Iff.rfl) rfl

theorem Ok.evTimerSet (h : l.Ok refs) (hw : l.timers.active w = 0) (after rep : T) :
    (l.evTimerSet w after rep).Ok refs :=
  Ok.setRepeat (h.retimed (h.timers.setAt hw after) (fun _ => Iff.rfl) rfl) w rep

end

omit [Sub T] [Zero T] in
theorem Ok.evTimerStart (h : l.Ok refs) (w : ι) : (l.evTimerStart w).Ok refs := by
  unfold Loop.evTimerStart
  by_cases hw : l.timers.active w = 0
  · rw [if_neg (not_not.mpr hw)]
    have habs : ∀ v, v ≠ .timer w → (l.queue.priAdjust (.timer w)).abspri v = l.queue.abspri v :=
      fun v hv => Queue.priAdjust_abspri_of_ne hv
    refine ⟨h.manned.start (x := .timer w) rfl fun v => ?_, (h.timers.start _ hw).1, h.fds,
      h.idling.congr rfl rfl fun v => ?_, h.asyncs, h.counted.finite, ?_⟩
    · cases v with
      | timer v => simpa [active, priAdjust, Loop.evRef] using h.timers.start_active_iff l.mnNow hw
      | io v => simp [active, priAdjust, Loop.evRef]
      | idle v => simp [active, priAdjust, Loop.evRef, idleActive, habs]
      | async v => simp [active, priAdjust, Loop.evRef]
    · exact habs _ (by simp)
    · have hcount := h.counted.activecnt
      simp only [priAdjust, Loop.evRef, Timers.start_timercnt, ios] at hcount ⊢
      push_cast
      omega
  · rw [if_pos hw]
    exact h

omit [Add T] [Zero T] in
theorem Ok.evTimerStop (h : l.Ok refs) (w : ι) : (l.evTimerStop w).Ok refs := by
  have hc := h.clearPending (.timer w)
  unfold Loop.evTimerStop
  by_cases hw : l.timers.active w = 0
  · simpa [Loop.clearPending, hw] using hc
  · have hnot : (l.clearPending (.timer w)).timers.active w ≠ 0 := hw
    rw [if_neg hnot]
    refine ⟨hc.manned.stopped (x := .timer w) ?_ ?_ fun v => ?_, (h.timers.stop _ hw).1, h.fds,
      hc.idling.congr rfl rfl fun _ => rfl, h.asyncs, h.counted.finite, ?_⟩
    · rfl
    · exact Queue.clearPending_pending_self
    · cases v with
      | timer v =>
          simpa [active, Loop.clearPending, Loop.evUnref] using
            h.timers.stop_active_iff (v := v) l.mnNow hw
      | io v => simp [active, Loop.clearPending, Loop.evUnref]
      | idle v => simp [active, Loop.clearPending, Loop.evUnref, idleActive]
      | async v => simp [active, Loop.clearPending, Loop.evUnref]
    · have hcount := h.counted.activecnt
      have hcnt := h.timers.timercnt_ne_zero hw
      simp only [Loop.clearPending, Loop.evUnref, Timers.stop_timercnt, ios] at hcount ⊢
      omega

theorem Ok.evTimerAgain (h : l.Ok refs) (w : ι) : (l.evTimerAgain w).Ok refs := by
  have hc := h.clearPending (.timer w)
  unfold Loop.evTimerAgain
  dsimp only
  split
  · rename_i hw
    split
    · exact hc.retimed (hc.timers.reschedule _ hw).1
        (fun v => hc.timers.reschedule_active_iff _ hw) rfl
    · exact hc.evTimerStop w
  · rename_i hw
    split
    · exact (hc.retimed (hc.timers.setAt (not_not.mp hw) _) (fun _ => Iff.rfl) rfl).evTimerStart w
    · exact hc

/-! ## Descriptors -/

omit [DecidableEq ι] [Add T] [Sub T] [Zero T] in
/-- The descriptors change, and nobody starts or stops. -/
theorem Ok.refds (h : l.Ok refs) {f : Fds (Option ι)} (hf : f.Ok)
    (hactive : f.active = l.fds.active) : Ok { l with fds := f } refs := by
  refine ⟨h.manned.congr rfl (active_congr (fun _ => Iff.rfl) hactive rfl (fun _ => rfl) rfl),
    h.timers, hf, h.idling.congr rfl rfl fun _ => rfl, h.asyncs, ?_, ?_⟩
  · simpa only [ios, hactive] using h.counted.finite
  · simpa only [ios, hactive] using h.counted.activecnt

section

omit [Add T] [Sub T] [Zero T]

theorem Ok.evIoSet (h : l.Ok refs) (hw : l.fds.active (some w) = 0) (fd : Int)
    (events : UInt32) : (l.evIoSet w fd events).Ok refs :=
  h.refds (h.fds.set hw fd events) rfl

theorem Ok.evIoModify (h : l.Ok refs) (w : ι) (events : UInt32) : (l.evIoModify w events).Ok refs :=
  h.refds (h.fds.modify (some w) events) rfl

end

omit [DecidableEq ι] [Add T] [Sub T] [Zero T] in
theorem Ok.close (h : l.Ok refs) (fd : Nat) : (l.close fd).Ok refs :=
  h.refds (h.fds.close fd) rfl

omit [LinearOrder T] [Add T] [Sub T] [Zero T] in
theorem Manned.evIoStart (h : l.Manned) (u : Option ι) :
    Manned { (l.priAdjust (.io u)).evRef with fds := l.fds.start u } := by
  refine h.start (x := .io u) rfl fun v => ?_
  have habs : ∀ w, (l.queue.priAdjust (.io u)).abspri (.idle w) = l.queue.abspri (.idle w) :=
    fun w => Queue.priAdjust_abspri_of_ne (by simp)
  cases v with
  | timer v => simp [active, priAdjust, Loop.evRef]
  | io v =>
      by_cases hv : v = u
      · simp [active, Fds.start_active, hv]
      · simp [active, Fds.start_active, hv]
  | idle v => simp [active, priAdjust, Loop.evRef, idleActive, habs]
  | async v => simp [active, priAdjust, Loop.evRef]

section

omit [Add T] [Sub T] [Zero T]

theorem Ok.evIoStart (h : l.Ok refs) (w : ι) (hfd : 0 ≤ l.fds.fd (some w)) :
    (l.evIoStart (some w)).Ok refs := by
  unfold Loop.evIoStart
  by_cases hw : l.fds.active (some w) = 0
  · rw [if_neg (not_not.mpr hw)]
    have hnot : w ∉ l.ios := fun hmem => hmem hw
    have hios : ios { (l.priAdjust (.io (some w))).evRef with fds := l.fds.start (some w) } =
        insert w l.ios := by
      ext v
      by_cases hv : v = w
      · simp [ios, Fds.start_active, hv]
      · simp [ios, Fds.start_active, hv]
    refine ⟨h.manned.evIoStart _, h.timers, h.fds.start hw hfd, h.idling.congr rfl rfl fun v => ?_,
      h.asyncs, ?_, ?_⟩
    · exact Queue.priAdjust_abspri_of_ne (by simp)
    · rw [hios]
      exact h.counted.finite.insert w
    · rw [hios, Set.ncard_insert_of_notMem hnot h.counted.finite]
      have hcount := h.counted.activecnt
      simp only [priAdjust, Loop.evRef]
      push_cast
      omega
  · rw [if_pos hw]
    exact h

/-- `pipe_w` does not count. -/
theorem Ok.evpipeInit (h : l.Ok refs) (fd : Nat) : (l.evpipeInit fd).Ok refs := by
  unfold Loop.evpipeInit
  by_cases hw : l.fds.active none = 0
  · rw [if_neg (not_not.mpr hw)]
    have hset := h.refds (h.fds.set hw fd evRead) rfl
    set l' : Loop ι T := { l with fds := l.fds.set none fd evRead } with hl'
    have hw' : l'.fds.active none = 0 := hw
    have hfd : 0 ≤ l'.fds.fd none := by
      simp [hl', Fds.set]
    suffices hstart : (l'.evIoStart none).Ok (refs + 1) by
      have hunref := hstart.evUnref
      rwa [Int.add_sub_cancel] at hunref
    unfold Loop.evIoStart
    rw [if_neg (not_not.mpr hw')]
    have hios : ios { (l'.priAdjust (.io none)).evRef with fds := l'.fds.start none } = l'.ios := by
      ext v
      simp [ios, Fds.start_active]
    refine ⟨hset.manned.evIoStart _, hset.timers, hset.fds.start hw' hfd,
      hset.idling.congr rfl rfl fun v => ?_, hset.asyncs, ?_, ?_⟩
    · exact Queue.priAdjust_abspri_of_ne (by simp)
    · rw [hios]
      exact hset.counted.finite
    · rw [hios]
      have hcount := hset.counted.activecnt
      simp only [priAdjust, Loop.evRef]
      omega
  · rw [if_pos hw]
    exact h

theorem Ok.evIoStop (h : l.Ok refs) (w : ι) : (l.evIoStop (some w)).Ok refs := by
  have hc := h.clearPending (.io (some w))
  unfold Loop.evIoStop
  by_cases hw : l.fds.active (some w) = 0
  · simpa [Loop.clearPending, hw] using hc
  · have hnot : (l.clearPending (.io (some w))).fds.active (some w) ≠ 0 := hw
    rw [if_neg hnot]
    have hios : ios { (l.clearPending (.io (some w))).evUnref with
        fds := (l.clearPending (.io (some w))).fds.stop (some w) } = l.ios \ {w} := by
      ext v
      by_cases hv : v = w
      · simp [ios, Fds.stop_active, hv]
      · simp [ios, Fds.stop_active, hv, Loop.clearPending]
    refine ⟨hc.manned.stopped (x := .io (some w)) ?_ ?_ fun v => ?_, h.timers, h.fds.stop hw,
      hc.idling.congr rfl rfl fun _ => rfl, h.asyncs, ?_, ?_⟩
    · rfl
    · exact Queue.clearPending_pending_self
    · cases v with
      | timer v => simp [active, Loop.clearPending, Loop.evUnref]
      | io v =>
          by_cases hv : v = some w
          · simp [active, Fds.stop_active, hv]
          · simp [active, Fds.stop_active, hv, Loop.clearPending]
      | idle v => simp [active, Loop.clearPending, Loop.evUnref, idleActive]
      | async v => simp [active, Loop.clearPending, Loop.evUnref]
    · rw [hios]
      exact h.counted.finite.sdiff
    · rw [hios]
      have hcard := Set.ncard_sdiff_singleton_add_one (a := w) (s := l.ios) hw h.counted.finite
      have hcount := h.counted.activecnt
      simp only [Loop.clearPending, Loop.evUnref]
      omega

end

/-! ## Idle watchers -/

omit [DecidableEq ι] in
/-- One array of idle watchers changes its length. -/
theorem sum_cnt_update (idles : Nat → WatcherArray ι) {pri : Nat} (hpri : pri < numpri)
    (a : WatcherArray ι) :
    ∑ p ∈ Finset.range numpri, (Function.update idles pri a p).cnt + (idles pri).cnt =
      ∑ p ∈ Finset.range numpri, (idles p).cnt + a.cnt := by
  have hmem : pri ∈ Finset.range numpri := Finset.mem_range.mpr hpri
  have hrest : ∑ p ∈ (Finset.range numpri).erase pri, (Function.update idles pri a p).cnt =
      ∑ p ∈ (Finset.range numpri).erase pri, (idles p).cnt :=
    Finset.sum_congr rfl fun p hp => by rw [Function.update_of_ne (Finset.ne_of_mem_erase hp)]
  rw [← Finset.add_sum_erase _ (fun p => (Function.update idles pri a p).cnt) hmem,
    ← Finset.add_sum_erase _ (fun p => (idles p).cnt) hmem, hrest, Function.update_self]
  omega

section

omit [DecidableEq ι] [LinearOrder T] [Add T] [Sub T] [Zero T]

/-- One array of idle watchers is another. -/
theorem Idling.refill {pri : Nat} {a : WatcherArray ι} (h : l.Idling) (hpri : pri < numpri)
    (ha : a.Ok) (hidles : l'.idles = Function.update l.idles pri a)
    (hall : l'.idleall + (l.idles pri).cnt = l.idleall + a.cnt)
    (habs : ∀ p v, (Function.update l.idles pri a p).active v ≠ 0 →
      p = l'.queue.abspri (.idle v)) : l'.Idling where
  ok p := by
    rw [hidles]
    by_cases hp : p = pri
    · subst hp
      rwa [Function.update_self]
    · rw [Function.update_of_ne hp]
      exact h.ok p
  abspri p v hv := habs p v (hidles ▸ hv)
  all := by
    have hsum := sum_cnt_update l.idles hpri a
    have hold := h.all
    rw [hidles]
    omega

/-- An inactive idle watcher is in no array. -/
theorem Idling.inactive (h : l.Idling) (hw : l.idleActive w = 0) (pri : Nat) :
    (l.idles pri).active w = 0 := by
  by_contra hactive
  rw [idleActive, ← h.abspri pri w hactive] at hw
  exact hactive hw

end

section

omit [Add T] [Sub T] [Zero T]

theorem Ok.evIdleStart (h : l.Ok refs) (w : ι) : (l.evIdleStart w).Ok refs := by
  unfold Loop.evIdleStart
  by_cases hw : l.idleActive w = 0
  · rw [if_neg (not_not.mpr hw)]
    have hnone := h.idling.inactive hw
    have hrange := Queue.priAdjust_inRange l.queue (.idle w)
    have htwice : (l.queue.priAdjust (.idle w)).priAdjust (.idle w) =
        l.queue.priAdjust (.idle w) := Queue.priAdjust_of_inRange hrange
    have habs : ∀ v, v ≠ w →
        (l.queue.priAdjust (.idle w)).abspri (.idle v) = l.queue.abspri (.idle v) :=
      fun v hv => Queue.priAdjust_abspri_of_ne (by simpa using hv)
    simp only [priAdjust, htwice]
    set pri := (l.queue.priAdjust (.idle w)).abspri (.idle w) with hpri
    have hold : ∀ p v, v ≠ w → (Function.update l.idles pri ((l.idles pri).start w) p).active v =
        (l.idles p).active v := by
      intro p v hv
      by_cases hp : p = pri
      · rw [hp, Function.update_self, WatcherArray.start_active, Function.update_of_ne hv]
      · rw [Function.update_of_ne hp]
    refine ⟨h.manned.start (x := .idle w) rfl fun v => ?_, h.timers, h.fds,
      h.idling.refill (Queue.abspri_lt hrange) ((h.idling.ok pri).start (hnone pri)) rfl ?_
        fun p v hv => ?_, h.asyncs, h.counted.finite, ?_⟩
    · cases v with
      | timer v => simp [active, Loop.evRef]
      | io v => simp [active, Loop.evRef]
      | idle v =>
          by_cases hv : v = w
          · subst hv
            simp [active, Loop.evRef, idleActive, ← hpri, WatcherArray.start_active]
          · simp [active, Loop.evRef, idleActive, habs v hv, hold _ v hv, hv]
      | async v => simp [active, Loop.evRef]
    · change l.idleall + 1 + (l.idles pri).cnt = l.idleall + ((l.idles pri).cnt + 1)
      omega
    · by_cases hvw : v = w
      · subst hvw
        change p = pri
        by_contra hp
        rw [Function.update_of_ne hp] at hv
        exact hv (hnone p)
      · rw [hold p v hvw] at hv
        exact (h.idling.abspri p v hv).trans (habs v hvw).symm
    · have hcount := h.counted.activecnt
      simp only [Loop.evRef, ios] at hcount ⊢
      push_cast
      omega
  · rw [if_pos hw]
    exact h

theorem Ok.evIdleStop (h : l.Ok refs) (w : ι) : (l.evIdleStop w).Ok refs := by
  have hc := h.clearPending (.idle w)
  have habs : ∀ v, (l.queue.clearPending (.idle w)).abspri v = l.queue.abspri v := fun v => by
    simp [Queue.abspri]
  unfold Loop.evIdleStop
  by_cases hw : l.idleActive w = 0
  · have hw' : (l.clearPending (.idle w)).idleActive w = 0 := by
      simpa [idleActive, Loop.clearPending, habs] using hw
    simpa [hw'] using hc
  · have hw' : (l.clearPending (.idle w)).idleActive w ≠ 0 := by
      simpa [idleActive, Loop.clearPending, habs] using hw
    rw [if_neg hw']
    have hlt := Queue.abspri_lt (h.manned.inRange (.idle w) (.inl hw))
    simp only [Loop.clearPending, habs]
    set pri := l.queue.abspri (.idle w) with hpri
    have hactive : (l.idles pri).active w ≠ 0 := hw
    have hrange := ((h.idling.ok pri).active_mem hactive).1
    obtain ⟨hself, hothers⟩ := (h.idling.ok pri).stop_active hactive
    have hold : ∀ p v, v ≠ w →
        ((Function.update l.idles pri ((l.idles pri).stop w) p).active v ≠ 0 ↔
          (l.idles p).active v ≠ 0) := by
      intro p v hv
      by_cases hp : p = pri
      · rw [hp, Function.update_self]
        exact hothers v hv
      · rw [Function.update_of_ne hp]
    have hcnt : (l.idles pri).cnt ≤ l.idleall := by
      rw [h.idling.all]
      exact Finset.single_le_sum (f := fun p => (l.idles p).cnt) (fun _ _ => Nat.zero_le _)
        (Finset.mem_range.mpr hlt)
    refine ⟨hc.manned.stopped (x := .idle w) rfl Queue.clearPending_pending_self fun v => ?_,
      h.timers, h.fds, hc.idling.refill hlt ((h.idling.ok pri).stop hactive) rfl ?_
        fun p v hv => ?_, h.asyncs, h.counted.finite, ?_⟩
    · cases v with
      | timer v => simp [active, Loop.clearPending, Loop.evUnref]
      | io v => simp [active, Loop.clearPending, Loop.evUnref]
      | idle v =>
          by_cases hv : v = w
          · subst hv
            simp [active, Loop.evUnref, idleActive, habs, ← hpri, hself]
          · simpa [active, Loop.clearPending, Loop.evUnref, idleActive, habs, hv] using hold _ v hv
      | async v => simp [active, Loop.clearPending, Loop.evUnref]
    · change l.idleall - 1 + (l.idles pri).cnt = l.idleall + ((l.idles pri).cnt - 1)
      omega
    · have hne : v ≠ w := by
        rintro rfl
        by_cases hp : p = pri
        · rw [hp, Function.update_self] at hv
          exact hv hself
        · rw [Function.update_of_ne hp] at hv
          exact hp (h.idling.abspri p v hv)
      exact (h.idling.abspri p v ((hold p v hne).mp hv)).trans (habs _).symm
    · have hcount := h.counted.activecnt
      simp only [Loop.evUnref, ios] at hcount ⊢
      omega

end

/-! ## Async watchers -/

omit [LinearOrder T] [Add T] [Sub T] [Zero T] in
/-- `evpipe_init` leaves the async watchers alone. -/
theorem evpipeInit_rest (l : Loop ι T) (fd : Nat) :
    (l.evpipeInit fd).asyncs = l.asyncs ∧ (l.evpipeInit fd).sent = l.sent := by
  obtain ⟨_, _, _, hinit⟩ := l.evpipeInit_writes fd
  exact ⟨by rw [hinit], by rw [hinit]⟩

section

omit [Add T] [Sub T] [Zero T]

theorem Ok.evAsyncStart (h : l.Ok refs) (w : ι) (fd : Nat) : (l.evAsyncStart w fd).Ok refs := by
  unfold Loop.evAsyncStart
  by_cases hw : l.asyncs.active w = 0
  · rw [if_neg (not_not.mpr hw)]
    have hclear : Ok { l with sent := Function.update l.sent w false } refs :=
      h.congr rfl rfl rfl rfl rfl rfl rfl
    have hpipe := hclear.evpipeInit fd
    have hasyncs := (evpipeInit_rest { l with sent := Function.update l.sent w false } fd).1
    set l₁ := Loop.evpipeInit { l with sent := Function.update l.sent w false } fd with hl₁
    have hw₁ : l₁.asyncs.active w = 0 := by rwa [hasyncs]
    have habs : ∀ v, (l₁.queue.priAdjust (.async w)).abspri (.idle v) = l₁.queue.abspri (.idle v) :=
      fun v => Queue.priAdjust_abspri_of_ne (by simp)
    refine ⟨hpipe.manned.start (x := .async w) rfl fun v => ?_, hpipe.timers, hpipe.fds,
      hpipe.idling.congr rfl rfl habs, hpipe.asyncs.start hw₁, hpipe.counted.finite, ?_⟩
    · cases v with
      | timer v => simp [active, priAdjust, Loop.evRef]
      | io v => simp [active, priAdjust, Loop.evRef]
      | idle v => simp [active, priAdjust, Loop.evRef, idleActive, habs]
      | async v =>
          by_cases hv : v = w
          · simp [active, WatcherArray.start_active, hv]
          · simp [active, WatcherArray.start_active, hv]
    · have hcount := hpipe.counted.activecnt
      simp only [priAdjust, Loop.evRef, ios, WatcherArray.start] at hcount ⊢
      push_cast
      omega
  · rw [if_pos hw]
    exact h

theorem Ok.evAsyncStop (h : l.Ok refs) (w : ι) : (l.evAsyncStop w).Ok refs := by
  have hc := h.clearPending (.async w)
  unfold Loop.evAsyncStop
  by_cases hw : l.asyncs.active w = 0
  · simpa [Loop.clearPending, hw] using hc
  · have hnot : (l.clearPending (.async w)).asyncs.active w ≠ 0 := hw
    rw [if_neg hnot]
    obtain ⟨hself, hothers⟩ := h.asyncs.stop_active hw
    refine ⟨hc.manned.stopped (x := .async w) rfl Queue.clearPending_pending_self fun v => ?_,
      h.timers, h.fds, hc.idling.congr rfl rfl fun _ => rfl, h.asyncs.stop hw,
      h.counted.finite, ?_⟩
    · cases v with
      | timer v => simp [active, Loop.clearPending, Loop.evUnref]
      | io v => simp [active, Loop.clearPending, Loop.evUnref]
      | idle v => simp [active, Loop.clearPending, Loop.evUnref, idleActive]
      | async v =>
          by_cases hv : v = w
          · subst hv
            simp [active, Loop.clearPending, hself]
          · simpa [active, Loop.clearPending, Loop.evUnref, hv] using hothers v hv
    · have hcount := h.counted.activecnt
      have hrange := (h.asyncs.active_mem hw).1
      simp only [Loop.clearPending, Loop.evUnref, ios, WatcherArray.stop] at hcount ⊢
      omega

end

end Loop
end Ev
end Cyan
