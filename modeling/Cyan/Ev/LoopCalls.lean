import Cyan.Ev.LoopKeeps
import Cyan.Ev.Run

/-!
# What a call changes

Whatever the program calls, the queue only gets quieter, `pipe_w` stays, nothing
that the loop shares with the threads is written but `sent` of a watcher that
starts, and the descriptors stay in sync.
-/

namespace Cyan
namespace Ev

variable {ι T : Type*} [DecidableEq ι] [LinearOrder T] [Add T] [Sub T] [Zero T]

namespace Loop

variable {l l' l'' : Loop ι T} {refs : Int} {w : ι} {c : Call ι T}

/-- `pipe_w` waits for `EV_READ`. -/
def PipeReads (l : Loop ι T) : Prop :=
  l.fds.active none ≠ 0 → l.fds.events none = evRead

/-- A send to `w` that the loop has not queued. -/
def Hailed (l : Loop ι T) (w : ι) : Prop :=
  l.asyncs.active w ≠ 0 ∧ l.sent w = true

/-- What a call may change; watchers with `P` may be taken off the queue. -/
structure Called (P : Watcher ι → Prop) (l l' : Loop ι T) : Prop where
  queue : Queue.Quieter P l.queue l'.queue
  rfeeds : l'.rfeeds = l.rfeeds
  asyncPending : l'.asyncPending = l.asyncPending
  pipeWriteWanted : l'.pipeWriteWanted = l.pipeWriteWanted
  pipeWriteSkipped : l'.pipeWriteSkipped = l.pipeWriteSkipped
  evpipe : l'.evpipe = l.evpipe
  sync : l.fds.InSync → l'.fds.InSync
  pipe : l.fds.active none ≠ 0 → l'.fds.active none ≠ 0
  reads : l.PipeReads → l'.PipeReads
  /-- no send is made up -/
  sent : ∀ w, l'.Hailed w → l.Hailed w
  /-- and none is lost, but when the watcher is stopped -/
  hailed : ∀ w, l.Hailed w → l'.Hailed w ∨ P (.async w)

namespace Called

variable {P P' : Watcher ι → Prop}

section

omit [DecidableEq ι] [LinearOrder T] [Add T] [Sub T] [Zero T]

theorem refl (P : Watcher ι → Prop) (l : Loop ι T) : Called P l l :=
  ⟨.refl _ _, rfl, rfl, rfl, rfl, rfl, id, id, id, fun _ => id, fun _ => .inl⟩

theorem trans (h : Called P l l') (h' : Called P l' l'') : Called P l l'' where
  queue := h.queue.trans h'.queue
  rfeeds := h'.rfeeds.trans h.rfeeds
  asyncPending := h'.asyncPending.trans h.asyncPending
  pipeWriteWanted := h'.pipeWriteWanted.trans h.pipeWriteWanted
  pipeWriteSkipped := h'.pipeWriteSkipped.trans h.pipeWriteSkipped
  evpipe := h'.evpipe.trans h.evpipe
  sync hs := h'.sync (h.sync hs)
  pipe hp := h'.pipe (h.pipe hp)
  reads hr := h'.reads (h.reads hr)
  sent w hw := h.sent w (h'.sent w hw)
  hailed w hw := (h.hailed w hw).elim (h'.hailed w) .inr

/-- Only the queue and what the threads do not see is another. -/
theorem requeue (hqueue : Queue.Quieter P l.queue l'.queue) (hfds : l'.fds = l.fds)
    (hasyncs : l'.asyncs = l.asyncs) (hsent : l'.sent = l.sent) (hrfeeds : l'.rfeeds = l.rfeeds)
    (hpending : l'.asyncPending = l.asyncPending)
    (hwanted : l'.pipeWriteWanted = l.pipeWriteWanted)
    (hskipped : l'.pipeWriteSkipped = l.pipeWriteSkipped) (hevpipe : l'.evpipe = l.evpipe) :
    Called P l l' :=
  ⟨hqueue, hrfeeds, hpending, hwanted, hskipped, hevpipe, fun h => hfds ▸ h,
    fun h => hfds ▸ h, fun hr => by rwa [PipeReads, hfds],
    fun w hw => by rwa [Hailed, hasyncs, hsent] at hw,
    fun w hw => .inl (by rwa [Hailed, hasyncs, hsent])⟩

end

omit [Add T] [Sub T] [Zero T] in
theorem clearPending (h : l.Ok refs) (x : Watcher ι) : Called (· = x) l (l.clearPending x) :=
  requeue (.clearPending h.manned.sound x) rfl rfl rfl rfl rfl rfl rfl rfl

omit [Sub T] [Zero T] in
theorem evTimerStart (P : Watcher ι → Prop) (l : Loop ι T) (w : ι) :
    Called P l (l.evTimerStart w) := by
  unfold Loop.evTimerStart
  split
  · exact refl _ l
  · exact requeue (.priAdjust _ _ _) rfl rfl rfl rfl rfl rfl rfl rfl

omit [Add T] [Zero T] in
theorem evTimerStop (h : l.Ok refs) (w : ι) : Called (· = .timer w) l (l.evTimerStop w) := by
  unfold Loop.evTimerStop
  dsimp only
  split
  · exact clearPending h _
  · exact requeue (.clearPending h.manned.sound _) rfl rfl rfl rfl rfl rfl rfl rfl

theorem evTimerAgain (h : l.Ok refs) (w : ι) : Called (· = .timer w) l (l.evTimerAgain w) := by
  have hc := clearPending h (.timer w)
  unfold Loop.evTimerAgain
  dsimp only
  split
  · split
    · exact requeue (.clearPending h.manned.sound _) rfl rfl rfl rfl rfl rfl rfl rfl
    · exact hc.trans (evTimerStop (h.clearPending _) w)
  · split
    · refine hc.trans (.trans ?_ (evTimerStart _ _ w))
      exact requeue (.refl _ _) rfl rfl rfl rfl rfl rfl rfl rfl
    · exact hc

omit [DecidableEq ι] [LinearOrder T] [Add T] [Sub T] [Zero T] in
/-- A watcher other than `pipe_w` has another descriptor or other events. -/
theorem refds {f : Fds (Option ι)} (hsync : l.fds.InSync → f.InSync)
    (hactive : f.active none = l.fds.active none) (hevents : f.events none = l.fds.events none) :
    Called P l { l with fds := f } := by
  refine ⟨.refl _ _, rfl, rfl, rfl, rfl, rfl, hsync, fun hp => ?_, fun hr => ?_, fun _ => id,
    fun _ => .inl⟩
  · rwa [hactive]
  · rw [PipeReads, hactive, hevents]
    exact hr

section

omit [Add T] [Sub T] [Zero T]

theorem evIoStart (h : l.Ok refs) {w : ι} (hfd : 0 ≤ l.fds.fd (some w))
    (hstale : l.fds.stale (some w) = false) : Called P l (l.evIoStart (some w)) := by
  unfold Loop.evIoStart
  by_cases hw : l.fds.active (some w) = 0
  · rw [if_neg (not_not.mpr hw)]
    have hcalled : Called P l { l with fds := l.fds.start (some w) } := by
      refine refds (fun hs => hs.start h.fds hw hfd hstale) ?_ ?_
      · rw [Fds.start_active, Function.update_of_ne (Option.some_ne_none w).symm]
      · rw [Fds.start_events, Function.update_of_ne (Option.some_ne_none w).symm]
    exact { hcalled with queue := .priAdjust _ _ _ }
  · rw [if_pos hw]
    exact refl _ l

theorem evIoStop (h : l.Ok refs) (w : ι) : Called (· = .io (some w)) l (l.evIoStop (some w)) := by
  unfold Loop.evIoStop
  dsimp only
  split
  · exact clearPending h _
  · rename_i hw
    have hcalled : Called (· = .io (some w)) l { l with fds := l.fds.stop (some w) } := by
      refine refds (fun hs => hs.stop h.fds hw) ?_ ?_
      · rw [Fds.stop_active, Function.update_of_ne (Option.some_ne_none w).symm]
      · rw [Fds.stop_events]
    exact { hcalled with queue := .clearPending h.manned.sound _ }

end

omit [LinearOrder T] [Add T] [Sub T] [Zero T] in
theorem evIdleStart (P : Watcher ι → Prop) (l : Loop ι T) (w : ι) :
    Called P l (l.evIdleStart w) := by
  unfold Loop.evIdleStart
  split
  · exact refl _ l
  · exact requeue ((Queue.Quieter.priAdjust _ _ _).trans (.priAdjust _ _ _)) rfl rfl rfl rfl rfl rfl
      rfl rfl

section

omit [Add T] [Sub T] [Zero T]

theorem evIdleStop (h : l.Ok refs) (w : ι) : Called (· = .idle w) l (l.evIdleStop w) := by
  unfold Loop.evIdleStop
  dsimp only
  split
  · exact clearPending h _
  · exact requeue (.clearPending h.manned.sound _) rfl rfl rfl rfl rfl rfl rfl rfl

theorem evpipeInit (h : l.Ok refs) (fd : Nat) : Called P l (l.evpipeInit fd) := by
  unfold Loop.evpipeInit
  split
  · exact refl _ l
  · rename_i hw
    have hzero : l.fds.active none = 0 := not_not.mp hw
    have hset := h.fds.set hzero fd evRead
    unfold Loop.evIoStart
    rw [if_neg (show ¬(l.fds.set none fd evRead).active none ≠ 0 from hw)]
    refine ⟨.priAdjust _ _ _, rfl, rfl, rfl, rfl, rfl, fun hs => ?_, fun hp => absurd hzero hp,
      fun _ _ => ?_, fun _ => id, fun _ => .inl⟩
    · exact (hs.set h.fds hzero fd evRead).start hset hzero (by simp [Fds.set]) (by simp [Fds.set])
    · change ((l.fds.set none fd evRead).start none).events none = evRead
      rw [Fds.start_events, Function.update_self]
      change Function.update l.fds.events none (evRead ||| evIoFdSet) none &&& ~~~evIoFdSet = evRead
      rw [Function.update_self]
      decide

theorem evAsyncStart (h : l.Ok refs) (w : ι) (fd : Nat) : Called P l (l.evAsyncStart w fd) := by
  unfold Loop.evAsyncStart
  by_cases hw : l.asyncs.active w = 0
  · rw [if_neg (not_not.mpr hw)]
    have hclear : Ok { l with sent := Function.update l.sent w false } refs :=
      h.congr rfl rfl rfl rfl rfl rfl rfl
    have hpipe := evpipeInit (P := P) hclear fd
    refine ⟨hpipe.queue.trans (.priAdjust _ _ _), hpipe.rfeeds, hpipe.asyncPending,
      hpipe.pipeWriteWanted, hpipe.pipeWriteSkipped, hpipe.evpipe, hpipe.sync, hpipe.pipe,
      hpipe.reads, fun v hv => ?_, fun v hv => .inl ?_⟩
    all_goals obtain ⟨hasyncs, hsent⟩ :=
      evpipeInit_rest { l with sent := Function.update l.sent w false } fd
    all_goals set l₁ := Loop.evpipeInit { l with sent := Function.update l.sent w false } fd
    · have hactive : (l₁.asyncs.start w).active v ≠ 0 := hv.1
      have hv' : l₁.sent v = true := hv.2
      rw [hsent] at hv'
      rw [hasyncs, WatcherArray.start_active] at hactive
      have hne : v ≠ w := by
        rintro rfl
        simp at hv'
      simp only [Function.update_of_ne hne] at hactive hv'
      exact ⟨hactive, hv'⟩
    · have hne : v ≠ w := by
        rintro rfl
        exact hv.1 hw
      constructor
      · change (l₁.asyncs.start w).active v ≠ 0
        rw [hasyncs, WatcherArray.start_active, Function.update_of_ne hne]
        exact hv.1
      · change l₁.sent v = true
        rw [hsent]
        exact (Function.update_of_ne hne ..).trans hv.2
  · rw [if_pos hw]
    exact refl _ l

theorem evAsyncStop (h : l.Ok refs) (w : ι) : Called (· = .async w) l (l.evAsyncStop w) := by
  unfold Loop.evAsyncStop
  dsimp only
  split
  · exact clearPending h _
  · rename_i hw
    obtain ⟨hself, hothers⟩ := h.asyncs.stop_active hw
    refine ⟨.clearPending h.manned.sound _, rfl, rfl, rfl, rfl, rfl, id, id, id,
      fun v hv => ?_, fun v hv => ?_⟩
    · have hne : v ≠ w := by
        rintro rfl
        exact hv.1 hself
      exact ⟨(hothers v hne).mp hv.1, hv.2⟩
    · by_cases hne : v = w
      · exact .inr (congrArg _ hne)
      · exact .inl ⟨(hothers v hne).mpr hv.1, hv.2⟩

end

end Called

/-- The contract suffices. -/
theorem Ok.call (h : l.Ok refs) (hc : c.Allowed l refs) :
    (l.call c).Ok (refs + State.refsOf c) ∧ Called c.Stops l (l.call c) := by
  have hsame : ∀ {l' : Loop ι T}, l'.Ok refs → l'.Ok (refs + 0) := fun h => by
    rwa [Int.add_zero]
  cases c with
  | ref => exact ⟨h.evRef, .requeue (.refl _ _) rfl rfl rfl rfl rfl rfl rfl rfl⟩
  | unref => exact ⟨h.evUnref, .requeue (.refl _ _) rfl rfl rfl rfl rfl rfl rfl rfl⟩
  | «break» how =>
      exact ⟨hsame (h.congr rfl rfl rfl rfl rfl rfl rfl),
        .requeue (.refl _ _) rfl rfl rfl rfl rfl rfl rfl rfl⟩
  | nowUpdate now =>
      exact ⟨hsame (h.congr rfl rfl rfl rfl rfl rfl rfl),
        .requeue (.refl _ _) rfl rfl rfl rfl rfl rfl rfl rfl⟩
  | setPriority w pri =>
      exact ⟨hsame (h.evSetPriority hc.2.1 hc.2.2 pri),
        .requeue (.setPriority ..) rfl rfl rfl rfl rfl rfl rfl rfl⟩
  | setRepeat w rep =>
      exact ⟨hsame (h.setRepeat w rep), .requeue (.refl _ _) rfl rfl rfl rfl rfl rfl rfl rfl⟩
  | timerSet w after rep =>
      exact ⟨hsame (h.evTimerSet hc after rep),
        .requeue (.refl _ _) rfl rfl rfl rfl rfl rfl rfl rfl⟩
  | timerStart w => exact ⟨hsame (h.evTimerStart w), .evTimerStart _ l w⟩
  | timerStop w => exact ⟨hsame (h.evTimerStop w), .evTimerStop h w⟩
  | timerAgain w => exact ⟨hsame (h.evTimerAgain w), .evTimerAgain h w⟩
  | ioSet w fd events =>
      exact ⟨hsame (h.evIoSet hc fd events),
        .refds (fun hs => hs.set h.fds hc fd events) rfl (by simp [Fds.set])⟩
  | ioModify w events =>
      exact ⟨hsame (h.evIoModify w events),
        .refds (fun hs => hs.modify h.fds hc events) rfl (by simp [Fds.modify])⟩
  | ioStart w => exact ⟨hsame (h.evIoStart w hc.1), .evIoStart h hc.1 hc.2⟩
  | ioStop w => exact ⟨hsame (h.evIoStop w), .evIoStop h w⟩
  | close fd =>
      exact ⟨hsame (h.close fd), .refds (fun hs => hs.close h.fds hc) rfl rfl⟩
  | idleStart w => exact ⟨hsame (h.evIdleStart w), .evIdleStart _ l w⟩
  | idleStop w => exact ⟨hsame (h.evIdleStop w), .evIdleStop h w⟩
  | asyncStart w fd => exact ⟨hsame (h.evAsyncStart w fd), .evAsyncStart h w fd⟩
  | asyncStop w => exact ⟨hsame (h.evAsyncStop w), .evAsyncStop h w⟩

/-! ## Who stops -/

/-- A watcher that a function takes off the queue is not pending behind it. -/
theorem pending_of_stops {x : Watcher ι} (hc : c.Stops x) : (l.call c).queue.pending x = 0 := by
  cases c with
  | timerStop w =>
      obtain rfl := hc
      change (l.evTimerStop w).queue.pending (.timer w) = 0
      rw [evTimerStop_queue]
      exact Queue.clearPending_pending_self
  | timerAgain w =>
      obtain rfl := hc
      change (l.evTimerAgain w).queue.pending (.timer w) = 0
      unfold evTimerAgain evTimerStop evTimerStart
      dsimp only
      repeat' split
      all_goals exact Queue.clearPending_pending_self
  | ioStop w =>
      obtain rfl := hc
      change (l.evIoStop (some w)).queue.pending (.io (some w)) = 0
      rw [evIoStop_queue]
      exact Queue.clearPending_pending_self
  | idleStop w =>
      obtain rfl := hc
      change (l.evIdleStop w).queue.pending (.idle w) = 0
      rw [evIdleStop_queue]
      exact Queue.clearPending_pending_self
  | asyncStop w =>
      obtain rfl := hc
      change (l.evAsyncStop w).queue.pending (.async w) = 0
      rw [evAsyncStop_queue]
      exact Queue.clearPending_pending_self
  | _ => exact hc.elim

omit [Sub T] [Zero T] in
theorem evTimerStart_active (h : l.timers.Ok) (hw : l.timers.active w ≠ 0) (v : ι) :
    (l.evTimerStart v).timers.active w ≠ 0 := by
  unfold evTimerStart
  split
  · exact hw
  · rename_i hv
    exact (h.start_active_iff _ (not_not.mp hv)).mpr (.inr hw)

omit [Add T] [Zero T] in
theorem evTimerStop_active (h : l.timers.Ok) (hw : l.timers.active w ≠ 0) {v : ι} (hv : w ≠ v) :
    (l.evTimerStop v).timers.active w ≠ 0 := by
  unfold evTimerStop
  dsimp only
  split
  · exact hw
  · rename_i hactive
    exact (h.stop_active_iff _ hactive).mpr ⟨hv, hw⟩

/-- A timer stays active until it is stopped. -/
theorem timer_of_call (h : l.timers.Ok) (hw : l.timers.active w ≠ 0) :
    (l.call c).timers.active w ≠ 0 ∨ c.Stops (.timer w) := by
  have hkept {l' : Loop ι T} (hcall : l.call c = l') (htimers : l'.timers = l.timers) :
      (l.call c).timers.active w ≠ 0 ∨ c.Stops (.timer w) := .inl (by rwa [hcall, htimers])
  cases c with
  | timerStart v => exact .inl (evTimerStart_active h hw v)
  | timerStop v =>
      by_cases hv : w = v
      · exact .inr (congrArg _ hv)
      · exact .inl (evTimerStop_active h hw hv)
  | timerAgain v =>
      by_cases hv : w = v
      · exact .inr (congrArg _ hv)
      · left
        change (l.evTimerAgain v).timers.active w ≠ 0
        unfold evTimerAgain
        dsimp only
        split
        · rename_i hactive
          split
          · exact (h.reschedule_active_iff _ hactive).mpr hw
          · exact evTimerStop_active (l := l.clearPending _) h hw hv
        · rename_i hactive
          split
          · have hset : (l.timers.setAt v (l.timers.evRepeat v)).Ok :=
              h.setAt (not_not.mp hactive) _
            exact evTimerStart_active
              (l := { l.clearPending _ with timers := l.timers.setAt v (l.timers.evRepeat v) })
              hset hw v
          · exact hw
  | ioStart v =>
      obtain ⟨_, _, _, hstart⟩ := l.evIoStart_writes (some v)
      exact hkept hstart rfl
  | ioStop v =>
      obtain ⟨_, _, _, hstop⟩ := l.evIoStop_writes (some v)
      exact hkept hstop rfl
  | idleStart v =>
      obtain ⟨_, _, _, _, hstart⟩ := l.evIdleStart_writes v
      exact hkept hstart rfl
  | idleStop v =>
      obtain ⟨_, _, _, _, hstop⟩ := l.evIdleStop_writes v
      exact hkept hstop rfl
  | asyncStart v fd =>
      obtain ⟨_, _, _, _, hstart⟩ := l.evAsyncStart_writes v fd
      exact hkept hstart rfl
  | asyncStop v =>
      obtain ⟨_, _, _, hstop⟩ := l.evAsyncStop_writes v
      exact hkept hstop rfl
  | _ => exact .inl hw

/-- An io watcher stays active until it is stopped. -/
theorem io_of_call {u : Option ι} (hu : l.fds.active u ≠ 0) :
    (l.call c).fds.active u ≠ 0 ∨ c.Stops (.io u) := by
  have hkept {l' : Loop ι T} (hcall : l.call c = l') (hfds : l'.fds = l.fds) :
      (l.call c).fds.active u ≠ 0 ∨ c.Stops (.io u) := .inl (by rwa [hcall, hfds])
  have hstart (f : Fds (Option ι)) (v) (hf : f.active u ≠ 0) : (f.start v).active u ≠ 0 := by
    rw [Fds.start_active]
    by_cases huv : u = v
    · rw [huv, Function.update_self]
      exact Nat.one_ne_zero
    · rwa [Function.update_of_ne huv]
  cases c with
  | timerStart v =>
      obtain ⟨_, _, _, htimer⟩ := l.evTimerStart_writes v
      exact hkept htimer rfl
  | timerStop v =>
      obtain ⟨_, _, _, htimer⟩ := l.evTimerStop_writes v
      exact hkept htimer rfl
  | timerAgain v =>
      obtain ⟨_, _, _, htimer⟩ := l.evTimerAgain_writes v
      exact hkept htimer rfl
  | ioStart v =>
      left
      change (l.evIoStart (some v)).fds.active u ≠ 0
      unfold evIoStart
      split
      · exact hu
      · exact hstart l.fds _ hu
  | ioStop v =>
      by_cases huv : u = some v
      · exact .inr (congrArg _ huv)
      · left
        change (l.evIoStop (some v)).fds.active u ≠ 0
        unfold evIoStop
        dsimp only
        split
        · exact hu
        · change (l.fds.stop (some v)).active u ≠ 0
          rwa [Fds.stop_active, Function.update_of_ne huv]
  | idleStart v =>
      obtain ⟨_, _, _, _, hidle⟩ := l.evIdleStart_writes v
      exact hkept hidle rfl
  | idleStop v =>
      obtain ⟨_, _, _, _, hidle⟩ := l.evIdleStop_writes v
      exact hkept hidle rfl
  | asyncStart v fd =>
      left
      change (l.evAsyncStart v fd).fds.active u ≠ 0
      unfold evAsyncStart evpipeInit evIoStart
      dsimp only
      repeat' split
      · exact hu
      · exact hu
      · exact hu
      · exact hstart (l.fds.set none fd evRead) none hu
  | asyncStop v =>
      obtain ⟨_, _, _, hasync⟩ := l.evAsyncStop_writes v
      exact hkept hasync rfl
  | _ => exact .inl hu

section Part

variable {α : Type*} {part : Loop ι T → α}

/-- A part of the loop that has to do with neither queue, timers, descriptors nor idle watchers
is written by `ev_break` and the functions of async watchers alone. -/
theorem call_part
    (hpart : ∀ (l : Loop ι T) mnNow activecnt queue timers fds idles idleall,
      part { l with
        mnNow := mnNow, activecnt := activecnt, queue := queue, timers := timers, fds := fds
        idles := idles, idleall := idleall } = part l)
    (hbreak : ∀ how, c ≠ .break how) (hstart : ∀ w fd, c ≠ .asyncStart w fd)
    (hstop : ∀ w, c ≠ .asyncStop w) : part (l.call c) = part l := by
  cases c with
  | «break» how => exact absurd rfl (hbreak how)
  | asyncStart w fd => exact absurd rfl (hstart w fd)
  | asyncStop w => exact absurd rfl (hstop w)
  | timerStart w =>
      obtain ⟨_, _, _, htimer⟩ := l.evTimerStart_writes w
      exact (congrArg part htimer).trans (hpart l ..)
  | timerStop w =>
      obtain ⟨_, _, _, htimer⟩ := l.evTimerStop_writes w
      exact (congrArg part htimer).trans (hpart l ..)
  | timerAgain w =>
      obtain ⟨_, _, _, htimer⟩ := l.evTimerAgain_writes w
      exact (congrArg part htimer).trans (hpart l ..)
  | ioStart w =>
      obtain ⟨_, _, _, hio⟩ := l.evIoStart_writes (some w)
      exact (congrArg part hio).trans (hpart l ..)
  | ioStop w =>
      obtain ⟨_, _, _, hio⟩ := l.evIoStop_writes (some w)
      exact (congrArg part hio).trans (hpart l ..)
  | idleStart w =>
      obtain ⟨_, _, _, _, hidle⟩ := l.evIdleStart_writes w
      exact (congrArg part hidle).trans (hpart l ..)
  | idleStop w =>
      obtain ⟨_, _, _, _, hidle⟩ := l.evIdleStop_writes w
      exact (congrArg part hidle).trans (hpart l ..)
  | _ => exact hpart l ..

end Part

end Loop
end Ev
end Cyan
