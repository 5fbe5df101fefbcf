import Cyan.Ev.Pending
import Cyan.Ev.Timer
import Cyan.Ev.Io
import Cyan.Ev.WatcherArray

/-!
# The state of a loop

This module embeds `struct ev_loop` as far as timers, descriptors, idle and async
watchers need it, the functions that start and stop these watchers, and those
that make them pending: `fd_event`, `fd_kill`, `timers_reify`, `idle_reify` and
`pipecb`.

* A watcher keeps its members where they are used: `pending` and `priority` in
  the queue, `active` with the array or the heap that the watcher is in.
* Periodic, prepare, check, fork, stat, embed and child watchers are left out: the
  program starts none.  Signal watchers are left out as well.
-/

namespace Cyan
namespace Ev

/-- The watchers of a loop. -/
inductive Watcher (ι : Type*)
  | timer (w : ι)
  /-- an `ev_io`, and `none` for `pipe_w` -/
  | io (w : Option ι)
  | idle (w : ι)
  | async (w : ι)
  deriving DecidableEq, Repr

/-- `EV_TIMER` -/
def evTimer : UInt32 := 0x00000100

/-- `EV_IDLE` -/
def evIdle : UInt32 := 0x00002000

/-- `EV_ASYNC` -/
def evAsync : UInt32 := 0x00080000

/-- `EV_CUSTOM` -/
def evCustom : UInt32 := 0x01000000

/-- `EVBREAK_CANCEL`, `EVBREAK_ONE` and `EVBREAK_ALL` -/
inductive LoopDone
  | cancel
  | one
  | all
  deriving DecidableEq, Repr

/-- `struct ev_loop` -/
structure Loop (ι T : Type*) where
  mnNow : T
  activecnt : Int
  loopDone : LoopDone
  queue : Queue (Watcher ι)
  timers : Timers ι T
  fds : Fds (Option ι)
  /-- `idles`, `idlecnt`, and `ev_active` of the idle watchers -/
  idles : Nat → WatcherArray ι
  idleall : Nat
  asyncs : WatcherArray ι
  /-- `sent` of the async watchers -/
  sent : ι → Bool
  asyncPending : Bool
  pipeWriteWanted : Bool
  pipeWriteSkipped : Bool
  /-- what can be read from `evpipe` -/
  evpipe : Nat
  /-- `rfeeds`, the last one first -/
  rfeeds : List (Watcher ι)

variable {ι T : Type*} [DecidableEq ι] [LinearOrder T] [Add T] [Sub T] [Zero T]

namespace Loop

/-- `loop_init`, with `ev_timer_init`, `ev_io_init`, `ev_idle_init` and
`ev_async_init` of all watchers.  The arrays hold `garbage`. -/
def init (garbage : ι) (mnNow : T) : Loop ι T where
  mnNow := mnNow
  activecnt := 0
  loopDone := .cancel
  queue :=
    { pending := fun _ => 0
      priority := fun w => if w = .io none then evMaxpri else 0
      pendings := fun _ => []
      pendingpri := 0 }
  timers :=
    { heap := { entry := fun _ => ⟨garbage, 0⟩, index := fun _ => 0 }
      timercnt := 0
      evAt := fun _ => 0
      evRepeat := fun _ => 0 }
  fds :=
    { anfds := fun _ => ⟨[], 0, 0⟩
      fdchanges := []
      active := fun _ => 0
      fd := fun _ => -1
      events := fun _ => evIoFdSet
      kernel := fun _ => 0
      stale := fun _ => false }
  idles := fun _ => { shelf := { entry := fun _ => garbage, index := fun _ => 0 }, cnt := 0 }
  idleall := 0
  asyncs := { shelf := { entry := fun _ => garbage, index := fun _ => 0 }, cnt := 0 }
  sent := fun _ => false
  asyncPending := false
  pipeWriteWanted := false
  pipeWriteSkipped := false
  evpipe := 0
  rfeeds := []

/-- `ev_feed_event` -/
def feedEvent (l : Loop ι T) (w : Watcher ι) (revents : UInt32) : Loop ι T :=
  { l with queue := l.queue.feedEvent w revents }

/-- `clear_pending` -/
def clearPending (l : Loop ι T) (w : Watcher ι) : Loop ι T :=
  { l with queue := l.queue.clearPending w }

/-- `pri_adjust` -/
def priAdjust (l : Loop ι T) (w : Watcher ι) : Loop ι T :=
  { l with queue := l.queue.priAdjust w }

/-- `ev_set_priority` -/
def evSetPriority (l : Loop ι T) (w : Watcher ι) (pri : Int) : Loop ι T :=
  { l with queue := l.queue.setPriority w pri }

/-- `ev_ref` -/
def evRef (l : Loop ι T) : Loop ι T :=
  { l with activecnt := l.activecnt + 1 }

/-- `ev_unref` -/
def evUnref (l : Loop ι T) : Loop ι T :=
  { l with activecnt := l.activecnt - 1 }

/-! ## Timers -/

/-- The program sets `repeat`. -/
def setRepeat (l : Loop ι T) (w : ι) (rep : T) : Loop ι T :=
  { l with timers :=
    { l.timers with evRepeat := Function.update l.timers.evRepeat w rep } }

/-- `ev_timer_set` -/
def evTimerSet (l : Loop ι T) (w : ι) (after rep : T) : Loop ι T :=
  { l with timers := l.timers.setAt w after }.setRepeat w rep

/-- `ev_timer_start` -/
def evTimerStart (l : Loop ι T) (w : ι) : Loop ι T :=
  if l.timers.active w ≠ 0 then l
  else
    let l := (l.priAdjust (.timer w)).evRef
    { l with timers := l.timers.start l.mnNow w }

/-- `ev_timer_stop` -/
def evTimerStop (l : Loop ι T) (w : ι) : Loop ι T :=
  let l := l.clearPending (.timer w)
  if l.timers.active w = 0 then l
  else { l.evUnref with timers := l.timers.stop l.mnNow w }

/-- `ev_timer_again` -/
def evTimerAgain (l : Loop ι T) (w : ι) : Loop ι T :=
  let l := l.clearPending (.timer w)
  if l.timers.active w ≠ 0 then
    if l.timers.evRepeat w ≠ 0 then { l with timers := l.timers.reschedule l.mnNow w }
    else l.evTimerStop w
  else if l.timers.evRepeat w ≠ 0 then
    evTimerStart { l with timers := l.timers.setAt w (l.timers.evRepeat w) } w
  else l

/-- `feed_reverse` -/
def feedReverse (l : Loop ι T) (w : Watcher ι) : Loop ι T :=
  { l with rfeeds := w :: l.rfeeds }

/-- `feed_reverse_done` -/
def feedReverseDone (l : Loop ι T) (revents : UInt32) : Loop ι T :=
  { l with queue := l.rfeeds.foldl (fun q w => q.feedEvent w revents) l.queue, rfeeds := [] }

/-- One round of the loop of `timers_reify`. -/
def timersReifyStep (l : Loop ι T) : Loop ι T :=
  let w := l.timers.root
  let l :=
    if l.timers.evRepeat w ≠ 0 then { l with timers := l.timers.rearm l.mnNow }
    else l.evTimerStop w
  l.feedReverse (.timer w)

/-- The loop of `timers_reify`. -/
def timersReifyLoop : Nat → Loop ι T → Loop ι T
  | 0, l => l
  | fuel + 1, l =>
      if l.timers.expired l.mnNow then timersReifyLoop fuel l.timersReifyStep else l

/-- `timers_reify` -/
def timersReify (l : Loop ι T) : Loop ι T :=
  if l.timers.expired l.mnNow then
    (timersReifyLoop l.timers.timercnt l).feedReverseDone evTimer
  else l

/-! ## Descriptors -/

/-- `ev_io_set` -/
def evIoSet (l : Loop ι T) (w : ι) (fd : Int) (events : UInt32) : Loop ι T :=
  { l with fds := l.fds.set (some w) fd events }

/-- `ev_io_modify` -/
def evIoModify (l : Loop ι T) (w : ι) (events : UInt32) : Loop ι T :=
  { l with fds := l.fds.modify (some w) events }

/-- The program closes a descriptor. -/
def close (l : Loop ι T) (fd : Nat) : Loop ι T :=
  { l with fds := l.fds.close fd }

/-- `ev_io_start` -/
def evIoStart (l : Loop ι T) (w : Option ι) : Loop ι T :=
  if l.fds.active w ≠ 0 then l
  else { (l.priAdjust (.io w)).evRef with fds := l.fds.start w }

/-- `ev_io_stop` -/
def evIoStop (l : Loop ι T) (w : Option ι) : Loop ι T :=
  let l := l.clearPending (.io w)
  if l.fds.active w = 0 then l
  else { l.evUnref with fds := l.fds.stop w }

/-- `fd_event_nocheck` -/
def fdEventNocheck (l : Loop ι T) (fd : Nat) (revents : UInt32) : Loop ι T :=
  { l with queue := (l.fds.anfds fd).head.foldl (fun q w =>
      let ev := l.fds.events w &&& revents
      if ev ≠ 0 then q.feedEvent (.io w) ev else q) l.queue }

/-- `fd_event` -/
def fdEvent (l : Loop ι T) (fd : Nat) (revents : UInt32) : Loop ι T :=
  if (l.fds.anfds fd).reify = 0 then l.fdEventNocheck fd revents else l

/-- `fd_kill`: every round takes the first watcher off the list. -/
def fdKillLoop : List (Option ι) → Loop ι T → Loop ι T
  | [], l => l
  | w :: ws, l => fdKillLoop ws ((l.evIoStop w).feedEvent (.io w) (evError ||| evRead ||| evWrite))

/-- `fd_kill` -/
def fdKill (l : Loop ι T) (fd : Nat) : Loop ι T :=
  fdKillLoop (l.fds.anfds fd).head l

/-! ## Idle and async watchers -/

/-- `ev_is_active` of an idle watcher. -/
def idleActive (l : Loop ι T) (w : ι) : Nat :=
  (l.idles (l.queue.abspri (.idle w))).active w

/-- `ev_idle_start` -/
def evIdleStart (l : Loop ι T) (w : ι) : Loop ι T :=
  if l.idleActive w ≠ 0 then l
  else
    let l := l.priAdjust (.idle w)
    let pri := l.queue.abspri (.idle w)
    { (l.priAdjust (.idle w)).evRef with
      idles := Function.update l.idles pri ((l.idles pri).start w)
      idleall := l.idleall + 1 }

/-- `ev_idle_stop` -/
def evIdleStop (l : Loop ι T) (w : ι) : Loop ι T :=
  let l := l.clearPending (.idle w)
  if l.idleActive w = 0 then l
  else
    let pri := l.queue.abspri (.idle w)
    { l.evUnref with
      idles := Function.update l.idles pri ((l.idles pri).stop w)
      idleall := l.idleall - 1 }

/-- `queue_events` -/
def queueEvents (l : Loop ι T) (ws : List (Watcher ι)) (type : UInt32) : Loop ι T :=
  { l with queue := ws.foldl (fun q w => q.feedEvent w type) l.queue }

/-- The loop of `idle_reify`, from `pri` down. -/
def idleReifyLoop : Nat → Loop ι T → Loop ι T
  | 0, l => l
  | pri + 1, l =>
      if l.queue.pendings pri ≠ [] then l
      else if (l.idles pri).cnt ≠ 0 then
        l.queueEvents ((l.idles pri).watchers.map .idle) evIdle
      else idleReifyLoop pri l

/-- `idle_reify` -/
def idleReify (l : Loop ι T) : Loop ι T :=
  if l.idleall ≠ 0 then idleReifyLoop numpri l else l

/-- `evpipe_init`, which gets `fd` from the kernel. -/
def evpipeInit (l : Loop ι T) (fd : Nat) : Loop ι T :=
  if l.fds.active none ≠ 0 then l
  else (evIoStart { l with fds := l.fds.set none fd evRead } none).evUnref

/-- `ev_async_start` -/
def evAsyncStart (l : Loop ι T) (w : ι) (fd : Nat) : Loop ι T :=
  if l.asyncs.active w ≠ 0 then l
  else
    let l := evpipeInit { l with sent := Function.update l.sent w false } fd
    { (l.priAdjust (.async w)).evRef with asyncs := l.asyncs.start w }

/-- `ev_async_stop` -/
def evAsyncStop (l : Loop ι T) (w : ι) : Loop ι T :=
  let l := l.clearPending (.async w)
  if l.asyncs.active w = 0 then l
  else { l.evUnref with asyncs := l.asyncs.stop w }

/-- One round of the loop of `pipecb`. -/
def pipecbStep (l : Loop ι T) (w : ι) : Loop ι T :=
  if l.sent w then
    { l with sent := Function.update l.sent w false }.feedEvent (.async w) evAsync
  else l

/-- `ev_is_active` -/
def active (l : Loop ι T) : Watcher ι → Nat
  | .timer w => l.timers.active w
  | .io w => l.fds.active w
  | .idle w => l.idleActive w
  | .async w => l.asyncs.active w

end Loop
end Ev
end Cyan
