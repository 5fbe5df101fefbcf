import Mathlib.Data.Fintype.Option
import Cyan.Base.Machine
import Cyan.Ev.Loop

/-!
# The machine of `ev_run`

One thread runs the loop, and any number of threads call `ev_async_send`.

* The steps of the loop are those between which something else can happen: a
  callback runs, another thread gets on with `ev_async_send`, or the kernel reports
  a descriptor.  Whatever is shared with the other threads is read or written in a
  step of its own.
* The program calls functions of the loop while it is not in `ev_run`, and from
  callbacks.  `Allowed` is the contract of these functions.
* `ev_run` is not called from a callback.  `backend_poll` calls `fd_event` and
  `fd_kill`; the clock is monotonic, and `postfork` is not set.
-/

namespace Cyan
namespace Ev

open Base

/-- `timeout_blocktime`, `io_blocktime`, `backend_mintime` and `MAX_BLOCKTIME` -/
structure Config (T : Type*) where
  timeoutBlocktime : T
  ioBlocktime : T
  backendMintime : T
  maxBlocktime : T

/-- `EVRUN_NOWAIT` and `EVRUN_ONCE` -/
structure RunFlags where
  nowait : Bool
  once : Bool
  deriving DecidableEq, Repr

/-- Where `ev_invoke_pending` returns to. -/
inductive Next
  /-- in front of the loop of `ev_run` -/
  | top
  /-- at its end -/
  | test
  deriving DecidableEq, Repr

/-- The steps of `pipecb`. -/
inductive PipePc (ι : Type*)
  /-- `read (evpipe [1], ..)` -/
  | read (revents : UInt32)
  /-- `pipe_write_skipped = 0` -/
  | skipped
  /-- `if (async_pending)` -/
  | pending
  /-- `async_pending = 0` -/
  | clear
  /-- the loop over `asyncs` -/
  | scan (ws : List ι)
  deriving DecidableEq, Repr

/-- Where the loop stands. -/
inductive Pc (ι T : Type*)
  /-- outside of `ev_run` -/
  | outside
  /-- in front of the inner loop of `ev_invoke_pending` -/
  | invoke (next : Next)
  /-- the callback of a watcher runs -/
  | callback (w : Watcher ι) (revents : UInt32) (next : Next)
  | pipecb (p : PipePc ι) (next : Next)
  /-- the loop of `ev_run` begins -/
  | top
  /-- `pipe_write_wanted` is set; `prev_mn_now` -/
  | wanted (prev : T)
  /-- in `backend_poll` -/
  | poll (waittime : T)
  /-- behind `backend_poll` -/
  | polled
  /-- the condition of the loop of `ev_run` -/
  | test
  deriving DecidableEq, Repr

/-- The steps of `ev_async_send` and `evpipe_write`. -/
inductive Send
  /-- `w->sent = 1` -/
  | sent
  /-- `if (*flag) return` -/
  | testFlag
  /-- `*flag = 1` -/
  | setFlag
  /-- `pipe_write_skipped = 1` -/
  | setSkipped
  /-- `if (pipe_write_wanted)` -/
  | testWanted
  /-- `pipe_write_skipped = 0` -/
  | clearSkipped
  /-- `write (evpipe [1], ..)` -/
  | write
  deriving DecidableEq, Repr

/-- What the program calls. -/
inductive Call (ι T : Type*)
  | ref
  | unref
  | break (how : LoopDone)
  | nowUpdate (now : T)
  | setPriority (w : Watcher ι) (pri : Int)
  | setRepeat (w : ι) (rep : T)
  | timerSet (w : ι) (after rep : T)
  | timerStart (w : ι)
  | timerStop (w : ι)
  | timerAgain (w : ι)
  | ioSet (w : ι) (fd : Int) (events : UInt32)
  | ioModify (w : ι) (events : UInt32)
  | ioStart (w : ι)
  | ioStop (w : ι)
  | close (fd : Nat)
  | idleStart (w : ι)
  | idleStop (w : ι)
  /-- with the descriptor that `evpipe_init` gets -/
  | asyncStart (w : ι) (fd : Nat)
  | asyncStop (w : ι)
  deriving DecidableEq, Repr

/-- What happens next. -/
inductive Action (Thread ι T : Type*)
  /-- the program calls a function of the loop -/
  | call (c : Call ι T)
  /-- the program calls `ev_run` -/
  | run (flags : RunFlags)
  /-- the loop takes its next step, and the clock shows `now` -/
  | next (now : T)
  /-- `backend_poll` calls `fd_event` -/
  | event (fd : Nat) (revents : UInt32)
  /-- `backend_poll` calls `fd_kill` for a descriptor that has been closed -/
  | kill (fd : Nat)
  /-- a thread calls `ev_async_send` -/
  | send (t : Thread) (w : ι)
  /-- the thread takes its next step -/
  | thread (t : Thread)
  deriving DecidableEq, Repr

/-- The loop, where it stands, and the threads that send. -/
structure State (Thread ι T : Type*) where
  loop : Loop ι T
  pc : Pc ι T
  flags : RunFlags
  sending : Thread → Option (ι × Send)
  /-- the calls of `ev_ref` less those of `ev_unref` -/
  refs : Int

variable {Thread ι T : Type*} [DecidableEq Thread] [DecidableEq ι]
variable [LinearOrder T] [Add T] [Sub T] [Zero T]

namespace Loop

/-- The call of a function. -/
def call (l : Loop ι T) : Call ι T → Loop ι T
  | .ref => l.evRef
  | .unref => l.evUnref
  | .break how => { l with loopDone := how }
  | .nowUpdate now => { l with mnNow := now }
  | .setPriority w pri => l.evSetPriority w pri
  | .setRepeat w rep => l.setRepeat w rep
  | .timerSet w after rep => l.evTimerSet w after rep
  | .timerStart w => l.evTimerStart w
  | .timerStop w => l.evTimerStop w
  | .timerAgain w => l.evTimerAgain w
  | .ioSet w fd events => l.evIoSet w fd events
  | .ioModify w events => l.evIoModify w events
  | .ioStart w => l.evIoStart (some w)
  | .ioStop w => l.evIoStop (some w)
  | .close fd => l.close fd
  | .idleStart w => l.evIdleStart w
  | .idleStop w => l.evIdleStop w
  | .asyncStart w fd => l.evAsyncStart w fd
  | .asyncStop w => l.evAsyncStop w

/-- The beginning of `ev_invoke_pending`, up to the first `--pendingpri`. -/
def invokePending (l : Loop ι T) : Loop ι T :=
  { l with queue := { l.queue with pendingpri := numpri - 1 } }

/-- The waiting time of `ev_run` when it waits; `prev` is `prev_mn_now`. -/
def blocktime (l : Loop ι T) (cfg : Config T) (prev : T) : T :=
  let waittime := cfg.maxBlocktime
  let waittime :=
    if l.timers.timercnt ≠ 0 then
      let timeout := l.timers.heap.key heap0 - l.mnNow
      if waittime > timeout then timeout else waittime
    else waittime
  let waittime := if waittime < cfg.timeoutBlocktime then cfg.timeoutBlocktime else waittime
  let waittime :=
    if waittime < cfg.backendMintime then
      if waittime ≤ 0 then 0 else cfg.backendMintime
    else waittime
  if cfg.ioBlocktime ≠ 0 then
    let sleeptime := cfg.ioBlocktime - (l.mnNow - prev)
    let sleeptime :=
      if sleeptime > waittime - cfg.backendMintime then waittime - cfg.backendMintime else sleeptime
    if sleeptime > 0 then waittime - sleeptime else waittime
  else waittime

/-- The waiting time of `ev_run`. -/
def waittime (l : Loop ι T) (cfg : Config T) (nowait : Bool) (prev : T) : T :=
  if nowait || l.idleall ≠ 0 || l.activecnt = 0 || l.pipeWriteSkipped then 0
  else l.blocktime cfg prev

/-- The condition of the loop of `ev_run`. -/
def goesOn (l : Loop ι T) (flags : RunFlags) : Bool :=
  l.activecnt ≠ 0 && l.loopDone = .cancel && !(flags.once || flags.nowait)

/-- The end of `ev_run`. -/
def leave (l : Loop ι T) : Loop ι T :=
  { l with loopDone := if l.loopDone = .one then .cancel else l.loopDone }

/-- What a descriptor that was closed does to the loop. -/
def kill (l : Loop ι T) (fd : Nat) : Loop ι T :=
  (l.fdKill fd).close fd

/-- What `ev_run` does behind `backend_poll`, when the clock shows `now`. -/
def polled (l : Loop ι T) (now : T) : Loop ι T :=
  let l := if l.pipeWriteSkipped then l.feedEvent (.io none) evCustom else l
  let l := { l with mnNow := now }.timersReify
  l.idleReify

end Loop

namespace State

/-- `ev_invoke_pending` begins. -/
def enter (s : State Thread ι T) (l : Loop ι T) (next : Next) : State Thread ι T :=
  { s with loop := l.invokePending, pc := .invoke next }

/-- What the program adds to `refs`. -/
def refsOf : Call ι T → Int
  | .ref => 1
  | .unref => -1
  | _ => 0

/-- A step of `ev_invoke_pending`. -/
def stepInvoke (s : State Thread ι T) (next : Next) : State Thread ι T :=
  let l := s.loop
  match l.queue.takePending l.queue.pendingpri with
  | some (p, q) =>
      let l := { l with queue := q }
      match p.w with
      -- `pending_w`
      | none => { s with loop := l }
      | some (.io none) => { s with loop := l, pc := .pipecb (.read p.events) next }
      | some w => { s with loop := l, pc := .callback w p.events next }
  | none =>
      if l.queue.pendingpri = 0 then
        { s with pc := match next with
          | .top => .top
          | .test => .test }
      else
        { s with loop :=
          { l with queue := { l.queue with pendingpri := l.queue.pendingpri - 1 } } }

/-- A step of `pipecb`; `eventfd` tells what `evpipe` is. -/
def stepPipecb (eventfd : Bool) (s : State Thread ι T) (next : Next) :
    PipePc ι → State Thread ι T
  | .read revents =>
      let left := if eventfd then 0 else s.loop.evpipe - 4
      { s with
        loop := { s.loop with evpipe := if revents &&& evRead ≠ 0 then left else s.loop.evpipe }
        pc := .pipecb .skipped next }
  | .skipped =>
      { s with loop := { s.loop with pipeWriteSkipped := false }, pc := .pipecb .pending next }
  | .pending =>
      { s with pc := if s.loop.asyncPending then .pipecb .clear next else .invoke next }
  | .clear =>
      { s with
        loop := { s.loop with asyncPending := false }
        pc := .pipecb (.scan s.loop.asyncs.watchers.reverse) next }
  | .scan [] => { s with pc := .invoke next }
  -- while `sent` is set, the threads write nothing else to it
  | .scan (w :: ws) => { s with loop := s.loop.pipecbStep w, pc := .pipecb (.scan ws) next }

/-- A step of the loop, when the clock shows `now`. -/
def stepLoop (cfg : Config T) (eventfd : Bool) (s : State Thread ι T) (now : T) :
    Option (State Thread ι T) :=
  match s.pc with
  | .outside => none
  | .invoke next => some (s.stepInvoke next)
  | .callback _ _ next => some { s with pc := .invoke next }
  | .pipecb p next => some (s.stepPipecb eventfd next p)
  | .top =>
      if s.loop.loopDone ≠ .cancel then some { s with loop := s.loop.leave, pc := .outside }
      else
        some { s with
          loop := { s.loop with fds := s.loop.fds.reify, mnNow := now, pipeWriteWanted := true }
          pc := .wanted s.loop.mnNow }
  | .wanted prev => some { s with pc := .poll (s.loop.waittime cfg s.flags.nowait prev) }
  | .poll _ => some { s with loop := { s.loop with pipeWriteWanted := false }, pc := .polled }
  | .polled => some (s.enter (s.loop.polled now) .test)
  | .test =>
      if s.loop.goesOn s.flags then some { s with pc := .top }
      else some { s with loop := s.loop.leave, pc := .outside }

/-- A step of `ev_async_send`, with the step that comes next. -/
def stepSend (l : Loop ι T) (w : ι) : Send → Loop ι T × Option Send
  | .sent => ({ l with sent := Function.update l.sent w true }, some .testFlag)
  | .testFlag => (l, if l.asyncPending then none else some .setFlag)
  | .setFlag => ({ l with asyncPending := true }, some .setSkipped)
  | .setSkipped => ({ l with pipeWriteSkipped := true }, some .testWanted)
  | .testWanted => (l, if l.pipeWriteWanted then some .clearSkipped else none)
  | .clearSkipped => ({ l with pipeWriteSkipped := false }, some .write)
  | .write => ({ l with evpipe := l.evpipe + 1 }, none)

/-- The program may call functions of the loop. -/
def calls (s : State Thread ι T) : Bool :=
  match s.pc with
  | .outside => true
  | .callback _ _ _ => true
  | _ => false

/-- `backend_poll` runs. -/
def polls (s : State Thread ι T) : Bool :=
  match s.pc with
  | .poll _ => true
  | _ => false

/-- A step of the loop, of the program, of the kernel or of a thread. -/
def step (cfg : Config T) (eventfd : Bool) (s : State Thread ι T) :
    Action Thread ι T → Option (State Thread ι T)
  | .call c =>
      if s.calls then some { s with loop := s.loop.call c, refs := s.refs + refsOf c } else none
  | .run flags =>
      if s.pc = .outside then
        some ({ s with flags := flags }.enter { s.loop with loopDone := .cancel } .top)
      else none
  | .next now => s.stepLoop cfg eventfd now
  | .event fd revents =>
      if s.polls then some { s with loop := s.loop.fdEvent fd revents } else none
  | .kill fd => if s.polls then some { s with loop := s.loop.kill fd } else none
  | .send t w =>
      match s.sending t with
      | none => some { s with sending := Function.update s.sending t (some (w, .sent)) }
      | some _ => none
  | .thread t =>
      (s.sending t).map fun (w, p) =>
        let (l, p) := stepSend s.loop w p
        { s with loop := l, sending := Function.update s.sending t (p.map (w, ·)) }

end State

/-- The contract of the functions.  `refs` counts the references of the program. -/
def Call.Allowed (l : Loop ι T) (refs : Int) : Call ι T → Prop
  | .unref => 0 ≤ refs
  | .setPriority w _ => w ≠ .io none ∧ l.active w = 0 ∧ l.queue.pending w = 0
  | .timerSet w _ _ => l.timers.active w = 0
  | .ioSet w _ _ => l.fds.active (some w) = 0
  | .ioModify w _ => l.fds.active (some w) = 0
  | .ioStart w => 0 ≤ l.fds.fd (some w) ∧ l.fds.stale (some w) = false
  | .close fd => ∀ w, l.fds.active w ≠ 0 → l.fds.fd w ≠ fd
  | _ => True

instance [Fintype ι] (l : Loop ι T) (refs : Int) : (c : Call ι T) → Decidable (c.Allowed l refs)
  | .unref => inferInstanceAs (Decidable (0 ≤ refs))
  | .setPriority _ _ => inferInstanceAs (Decidable (_ ∧ _ ∧ _))
  | .timerSet w _ _ => inferInstanceAs (Decidable (l.timers.active w = 0))
  | .ioSet w _ _ => inferInstanceAs (Decidable (l.fds.active (some w) = 0))
  | .ioModify w _ => inferInstanceAs (Decidable (l.fds.active (some w) = 0))
  | .ioStart _ => inferInstanceAs (Decidable (_ ∧ _))
  | .close fd => inferInstanceAs (Decidable (∀ w, l.fds.active w ≠ 0 → l.fds.fd w ≠ fd))
  | .ref => .isTrue trivial
  | .break _ => .isTrue trivial
  | .nowUpdate _ => .isTrue trivial
  | .setRepeat _ _ => .isTrue trivial
  | .timerStart _ => .isTrue trivial
  | .timerStop _ => .isTrue trivial
  | .timerAgain _ => .isTrue trivial
  | .ioStop _ => .isTrue trivial
  | .idleStart _ => .isTrue trivial
  | .idleStop _ => .isTrue trivial
  | .asyncStart _ _ => .isTrue trivial
  | .asyncStop _ => .isTrue trivial

/-- The watcher that a function takes off the queue: it is stopped, or restarted by
`ev_timer_again`. -/
def Call.Stops (c : Call ι T) (x : Watcher ι) : Prop :=
  match c with
  | .timerStop w => x = .timer w
  | .timerAgain w => x = .timer w
  | .ioStop w => x = .io (some w)
  | .idleStop w => x = .idle w
  | .asyncStop w => x = .async w
  | _ => False

namespace State

/-- What the program and the kernel promise.  `pipe_w` keeps its descriptor, and
there is one as soon as an async watcher has been started. -/
def Allowed (s : State Thread ι T) : Action Thread ι T → Prop
  | .call c => c.Allowed s.loop s.refs
  | .kill fd => none ∉ (s.loop.fds.anfds fd).head
  | .send _ _ => s.loop.fds.active none ≠ 0
  | _ => True

instance [Fintype ι] (s : State Thread ι T) : (a : Action Thread ι T) → Decidable (s.Allowed a)
  | .call c => inferInstanceAs (Decidable (c.Allowed s.loop s.refs))
  | .kill fd => inferInstanceAs (Decidable (none ∉ (s.loop.fds.anfds fd).head))
  | .send _ _ => inferInstanceAs (Decidable (s.loop.fds.active none ≠ 0))
  | .run _ => .isTrue trivial
  | .next _ => .isTrue trivial
  | .event _ _ => .isTrue trivial
  | .thread _ => .isTrue trivial

/-- A new loop. -/
def init (garbage : ι) (mnNow : T) : State Thread ι T where
  loop := .init garbage mnNow
  pc := .outside
  flags := ⟨false, false⟩
  sending := fun _ => none
  refs := 0

end State

/-- A loop with the threads that send. -/
def machine (cfg : Config T) (eventfd : Bool) : Machine (State Thread ι T) (Action Thread ι T) where
  start := fun s => ∃ garbage mnNow, s = .init garbage mnNow
  step := State.step cfg eventfd

/-- The states of the runs that keep to the contract. -/
def Reachable (cfg : Config T) (eventfd : Bool) (s : State Thread ι T) : Prop :=
  (machine cfg eventfd).ReachableUnder State.Allowed s

end Ev
end Cyan
