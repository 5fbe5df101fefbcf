import Cyan.Dispatch.Moves
import Cyan.Event.TimerWheelMoves

/-!
# Handler threads with a clock

`HandlerThread` lets a request of the timer wheel expire at any time.  Here each handler
thread has its timer wheel, and all share one clock.

* `process_queue` posts a message with a timeout to the wheel.  Its callback holds the
  message, which `captured` records under the number of the request.
* `bookkeeper` runs on the handler thread, from inside the event loop.  While it runs, the
  thread takes no other step, except for the steps of a callback.
* The clock is the steady clock in nanoseconds.
-/

namespace Cyan
namespace Dispatch

open Base Event

variable {H C Token : Type*}

/-- The handler threads, the clock, and the timer wheels. -/
structure TimedState (H C Token : Type*) where
  base : State H C Token
  clock : Int
  /-- `timer_wheel_` of the threads -/
  wheels : H → TimerWheel
  /-- `[this, msg = std::move(msg)]` of the callbacks -/
  captured : H → Nat → Option (Message Token)

/-- What a scheduler can do. -/
inductive TimedAction (H C Token : Type*)
  /-- a step of a call or of a handler thread -/
  | base (a : Action H C Token)
  /-- time passes -/
  | wait (d : Nat)
  /-- the timer of the wheel fires -/
  | tick (h : H)
  /-- the next step of `bookkeeper()` -/
  | bookkeeper (h : H)

/-- The event loop polls or invokes callbacks. -/
def HandlerThread.inLoop (t : HandlerThread Token) : Bool :=
  match t.pc with
  | .poll => true
  | .invoke => true
  | _ => false

namespace TimedState

variable [DecidableEq H]

/-- The thread is not between two callbacks of a `bookkeeper()` that runs. -/
def free (s : TimedState H C Token) (h : H) : Bool :=
  (s.wheels h).pc = .idle || !(s.base.threads h).inLoop

/-- `timer_wheel_->post([this, msg = std::move(msg)] { ... }, timeout)` -/
def postDelayed (s : TimedState H C Token) (h : H) (msg : Message Token) :
    TimedState H C Token :=
  { s with
    wheels := Function.update s.wheels h
      ((s.wheels h).post (TimerWheel.ofMilliseconds msg.timeout))
    captured := Function.update s.captured h
      (Function.update (s.captured h) (s.wheels h).posts (some msg)) }

variable [DecidableEq Token]

/-- `msg->process(*handler_)` of a callback is called. -/
def beginCallback (s : State H C Token) (h : H) (msg : Message Token) : State H C Token :=
  let t := s.threads h
  s.apply h (.of s.tokens
    ({ t with timerWheel := t.timerWheel.erase msg }.goto (.process .timer msg)) [])

/-- The wheel is `w` after a step of `bookkeeper()`, which may begin a callback. -/
def afterBookkeeper (s : TimedState H C Token) (h : H) (w : TimerWheel) :
    TimedState H C Token :=
  { s with
    wheels := Function.update s.wheels h w
    base :=
      match w.pc with
      | .process _ r => (s.captured h r).elim s.base (beginCallback s.base h)
      | _ => s.base }

variable [DecidableEq C]

/-- One step of a call or of a handler thread. -/
def stepBase (s : TimedState H C Token) (a : Action H C Token) :
    Option (TimedState H C Token) :=
  (Dispatch.step s.base a).bind fun base =>
    match a with
    -- the timer wheel decides what expires
    | .thread _ (.expire _) => none
    | .thread h _ =>
        if s.free h then
          match (s.base.threads h).pc with
          | .dispatch _ msg =>
              if 0 < msg.timeout then some { s.postDelayed h msg with base := base }
              else some { s with base := base }
          | _ => some { s with base := base }
        else none
    | _ => some { s with base := base }

/-- One step of the handler threads, their callers and their timer wheels. -/
def step (s : TimedState H C Token) : TimedAction H C Token → Option (TimedState H C Token)
  | .base a => s.stepBase a
  | .wait d =>
      some { s with
        clock := s.clock + d
        wheels := fun h => { s.wheels h with clock := (s.wheels h).clock + d } }
  | .tick h =>
      if (s.base.threads h).inLoop then
        ((s.wheels h).step .tick).map fun w => { s with wheels := Function.update s.wheels h w }
      else none
  | .bookkeeper h =>
      if (s.base.threads h).inLoop then
        (s.wheels h).stepBookkeeper.map (s.afterBookkeeper h)
      else none

/-- New tokens and new handler threads with new timer wheels. -/
def initial (clock : Int) : TimedState H C Token where
  base := Dispatch.initial
  clock := clock
  wheels := fun _ => TimerWheel.create clock
  captured := fun _ _ => none

/-- The handler threads, their callers and the clock as a machine. -/
def machine : Machine (TimedState H C Token) (TimedAction H C Token) where
  start s := ∃ clock, s = initial clock
  step := step

end TimedState

/-! ## What a step can do -/

variable [DecidableEq H] [DecidableEq C] [DecidableEq Token]
variable {h : H} {tokens : Token → SerialToken} {t : HandlerThread Token}
  {o : Outcome H C Token}

/-- The step of `process_queue` that posts a message to the timer wheel. -/
def delayed (tokens : Token → SerialToken) (t : HandlerThread Token) (d : Drain)
    (msg : Message Token) : Outcome H C Token :=
  .of tokens ({ t with timerWheel := t.timerWheel ++ [msg] }.goto (.drain d)) []

section

omit [DecidableEq H] [DecidableEq C]

/-- Only an expiry leads from the loop to `msg->process()`. -/
theorem stepThread_ne_process {choice : Choice} (hchoice : ∀ i, choice ≠ .expire i)
    (hpc : t.pc = .poll ∨ t.pc = .invoke) (hstep : stepThread h tokens t choice = some o)
    (msg : Message Token) : o.thread.pc ≠ .process .timer msg := by
  intro hprocess
  cases choice with
  | run =>
      rcases hpc with hpc | hpc
      · simp [stepThread, stepExecute, stepProcessQueue, stepProcess, hpc] at hstep
      · simp only [stepThread, stepExecute, hpc, Option.orElse_eq_orElse,
          Option.orElse_eq_or, Option.some_or, Option.some.injEq] at hstep
        subst hstep
        cases hdone : t.loopDone <;> rw [hdone] at hprocess <;> cases hprocess
  | finish threw => rcases hpc with hpc | hpc <;> simp [stepThread, stepFinish, hpc] at hstep
  | deliver =>
      rcases hpc with hpc | hpc
      · rw [stepThread, hpc] at hstep
        obtain ⟨a, -, rfl⟩ := Option.map_eq_some_iff.mp hstep
        cases hcallback : a.callback <;>
          simp [Outcome.of, HandlerThread.goto, hcallback] at hprocess
      · simp [stepThread, stepDeliver, hpc] at hstep
  | expire i => exact hchoice i rfl

/-- A step of the thread's own code leaves the timer wheel alone or posts to it. -/
theorem stepThread_timerWheel {choice : Choice} (hchoice : ∀ i, choice ≠ .expire i)
    (hstep : stepThread h tokens t choice = some o) :
    (o.thread.timerWheel = t.timerWheel ∧
      ∀ d msg, t.pc = .dispatch d msg → ¬0 < msg.timeout) ∨
      ∃ d msg, t.pc = .dispatch d msg ∧ 0 < msg.timeout ∧ o = delayed tokens t d msg := by
  have hmove := stepThread_move hstep
  cases hmove with
  | delay hpc hdelay => exact .inr ⟨_, _, hpc, hdelay, rfl⟩
  | expire hpc hmsg => exact absurd rfl (stepThread_ne_process hchoice hpc hstep _)
  | @enqueue d e hpc =>
      refine .inl ⟨(stepEnqueue_frame t e).timerWheel, fun d msg hd => ?_⟩
      rw [hpc] at hd
      cases hd
  | @resend p hpc =>
      refine .inl ⟨(stepSend_frame t p).timerWheel, fun d msg hd => ?_⟩
      rw [hpc] at hd
      cases hd
  | acquire hpc hnot _ =>
      refine .inl ⟨rfl, fun d msg hd => ?_⟩
      rw [hpc] at hd
      cases hd
      exact hnot
  | defer hpc hnot _ =>
      refine .inl ⟨rfl, fun d msg hd => ?_⟩
      rw [hpc] at hd
      cases hd
      exact hnot
  | _ =>
      refine .inl ⟨rfl, fun d msg hd => ?_⟩
      simp_all

end

/-- The steps of the handler threads, their callers and their timer wheels. -/
inductive TimedMove (s : TimedState H C Token) : TimedAction H C Token →
    TimedState H C Token → Prop
  /-- a step of a call, or a call begins -/
  | call (a : Action H C Token) (base : State H C Token)
      (hcall : ∀ h choice, a ≠ .thread h choice) (hstep : Dispatch.step s.base a = some base) :
      TimedMove s (.base a) { s with base := base }
  /-- the thread goes on with its own code -/
  | own (h : H) (choice : Choice) (o : Outcome H C Token) (hfree : s.free h = true)
      (hstep : stepThread h s.base.tokens (s.base.threads h) choice = some o)
      (hwheel : o.thread.timerWheel = (s.base.threads h).timerWheel) :
      TimedMove s (.base (.thread h choice)) { s with base := s.base.apply h o }
  /-- `process_queue` posts a message to the timer wheel -/
  | delay (h : H) (choice : Choice) (d : Drain) (msg : Message Token)
      (hpc : (s.base.threads h).pc = .dispatch d msg) (hdelay : 0 < msg.timeout)
      (hstep : Dispatch.step s.base (.thread h choice) =
        some (s.base.apply h (delayed s.base.tokens (s.base.threads h) d msg))) :
      TimedMove s (.base (.thread h choice)) { s.postDelayed h msg with
        base := s.base.apply h (delayed s.base.tokens (s.base.threads h) d msg) }
  | wait (d : Nat) :
      TimedMove s (.wait d) { s with
        clock := s.clock + d
        wheels := fun h => { s.wheels h with clock := (s.wheels h).clock + d } }
  | tick (h : H) (w : TimerWheel) (hloop : (s.base.threads h).inLoop = true)
      (hstep : TimerWheel.machine.step (s.wheels h) .tick = some w) :
      TimedMove s (.tick h) { s with wheels := Function.update s.wheels h w }
  /-- `bookkeeper` goes on and begins no callback -/
  | bookkeeper (h : H) (w : TimerWheel) (hloop : (s.base.threads h).inLoop = true)
      (hstep : TimerWheel.machine.step (s.wheels h) .run = some w)
      (hnone : ∀ now r, w.pc = .process now r → s.captured h r = none) :
      TimedMove s (.bookkeeper h) { s with wheels := Function.update s.wheels h w }
  /-- `bookkeeper` begins a callback -/
  | callback (h : H) (w : TimerWheel) (now : Int) (r : Nat) (msg : Message Token)
      (hloop : (s.base.threads h).inLoop = true)
      (hstep : TimerWheel.machine.step (s.wheels h) .run = some w)
      (hpc : w.pc = .process now r) (hmsg : s.captured h r = some msg) :
      TimedMove s (.bookkeeper h) { s with
        wheels := Function.update s.wheels h w
        base := TimedState.beginCallback s.base h msg }

variable {s s' : TimedState H C Token}

theorem stepBase_move {a : Action H C Token} (hstep : s.stepBase a = some s') :
    TimedMove s (.base a) s' := by
  obtain ⟨base, hbase, hrest⟩ := Option.bind_eq_some_iff.mp hstep
  cases a with
  | thread h choice =>
      have hchoice : ∀ i, choice ≠ .expire i := by
        rintro i rfl
        cases hrest
      obtain ⟨o, ho, happly⟩ := Option.map_eq_some_iff.mp hbase
      subst happly
      have hrest : (if s.free h then
          match (s.base.threads h).pc with
          | .dispatch _ msg =>
              if 0 < msg.timeout then
                some { s.postDelayed h msg with base := s.base.apply h o }
              else some { s with base := s.base.apply h o }
          | _ => some { s with base := s.base.apply h o }
        else none) = some s' := by
        cases choice with
        | expire i => exact absurd rfl (hchoice i)
        | _ => exact hrest
      split at hrest
      · rename_i hfree
        rcases stepThread_timerWheel hchoice ho with ⟨hwheel, hnot⟩ | ⟨d, msg, hpc, hdelay, rfl⟩
        · have hsame : s' = { s with base := s.base.apply h o } := by
            split at hrest
            · rename_i d msg hpc
              rw [if_neg (hnot d msg hpc)] at hrest
              cases hrest
              rfl
            · cases hrest
              rfl
          subst hsame
          exact .own h choice o hfree ho hwheel
        · rw [hpc] at hrest
          simp only [hdelay, if_true] at hrest
          cases hrest
          exact .delay h choice d msg hpc hdelay hbase
      · cases hrest
  | _ =>
      cases hrest
      exact .call _ base (fun _ _ heq => nomatch heq) hbase

/-- Every step is one of the moves. -/
theorem timed_step_move {a : TimedAction H C Token} (hstep : s.step a = some s') :
    TimedMove s a s' := by
  cases a with
  | base a => exact stepBase_move hstep
  | wait d =>
      cases hstep
      exact .wait d
  | tick h =>
      simp only [TimedState.step] at hstep
      split at hstep
      · obtain ⟨w, hw, rfl⟩ := Option.map_eq_some_iff.mp hstep
        exact .tick h w ‹_› hw
      · cases hstep
  | bookkeeper h =>
      simp only [TimedState.step] at hstep
      split at hstep
      · obtain ⟨w, hw, rfl⟩ := Option.map_eq_some_iff.mp hstep
        unfold TimedState.afterBookkeeper
        split
        · rename_i now r hpc
          cases hmsg : s.captured h r with
          | none =>
              refine .bookkeeper h w ‹_› hw fun now' r' hpc' => ?_
              rw [hpc] at hpc'
              cases hpc'
              exact hmsg
          | some msg => exact .callback h w now r msg ‹_› hw hpc hmsg
        · rename_i hpc
          exact .bookkeeper h w ‹_› hw fun now r hpc' => absurd hpc' (hpc now r)
      · cases hstep

end Dispatch
end Cyan
