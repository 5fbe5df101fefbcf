import Cyan.Base.Machine
import Cyan.Dispatch.Message
import Cyan.Event.Async

/-!
# Handler threads, step by step

This module embeds `handler_thread_impl` with the serial tokens and the event
loop it uses.  Every atomic access, and every operation on the message queue, is
one step; the handler threads and the callers of their public members
interleave freely.

* The message queue is an atomic first-in first-out list.
* `ev_run` forgets an earlier `ev_break` when it is entered and leaves only when
  `loop_done` is set at the end of an iteration.  The thread is blocked in
  `backend_poll` until the watcher of `queued_event_` or a timer fires.
* There is no clock: a request of the timer wheel may expire whenever the loop
  polls or invokes callbacks.
* A call that user code makes from inside a callback is a call of a caller of
  its own, so a caller is whoever makes one call after another.
* The destructor is a call of `stop(true)` followed by a wait for `exited`.

The field `op` of a message, the parameters `op` of the stages of a call and the
field `trace` of a state record what happened and never influence a step.  A
call, and a stop message, is identified by the length of the trace at which it
began.
-/

namespace Cyan
namespace Dispatch

open Base Event

variable {H C Token : Type*}

/-- Who runs `process_queue()`: `execute` before the loop, or the callback of
`queued_event_`. -/
inductive Drain
  | execute
  | callback
  deriving DecidableEq, Repr

/-- Who runs `msg->process()`: `process_queue()` or the timer wheel. -/
inductive Origin
  | queue (d : Drain)
  | timer
  deriving DecidableEq, Repr

/-- Where `enqueue(msg)` stands. -/
inductive Enqueue (Token : Type*)
  /-- `if (is_stopping()) return` -/
  | isStopping (msg : Message Token)
  /-- `queue_->enqueue(msg)` -/
  | push (msg : Message Token)
  /-- `if (queued_event_)` -/
  | wake (op : Nat)
  /-- `queued_event_->send()`, also for `enqueue_unsafe` -/
  | send (op : Nat) (p : Async.Send)
  deriving DecidableEq, Repr

/-- Where the handler thread stands. -/
inductive Pc (Token : Type*)
  /-- `if (is_stopping()) return` -/
  | start
  /-- `running_.store(true)` -/
  | setRunning
  /-- `queued_event_ = make_unique<async>(loop)`, and the timer wheel -/
  | makeEvent
  /-- `queued_event_->start()`, `timer_wheel_->start()` -/
  | startEvent
  /-- `queued_event_->set_callback(...)` -/
  | setCallback
  /-- `handler_->on_initialize()` -/
  | onInitialize
  /-- `while (queue_->try_dequeue(msg))` -/
  | drain (d : Drain)
  /-- `msg->get_timeout()`, then `msg->try_acquire()` -/
  | dispatch (d : Drain) (msg : Message Token)
  /-- `enqueue(std::move(msg))` inside `process_queue` -/
  | enqueue (d : Drain) (e : Enqueue Token)
  /-- `if (is_stopping() && ...)` -/
  | isStopping (d : Drain)
  /-- `queue_->empty()`, then `get_event_loop()->stop()` -/
  | isEmpty (d : Drain)
  /-- `msg->process(*handler_)` is called -/
  | process (o : Origin) (msg : Message Token)
  /-- the callable or `on_message` runs -/
  | running (o : Origin) (msg : Message Token)
  /-- `release()` -/
  | release (o : Origin) (msg : Message Token)
  /-- the entry of `ev_run` -/
  | startLoop
  /-- blocked in `backend_poll` -/
  | poll
  /-- `EV_INVOKE_PENDING`, and the end of the iteration -/
  | invoke
  /-- `count_.fetch_sub(1) > 1` after the callback -/
  | subCount
  /-- `send()` after the callback -/
  | resend (p : Async.Send)
  /-- `handler_->on_finalize()` -/
  | onFinalize
  /-- `running_.store(false)` -/
  | clearRunning
  /-- `execute()` has returned -/
  | exited
  deriving DecidableEq, Repr

/-- `handler_thread_impl` with its thread and its event loop. -/
structure HandlerThread (Token : Type*) where
  queue : List (Message Token)
  queuedEvent : Option Async
  timerWheel : List (Message Token)
  stopping : Bool
  running : Bool
  /-- `loop_done` of the event loop -/
  loopDone : Bool
  pc : Pc Token

/-- Where a call of a public member stands. -/
inductive Call (Token : Type*)
  /-- `msg->set_serial_token(token)` -/
  | setSerialToken (msg : Message Token) (token : Token)
  /-- `enqueue(msg)` -/
  | enqueue (e : Enqueue Token)
  /-- `stopping_.store(true)` of `stop(safe)` -/
  | setStopping (op : Nat) (safe : Bool)
  /-- `if (!is_running()) return`, then `!safe` -/
  | isRunning (op : Nat) (safe : Bool)
  /-- `queue_->empty()` of `stop` -/
  | isEmpty (op : Nat)
  /-- `queue_->enqueue(msg)` of `enqueue_unsafe` -/
  | pushUnsafe (op : Nat) (msg : Message Token)
  /-- `queued_event_->` of `enqueue_unsafe` -/
  | deref (op : Nat)
  /-- the null pointer `queued_event_` was followed -/
  | fault (op : Nat)
  deriving DecidableEq, Repr

/-- What the trace records. -/
inductive Mark (H C Token : Type*)
  /-- a call of `send` or `post`, with the token that is passed -/
  | call (c : C) (op : Nat) (h : H) (token : Option Token)
  /-- a call of `stop` -/
  | callStop (c : C) (op : Nat) (h : H) (safe : Bool)
  /-- a stop message is made -/
  | makeStop (op : Nat) (h : H)
  /-- `set_serial_token` draws a sequence number -/
  | draw (c : C) (op : Nat) (token : Token)
  /-- the enqueue of a call has accepted its message -/
  | push (msg : Message Token) (h : H)
  /-- a call returns -/
  | ret (op : Nat)
  /-- a callable or `on_message` begins -/
  | started (msg : Message Token) (h : H)
  /-- it ends, by an exception or not -/
  | ended (msg : Message Token) (h : H) (threw : Bool)
  /-- `release()` -/
  | released (msg : Message Token) (h : H)
  /-- `process()` returns -/
  | processed (msg : Message Token) (h : H)
  /-- `execute()` returns -/
  | exit (h : H)
  deriving DecidableEq, Repr

/-- The tokens, the handler threads, the callers with the thread they call, and
the trace (newest first). -/
structure State (H C Token : Type*) where
  tokens : Token → SerialToken
  threads : H → HandlerThread Token
  callers : C → Option (H × Call Token)
  trace : List (Mark H C Token)

/-- What a scheduler can do with a handler thread. -/
inductive Choice
  /-- the next step of its code -/
  | run
  /-- the callable or `on_message` ends -/
  | finish (threw : Bool)
  /-- the watcher of `queued_event_` is delivered -/
  | deliver
  /-- a request of the timer wheel expires -/
  | expire (i : Nat)
  deriving DecidableEq, Repr

/-- What a scheduler can do: begin a call, take the next step of a call, or let
a handler thread go on. -/
inductive Action (H C Token : Type*)
  | send (c : C) (h : H) (timeout : Int)
  | post (c : C) (h : H) (timeout : Int)
  | postSerial (c : C) (h : H) (token : Token)
  | stop (c : C) (h : H) (safe : Bool)
  | call (c : C)
  | thread (h : H) (choice : Choice)

/-- What one step of a handler thread or of a call makes of the thread and the
tokens, what it adds to the trace (newest first), and where a call goes
on. -/
structure Outcome (H C Token : Type*) where
  thread : HandlerThread Token
  tokens : Token → SerialToken
  marks : List (Mark H C Token)
  next : Option (Call Token)

namespace HandlerThread

/-- The thread moves on to `k`. -/
def goto (t : HandlerThread Token) (k : Pc Token) : HandlerThread Token :=
  { t with pc := k }

/-- The loop is a thread-local object, so it dies with the thread. -/
def loopAlive (t : HandlerThread Token) : Bool :=
  match t.pc with
  | .exited => false
  | _ => true

/-- One step of `send()` on `queued_event_`. -/
def stepSend (t : HandlerThread Token) (p : Async.Send) :
    HandlerThread Token × Option Async.Send :=
  match t.queuedEvent with
  | none => (t, none)
  | some a =>
      ({ t with queuedEvent := some (a.stepSend t.loopAlive p).1 },
        (a.stepSend t.loopAlive p).2)

/-- One step of `enqueue(msg)`, with the step that comes next. -/
def stepEnqueue (t : HandlerThread Token) :
    Enqueue Token → HandlerThread Token × Option (Enqueue Token)
  | .isStopping msg => (t, if t.stopping then none else some (.push msg))
  | .push msg => ({ t with queue := t.queue ++ [msg] }, some (.wake msg.op))
  -- a null `queued_event_` ends the call: the first drain will find the message
  | .wake op => (t, t.queuedEvent.map fun _ => .send op .addCount)
  | .send op p => ((t.stepSend p).1, (t.stepSend p).2.map (.send op))

end HandlerThread

/-- Where `process_queue()` returns to. -/
def Drain.after : Drain → Pc Token
  | .execute => .startLoop
  | .callback => .subCount

/-- Where `msg->process()` returns to. -/
def Origin.after : Origin → Pc Token
  | .queue d => .drain d
  | .timer => .invoke

/-- The call that a stage of `enqueue` belongs to. -/
def Enqueue.op : Enqueue Token → Nat
  | .isStopping msg => msg.op
  | .push msg => msg.op
  | .wake op => op
  | .send op _ => op

/-- What a stage of a caller's `enqueue` leaves in the trace. -/
def Enqueue.marks (h : H) : Enqueue Token → List (Mark H C Token)
  | .push msg => [.push msg h]
  | _ => []

section Thread

variable [DecidableEq Token]
variable (h : H) (tokens : Token → SerialToken) (t : HandlerThread Token)

/-- A step that leaves the tokens alone. -/
def Outcome.of (t : HandlerThread Token) (marks : List (Mark H C Token)) :
    Outcome H C Token where
  thread := t
  tokens := tokens
  marks := marks
  next := none

/-- One step of `execute()` and of the event loop it runs. -/
def stepExecute : Pc Token → Option (Outcome H C Token)
  | .start =>
      if t.stopping then some (.of tokens (t.goto .exited) [.exit h])
      else some (.of tokens (t.goto .setRunning) [])
  | .setRunning => some (.of tokens ({ t with running := true }.goto .makeEvent) [])
  | .makeEvent =>
      some (.of tokens ({ t with queuedEvent := some .create }.goto .startEvent) [])
  | .startEvent =>
      some (.of tokens ({ t with queuedEvent := t.queuedEvent.map .start }.goto
        .setCallback) [])
  | .setCallback =>
      some (.of tokens ({ t with queuedEvent := t.queuedEvent.map .setCallback }.goto
        .onInitialize) [])
  | .onInitialize => some (.of tokens (t.goto (.drain .execute)) [])
  -- `ev_run` clears `loop_done` on entry
  | .startLoop => some (.of tokens ({ t with loopDone := false }.goto .poll) [])
  | .invoke =>
      some (.of tokens (t.goto (if t.loopDone then .onFinalize else .poll)) [])
  | .subCount =>
      t.queuedEvent.map fun a =>
        .of tokens ({ t with queuedEvent := some a.subCount.1 }.goto
          (if a.subCount.2 then .resend .addCount else .invoke)) []
  | .resend p =>
      some (.of tokens ((t.stepSend p).1.goto
        (((t.stepSend p).2.map .resend).getD .invoke)) [])
  | .onFinalize => some (.of tokens (t.goto .clearRunning) [])
  | .clearRunning =>
      some (.of tokens ({ t with running := false }.goto .exited) [.exit h])
  | _ => none

/-- One step of `process_queue()`. -/
def stepProcessQueue : Pc Token → Option (Outcome H C Token)
  | .drain d =>
      match t.queue with
      | [] => some (.of tokens (t.goto (.isStopping d)) [])
      | msg :: rest =>
          some (.of tokens ({ t with queue := rest }.goto (.dispatch d msg)) [])
  | .dispatch d msg =>
      if 0 < msg.timeout then
        some (.of tokens ({ t with timerWheel := t.timerWheel ++ [msg] }.goto
          (.drain d)) [])
      else if msg.tryAcquire tokens then
        some (.of tokens (t.goto (.process (.queue d) msg)) [])
      -- not its turn yet: back to the queue, through the stop-checked `enqueue`
      else some (.of tokens (t.goto (.enqueue d (.isStopping msg))) [])
  | .enqueue d e =>
      some (.of tokens ((t.stepEnqueue e).1.goto
        (((t.stepEnqueue e).2.map (.enqueue d)).getD (.drain d))) [])
  | .isStopping d =>
      some (.of tokens (t.goto (if t.stopping then .isEmpty d else d.after)) [])
  | .isEmpty d =>
      some (.of tokens ({ t with loopDone := t.loopDone || t.queue.isEmpty }.goto
        d.after) [])
  | _ => none

/-- One step of `msg->process()`, except for the end of the user's code. -/
def stepProcess : Pc Token → Option (Outcome H C Token)
  | .process o msg =>
      match msg.type with
      -- `stop_message::process` stops the event loop
      | .stop =>
          some (.of tokens ({ t with loopDone := true }.goto o.after)
            [.processed msg h])
      | _ =>
          some (.of tokens (t.goto (.running o msg))
            [.started msg h])
  | .release o msg =>
      some (.of (msg.release tokens) (t.goto o.after)
        [.processed msg h, .released msg h])
  | _ => none

/-- The callable or `on_message` ends; an exception goes to `on_error`. -/
def stepFinish (threw : Bool) : Pc Token → Option (Outcome H C Token)
  | .running o msg =>
      match msg.type with
      -- only `callable_message::process` releases a token
      | .callable =>
          some (.of tokens (t.goto (.release o msg))
            [.ended msg h threw])
      | _ =>
          some (.of tokens (t.goto o.after)
            [.processed msg h, .ended msg h threw])
  | _ => none

/-- The loop delivers the watcher of `queued_event_`. -/
def stepDeliver : Pc Token → Option (Outcome H C Token)
  | .poll =>
      (t.queuedEvent.filter Async.due).map fun a =>
        .of tokens ({ t with queuedEvent := some a.deliver }.goto
          -- without a callback in `data` the delivery does nothing
          (if a.callback then .drain .callback else .invoke)) []
  | _ => none

/-- The timer fires and `bookkeeper()` processes an expired request. -/
def stepExpire (i : Nat) : Pc Token → Option (Outcome H C Token)
  | .poll | .invoke =>
      t.timerWheel[i]?.map fun msg =>
        .of tokens ({ t with timerWheel := t.timerWheel.eraseIdx i }.goto
          (.process .timer msg)) []
  | _ => none

/-- One step of a handler thread. -/
def stepThread : Choice → Option (Outcome H C Token)
  | .run =>
      stepExecute h tokens t t.pc <|> stepProcessQueue tokens t t.pc <|>
        stepProcess h tokens t t.pc
  | .finish threw => stepFinish h tokens t threw t.pc
  | .deliver => stepDeliver tokens t t.pc
  | .expire i => stepExpire tokens t i t.pc

/-- One step of caller `c` in a call on thread `h`, when the trace has `n`
events. -/
def stepCall (c : C) (n : Nat) : Call Token → Option (Outcome H C Token)
  | .setSerialToken msg token =>
      some ⟨t, (msg.setSerialToken tokens token).1, [.draw c msg.op token],
        some (.enqueue (.isStopping (msg.setSerialToken tokens token).2))⟩
  | .enqueue e =>
      match (t.stepEnqueue e).2 with
      | some e' =>
          some ⟨(t.stepEnqueue e).1, tokens, e.marks h, some (.enqueue e')⟩
      | none => some ⟨(t.stepEnqueue e).1, tokens, [.ret e.op], none⟩
  | .setStopping op safe =>
      some ⟨{ t with stopping := true }, tokens, [], some (.isRunning op safe)⟩
  | .isRunning op safe =>
      if !t.running then some ⟨t, tokens, [.ret op], none⟩
      else if safe then some ⟨t, tokens, [], some (.isEmpty op)⟩
      else some ⟨t, tokens, [.makeStop n h], some (.pushUnsafe op (makeStopMessage n))⟩
  | .isEmpty op =>
      if t.queue.isEmpty then
        some ⟨t, tokens, [.makeStop n h], some (.pushUnsafe op (makeStopMessage n))⟩
      else some ⟨t, tokens, [.ret op], none⟩
  | .pushUnsafe op msg =>
      some ⟨{ t with queue := t.queue ++ [msg] }, tokens, [], some (.deref op)⟩
  | .deref op =>
      -- unlike `enqueue`, `enqueue_unsafe` does not test the pointer
      match t.queuedEvent with
      | some _ => some ⟨t, tokens, [], some (.enqueue (.send op .addCount))⟩
      | none => some ⟨t, tokens, [], some (.fault op)⟩
  | .fault _ => none

end Thread

namespace State

variable [DecidableEq H]

/-- Thread `h`, the tokens and the trace after a step. -/
def apply (s : State H C Token) (h : H) (o : Outcome H C Token) :
    State H C Token :=
  { s with
    tokens := o.tokens
    threads := Function.update s.threads h o.thread
    trace := o.marks ++ s.trace }

@[simp] theorem apply_self (s : State H C Token) (h : H) (o : Outcome H C Token) :
    (s.apply h o).threads h = o.thread :=
  Function.update_self ..

theorem apply_of_ne (s : State H C Token) (o : Outcome H C Token) {g h : H}
    (hgh : g ≠ h) : (s.apply h o).threads g = s.threads g :=
  Function.update_of_ne hgh ..

end State

variable [DecidableEq H] [DecidableEq C] [DecidableEq Token]

/-- Caller `c` begins a call on thread `h`. -/
def beginCall (s : State H C Token) (c : C) (h : H) (call : Call Token)
    (e : Mark H C Token) : Option (State H C Token) :=
  match s.callers c with
  | none =>
      some { s with
        callers := Function.update s.callers c (some (h, call))
        trace := e :: s.trace }
  | some _ => none

/-- `send(payload)` and `send(payload, timeout)`. -/
def send (s : State H C Token) (c : C) (h : H) (timeout : Int) :
    Option (State H C Token) :=
  beginCall s c h (.enqueue (.isStopping (makePayloadMessage timeout s.trace.length)))
    (.call c s.trace.length h none)

/-- `post(callback)` and `post(callback, timeout)`, and their awaitable forms. -/
def post (s : State H C Token) (c : C) (h : H) (timeout : Int) :
    Option (State H C Token) :=
  beginCall s c h (.enqueue (.isStopping (makeCallableMessage timeout s.trace.length)))
    (.call c s.trace.length h none)

/-- `post(token, callback)` and its awaitable form. -/
def postSerial (s : State H C Token) (c : C) (h : H) (token : Token) :
    Option (State H C Token) :=
  beginCall s c h (.setSerialToken (makeCallableMessage 0 s.trace.length) token)
    (.call c s.trace.length h (some token))

/-- `stop(safe)`. -/
def stop (s : State H C Token) (c : C) (h : H) (safe : Bool) :
    Option (State H C Token) :=
  beginCall s c h (.setStopping s.trace.length safe)
    (.callStop c s.trace.length h safe)

/-- One step of the handler threads and their callers. -/
def step (s : State H C Token) : Action H C Token → Option (State H C Token)
  | .send c h timeout => send s c h timeout
  | .post c h timeout => post s c h timeout
  | .postSerial c h token => postSerial s c h token
  | .stop c h safe => stop s c h safe
  | .call c =>
      match s.callers c with
      | none => none
      | some (h, call) =>
          (stepCall h s.tokens (s.threads h) c s.trace.length call).map fun o =>
            { s.apply h o with
              callers := Function.update s.callers c (o.next.map (h, ·)) }
  | .thread h choice =>
      (stepThread h s.tokens (s.threads h) choice).map (s.apply h)

/-- `handler_thread_impl::handler_thread_impl`. -/
def HandlerThread.initial : HandlerThread Token where
  queue := []
  queuedEvent := none
  timerWheel := []
  stopping := false
  running := false
  loopDone := false
  pc := .start

/-- New tokens, new handler threads, and no call. -/
def initial : State H C Token where
  tokens := fun _ => ⟨0, 0⟩
  threads := fun _ => .initial
  callers := fun _ => none
  trace := []

/-- The handler threads and their callers as a machine. -/
def machine : Machine (State H C Token) (Action H C Token) where
  start s := s = initial
  step := step

end Dispatch
end Cyan
