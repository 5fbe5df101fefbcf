import Cyan.Dispatch.HandlerThread

/-!
# What a step can do

The step functions of `HandlerThread` read as relations, one constructor for
each way through the code.  Later modules argue by cases on these relations and
never unfold a step function.

* `ThreadMove` is a step of a handler thread, `CallMove` a step of a call, and
  `Action.opens` says how a call begins.
* `step_move` puts the three together for the whole state.
-/

namespace Cyan
namespace Dispatch

open Base Event

variable {H C Token : Type*} [DecidableEq Token]

/-- The steps of a handler thread. -/
inductive ThreadMove (h : H) (tokens : Token → SerialToken) (t : HandlerThread Token) :
    Outcome H C Token → Prop
  | quit : t.pc = .start → t.stopping = true →
      ThreadMove h tokens t (.of tokens (t.goto .exited) [.exit h])
  | start : t.pc = .start → t.stopping = false →
      ThreadMove h tokens t (.of tokens (t.goto .setRunning) [])
  | setRunning : t.pc = .setRunning →
      ThreadMove h tokens t (.of tokens ({ t with running := true }.goto .makeEvent) [])
  | makeEvent : t.pc = .makeEvent →
      ThreadMove h tokens t
        (.of tokens ({ t with queuedEvent := some .create }.goto .startEvent) [])
  | startEvent : t.pc = .startEvent →
      ThreadMove h tokens t (.of tokens
        ({ t with queuedEvent := t.queuedEvent.map .start }.goto .setCallback) [])
  | setCallback : t.pc = .setCallback →
      ThreadMove h tokens t (.of tokens
        ({ t with queuedEvent := t.queuedEvent.map .setCallback }.goto .onInitialize) [])
  | onInitialize : t.pc = .onInitialize →
      ThreadMove h tokens t (.of tokens (t.goto (.drain .execute)) [])
  | startLoop : t.pc = .startLoop →
      ThreadMove h tokens t (.of tokens ({ t with loopDone := false }.goto .poll) [])
  | leave : t.pc = .invoke → t.loopDone = true →
      ThreadMove h tokens t (.of tokens (t.goto .onFinalize) [])
  | iterate : t.pc = .invoke → t.loopDone = false →
      ThreadMove h tokens t (.of tokens (t.goto .poll) [])
  | subCount {a : Async} : t.pc = .subCount → t.queuedEvent = some a →
      ThreadMove h tokens t (.of tokens ({ t with queuedEvent := some a.subCount.1 }.goto
        (if a.subCount.2 then .resend .addCount else .invoke)) [])
  | resend {p : Async.Send} : t.pc = .resend p →
      ThreadMove h tokens t (.of tokens ((t.stepSend p).1.goto
        (((t.stepSend p).2.map .resend).getD .invoke)) [])
  | onFinalize : t.pc = .onFinalize →
      ThreadMove h tokens t (.of tokens (t.goto .clearRunning) [])
  | clearRunning : t.pc = .clearRunning →
      ThreadMove h tokens t
        (.of tokens ({ t with running := false }.goto .exited) [.exit h])
  | drained {d : Drain} : t.pc = .drain d → t.queue = [] →
      ThreadMove h tokens t (.of tokens (t.goto (.isStopping d)) [])
  | dequeue {d : Drain} {msg : Message Token} {rest : List (Message Token)} :
      t.pc = .drain d → t.queue = msg :: rest →
      ThreadMove h tokens t
        (.of tokens ({ t with queue := rest }.goto (.dispatch d msg)) [])
  | delay {d : Drain} {msg : Message Token} : t.pc = .dispatch d msg →
      0 < msg.timeout →
      ThreadMove h tokens t (.of tokens
        ({ t with timerWheel := t.timerWheel ++ [msg] }.goto (.drain d)) [])
  | acquire {d : Drain} {msg : Message Token} : t.pc = .dispatch d msg →
      ¬ 0 < msg.timeout → msg.tryAcquire tokens = true →
      ThreadMove h tokens t (.of tokens (t.goto (.process (.queue d) msg)) [])
  | defer {d : Drain} {msg : Message Token} : t.pc = .dispatch d msg →
      ¬ 0 < msg.timeout → msg.tryAcquire tokens = false →
      ThreadMove h tokens t (.of tokens (t.goto (.enqueue d (.isStopping msg))) [])
  | enqueue {d : Drain} {e : Enqueue Token} : t.pc = .enqueue d e →
      ThreadMove h tokens t (.of tokens ((t.stepEnqueue e).1.goto
        (((t.stepEnqueue e).2.map (.enqueue d)).getD (.drain d))) [])
  | isStopping {d : Drain} : t.pc = .isStopping d →
      ThreadMove h tokens t
        (.of tokens (t.goto (if t.stopping then .isEmpty d else d.after)) [])
  | isEmpty {d : Drain} : t.pc = .isEmpty d →
      ThreadMove h tokens t (.of tokens
        ({ t with loopDone := t.loopDone || t.queue.isEmpty }.goto d.after) [])
  | stopLoop {o : Origin} {msg : Message Token} : t.pc = .process o msg →
      msg.type = .stop →
      ThreadMove h tokens t
        (.of tokens ({ t with loopDone := true }.goto o.after) [.processed msg h])
  | begin {o : Origin} {msg : Message Token} : t.pc = .process o msg →
      msg.type ≠ .stop →
      ThreadMove h tokens t (.of tokens (t.goto (.running o msg))
        [.started msg h])
  | release {o : Origin} {msg : Message Token} : t.pc = .release o msg →
      ThreadMove h tokens t (.of (msg.release tokens) (t.goto o.after)
        [.processed msg h, .released msg h])
  | finish {o : Origin} {msg : Message Token} {threw : Bool} :
      t.pc = .running o msg → msg.type = .callable →
      ThreadMove h tokens t (.of tokens (t.goto (.release o msg))
        [.ended msg h threw])
  | finishPayload {o : Origin} {msg : Message Token} {threw : Bool} :
      t.pc = .running o msg → msg.type ≠ .callable →
      ThreadMove h tokens t (.of tokens (t.goto o.after)
        [.processed msg h, .ended msg h threw])
  | deliver {a : Async} : t.pc = .poll → t.queuedEvent = some a → a.due = true →
      ThreadMove h tokens t (.of tokens ({ t with queuedEvent := some a.deliver }.goto
        (if a.callback then .drain .callback else .invoke)) [])
  | expire {i : Nat} {msg : Message Token} : t.pc = .poll ∨ t.pc = .invoke →
      t.timerWheel[i]? = some msg →
      ThreadMove h tokens t (.of tokens
        ({ t with timerWheel := t.timerWheel.eraseIdx i }.goto (.process .timer msg)) [])

variable {h : H} {tokens : Token → SerialToken} {t : HandlerThread Token}
  {o : Outcome H C Token}

theorem stepExecute_move (hstep : stepExecute h tokens t t.pc = some o) :
    ThreadMove h tokens t o := by
  cases hpc : t.pc <;> rw [hpc] at hstep
  case start =>
    rw [stepExecute] at hstep
    split at hstep <;> cases hstep
    · exact .quit hpc ‹_›
    · exact .start hpc (eq_false_of_ne_true ‹_›)
  case invoke =>
    cases hstep
    split
    · exact .leave hpc ‹_›
    · exact .iterate hpc (eq_false_of_ne_true ‹_›)
  case subCount =>
    obtain ⟨a, ha, rfl⟩ := Option.map_eq_some_iff.mp hstep
    exact .subCount hpc ha
  case setRunning => cases hstep; exact .setRunning hpc
  case makeEvent => cases hstep; exact .makeEvent hpc
  case startEvent => cases hstep; exact .startEvent hpc
  case setCallback => cases hstep; exact .setCallback hpc
  case onInitialize => cases hstep; exact .onInitialize hpc
  case startLoop => cases hstep; exact .startLoop hpc
  case resend p => cases hstep; exact .resend hpc
  case onFinalize => cases hstep; exact .onFinalize hpc
  case clearRunning => cases hstep; exact .clearRunning hpc
  all_goals cases hstep

theorem stepProcessQueue_move (hstep : stepProcessQueue tokens t t.pc = some o) :
    ThreadMove h tokens t o := by
  cases hpc : t.pc <;> rw [hpc] at hstep
  case drain d =>
    rw [stepProcessQueue] at hstep
    split at hstep <;> cases hstep
    · exact .drained hpc ‹_›
    · exact .dequeue hpc ‹_›
  case dispatch d msg =>
    rw [stepProcessQueue] at hstep
    split at hstep
    · cases hstep
      exact .delay hpc ‹_›
    · split at hstep <;> cases hstep
      · exact .acquire hpc ‹_› ‹_›
      · exact .defer hpc ‹_› (eq_false_of_ne_true ‹_›)
  case enqueue d e => cases hstep; exact .enqueue hpc
  case isStopping d => cases hstep; exact .isStopping hpc
  case isEmpty d => cases hstep; exact .isEmpty hpc
  all_goals cases hstep

theorem stepProcess_move (hstep : stepProcess h tokens t t.pc = some o) :
    ThreadMove h tokens t o := by
  cases hpc : t.pc <;> rw [hpc] at hstep
  case process og msg =>
    rw [stepProcess] at hstep
    split at hstep <;> cases hstep
    · exact .stopLoop hpc ‹_›
    · exact .begin hpc ‹_›
  case release og msg => cases hstep; exact .release hpc
  all_goals cases hstep

theorem stepFinish_move {threw : Bool}
    (hstep : stepFinish h tokens t threw t.pc = some o) : ThreadMove h tokens t o := by
  cases hpc : t.pc <;> rw [hpc] at hstep
  case running og msg =>
    rw [stepFinish] at hstep
    split at hstep <;> cases hstep
    · exact .finish hpc ‹_›
    · exact .finishPayload hpc ‹_›
  all_goals cases hstep

theorem stepDeliver_move (hstep : stepDeliver tokens t t.pc = some o) :
    ThreadMove h tokens t o := by
  cases hpc : t.pc <;> rw [hpc] at hstep
  case poll =>
    obtain ⟨a, ha, rfl⟩ := Option.map_eq_some_iff.mp hstep
    obtain ⟨ha, hdue⟩ := Option.filter_eq_some_iff.mp ha
    exact .deliver hpc ha hdue
  all_goals cases hstep

theorem stepExpire_move {i : Nat} (hstep : stepExpire tokens t i t.pc = some o) :
    ThreadMove h tokens t o := by
  cases hpc : t.pc <;> rw [hpc] at hstep
  case poll =>
    obtain ⟨msg, hmsg, rfl⟩ := Option.map_eq_some_iff.mp hstep
    exact .expire (.inl hpc) hmsg
  case invoke =>
    obtain ⟨msg, hmsg, rfl⟩ := Option.map_eq_some_iff.mp hstep
    exact .expire (.inr hpc) hmsg
  all_goals cases hstep

/-- Every step of a handler thread is one of the moves. -/
theorem stepThread_move {choice : Choice}
    (hstep : stepThread h tokens t choice = some o) : ThreadMove h tokens t o := by
  cases choice with
  | run =>
      simp only [stepThread, Option.orElse_eq_orElse, Option.orElse_eq_or,
        Option.or_eq_some_iff] at hstep
      rcases hstep with hexecute | ⟨-, hqueue | ⟨-, hprocess⟩⟩
      · exact stepExecute_move hexecute
      · exact stepProcessQueue_move hqueue
      · exact stepProcess_move hprocess
  | finish threw => exact stepFinish_move hstep
  | deliver => exact stepDeliver_move hstep
  | expire i => exact stepExpire_move hstep

/-- The steps of a call. -/
inductive CallMove (h : H) (tokens : Token → SerialToken) (t : HandlerThread Token)
    (c : C) (n : Nat) : Call Token → Outcome H C Token → Prop
  | draw (msg : Message Token) (token : Token) :
      CallMove h tokens t c n (.setSerialToken msg token)
        ⟨t, (msg.setSerialToken tokens token).1, [.draw c msg.op token],
          some (.enqueue (.isStopping (msg.setSerialToken tokens token).2))⟩
  | enqueue (e e' : Enqueue Token) : (t.stepEnqueue e).2 = some e' →
      CallMove h tokens t c n (.enqueue e)
        ⟨(t.stepEnqueue e).1, tokens, e.marks h, some (.enqueue e')⟩
  | enqueued (e : Enqueue Token) : (t.stepEnqueue e).2 = none →
      CallMove h tokens t c n (.enqueue e)
        ⟨(t.stepEnqueue e).1, tokens, [.ret e.op], none⟩
  | setStopping (op : Nat) (safe : Bool) :
      CallMove h tokens t c n (.setStopping op safe)
        ⟨{ t with stopping := true }, tokens, [], some (.isRunning op safe)⟩
  | notRunning (op : Nat) (safe : Bool) : t.running = false →
      CallMove h tokens t c n (.isRunning op safe) ⟨t, tokens, [.ret op], none⟩
  | safe (op : Nat) : t.running = true →
      CallMove h tokens t c n (.isRunning op true) ⟨t, tokens, [], some (.isEmpty op)⟩
  | forced (op : Nat) : t.running = true →
      CallMove h tokens t c n (.isRunning op false)
        ⟨t, tokens, [.makeStop n h], some (.pushUnsafe op (makeStopMessage n))⟩
  | empty (op : Nat) : t.queue = [] →
      CallMove h tokens t c n (.isEmpty op)
        ⟨t, tokens, [.makeStop n h], some (.pushUnsafe op (makeStopMessage n))⟩
  | nonempty (op : Nat) : t.queue ≠ [] →
      CallMove h tokens t c n (.isEmpty op) ⟨t, tokens, [.ret op], none⟩
  | pushUnsafe (op : Nat) (msg : Message Token) :
      CallMove h tokens t c n (.pushUnsafe op msg)
        ⟨{ t with queue := t.queue ++ [msg] }, tokens, [], some (.deref op)⟩
  | deref (op : Nat) (a : Async) : t.queuedEvent = some a →
      CallMove h tokens t c n (.deref op)
        ⟨t, tokens, [], some (.enqueue (.send op .addCount))⟩
  | fault (op : Nat) : t.queuedEvent = none →
      CallMove h tokens t c n (.deref op) ⟨t, tokens, [], some (.fault op)⟩

/-- Every step of a call is one of the moves. -/
theorem stepCall_move {c : C} {n : Nat} {call : Call Token}
    (hstep : stepCall h tokens t c n call = some o) :
    CallMove h tokens t c n call o := by
  cases call with
  | setSerialToken msg token => cases hstep; exact .draw msg token
  | enqueue e =>
      rw [stepCall] at hstep
      split at hstep <;> cases hstep
      · exact .enqueue e _ ‹_›
      · exact .enqueued e ‹_›
  | setStopping op safe => cases hstep; exact .setStopping op safe
  | isRunning op safe =>
      rw [stepCall] at hstep
      cases hrun : t.running <;> rw [hrun] at hstep
      · cases hstep
        exact .notRunning op safe hrun
      · cases safe <;> cases hstep
        · exact .forced op hrun
        · exact .safe op hrun
  | isEmpty op =>
      rw [stepCall] at hstep
      split at hstep <;> cases hstep
      · exact .empty op (List.isEmpty_iff.mp ‹_›)
      · exact .nonempty op fun hnil => ‹¬ _› (List.isEmpty_iff.mpr hnil)
  | pushUnsafe op msg => cases hstep; exact .pushUnsafe op msg
  | deref op =>
      rw [stepCall] at hstep
      split at hstep <;> cases hstep
      · exact .deref op _ ‹_›
      · exact .fault op ‹_›
  | fault op => cases hstep

/-- How a call begins when the trace has `n` events: the caller, the thread, the
first stage and the event. -/
def Action.opens (n : Nat) :
    Action H C Token → Option (C × H × Call Token × Mark H C Token)
  | .send c h timeout =>
      some (c, h, .enqueue (.isStopping (makePayloadMessage timeout n)), .call c n h none)
  | .post c h timeout =>
      some (c, h, .enqueue (.isStopping (makeCallableMessage timeout n)), .call c n h none)
  | .postSerial c h token =>
      some (c, h, .setSerialToken (makeCallableMessage 0 n) token,
        .call c n h (some token))
  | .stop c h safe => some (c, h, .setStopping n safe, .callStop c n h safe)
  | _ => none

/-! ## Frames -/

variable {t' : HandlerThread Token}

/-- What a step of `enqueue` leaves as it is. -/
structure EnqueueFrame (t t' : HandlerThread Token) : Prop where
  pc : t'.pc = t.pc
  timerWheel : t'.timerWheel = t.timerWheel
  stopping : t'.stopping = t.stopping
  running : t'.running = t.running
  loopDone : t'.loopDone = t.loopDone
  event : ∀ a, t.queuedEvent = some a → ∃ a', t'.queuedEvent = some a'
  kept : ∀ a', t'.queuedEvent = some a' → ∃ a, t.queuedEvent = some a ∧
    (a.active = true → a'.active = true) ∧
    (a.callback = true → a'.callback = true) ∧ (a.sent = true → a'.sent = true)

section

omit [DecidableEq Token]

theorem EnqueueFrame.refl (t : HandlerThread Token) : EnqueueFrame t t where
  pc := rfl
  timerWheel := rfl
  stopping := rfl
  running := rfl
  loopDone := rfl
  event a ha := ⟨a, ha⟩
  kept a ha := ⟨a, ha, id, id, id⟩

theorem stepSend_frame (t : HandlerThread Token) (p : Async.Send) :
    EnqueueFrame t (t.stepSend p).1 := by
  cases hevent : t.queuedEvent with
  | none =>
      rw [HandlerThread.stepSend, hevent]
      exact .refl t
  | some a =>
      rw [HandlerThread.stepSend, hevent]
      obtain ⟨hactive, hcallback, hsent⟩ := a.stepSend_keeps t.loopAlive p
      refine ⟨rfl, rfl, rfl, rfl, rfl, fun _ _ => ⟨_, rfl⟩, fun a' ha' => ?_⟩
      cases ha'
      exact ⟨a, hevent, fun h => hactive.trans h, fun h => hcallback.trans h, hsent⟩

theorem stepEnqueue_frame (t : HandlerThread Token) (e : Enqueue Token) :
    EnqueueFrame t (t.stepEnqueue e).1 := by
  cases e with
  | isStopping msg => exact .refl t
  | push msg =>
      exact ⟨rfl, rfl, rfl, rfl, rfl, fun a ha => ⟨a, ha⟩, fun a ha => ⟨a, ha, id, id, id⟩⟩
  | wake op => exact .refl t
  | send op p => exact stepSend_frame t p

theorem stepSend_queue (t : HandlerThread Token) (p : Async.Send) :
    (t.stepSend p).1.queue = t.queue := by
  rw [HandlerThread.stepSend]
  split <;> rfl

end

/-- What a step of a call leaves of its thread. -/
theorem CallMove.frame {c : C} {n : Nat} {call : Call Token}
    (hmove : CallMove h tokens t c n call o) :
    EnqueueFrame { t with stopping := o.thread.stopping } o.thread := by
  cases hmove with
  | enqueue e e' _ =>
      have hframe := stepEnqueue_frame t e
      exact ⟨hframe.pc, hframe.timerWheel, rfl, hframe.running, hframe.loopDone,
        hframe.event, hframe.kept⟩
  | enqueued e _ =>
      have hframe := stepEnqueue_frame t e
      exact ⟨hframe.pc, hframe.timerWheel, rfl, hframe.running, hframe.loopDone,
        hframe.event, hframe.kept⟩
  | pushUnsafe op msg =>
      exact ⟨rfl, rfl, rfl, rfl, rfl, fun a ha => ⟨a, ha⟩, fun a ha => ⟨a, ha, id, id, id⟩⟩
  | _ => exact .refl _

/-! ## The whole state -/

variable [DecidableEq H] [DecidableEq C]

/-- The steps of the whole state. -/
inductive Move (s : State H C Token) : Action H C Token → State H C Token → Prop
  | opens (a : Action H C Token) (c : C) (h : H) (call : Call Token)
      (e : Mark H C Token) :
      a.opens s.trace.length = some (c, h, call, e) → s.callers c = none →
      Move s a { s with
        callers := Function.update s.callers c (some (h, call))
        trace := e :: s.trace }
  | call (c : C) (h : H) (call : Call Token) (o : Outcome H C Token) :
      s.callers c = some (h, call) →
      CallMove h s.tokens (s.threads h) c s.trace.length call o →
      Move s (.call c) { s.apply h o with
        callers := Function.update s.callers c (o.next.map (h, ·)) }
  | thread (h : H) (choice : Choice) (o : Outcome H C Token) :
      ThreadMove h s.tokens (s.threads h) o →
      Move s (.thread h choice) (s.apply h o)

theorem beginCall_move {s s' : State H C Token} {a : Action H C Token} {c : C} {h : H}
    {call : Call Token} {e : Mark H C Token}
    (hopens : a.opens s.trace.length = some (c, h, call, e))
    (hstep : beginCall s c h call e = some s') : Move s a s' := by
  rw [beginCall] at hstep
  split at hstep <;> cases hstep
  exact .opens a c h call e hopens ‹_›

/-- Every step is one of the moves. -/
theorem step_move {s s' : State H C Token} {a : Action H C Token}
    (hstep : step s a = some s') : Move s a s' := by
  cases a with
  | send c h timeout => exact beginCall_move rfl hstep
  | post c h timeout => exact beginCall_move rfl hstep
  | postSerial c h token => exact beginCall_move rfl hstep
  | stop c h safe => exact beginCall_move rfl hstep
  | call c =>
      rw [step] at hstep
      split at hstep
      · cases hstep
      · obtain ⟨o, ho, rfl⟩ := Option.map_eq_some_iff.mp hstep
        exact .call c _ _ o ‹_› (stepCall_move ho)
  | thread h choice =>
      obtain ⟨o, ho, rfl⟩ := Option.map_eq_some_iff.mp hstep
      exact .thread h choice o (stepThread_move ho)

/-- A step as thread `h` sees it. -/
inductive View (s s' : State H C Token) (h : H) (a : Action H C Token) : Prop
  | other : s'.threads h = s.threads h →
      (∀ c call, s.callers c = some (h, call) → s'.callers c = some (h, call)) →
      View s s' h a
  | call (c : C) (call : Call Token) (o : Outcome H C Token) :
      a = .call c → s.callers c = some (h, call) →
      CallMove h s.tokens (s.threads h) c s.trace.length call o →
      s'.threads h = o.thread →
      s'.callers = Function.update s.callers c (o.next.map (h, ·)) → View s s' h a
  | thread (choice : Choice) (o : Outcome H C Token) :
      a = .thread h choice → ThreadMove h s.tokens (s.threads h) o →
      s'.threads h = o.thread → s'.callers = s.callers → View s s' h a

/-- A step is a step of one thread, or of a call on one thread; every other
thread sees nothing of it. -/
theorem step_view {s s' : State H C Token} {a : Action H C Token}
    (hstep : step s a = some s') (h : H) : View s s' h a := by
  cases step_move hstep with
  | opens _ c g call e _ hidle =>
      refine .other rfl fun b call' hb => ?_
      have hbc : b ≠ c := by
        rintro rfl
        rw [hidle] at hb
        cases hb
      show Function.update s.callers c (some (g, call)) b = some (h, call')
      rw [Function.update_of_ne hbc]
      exact hb
  | call c g call o hcall hmove =>
      by_cases hgh : h = g
      · subst hgh
        exact .call c call o rfl hcall hmove (s.apply_self h o) rfl
      · refine .other (s.apply_of_ne o hgh) fun b call' hb => ?_
        have hbc : b ≠ c := by
          rintro rfl
          rw [hcall] at hb
          cases hb
          exact hgh rfl
        show Function.update s.callers c (o.next.map (g, ·)) b = some (h, call')
        rw [Function.update_of_ne hbc]
        exact hb
  | thread g choice o hmove =>
      by_cases hgh : h = g
      · subst hgh
        exact .thread choice o rfl hmove (s.apply_self h o) rfl
      · exact .other (s.apply_of_ne o hgh) fun _ _ hb => hb

/-- A step as caller `c` sees it. -/
inductive CallerView (s : State H C Token) (a : Action H C Token)
    (s' : State H C Token) (c : C) : Prop
  | other : s'.callers c = s.callers c → CallerView s a s' c
  | opens (h : H) (call : Call Token) (e : Mark H C Token) :
      a.opens s.trace.length = some (c, h, call, e) → s.callers c = none →
      s'.callers c = some (h, call) → s'.trace = e :: s.trace → CallerView s a s' c
  | call (h : H) (call : Call Token) (o : Outcome H C Token) :
      s.callers c = some (h, call) →
      CallMove h s.tokens (s.threads h) c s.trace.length call o →
      s'.callers c = o.next.map (h, ·) → s'.trace = o.marks ++ s.trace →
      CallerView s a s' c

/-- A step is a step of at most one caller. -/
theorem step_caller {s s' : State H C Token} {a : Action H C Token}
    (hstep : step s a = some s') (c : C) : CallerView s a s' c := by
  cases step_move hstep with
  | opens _ b h call e hopens hidle =>
      by_cases hcb : c = b
      · subst hcb
        exact .opens h call e hopens hidle (Function.update_self ..) rfl
      · exact .other (Function.update_of_ne hcb ..)
  | call b h call o hcall hmove =>
      by_cases hcb : c = b
      · subst hcb
        exact .call h call o hcall hmove (Function.update_self ..) rfl
      · exact .other (Function.update_of_ne hcb ..)
  | thread h choice o _ => exact .other rfl

end Dispatch
end Cyan
