import Mathlib.Data.List.Perm.Basic
import Cyan.Base.Places
import Cyan.Dispatch.Moves

/-!
# Where the messages are

A message is with the call that made it, in a queue, in a timer wheel, or in the
hands of a handler thread.  A step of the model moves at most one message
(`Flow`), and `Custody` keeps track of them: every message is in one place only.
-/

namespace Cyan
namespace Dispatch

open Base Event

variable {H C Token : Type*} [DecidableEq H] [DecidableEq C] [DecidableEq Token]
variable {h : H} {tokens : Token → SerialToken} {t t' : HandlerThread Token}
  {o : Outcome H C Token} {s s' : State H C Token} {msg : Message Token}

/-- The places inside a handler thread: the queue, the timer wheel, the local
variable of `process_queue`, and the three stages of `process()`. -/
inductive Spot
  | queue
  | timerWheel
  | held
  | acquired
  | running
  | ended
  deriving DecidableEq, Repr

/-- Between a successful `try_acquire` and `release`. -/
def Spot.Taken : Spot → Prop
  | .acquired => True
  | .running => True
  | .ended => True
  | _ => False

/-- The user's code has begun. -/
def Spot.Begun : Spot → Prop
  | .running => True
  | .ended => True
  | _ => False

/-- The places of the whole system. -/
inductive Place (H C : Type*)
  | caller (c : C)
  | spot (h : H) (k : Spot)
  deriving DecidableEq

/-- The messages that the code of the thread holds. -/
def Pc.holds : Pc Token → Spot → List (Message Token)
  | .dispatch _ msg, .held => [msg]
  | .enqueue _ (.isStopping msg), .held => [msg]
  | .enqueue _ (.push msg), .held => [msg]
  | .process _ msg, .acquired => [msg]
  | .running _ msg, .running => [msg]
  | .release _ msg, .ended => [msg]
  | _, _ => []

/-- The messages of a thread. -/
def HandlerThread.holds (t : HandlerThread Token) : Spot → List (Message Token)
  | .queue => t.queue
  | .timerWheel => t.timerWheel
  | k => t.pc.holds k

/-- The message that a call has not handed over yet. -/
def Call.holds : Call Token → List (Message Token)
  | .setSerialToken msg _ => [msg]
  | .enqueue (.isStopping msg) => [msg]
  | .enqueue (.push msg) => [msg]
  | .pushUnsafe _ msg => [msg]
  | _ => []

/-- The messages and where they are. -/
def contents (s : State H C Token) : Place H C → List (Message Token)
  | .caller c => (s.callers c).elim [] fun x => x.2.holds
  | .spot h k => (s.threads h).holds k

/-! ## Inside a thread -/

/-- What a step of a thread does with the messages. -/
inductive ThreadFlow (h : H) (tokens : Token → SerialToken) (t : HandlerThread Token)
    (o : Outcome H C Token) : Prop
  | stay : (∀ k, o.thread.holds k = t.holds k) → o.tokens = tokens →
      (o.marks = [] ∨ o.marks = [.exit h]) → ThreadFlow h tokens t o
  | dequeue (msg : Message Token) : Went t.holds o.thread.holds .queue .held msg →
      o.tokens = tokens → o.marks = [] → ThreadFlow h tokens t o
  | delay (msg : Message Token) : Went t.holds o.thread.holds .held .timerWheel msg →
      0 < msg.timeout → o.tokens = tokens → o.marks = [] → ThreadFlow h tokens t o
  | acquire (msg : Message Token) : Went t.holds o.thread.holds .held .acquired msg →
      ¬ 0 < msg.timeout → msg.tryAcquire tokens = true → o.tokens = tokens → o.marks = [] →
      ThreadFlow h tokens t o
  | requeue (msg : Message Token) : Went t.holds o.thread.holds .held .queue msg →
      o.tokens = tokens → o.marks = [] → ThreadFlow h tokens t o
  | refuse (d : Drain) (msg : Message Token) : Gone t.holds o.thread.holds .held msg →
      t.pc = .enqueue d (.isStopping msg) → t.stopping = true →
      o.tokens = tokens → o.marks = [] → ThreadFlow h tokens t o
  | expire (msg : Message Token) :
      Went t.holds o.thread.holds .timerWheel .acquired msg →
      o.tokens = tokens → o.marks = [] → ThreadFlow h tokens t o
  | begin (msg : Message Token) : Went t.holds o.thread.holds .acquired .running msg →
      o.tokens = tokens → o.marks = [.started msg h] → ThreadFlow h tokens t o
  | stopLoop (msg : Message Token) : Gone t.holds o.thread.holds .acquired msg →
      msg.type = .stop → o.tokens = tokens → o.marks = [.processed msg h] →
      ThreadFlow h tokens t o
  | finish (msg : Message Token) (threw : Bool) :
      Went t.holds o.thread.holds .running .ended msg →
      o.tokens = tokens → o.marks = [.ended msg h threw] → ThreadFlow h tokens t o
  | finishPayload (msg : Message Token) (threw : Bool) :
      Gone t.holds o.thread.holds .running msg → msg.type ≠ .callable →
      o.tokens = tokens → o.marks = [.processed msg h, .ended msg h threw] →
      ThreadFlow h tokens t o
  | release (msg : Message Token) : Gone t.holds o.thread.holds .ended msg →
      o.tokens = msg.release tokens → o.marks = [.processed msg h, .released msg h] →
      ThreadFlow h tokens t o

section

omit [DecidableEq Token]

theorem Drain.after_holds (d : Drain) (k : Spot) :
    (d.after : Pc Token).holds k = [] := by
  cases d <;> rfl

theorem Origin.after_holds (og : Origin) (k : Spot) :
    (og.after : Pc Token).holds k = [] := by
  cases og <;> rfl

/-- A step that changes neither the queue nor the wheel, between two places in
the code that hold nothing. -/
theorem HandlerThread.holds_eq (hqueue : t'.queue = t.queue)
    (hwheel : t'.timerWheel = t.timerWheel)
    (hpc : ∀ k, t'.pc.holds k = t.pc.holds k) (k : Spot) :
    t'.holds k = t.holds k := by
  cases k with
  | queue => exact hqueue
  | timerWheel => exact hwheel
  | held => exact hpc .held
  | acquired => exact hpc .acquired
  | running => exact hpc .running
  | ended => exact hpc .ended

end

section

omit [DecidableEq H] [DecidableEq C]

/-- The stages of `enqueue` inside `process_queue`: the check may refuse the
message, the push puts it back. -/
theorem stepEnqueue_flow {d : Drain} {e : Enqueue Token} (hpc : t.pc = .enqueue d e) :
    ThreadFlow h tokens t (.of (H := H) (C := C) tokens ((t.stepEnqueue e).1.goto
      (((t.stepEnqueue e).2.map (.enqueue d)).getD (.drain d))) []) := by
  cases e with
  | isStopping msg =>
      obtain ⟨queue, event, wheel, stopping, running, done, pc⟩ := t
      cases hpc
      cases stopping with
      | true =>
          refine .refuse d msg ⟨.refl _, fun k hk => ?_⟩ rfl rfl rfl rfl
          cases k <;> first | rfl | exact absurd rfl hk
      | false => exact .stay (fun k => by cases k <;> rfl) rfl (.inl rfl)
  | push msg =>
      obtain ⟨queue, event, wheel, stopping, running, done, pc⟩ := t
      cases hpc
      refine .requeue msg ⟨by decide, .refl _, List.perm_append_singleton .., ?_⟩ rfl rfl
      intro r hp hq
      cases r <;> first | rfl | exact absurd rfl hp | exact absurd rfl hq
  | wake op =>
      refine .stay (HandlerThread.holds_eq rfl rfl fun k => ?_) rfl (.inl rfl)
      rw [hpc]
      show (((t.stepEnqueue (.wake op)).2.map (Pc.enqueue d)).getD (.drain d)).holds k = _
      cases hnext : (t.stepEnqueue (.wake op)).2 with
      | none => cases k <;> rfl
      | some e' =>
          obtain ⟨-, -, rfl⟩ := Option.map_eq_some_iff.mp hnext
          cases k <;> rfl
  | send op p =>
      refine .stay (HandlerThread.holds_eq (stepSend_queue t p)
        (stepSend_frame t p).timerWheel fun k => ?_) rfl (.inl rfl)
      rw [hpc]
      show (((t.stepEnqueue (.send op p)).2.map (Pc.enqueue d)).getD (.drain d)).holds k = _
      cases hnext : (t.stepEnqueue (.send op p)).2 with
      | none => cases k <;> rfl
      | some e' =>
          obtain ⟨p', -, rfl⟩ := Option.map_eq_some_iff.mp hnext
          cases k <;> rfl

/-- Every step of a thread moves at most one message. -/
theorem ThreadMove.flow (hmove : ThreadMove h tokens t o) :
    ThreadFlow h tokens t o := by
  cases hmove with
  | enqueue hpc => exact stepEnqueue_flow hpc
  | @resend p hpc =>
      refine .stay (HandlerThread.holds_eq (stepSend_queue t p)
        (stepSend_frame t p).timerWheel fun k => ?_) rfl (.inl rfl)
      rw [hpc]
      show ((((t.stepSend p).2.map Pc.resend).getD .invoke).holds k : List (Message Token)) = _
      cases (t.stepSend p).2 <;> cases k <;> rfl
  | @subCount a hpc _ =>
      refine .stay (HandlerThread.holds_eq rfl rfl fun k => ?_) rfl (.inl rfl)
      rw [hpc]
      show (if a.subCount.2 then Pc.resend .addCount else .invoke : Pc Token).holds k = _
      split <;> cases k <;> rfl
  | @deliver a hpc _ _ =>
      refine .stay (HandlerThread.holds_eq rfl rfl fun k => ?_) rfl (.inl rfl)
      rw [hpc]
      show (if a.callback then Pc.drain .callback else .invoke : Pc Token).holds k = _
      split <;> cases k <;> rfl
  | @isStopping d hpc =>
      refine .stay (HandlerThread.holds_eq rfl rfl fun k => ?_) rfl (.inl rfl)
      rw [hpc]
      show (if t.stopping then .isEmpty d else d.after : Pc Token).holds k = _
      split <;> cases d <;> cases k <;> rfl
  | @isEmpty d hpc =>
      refine .stay (HandlerThread.holds_eq rfl rfl fun k => ?_) rfl (.inl rfl)
      rw [hpc]
      cases d <;> cases k <;> rfl
  | quit hpc _ =>
      refine .stay (HandlerThread.holds_eq rfl rfl fun k => ?_) rfl (.inr rfl)
      rw [hpc]
      cases k <;> rfl
  | clearRunning hpc =>
      refine .stay (HandlerThread.holds_eq rfl rfl fun k => ?_) rfl (.inr rfl)
      rw [hpc]
      cases k <;> rfl
  | @dequeue d msg rest hpc hqueue =>
      obtain ⟨queue, event, wheel, stopping, running, done, pc⟩ := t
      cases hpc
      cases hqueue
      refine .dequeue msg ⟨by decide, .refl _, .refl _, fun r hp hq => ?_⟩ rfl rfl
      cases r <;> first | rfl | exact absurd rfl hp | exact absurd rfl hq
  | @delay d msg hpc htimeout =>
      obtain ⟨queue, event, wheel, stopping, running, done, pc⟩ := t
      cases hpc
      refine .delay msg ⟨by decide, .refl _, List.perm_append_singleton .., fun r hp hq => ?_⟩
        htimeout rfl rfl
      cases r <;> first | rfl | exact absurd rfl hp | exact absurd rfl hq
  | @acquire d msg hpc htimeout hacquire =>
      obtain ⟨queue, event, wheel, stopping, running, done, pc⟩ := t
      cases hpc
      refine .acquire msg ⟨by decide, .refl _, .refl _, fun r hp hq => ?_⟩ htimeout hacquire
        rfl rfl
      cases r <;> first | rfl | exact absurd rfl hp | exact absurd rfl hq
  | @stopLoop og msg hpc htype =>
      obtain ⟨queue, event, wheel, stopping, running, done, pc⟩ := t
      cases hpc
      refine .stopLoop msg ⟨?_, fun r hp => ?_⟩ htype rfl rfl
      · cases og <;> exact .refl _
      · cases og <;> cases r <;> first | rfl | exact absurd rfl hp
  | @begin og msg hpc htype =>
      obtain ⟨queue, event, wheel, stopping, running, done, pc⟩ := t
      cases hpc
      refine .begin msg ⟨by decide, .refl _, .refl _, fun r hp hq => ?_⟩ rfl rfl
      cases r <;> first | rfl | exact absurd rfl hp | exact absurd rfl hq
  | @release og msg hpc =>
      obtain ⟨queue, event, wheel, stopping, running, done, pc⟩ := t
      cases hpc
      refine .release msg ⟨?_, fun r hp => ?_⟩ rfl rfl
      · cases og <;> exact .refl _
      · cases og <;> cases r <;> first | rfl | exact absurd rfl hp
  | @finish og msg threw hpc htype =>
      obtain ⟨queue, event, wheel, stopping, running, done, pc⟩ := t
      cases hpc
      refine .finish msg threw ⟨by decide, .refl _, .refl _, fun r hp hq => ?_⟩ rfl rfl
      cases r <;> first | rfl | exact absurd rfl hp | exact absurd rfl hq
  | @finishPayload og msg threw hpc htype =>
      obtain ⟨queue, event, wheel, stopping, running, done, pc⟩ := t
      cases hpc
      refine .finishPayload msg threw ⟨?_, fun r hp => ?_⟩ htype rfl rfl
      · cases og <;> exact .refl _
      · cases og <;> cases r <;> first | rfl | exact absurd rfl hp
  | @expire i msg hpc hmsg =>
      have hnone : ∀ k, t.pc.holds k = [] := by
        rcases hpc with hpc | hpc <;> rw [hpc] <;> intro k <;> cases k <;> rfl
      refine .expire msg ⟨by decide, ?_, ?_, fun r hp hq => ?_⟩ rfl rfl
      · obtain ⟨hi, hget⟩ := List.getElem?_eq_some_iff.mp hmsg
        have hperm := List.getElem_cons_eraseIdx_perm hi
        rw [hget] at hperm
        exact hperm.symm
      · show [msg].Perm (msg :: t.pc.holds .acquired)
        rw [hnone]
      · cases r with
        | queue => rfl
        | timerWheel => exact absurd rfl hp
        | held => exact (hnone .held).symm
        | acquired => exact absurd rfl hq
        | running => exact (hnone .running).symm
        | ended => exact (hnone .ended).symm
  | _ hpc =>
      refine .stay (HandlerThread.holds_eq rfl rfl fun k => ?_) rfl (.inl rfl)
      rw [hpc]
      cases k <;> rfl

end

/-! ## The whole system -/

/-- The mark is about no message. -/
def Mark.Plain : Mark H C Token → Prop
  | .call _ _ _ _ => True
  | .callStop _ _ _ _ => True
  | .makeStop _ _ => True
  | .ret _ => True
  | .exit _ => True
  | _ => False

/-- The ways from one place to another, with the marks they leave. -/
inductive Passage (s : State H C Token) (a : Action H C Token) :
    List (Mark H C Token) → Place H C → Place H C → Message Token → Prop
  /-- `enqueue` pushes the message of a call -/
  | post (c : C) (h : H) (msg : Message Token) : a = .call c →
      s.callers c = some (h, .enqueue (.push msg)) →
      Passage s a [.push msg h] (.caller c) (.spot h .queue) msg
  /-- `enqueue_unsafe` pushes a stop message -/
  | postStop (c : C) (h : H) (op : Nat) (msg : Message Token) :
      s.callers c = some (h, .pushUnsafe op msg) →
      Passage s a [] (.caller c) (.spot h .queue) msg
  /-- `try_dequeue` -/
  | dequeue (h : H) (msg : Message Token) :
      Passage s a [] (.spot h .queue) (.spot h .held) msg
  /-- the timer wheel takes the message -/
  | delay (h : H) (msg : Message Token) : 0 < msg.timeout →
      Passage s a [] (.spot h .held) (.spot h .timerWheel) msg
  /-- `try_acquire` succeeds -/
  | acquire (h : H) (msg : Message Token) : ¬ 0 < msg.timeout →
      msg.tryAcquire s.tokens = true →
      Passage s a [] (.spot h .held) (.spot h .acquired) msg
  /-- `process_queue` puts the message back -/
  | requeue (h : H) (msg : Message Token) :
      Passage s a [] (.spot h .held) (.spot h .queue) msg
  /-- a request of the timer wheel expires -/
  | expire (h : H) (msg : Message Token) :
      Passage s a [] (.spot h .timerWheel) (.spot h .acquired) msg
  /-- the user's code begins -/
  | begin (h : H) (msg : Message Token) :
      Passage s a [.started msg h] (.spot h .acquired) (.spot h .running) msg
  /-- the callable ends -/
  | finish (h : H) (msg : Message Token) (threw : Bool) :
      Passage s a [.ended msg h threw] (.spot h .running) (.spot h .ended) msg

/-- The ways out of the system, with the marks and the tokens they leave. -/
inductive Exit (s : State H C Token) (a : Action H C Token) :
    List (Mark H C Token) → (Token → SerialToken) → Place H C → Message Token → Prop
  /-- `enqueue` drops the message of a call -/
  | refusePost (c : C) (h : H) (msg : Message Token) : a = .call c →
      s.callers c = some (h, .enqueue (.isStopping msg)) →
      (s.threads h).stopping = true →
      Exit s a [.ret msg.op] s.tokens (.caller c) msg
  /-- `process_queue` drops the message -/
  | refuse (h : H) (choice : Choice) (d : Drain) (msg : Message Token) :
      a = .thread h choice → (s.threads h).pc = .enqueue d (.isStopping msg) →
      (s.threads h).stopping = true → Exit s a [] s.tokens (.spot h .held) msg
  /-- a stop message is processed -/
  | stopLoop (h : H) (msg : Message Token) : msg.type = .stop →
      Exit s a [.processed msg h] s.tokens (.spot h .acquired) msg
  /-- `on_message` ends -/
  | finishPayload (h : H) (msg : Message Token) (threw : Bool) : msg.type ≠ .callable →
      Exit s a [.processed msg h, .ended msg h threw] s.tokens (.spot h .running) msg
  /-- `release` -/
  | release (h : H) (msg : Message Token) :
      Exit s a [.processed msg h, .released msg h] (msg.release s.tokens)
        (.spot h .ended) msg

/-- What a step does with the messages. -/
inductive Flow (s : State H C Token) (a : Action H C Token) (s' : State H C Token) : Prop
  /-- no message moves -/
  | stay (es : List (Mark H C Token)) : (∀ p, contents s' p = contents s p) →
      (∀ e ∈ es, e.Plain) → s'.tokens = s.tokens → s'.trace = es ++ s.trace →
      Flow s a s'
  /-- a call makes a message -/
  | come (c : C) (msg : Message Token) (e : Mark H C Token) :
      Come (contents s) (contents s') (.caller c) msg → msg.op = s.trace.length →
      msg.serialToken = none → (msg.type = .stop → msg.timeout = 0) → e.Plain →
      s'.tokens = s.tokens → s'.trace = [e] ++ s.trace → Flow s a s'
  /-- `set_serial_token` -/
  | draw (c : C) (h : H) (msg : Message Token) (token : Token) :
      a = .call c → s.callers c = some (h, .setSerialToken msg token) →
      Became (contents s) (contents s') (.caller c) msg
        (msg.setSerialToken s.tokens token).2 →
      s'.tokens = (msg.setSerialToken s.tokens token).1 →
      s'.trace = [.draw c msg.op token] ++ s.trace → Flow s a s'
  /-- a message moves -/
  | went (es : List (Mark H C Token)) (p q : Place H C) (msg : Message Token) :
      Went (contents s) (contents s') p q msg → Passage s a es p q msg →
      s'.tokens = s.tokens → s'.trace = es ++ s.trace → Flow s a s'
  /-- a message is dropped or has been processed -/
  | gone (es : List (Mark H C Token)) (tokens : Token → SerialToken) (p : Place H C)
      (msg : Message Token) : Gone (contents s) (contents s') p msg →
      Exit s a es tokens p msg → s'.tokens = tokens → s'.trace = es ++ s.trace →
      Flow s a s'

section

omit [DecidableEq C] [DecidableEq Token]

/-- What thread `h` holds after a step of its own. -/
theorem contents_apply_self (k : Spot) :
    contents (s.apply h o) (.spot h k) = o.thread.holds k := by
  rw [contents, State.apply_self]

theorem contents_apply_of_ne {g : H} (hgh : g ≠ h) (k : Spot) :
    contents (s.apply h o) (.spot g k) = contents s (.spot g k) := by
  rw [contents, State.apply_of_ne _ _ hgh]
  rfl

/-- A move inside a thread is a move in the system. -/
theorem went_apply {k l : Spot} (hwent : Went (s.threads h).holds o.thread.holds k l msg) :
    Went (contents s) (contents (s.apply h o)) (.spot h k) (.spot h l) msg where
  apart := fun heq => by
    cases heq
    exact hwent.apart rfl
  source := by
    rw [contents_apply_self]
    exact hwent.source
  target := by
    rw [contents_apply_self]
    exact hwent.target
  others r hp hq := by
    cases r with
    | caller c => rfl
    | spot g r =>
        by_cases hgh : g = h
        · subst hgh
          rw [contents_apply_self]
          exact hwent.others r (fun heq => hp (heq ▸ rfl)) fun heq => hq (heq ▸ rfl)
        · exact contents_apply_of_ne hgh r

/-- A message that leaves a thread for good leaves the system. -/
theorem gone_apply {k : Spot} (hgone : Gone (s.threads h).holds o.thread.holds k msg) :
    Gone (contents s) (contents (s.apply h o)) (.spot h k) msg where
  source := by
    rw [contents_apply_self]
    exact hgone.source
  others r hp := by
    cases r with
    | caller c => rfl
    | spot g r =>
        by_cases hgh : g = h
        · subst hgh
          rw [contents_apply_self]
          exact hgone.others r fun heq => hp (heq ▸ rfl)
        · exact contents_apply_of_ne hgh r

end

omit [DecidableEq C] in
theorem ThreadMove.flow_apply {choice : Choice}
    (hmove : ThreadMove h s.tokens (s.threads h) o) :
    Flow s (.thread h choice) (s.apply h o) := by
  have htrace : ∀ {es}, o.marks = es → (s.apply h o).trace = es ++ s.trace := by
    rintro _ rfl
    rfl
  cases hmove.flow with
  | stay hsame htokens hmarks =>
      refine .stay o.marks ?_ ?_ htokens rfl
      · rintro (c | ⟨g, k⟩)
        · rfl
        · by_cases hgh : g = h
          · subst hgh
            rw [contents_apply_self]
            exact hsame k
          · exact contents_apply_of_ne hgh k
      · rcases hmarks with hmarks | hmarks <;> rw [hmarks]
        · intro e he
          cases he
        · intro e he
          rw [List.mem_singleton.mp he]
          trivial
  | dequeue msg hwent htokens hmarks =>
      exact .went _ _ _ msg (went_apply hwent) (.dequeue h msg) htokens (htrace hmarks)
  | delay msg hwent htimeout htokens hmarks =>
      exact .went _ _ _ msg (went_apply hwent) (.delay h msg htimeout) htokens (htrace hmarks)
  | acquire msg hwent htimeout hacquire htokens hmarks =>
      exact .went _ _ _ msg (went_apply hwent) (.acquire h msg htimeout hacquire) htokens
        (htrace hmarks)
  | requeue msg hwent htokens hmarks =>
      exact .went _ _ _ msg (went_apply hwent) (.requeue h msg) htokens (htrace hmarks)
  | expire msg hwent htokens hmarks =>
      exact .went _ _ _ msg (went_apply hwent) (.expire h msg) htokens (htrace hmarks)
  | begin msg hwent htokens hmarks =>
      exact .went _ _ _ msg (went_apply hwent) (.begin h msg) htokens (htrace hmarks)
  | finish msg threw hwent htokens hmarks =>
      exact .went _ _ _ msg (went_apply hwent) (.finish h msg threw) htokens (htrace hmarks)
  | refuse d msg hgone hpc hstop htokens hmarks =>
      exact .gone _ _ _ msg (gone_apply hgone) (.refuse h choice d msg rfl hpc hstop)
        htokens (htrace hmarks)
  | stopLoop msg hgone htype htokens hmarks =>
      exact .gone _ _ _ msg (gone_apply hgone) (.stopLoop h msg htype) htokens (htrace hmarks)
  | finishPayload msg threw hgone htype htokens hmarks =>
      exact .gone _ _ _ msg (gone_apply hgone) (.finishPayload h msg threw htype) htokens
        (htrace hmarks)
  | release msg hgone htokens hmarks =>
      exact .gone _ _ _ msg (gone_apply hgone) (.release h msg) htokens (htrace hmarks)

/-! ## Calls -/

section Calls

variable {c : C} {call : Call Token}

/-- The state after a step of a call. -/
def afterCall (s : State H C Token) (c : C) (h : H) (o : Outcome H C Token) :
    State H C Token :=
  { s.apply h o with callers := Function.update s.callers c (o.next.map (h, ·)) }

omit [DecidableEq H] [DecidableEq C] [DecidableEq Token] in
theorem contents_caller (hcall : s.callers c = some (h, call)) :
    contents s (.caller c) = call.holds := by
  rw [contents, hcall]
  rfl

section

omit [DecidableEq Token]

theorem contents_afterCall_self :
    contents (afterCall s c h o) (.caller c) = o.next.elim [] Call.holds := by
  show (Function.update s.callers c (o.next.map (h, ·)) c).elim [] _ = _
  rw [Function.update_self]
  cases o.next <;> rfl

theorem contents_afterCall_of_ne {b : C} (hbc : b ≠ c) :
    contents (afterCall s c h o) (.caller b) = contents s (.caller b) := by
  show (Function.update s.callers c (o.next.map (h, ·)) b).elim [] _ = _
  rw [Function.update_of_ne hbc]
  rfl

/-- The call changes at most the queue of its thread. -/
theorem contents_afterCall_spot
    (hholds : ∀ k, k ≠ .queue → o.thread.holds k = (s.threads h).holds k) {g : H}
    {k : Spot} (hk : (g, k) ≠ (h, .queue)) :
    contents (afterCall s c h o) (.spot g k) = contents s (.spot g k) := by
  by_cases hgh : g = h
  · subst hgh
    show contents (s.apply g o) (.spot g k) = _
    rw [contents_apply_self]
    exact hholds k fun heq => hk (heq ▸ rfl)
  · exact contents_apply_of_ne hgh k

theorem contents_afterCall_queue :
    contents (afterCall s c h o) (.spot h .queue) = o.thread.queue :=
  contents_apply_self .queue

/-- A call that leaves its thread alone changes only what it holds itself. -/
theorem contents_afterCall_away (hthread : o.thread = s.threads h) {r : Place H C}
    (hr : r ≠ .caller c) : contents (afterCall s c h o) r = contents s r := by
  rcases r with b | ⟨g, k⟩
  · exact contents_afterCall_of_ne fun heq => hr (heq ▸ rfl)
  · by_cases hgh : g = h
    · subst hgh
      show contents (s.apply g o) (.spot g k) = _
      rw [contents_apply_self, hthread]
      rfl
    · exact contents_apply_of_ne hgh k

/-- A step of a call that moves no message. -/
theorem stay_afterCall (hcall : s.callers c = some (h, call))
    (hholds : ∀ k, o.thread.holds k = (s.threads h).holds k)
    (hnext : o.next.elim [] Call.holds = call.holds) (p : Place H C) :
    contents (afterCall s c h o) p = contents s p := by
  rcases p with b | ⟨g, k⟩
  · by_cases hbc : b = c
    · subst hbc
      rw [contents_afterCall_self, hnext, contents_caller hcall]
    · exact contents_afterCall_of_ne hbc
  · by_cases hgh : g = h
    · subst hgh
      show contents (s.apply g o) (.spot g k) = _
      rw [contents_apply_self]
      exact hholds k
    · exact contents_apply_of_ne hgh k

/-- A call pushes its message. -/
theorem went_afterCall (hcall : s.callers c = some (h, call))
    (hholds : ∀ k, k ≠ .queue → o.thread.holds k = (s.threads h).holds k)
    (hqueue : o.thread.queue = (s.threads h).queue ++ [msg])
    (hbefore : call.holds = [msg]) (hnext : o.next.elim [] Call.holds = []) :
    Went (contents s) (contents (afterCall s c h o)) (.caller c) (.spot h .queue) msg where
  apart := by rintro ⟨⟩
  source := by
    rw [contents_caller hcall, contents_afterCall_self, hbefore, hnext]
  target := by
    rw [contents_afterCall_queue, hqueue]
    exact List.perm_append_singleton ..
  others r hp hq := by
    rcases r with b | ⟨g, k⟩
    · exact contents_afterCall_of_ne fun heq => hp (heq ▸ rfl)
    · exact contents_afterCall_spot hholds fun heq => hq (by cases heq; rfl)

theorem gone_afterCall (hcall : s.callers c = some (h, call))
    (hthread : o.thread = s.threads h) (hbefore : call.holds = [msg])
    (hnext : o.next.elim [] Call.holds = []) :
    Gone (contents s) (contents (afterCall s c h o)) (.caller c) msg where
  source := by
    rw [contents_caller hcall, contents_afterCall_self, hbefore, hnext]
  others _ hr := contents_afterCall_away hthread hr

theorem come_afterCall (hcall : s.callers c = some (h, call))
    (hthread : o.thread = s.threads h) (hbefore : call.holds = [])
    (hnext : o.next.elim [] Call.holds = [msg]) :
    Come (contents s) (contents (afterCall s c h o)) (.caller c) msg where
  target := by
    rw [contents_caller hcall, contents_afterCall_self, hbefore, hnext]
  others _ hr := contents_afterCall_away hthread hr

theorem became_afterCall {msg' : Message Token} (hcall : s.callers c = some (h, call))
    (hthread : o.thread = s.threads h) (hbefore : call.holds = [msg])
    (hnext : o.next.elim [] Call.holds = [msg']) :
    Became (contents s) (contents (afterCall s c h o)) (.caller c) msg msg' where
  before := by rw [contents_caller hcall, hbefore]
  after := by rw [contents_afterCall_self, hnext]
  others _ hr := contents_afterCall_away hthread hr

end

/-- Every step of a call moves at most one message. -/
theorem CallMove.flow (hcall : s.callers c = some (h, call))
    (hmove : CallMove h s.tokens (s.threads h) c s.trace.length call o) :
    Flow s (.call c) (afterCall s c h o) := by
  cases hmove with
  | draw msg token =>
      exact .draw c h msg token rfl hcall (became_afterCall hcall rfl rfl rfl) rfl rfl
  | enqueue e e' hnext =>
      cases e with
      | isStopping msg =>
          cases hstop : (s.threads h).stopping with
          | true =>
              rw [HandlerThread.stepEnqueue, hstop] at hnext
              cases hnext
          | false =>
              rw [HandlerThread.stepEnqueue, hstop] at hnext
              cases hnext
              exact .stay [] (stay_afterCall hcall (fun _ => rfl) rfl)
                (fun _ he => nomatch he) rfl rfl
      | push msg =>
          cases hnext
          refine .went _ _ _ msg (went_afterCall hcall ?_ rfl rfl rfl)
            (.post c h msg rfl hcall) rfl rfl
          intro k hk
          cases k <;> first | rfl | exact absurd rfl hk
      | wake op =>
          obtain ⟨a, ha, rfl⟩ := Option.map_eq_some_iff.mp hnext
          exact .stay [] (stay_afterCall hcall (fun _ => rfl) rfl)
            (fun _ he => nomatch he) rfl rfl
      | send op p =>
          obtain ⟨p', hp', rfl⟩ := Option.map_eq_some_iff.mp hnext
          have hframe := stepSend_frame (s.threads h) p
          refine .stay [] (stay_afterCall hcall ?_ rfl) (fun _ he => nomatch he) rfl rfl
          exact HandlerThread.holds_eq (stepSend_queue _ p) hframe.timerWheel
            fun k => hframe.pc ▸ rfl
  | enqueued e hdone =>
      have hplain : ∀ e' ∈ [(.ret e.op : Mark H C Token)], e'.Plain := by
        intro e' he'
        rw [List.mem_singleton.mp he']
        trivial
      cases e with
      | isStopping msg =>
          cases hstop : (s.threads h).stopping with
          | true =>
              exact .gone _ _ _ msg (gone_afterCall hcall rfl rfl rfl)
                (.refusePost c h msg rfl hcall hstop) rfl rfl
          | false =>
              rw [HandlerThread.stepEnqueue, hstop] at hdone
              cases hdone
      | push msg => cases hdone
      | wake op =>
          exact .stay _ (stay_afterCall hcall (fun _ => rfl) rfl) hplain rfl rfl
      | send op p =>
          have hframe := stepSend_frame (s.threads h) p
          refine .stay _ (stay_afterCall hcall ?_ rfl) hplain rfl rfl
          exact HandlerThread.holds_eq (stepSend_queue _ p) hframe.timerWheel
            fun k => hframe.pc ▸ rfl
  | setStopping op safe =>
      refine .stay [] (stay_afterCall hcall (fun k => ?_) rfl)
        (fun _ he => nomatch he) rfl rfl
      exact HandlerThread.holds_eq rfl rfl (fun _ => rfl) k
  | notRunning op safe _ =>
      refine .stay [.ret op] (stay_afterCall hcall (fun _ => rfl) rfl) ?_ rfl rfl
      intro e he
      rw [List.mem_singleton.mp he]
      trivial
  | nonempty op _ =>
      refine .stay [.ret op] (stay_afterCall hcall (fun _ => rfl) rfl) ?_ rfl rfl
      intro e he
      rw [List.mem_singleton.mp he]
      trivial
  | forced op _ =>
      exact .come c _ (.makeStop s.trace.length h) (come_afterCall hcall rfl rfl rfl)
        rfl rfl (fun _ => rfl) trivial rfl rfl
  | empty op _ =>
      exact .come c _ (.makeStop s.trace.length h) (come_afterCall hcall rfl rfl rfl)
        rfl rfl (fun _ => rfl) trivial rfl rfl
  | pushUnsafe op msg =>
      refine .went _ _ _ msg (went_afterCall hcall ?_ rfl rfl rfl)
        (.postStop c h op msg hcall) rfl rfl
      intro k hk
      cases k <;> first | rfl | exact absurd rfl hk
  | safe op _ =>
      exact .stay [] (stay_afterCall hcall (fun _ => rfl) rfl) (fun _ he => nomatch he) rfl rfl
  | deref op a _ =>
      exact .stay [] (stay_afterCall hcall (fun _ => rfl) rfl) (fun _ he => nomatch he) rfl rfl
  | fault op _ =>
      exact .stay [] (stay_afterCall hcall (fun _ => rfl) rfl) (fun _ he => nomatch he) rfl rfl

end Calls

/-- The message that a call begins with is new. -/
theorem opens_flow {a : Action H C Token} {c : C} {call : Call Token}
    {e : Mark H C Token} (hopens : a.opens s.trace.length = some (c, h, call, e))
    (hidle : s.callers c = none) :
    Flow s a { s with
      callers := Function.update s.callers c (some (h, call))
      trace := e :: s.trace } := by
  have hself : ∀ tr, contents { s with
      callers := Function.update s.callers c (some (h, call)), trace := tr }
      (.caller c) = call.holds := by
    intro tr
    show (Function.update s.callers c (some (h, call)) c).elim [] _ = _
    rw [Function.update_self]
    rfl
  have hbefore : contents s (.caller c) = [] := by
    rw [contents, hidle]
    rfl
  have hothers : ∀ tr r, r ≠ .caller c → contents { s with
      callers := Function.update s.callers c (some (h, call)), trace := tr } r =
      contents s r := by
    rintro tr (b | ⟨g, k⟩) hr
    · show (Function.update s.callers c (some (h, call)) b).elim [] _ = _
      rw [Function.update_of_ne fun heq : b = c => hr (heq ▸ rfl)]
      rfl
    · rfl
  have hcome : ∀ msg, call.holds = [msg] → Come (contents s) (contents { s with
      callers := Function.update s.callers c (some (h, call)), trace := e :: s.trace })
      (.caller c) msg := fun msg hholds =>
    ⟨by rw [hself, hbefore, hholds], hothers _⟩
  have hplain : e.Plain := by
    cases a <;> cases hopens <;> trivial
  cases a with
  | send b g timeout =>
      cases hopens
      exact .come c _ _ (hcome _ rfl) rfl rfl (fun htype => nomatch htype) hplain rfl rfl
  | post b g timeout =>
      cases hopens
      exact .come c _ _ (hcome _ rfl) rfl rfl (fun htype => nomatch htype) hplain rfl rfl
  | postSerial b g token =>
      cases hopens
      exact .come c _ _ (hcome _ rfl) rfl rfl (fun htype => nomatch htype) hplain rfl rfl
  | stop b g safe =>
      cases hopens
      refine .stay [_] (fun r => ?_) ?_ rfl rfl
      · by_cases hr : r = .caller c
        · rw [hr, hself, hbefore]
          rfl
        · exact hothers _ r hr
      · intro e he
        rw [List.mem_singleton.mp he]
        exact hplain
  | call b => cases hopens
  | thread g choice => cases hopens

/-- Every step moves at most one message. -/
theorem step_flow {a : Action H C Token} (hstep : step s a = some s') : Flow s a s' := by
  cases step_move hstep with
  | opens _ c h call e hopens hidle => exact opens_flow hopens hidle
  | call c h call o hcall hmove => exact hmove.flow hcall
  | thread h choice o hmove => exact hmove.flow_apply

/-! ## The beginning of user code -/

/-- No mark says that user code has begun on the thread. -/
def NoStart (h : H) (es : List (Mark H C Token)) : Prop :=
  ∀ e ∈ es, ∀ msg, e ≠ .started msg h

omit [DecidableEq H] [DecidableEq C] [DecidableEq Token] in
theorem NoStart.plain {es : List (Mark H C Token)} (hplain : ∀ e ∈ es, e.Plain) : NoStart h es := by
  intro e he msg heq
  subst heq
  exact hplain _ he

omit [DecidableEq C] in
/-- A step begins nothing on the thread, or its next message. -/
theorem Flow.begins {a : Action H C Token} (hflow : Flow s a s') (h : H) :
    (∃ es, s'.trace = es ++ s.trace ∧ NoStart h es) ∨
      ∃ msg, Went (contents s) (contents s') (.spot h .acquired) (.spot h .running) msg ∧
        s'.trace = [.started msg h] ++ s.trace := by
  cases hflow with
  | stay es _ hplain _ htrace => exact .inl ⟨es, htrace, .plain hplain⟩
  | come c new e _ _ _ _ hplain _ htrace =>
      refine .inl ⟨_, htrace, .plain fun e' he' => ?_⟩
      rw [List.mem_singleton.mp he']
      exact hplain
  | draw c g old tok _ _ _ _ htrace =>
      refine .inl ⟨_, htrace, fun e he msg heq => ?_⟩
      rw [heq, List.mem_singleton] at he
      cases he
  | went es p q moved hwent hpass _ htrace =>
      cases hpass with
      | begin g _ =>
          by_cases hgh : g = h
          · subst hgh
            exact .inr ⟨moved, hwent, htrace⟩
          · refine .inl ⟨_, htrace, fun e he msg heq => hgh ?_⟩
            rw [heq, List.mem_singleton] at he
            cases he
            rfl
      | _ => exact .inl ⟨_, htrace, fun e he msg heq => by simp_all⟩
  | gone es tokens p left _ hexit _ htrace =>
      refine .inl ⟨_, htrace, fun e he msg heq => ?_⟩
      subst heq
      cases hexit <;> simp at he

end Dispatch
end Cyan
