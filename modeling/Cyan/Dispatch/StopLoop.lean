import Mathlib.Data.Fintype.Basic
import Cyan.Dispatch.WakeUp

/-!
# When `stop` reaches the loop

`stop` sets `stopping_` and then decides from `is_running()` and the queue
whether the thread needs a message.  The drain in front of the loop may see
`stopping_`, but `ev_run` forgets the break it asks for.

* `Stranded` is a thread that nothing is going to take out of its loop.
* `EntersAwake` is the condition on a step: a thread that enters `ev_run` with
  `stopping_` set still has a wake-up ahead.
* `stop_never_strands` holds for every run that keeps to the condition,
  `startLoop_strands` says what happens without it, and `stop_strands` is such a
  run.
-/

namespace Cyan
namespace Dispatch

open Base Event

variable {H C Token : Type*} [DecidableEq H] [DecidableEq C] [DecidableEq Token]
variable {h : H} {tokens : Token → SerialToken} {t t' : HandlerThread Token}
  {o : Outcome H C Token} {s s' : State H C Token}

/-- The call is inside `enqueue` or `stop`. -/
def Call.Inside : Call Token → Prop
  | .setSerialToken _ _ => False
  | _ => True

/-- The thread is stopping and no call on it is inside `enqueue` or `stop`, but it is blocked in
its loop with no delivery pending and no break requested. -/
structure Stranded (s : State H C Token) (h : H) : Prop where
  stopping : (s.threads h).stopping = true
  uncalled : ∀ c call, s.callers c = some (h, call) → ¬ call.Inside
  blocked : (s.threads h).pc = .poll
  undelivered : ¬ (s.threads h).Pending
  unbroken : (s.threads h).loopDone = false

/-- The call does not return before it has looked after the thread: it has
passed the check of `enqueue`, or it is a `stop`. -/
def Call.heeds : Call Token → Bool
  | .setSerialToken _ _ => false
  | .enqueue (.isStopping _) => false
  | _ => true

/-- The caller is in a call on thread `h` that looks after the thread. -/
def heedsOn (h : H) : Option (H × Call Token) → Bool
  | some (g, call) => g = h && call.heeds
  | none => false

/-- A call that looks after thread `h` is in progress. -/
def Heeding (s : State H C Token) (h : H) : Prop :=
  ∃ c, heedsOn h (s.callers c) = true

instance [Fintype C] (s : State H C Token) (h : H) : Decidable (Heeding s h) :=
  inferInstanceAs (Decidable (∃ c, heedsOn h (s.callers c) = true))

/-- If the step enters `ev_run` with `stopping_` set, a delivery is pending or a
call that looks after the thread is in progress. -/
def EntersAwake (s : State H C Token) : Action H C Token → Prop
  | .thread h _ => (s.threads h).pc = .startLoop → (s.threads h).stopping = true →
      (s.threads h).Pending ∨ Heeding s h
  | _ => True

instance [Fintype C] (s : State H C Token) :
    (a : Action H C Token) → Decidable (EntersAwake s a)
  | .thread _ _ => inferInstanceAs (Decidable (_ → _ → _ ∨ _))
  | .send _ _ _ => isTrue trivial
  | .post _ _ _ => isTrue trivial
  | .postSerial _ _ _ => isTrue trivial
  | .stop _ _ _ => isTrue trivial
  | .call _ => isTrue trivial

/-! ## Steps -/

omit [DecidableEq Token] in
theorem heedsOn_iff {x : Option (H × Call Token)} :
    heedsOn h x = true ↔ ∃ call, x = some (h, call) ∧ call.heeds = true := by
  cases x with
  | none => simp [heedsOn]
  | some x =>
      obtain ⟨g, call⟩ := x
      simp only [heedsOn, Bool.and_eq_true, decide_eq_true_eq, Option.some.injEq, Prod.mk.injEq]
      constructor
      · rintro ⟨rfl, hheeds⟩
        exact ⟨call, ⟨rfl, rfl⟩, hheeds⟩
      · rintro ⟨call', ⟨rfl, rfl⟩, hheeds⟩
        exact ⟨rfl, hheeds⟩

omit [DecidableEq C] [DecidableEq Token] in
theorem Waking.heeding (hwaking : Waking s h) : Heeding s h := by
  obtain ⟨c, call, hcall, hwaking⟩ := hwaking
  refine ⟨c, heedsOn_iff.mpr ⟨call, hcall, ?_⟩⟩
  cases call with
  | enqueue e => cases e <;> first | rfl | exact hwaking.elim
  | deref op => rfl
  | _ => exact hwaking.elim

/-- The thread is inside `ev_run` and will not look at `stopping_` before the
next delivery. -/
def Pc.Idle : Pc Token → Prop
  | .poll => True
  | .invoke => True
  | .subCount => True
  | .resend _ => True
  | .process .timer _ => True
  | .running .timer _ => True
  | .release .timer _ => True
  | _ => False

omit [DecidableEq Token] in
theorem Pc.Idle.quiet {pc : Pc Token} (hidle : pc.Idle) : pc.Quiet := by
  cases pc with
  | process og _ => cases og <;> trivial
  | running og _ => cases og <;> trivial
  | release og _ => cases og <;> trivial
  | _ => trivial

/-- How a thread comes to be idle: it was idle already, it enters `ev_run`, or
it has just ended a drain, in which case it is not stopping, has asked for a
break, or has seen a message in the queue. -/
inductive ThreadMove.Idles (t t' : HandlerThread Token) : Prop
  | idle : t.pc.Idle → (t.Pending → t'.Pending) →
      (t.loopDone = true → t'.loopDone = true) → Idles t t'
  | enters : t.pc = .startLoop → (t.Pending → t'.Pending) → Idles t t'
  | going : t'.stopping = false → Idles t t'
  | breaks : t'.loopDone = true → Idles t t'
  | messages : t.pc.Quiet → t.queue ≠ [] → (t.Pending → t'.Pending) → Idles t t'

section

omit [DecidableEq H] [DecidableEq C]

theorem ThreadMove.idles (hready : Ready t) (hmove : ThreadMove h tokens t o)
    (hidle : o.thread.pc.Idle) : ThreadMove.Idles t o.thread := by
  cases hmove with
  | startLoop hpc => exact .enters hpc id
  | iterate hpc _ => exact .idle (hpc ▸ trivial) id id
  | @subCount a hpc ha =>
      refine .idle (hpc ▸ trivial) ?_ id
      rintro ⟨b, hb, hdue⟩
      rw [ha] at hb
      cases hb
      exact ⟨_, rfl, hdue⟩
  | @resend p hpc =>
      have hframe := stepSend_frame t p
      exact .idle (hpc ▸ trivial) (fun hpending => hframe.pending hpending)
        fun hdone => hframe.loopDone ▸ hdone
  | @isStopping d hpc =>
      cases hstop : t.stopping with
      | false => exact .going hstop
      | true =>
          -- a thread that sees the flag goes on to look at the queue
          rw [hstop] at hidle
          cases hidle
  | @isEmpty d hpc =>
      by_cases hnil : t.queue = []
      · refine .breaks ?_
        show (t.loopDone || t.queue.isEmpty) = true
        rw [hnil]
        exact Bool.or_true _
      · exact .messages (hpc ▸ trivial) hnil id
  | stopLoop _ _ => exact .breaks rfl
  | @begin og _ hpc _ =>
      cases og with
      | queue d => cases hidle
      | timer => exact .idle (hpc ▸ trivial) id id
  | @release og _ hpc =>
      cases og with
      | queue d => cases hidle
      | timer => exact .idle (hpc ▸ trivial) id id
  | @finish og _ _ hpc _ =>
      cases og with
      | queue d => cases hidle
      | timer => exact .idle (hpc ▸ trivial) id id
  | @finishPayload og _ _ hpc _ =>
      cases og with
      | queue d => cases hidle
      | timer => exact .idle (hpc ▸ trivial) id id
  | expire hpc _ => exact .idle (hpc.elim (· ▸ trivial) (· ▸ trivial)) id id
  | @enqueue d e _ =>
      have hdrain : ¬ (((t.stepEnqueue e).2.map (Pc.enqueue d)).getD (.drain d)).Idle := by
        cases (t.stepEnqueue e).2 <;> exact id
      exact absurd hidle hdrain
  | @deliver a hpc ha _ =>
      have hstage : t.pc.stage = 5 := by rw [hpc]; rfl
      have hcallback := hready.callback (by omega) a ha
      have hdrain : ¬ (if a.callback then Pc.drain .callback else .invoke : Pc Token).Idle := by
        rw [if_pos hcallback]
        exact id
      exact absurd hidle hdrain
  | _ => cases hidle

theorem ThreadMove.stopping (hmove : ThreadMove h tokens t o) :
    o.thread.stopping = t.stopping := by
  cases hmove with
  | @resend p _ => exact (stepSend_frame t p).stopping
  | @enqueue d e _ => exact (stepEnqueue_frame t e).stopping
  | _ => rfl

/-- A call on a thread that is inside its loop looks after the thread until it
returns. -/
theorem CallMove.heeds {c : C} {n : Nat} {call : Call Token} (hready : Ready t)
    (hstage : t.pc.stage = 5) (hmove : CallMove h tokens t c n call o) :
    (∃ next, o.next = some next ∧ next.heeds = true) ∨ o.thread.Pending ∨
      (call.heeds = false ∧ o.thread.stopping = t.stopping) ∨
      (¬ call.Waking ∧ t.queue ≠ [] ∧ o.thread = t) := by
  cases hmove with
  | enqueue e e' hnext =>
      cases e with
      | isStopping msg => exact .inr (.inr (.inl ⟨rfl, rfl⟩))
      | push msg => cases hnext; exact .inl ⟨_, rfl, rfl⟩
      | wake op =>
          obtain ⟨-, -, rfl⟩ := Option.map_eq_some_iff.mp hnext
          exact .inl ⟨_, rfl, rfl⟩
      | send op p =>
          obtain ⟨p', -, rfl⟩ := Option.map_eq_some_iff.mp hnext
          exact .inl ⟨_, rfl, rfl⟩
  | enqueued e hdone =>
      obtain ⟨a, ha⟩ := hready.event (by omega)
      cases e with
      | isStopping msg => exact .inr (.inr (.inl ⟨rfl, rfl⟩))
      | push msg => cases hdone
      | wake op =>
          rw [HandlerThread.stepEnqueue, ha] at hdone
          cases hdone
      | send op p =>
          exact .inr (.inl (stepSend_pending hready hstage
            (Option.map_eq_none_iff.mp hdone)))
  | notRunning op safe hrun =>
      -- a thread inside its loop is running
      rw [hready.running (by omega)] at hrun
      cases hrun
  | nonempty op hne => exact .inr (.inr (.inr ⟨id, hne, rfl⟩))
  | draw msg token => exact .inr (.inr (.inl ⟨rfl, rfl⟩))
  | _ => exact .inl ⟨_, rfl, rfl⟩

end

/-! ## The invariant -/

/-- A stopping thread that is idle in its loop has a wake-up or a break ahead. -/
structure Heeded (s : State H C Token) (h : H) : Prop where
  awake : Awake s h
  ahead : (s.threads h).pc.Idle → (s.threads h).stopping = true →
    (s.threads h).Pending ∨ (s.threads h).loopDone = true ∨ Heeding s h

theorem Heeded.step {a : Action H C Token} (hheeded : Heeded s h)
    (hok : EntersAwake s a) (hstep : Dispatch.step s a = some s') : Heeded s' h := by
  refine ⟨hheeded.awake.step hstep, ?_⟩
  cases step_view hstep h with
  | other hthread hcallers =>
      rw [hthread]
      intro hidle hstop
      refine (hheeded.ahead hidle hstop).imp_right (Or.imp_right ?_)
      rintro ⟨c, hc⟩
      obtain ⟨call, hcall, hheeds⟩ := heedsOn_iff.mp hc
      exact ⟨c, heedsOn_iff.mpr ⟨call, hcallers c call hcall, hheeds⟩⟩
  | thread choice o ha hmove hthread hcallers =>
      subst ha
      rw [hthread]
      intro hidle hstop
      have hsame : Heeding s' h ↔ Heeding s h := by
        rw [Heeding, Heeding, hcallers]
      rw [hsame]
      rw [hmove.stopping] at hstop
      cases hmove.idles hheeded.awake.ready hidle with
      | idle hold hpending hdone =>
          exact (hheeded.ahead hold hstop).imp hpending (Or.imp_left hdone)
      | enters hpc hpending =>
          exact (hok hpc hstop).imp hpending .inr
      | going hgoing =>
          rw [hmove.stopping, hstop] at hgoing
          cases hgoing
      | breaks hdone => exact .inr (.inl hdone)
      | messages hquiet hne hpending =>
          exact (hheeded.awake.woken hquiet hne).imp hpending fun hwaking =>
            .inr hwaking.heeding
  | call c call o _ hcall hmove hthread hcallers =>
      have hframe := hmove.frame
      rw [hthread]
      intro hidle hstop
      have hidle' : (s.threads h).pc.Idle := hframe.pc ▸ hidle
      -- the other calls are where they were
      have hothers : ∀ b, b ≠ c → s'.callers b = s.callers b := by
        intro b hbc
        rw [hcallers, Function.update_of_ne hbc]
      rcases hmove.heeds hheeded.awake.ready hidle'.quiet.stage with
        ⟨next, hnext, hheeds⟩ | hpending | ⟨hnot, hsame⟩ | ⟨hnot, hne, hsame⟩
      · refine .inr (.inr ⟨c, heedsOn_iff.mpr ⟨next, ?_, hheeds⟩⟩)
        rw [hcallers, Function.update_self, hnext]
        rfl
      · exact .inl hpending
      · rcases hheeded.ahead hidle' (hsame ▸ hstop) with hpending | hdone | ⟨b, hb⟩
        · exact .inl (hframe.pending hpending)
        · exact .inr (.inl (hframe.loopDone ▸ hdone))
        · refine .inr (.inr ⟨b, ?_⟩)
          obtain ⟨call', hb', hheeds⟩ := heedsOn_iff.mp hb
          have hbc : b ≠ c := by
            rintro rfl
            rw [hcall] at hb'
            cases hb'
            rw [hnot] at hheeds
            cases hheeds
          rw [hothers b hbc]
          exact hb
      · rw [hsame]
        rcases hheeded.awake.woken hidle'.quiet hne with hpending | ⟨b, call', hb, hwaking⟩
        · exact .inl hpending
        · have hbc : b ≠ c := by
            rintro rfl
            rw [hcall] at hb
            cases hb
            exact hnot hwaking
          exact .inr (.inr (Waking.heeding ⟨b, call', (hothers b hbc).trans hb, hwaking⟩))

omit [DecidableEq C] [DecidableEq Token] in
theorem Heeded.initial (h : H) : Heeded (Dispatch.initial : State H C Token) h where
  awake := .initial h
  ahead hidle := hidle.elim

/-- As long as every thread that enters `ev_run` with `stopping_` set still has a
wake-up ahead, no thread is ever stranded. -/
theorem stop_never_strands (hreach : machine.ReachableUnder EntersAwake s) (h : H) :
    ¬ Stranded s h := by
  have hheeded : Heeded s h :=
    hreach.invariant (I := (Heeded · h)) (fun _ hs => hs ▸ Heeded.initial h)
      fun _ _ _ hheeded hok hstep => hheeded.step hok hstep
  intro hstranded
  have hidle : (s.threads h).pc.Idle := hstranded.blocked ▸ trivial
  rcases hheeded.ahead hidle hstranded.stopping with hpending | hdone | ⟨c, hc⟩
  · exact hstranded.undelivered hpending
  · rw [hstranded.unbroken] at hdone
    cases hdone
  · obtain ⟨call, hcall, hheeds⟩ := heedsOn_iff.mp hc
    refine hstranded.uncalled c call hcall ?_
    cases call with
    | setSerialToken msg token => cases hheeds
    | _ => trivial

/-- A safe stop of a thread that is blocked in its loop: the stop message is sent
and ends the loop. -/
def stopBlocked : List (Action Unit Unit Unit) :=
  List.flatten [
    List.replicate 9 (.thread () .run),
    [.stop () () true], List.replicate 8 (.call ()),
    [.thread () .deliver], List.replicate 8 (.thread () .run)]

theorem stop_never_strands_run :
    ∃ s : State Unit Unit Unit,
      machine.execUnder EntersAwake initial stopBlocked = some s ∧
        (s.threads ()).stopping = true ∧ ¬ Stranded s () := by
  obtain ⟨s, hrun, hstop⟩ : ∃ s : State Unit Unit Unit,
      machine.execUnder EntersAwake initial stopBlocked = some s ∧
        (s.threads ()).stopping = true := ⟨_, rfl, rfl⟩
  exact ⟨s, hrun, hstop, stop_never_strands (.of_execUnder rfl hrun) ()⟩

/-! ## Without the condition -/

/-- A stopping thread that enters `ev_run` with no delivery pending and no call
inside `enqueue` or `stop` is stranded at once. -/
theorem startLoop_strands (hpc : (s.threads h).pc = .startLoop)
    (hstop : (s.threads h).stopping = true) (hpending : ¬ (s.threads h).Pending)
    (hcalls : ∀ c call, s.callers c = some (h, call) → ¬ call.Inside) :
    ∃ s', step s (.thread h .run) = some s' ∧ Stranded s' h := by
  have hthread : stepThread (C := C) h s.tokens (s.threads h) .run =
      some (.of s.tokens ({ s.threads h with loopDone := false }.goto .poll) []) := by
    rw [stepThread, hpc]
    rfl
  refine ⟨_, congrArg (Option.map (s.apply h)) hthread, ?_⟩
  have hafter := s.apply_self h (.of s.tokens
    ({ s.threads h with loopDone := false }.goto .poll) [])
  constructor
  · rw [hafter]
    exact hstop
  · exact hcalls
  · rw [hafter]
    rfl
  · rw [hafter]
    exact hpending
  · rw [hafter]
    rfl

/-- `stop(true)` runs between the first check of `execute` and the store to
`running_`. -/
def stopTooEarly : List (Action Unit Unit Unit) :=
  List.flatten [
    [.thread () .run, .stop () () true, .call (), .call ()],
    List.replicate 9 (.thread () .run)]

/-- The drain in front of the loop asks for a break, `ev_run` forgets it, and the
thread is stranded. -/
theorem stop_strands :
    ∃ s : State Unit Unit Unit, machine.Reachable s ∧ Stranded s () := by
  obtain ⟨s, hrun, hstop, hidle, hpoll, hpending, hdone⟩ :
      ∃ s, machine.exec initial stopTooEarly = some s ∧
        (s.threads ()).stopping = true ∧ s.callers () = none ∧
        (s.threads ()).pc = .poll ∧ ¬ (s.threads ()).Pending ∧
        (s.threads ()).loopDone = false := ⟨_, rfl, rfl, rfl, rfl, by decide, rfl⟩
  refine ⟨s, .of_exec rfl hrun, hstop, fun c call hcall => ?_, hpoll, hpending, hdone⟩
  rw [hidle] at hcall
  cases hcall

end Dispatch
end Cyan
