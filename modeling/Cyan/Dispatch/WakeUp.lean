import Cyan.Dispatch.Moves

/-!
# No wake-up is lost

`enqueue` pushes its message first and looks at `queued_event_` and its pending
flag afterwards.  The handler thread starts the watcher before its first drain,
and the flag is cleared before every other drain.

* `Ready` says how far the initialization has come.
* `Awake` is the invariant: once a drain has seen the queue empty, a message can
  be in the queue only while a delivery is pending or a producer is about to
  wake the thread up.
* `no_lost_wakeup` reads this off for a thread that is blocked in the loop.
-/

namespace Cyan
namespace Dispatch

open Base Event

variable {H C Token : Type*} [DecidableEq H] [DecidableEq C] [DecidableEq Token]
variable {h : H} {tokens : Token → SerialToken} {t t' : HandlerThread Token}
  {o : Outcome H C Token} {s s' : State H C Token}

/-! ## The event of a thread -/

/-- A delivery of `queued_event_` is pending. -/
def HandlerThread.Pending (t : HandlerThread Token) : Prop :=
  ∃ a, t.queuedEvent = some a ∧ a.due = true

instance (t : HandlerThread Token) : Decidable t.Pending :=
  decidable_of_iff (t.queuedEvent.any Async.due = true) <| by
    cases hevent : t.queuedEvent <;> simp [HandlerThread.Pending, hevent]

/-- How far `execute` has come with its initialization. -/
def Pc.stage : Pc Token → Nat
  | .start => 0
  | .setRunning => 1
  | .makeEvent => 2
  | .startEvent => 3
  | .setCallback => 4
  | .exited => 0
  | _ => 5

/-- What the initialization has set up so far. -/
structure Ready (t : HandlerThread Token) : Prop where
  running : 2 ≤ t.pc.stage → t.running = true
  event : 3 ≤ t.pc.stage → ∃ a, t.queuedEvent = some a
  active : 4 ≤ t.pc.stage → ∀ a, t.queuedEvent = some a → a.active = true
  callback : 5 ≤ t.pc.stage → ∀ a, t.queuedEvent = some a → a.callback = true

section

omit [DecidableEq Token]

/-- The set-up of a thread at stage `n`. -/
theorem Ready.at_stage (n : Nat) (hstage : t.pc.stage = n)
    (hrunning : 2 ≤ n → t.running = true)
    (hevent : 3 ≤ n → ∃ a, t.queuedEvent = some a)
    (hactive : 4 ≤ n → ∀ a, t.queuedEvent = some a → a.active = true)
    (hcallback : 5 ≤ n → ∀ a, t.queuedEvent = some a → a.callback = true) :
    Ready t := by
  subst hstage
  exact ⟨hrunning, hevent, hactive, hcallback⟩

/-- The set-up stays while the thread is at no later stage and its event keeps
what it has. -/
theorem Ready.frame (hready : Ready t) (hstage : t'.pc.stage ≤ t.pc.stage)
    (hrunning : t.running = true → t'.running = true)
    (hevent : ∀ a, t.queuedEvent = some a → ∃ a', t'.queuedEvent = some a')
    (hkept : ∀ a', t'.queuedEvent = some a' → ∃ a, t.queuedEvent = some a ∧
      (a.active = true → a'.active = true) ∧
      (a.callback = true → a'.callback = true)) : Ready t' where
  running h := hrunning (hready.running (Nat.le_trans h hstage))
  event h := by
    obtain ⟨a, ha⟩ := hready.event (Nat.le_trans h hstage)
    exact hevent a ha
  active h a' ha' := by
    obtain ⟨a, ha, hactive, -⟩ := hkept a' ha'
    exact hactive (hready.active (Nat.le_trans h hstage) a ha)
  callback h a' ha' := by
    obtain ⟨a, ha, -, hcallback⟩ := hkept a' ha'
    exact hcallback (hready.callback (Nat.le_trans h hstage) a ha)

/-- The same when the event is left alone. -/
theorem Ready.keep (hready : Ready t) (hstage : t'.pc.stage ≤ t.pc.stage)
    (hrunning : t.running = true → t'.running = true)
    (hevent : t'.queuedEvent = t.queuedEvent) : Ready t' :=
  hready.frame hstage hrunning (fun a ha => ⟨a, hevent ▸ ha⟩)
    fun a ha => ⟨a, hevent ▸ ha, id, id⟩

/-- A send takes no pending delivery back. -/
theorem EnqueueFrame.pending (hframe : EnqueueFrame t t') (hpending : t.Pending) :
    t'.Pending := by
  obtain ⟨a, ha, hdue⟩ := hpending
  obtain ⟨a', ha'⟩ := hframe.event a ha
  obtain ⟨b, hb, hactive, -, hsent⟩ := hframe.kept a' ha'
  rw [ha] at hb
  cases hb
  simp only [Async.due, Bool.and_eq_true] at hdue
  refine ⟨a', ha', ?_⟩
  rw [Async.due, hactive hdue.1, hsent hdue.2]
  rfl

theorem EnqueueFrame.ready (hframe : EnqueueFrame t t') (hready : Ready t) : Ready t' :=
  hready.frame (Nat.le_of_eq (congrArg Pc.stage hframe.pc)) (fun h => hframe.running ▸ h)
    hframe.event fun a' ha' => by
      obtain ⟨a, ha, hactive, hcallback, -⟩ := hframe.kept a' ha'
      exact ⟨a, ha, hactive, hcallback⟩

/-- A thread that has been set up is awake when a `send` returns. -/
theorem stepSend_pending {p : Async.Send} (hready : Ready t)
    (hstage : t.pc.stage = 5) (hdone : (t.stepSend p).2 = none) :
    (t.stepSend p).1.Pending := by
  obtain ⟨a, ha⟩ := hready.event (by omega)
  have halive : t.loopAlive = true := by
    cases hpc : t.pc <;> rw [hpc] at hstage <;>
      first | (cases hstage; done) | (simp only [HandlerThread.loopAlive, hpc])
  rw [HandlerThread.stepSend, ha, halive] at hdone ⊢
  refine ⟨_, rfl, ?_⟩
  rw [Async.due, Async.stepSend_done hdone, (a.stepSend_keeps true p).1,
    hready.active (by omega) a ha]
  rfl

end

omit [DecidableEq H] [DecidableEq C] in
/-- Each move of a thread keeps to the order of the initialization. -/
theorem ThreadMove.ready (hready : Ready t) (hmove : ThreadMove h tokens t o) :
    Ready o.thread := by
  cases hmove with
  | quit hpc _ => exact hready.keep (Nat.zero_le _) id rfl
  | start hpc _ =>
      exact .at_stage 1 rfl (by omega) (by omega) (by omega) (by omega)
  | setRunning hpc =>
      exact .at_stage 2 rfl (fun _ => rfl) (by omega) (by omega) (by omega)
  | makeEvent hpc =>
      have hstage : t.pc.stage = 2 := by rw [hpc]; rfl
      exact .at_stage 3 rfl (fun _ => hready.running (by omega)) (fun _ => ⟨_, rfl⟩)
        (by omega) (by omega)
  | startEvent hpc =>
      have hstage : t.pc.stage = 3 := by rw [hpc]; rfl
      obtain ⟨a, ha⟩ := hready.event (by omega)
      have hevent : t.queuedEvent.map Async.start = some a.start := by rw [ha]; rfl
      refine .at_stage 4 rfl (fun _ => hready.running (by omega))
        (fun _ => ⟨a.start, hevent⟩) (fun _ a' ha' => ?_) (by omega)
      cases hevent.symm.trans ha'
      rw [Async.start]
      split
      · assumption
      · rfl
  | setCallback hpc =>
      have hstage : t.pc.stage = 4 := by rw [hpc]; rfl
      obtain ⟨a, ha⟩ := hready.event (by omega)
      have hevent : t.queuedEvent.map Async.setCallback = some a.setCallback := by
        rw [ha]
        rfl
      refine .at_stage 5 rfl (fun _ => hready.running (by omega))
        (fun _ => ⟨a.setCallback, hevent⟩) (fun _ a' ha' => ?_) (fun _ a' ha' => ?_)
      · cases hevent.symm.trans ha'
        exact hready.active (by omega) a ha
      · cases hevent.symm.trans ha'
        rfl
  | @subCount a hpc ha =>
      have hstage : (if a.subCount.2 then Pc.resend .addCount else .invoke : Pc Token).stage
          ≤ t.pc.stage := by
        rw [hpc]
        split <;> exact Nat.le_refl _
      refine hready.frame hstage id (fun _ _ => ⟨_, rfl⟩) fun a' ha' => ?_
      cases ha'
      exact ⟨a, ha, id, id⟩
  | @resend p hpc =>
      have hframe := stepSend_frame t p
      refine (hframe.ready hready).keep ?_ id rfl
      rw [hframe.pc, hpc]
      cases (t.stepSend p).2 <;> exact Nat.le_refl _
  | @deliver a hpc ha _ =>
      have hstage : (if a.callback then Pc.drain .callback else .invoke : Pc Token).stage
          ≤ t.pc.stage := by
        rw [hpc]
        split <;> exact Nat.le_refl _
      refine hready.frame hstage id (fun _ _ => ⟨_, rfl⟩) fun a' ha' => ?_
      cases ha'
      exact ⟨a, ha, id, id⟩
  | @enqueue d e hpc =>
      have hframe := stepEnqueue_frame t e
      refine (hframe.ready hready).keep ?_ id rfl
      rw [hframe.pc, hpc]
      cases (t.stepEnqueue e).2 <;> exact Nat.le_refl _
  | clearRunning hpc =>
      exact .at_stage 0 rfl (by omega) (by omega) (by omega) (by omega)
  | @isStopping d hpc =>
      refine hready.keep ?_ id rfl
      rw [hpc]
      cases d <;> cases t.stopping <;> exact Nat.le_refl _
  | @isEmpty d hpc =>
      refine hready.keep ?_ id rfl
      rw [hpc]
      cases d <;> exact Nat.le_refl _
  | @stopLoop og _ hpc _ =>
      refine hready.keep ?_ id rfl
      rw [hpc]
      cases og <;> exact Nat.le_refl _
  | @release og _ hpc =>
      refine hready.keep ?_ id rfl
      rw [hpc]
      cases og <;> exact Nat.le_refl _
  | @finishPayload og _ _ hpc _ =>
      refine hready.keep ?_ id rfl
      rw [hpc]
      cases og <;> exact Nat.le_refl _
  | expire hpc _ =>
      refine hready.keep ?_ id rfl
      rcases hpc with hpc | hpc <;> rw [hpc] <;> exact Nat.le_refl _
  | _ hpc => exact hready.keep (by rw [hpc]; exact Nat.le_refl _) id rfl

/-! ## Producers -/

/-- The call has pushed a message and has not finished waking the thread up. -/
def Call.Waking : Call Token → Prop
  | .enqueue (.wake _) => True
  | .enqueue (.send _ _) => True
  | .deref _ => True
  | _ => False

/-- A producer of thread `h` is between its push and the end of its wake-up. -/
def Waking (s : State H C Token) (h : H) : Prop :=
  ∃ c call, s.callers c = some (h, call) ∧ call.Waking

omit [DecidableEq H] [DecidableEq C] in
/-- A step of a call on a thread that has been set up: the call is waking the
thread up afterwards, or it has done so, or it never began to and left the queue
alone. -/
theorem CallMove.waking {c : C} {n : Nat} {call : Call Token} (hready : Ready t)
    (hstage : t.pc.stage = 5) (hmove : CallMove h tokens t c n call o) :
    (∃ next, o.next = some next ∧ next.Waking) ∨ o.thread.Pending ∨
      (¬ call.Waking ∧ o.thread.queue = t.queue) := by
  obtain ⟨a, ha⟩ := hready.event (by omega)
  cases hmove with
  | enqueue e e' hnext =>
      cases e with
      | isStopping msg => exact .inr (.inr ⟨id, rfl⟩)
      | push msg =>
          cases hnext
          exact .inl ⟨_, rfl, trivial⟩
      | wake op =>
          obtain ⟨-, -, rfl⟩ := Option.map_eq_some_iff.mp hnext
          exact .inl ⟨_, rfl, trivial⟩
      | send op p =>
          obtain ⟨p', -, rfl⟩ := Option.map_eq_some_iff.mp hnext
          exact .inl ⟨_, rfl, trivial⟩
  | enqueued e hdone =>
      cases e with
      | isStopping msg => exact .inr (.inr ⟨id, rfl⟩)
      | push msg => cases hdone
      | wake op =>
          rw [HandlerThread.stepEnqueue, ha] at hdone
          cases hdone
      | send op p =>
          exact .inr (.inl (stepSend_pending hready hstage
            (Option.map_eq_none_iff.mp hdone)))
  | pushUnsafe op msg => exact .inl ⟨_, rfl, trivial⟩
  | deref op a _ => exact .inl ⟨_, rfl, trivial⟩
  | fault op hnone =>
      rw [ha] at hnone
      cases hnone
  | _ => exact .inr (.inr ⟨id, rfl⟩)

/-! ## The invariant -/

/-- A drain has seen the queue empty, and the next drain waits for a delivery. -/
def Pc.Quiet : Pc Token → Prop
  | .isStopping _ => True
  | .isEmpty _ => True
  | .startLoop => True
  | .poll => True
  | .invoke => True
  | .subCount => True
  | .resend _ => True
  | .process .timer _ => True
  | .running .timer _ => True
  | .release .timer _ => True
  | _ => False

omit [DecidableEq Token] in
theorem Pc.Quiet.stage {pc : Pc Token} (hquiet : pc.Quiet) : pc.stage = 5 := by
  cases pc <;> first | rfl | cases hquiet

omit [DecidableEq H] [DecidableEq C] in
/-- A move into the quiet region has found the queue empty; inside the region a
thread takes no message and no pending delivery back. -/
theorem ThreadMove.quiet (hready : Ready t) (hmove : ThreadMove h tokens t o)
    (hquiet : o.thread.pc.Quiet) :
    o.thread.queue = [] ∨
      (t.pc.Quiet ∧ o.thread.queue = t.queue ∧ (t.Pending → o.thread.Pending)) := by
  cases hmove with
  | drained hpc hnil => exact .inl hnil
  | startLoop hpc => exact .inr ⟨hpc ▸ trivial, rfl, id⟩
  | iterate hpc _ => exact .inr ⟨hpc ▸ trivial, rfl, id⟩
  | @subCount a hpc ha =>
      refine .inr ⟨hpc ▸ trivial, rfl, ?_⟩
      rintro ⟨b, hb, hdue⟩
      rw [ha] at hb
      cases hb
      exact ⟨_, rfl, hdue⟩
  | @resend p hpc =>
      exact .inr ⟨hpc ▸ trivial, stepSend_queue t p,
        fun hpending => (stepSend_frame t p).pending hpending⟩
  | isStopping hpc => exact .inr ⟨hpc ▸ trivial, rfl, id⟩
  | isEmpty hpc => exact .inr ⟨hpc ▸ trivial, rfl, id⟩
  | @stopLoop og _ hpc _ =>
      cases og with
      | queue d => cases hquiet
      | timer => exact .inr ⟨hpc ▸ trivial, rfl, id⟩
  | @begin og _ hpc _ =>
      cases og with
      | queue d => cases hquiet
      | timer => exact .inr ⟨hpc ▸ trivial, rfl, id⟩
  | @release og _ hpc =>
      cases og with
      | queue d => cases hquiet
      | timer => exact .inr ⟨hpc ▸ trivial, rfl, id⟩
  | @finish og _ _ hpc _ =>
      cases og with
      | queue d => cases hquiet
      | timer => exact .inr ⟨hpc ▸ trivial, rfl, id⟩
  | @finishPayload og _ _ hpc _ =>
      cases og with
      | queue d => cases hquiet
      | timer => exact .inr ⟨hpc ▸ trivial, rfl, id⟩
  | @enqueue d e _ =>
      have hdrain : ¬ (((t.stepEnqueue e).2.map (Pc.enqueue d)).getD (.drain d)).Quiet := by
        cases (t.stepEnqueue e).2 <;> exact id
      exact absurd hquiet hdrain
  | @deliver a hpc ha _ =>
      -- the callback is set before the loop starts
      have hstage : t.pc.stage = 5 := by rw [hpc]; rfl
      have hcallback := hready.callback (by omega) a ha
      have hdrain : ¬ (if a.callback then Pc.drain .callback else .invoke : Pc Token).Quiet := by
        rw [if_pos hcallback]
        exact id
      exact absurd hquiet hdrain
  | expire hpc _ => exact .inr ⟨hpc.elim (· ▸ trivial) (· ▸ trivial), rfl, id⟩
  | _ => cases hquiet

/-- In the quiet region a message can be in the queue only while a delivery is
pending or a producer is waking the thread up. -/
structure Awake (s : State H C Token) (h : H) : Prop where
  ready : Ready (s.threads h)
  woken : (s.threads h).pc.Quiet → (s.threads h).queue ≠ [] →
    (s.threads h).Pending ∨ Waking s h

theorem Awake.step {a : Action H C Token} (hawake : Awake s h)
    (hstep : Dispatch.step s a = some s') : Awake s' h := by
  cases step_view hstep h with
  | other hthread hcallers =>
      refine ⟨hthread ▸ hawake.ready, ?_⟩
      rw [hthread]
      intro hquiet hne
      rcases hawake.woken hquiet hne with hpending | ⟨c, call, hcall, hwaking⟩
      · exact .inl hpending
      · exact .inr ⟨c, call, hcallers c call hcall, hwaking⟩
  | thread choice o _ hmove hthread hcallers =>
      refine ⟨hthread ▸ hmove.ready hawake.ready, ?_⟩
      rw [hthread]
      intro hquiet hne
      rcases hmove.quiet hawake.ready hquiet with hnil | ⟨hold, hqueue, hpending⟩
      · exact absurd hnil hne
      · refine (hawake.woken hold (hqueue ▸ hne)).imp hpending ?_
        rintro ⟨c, call, hcall, hwaking⟩
        exact ⟨c, call, hcallers ▸ hcall, hwaking⟩
  | call c call o _ hcall hmove hthread hcallers =>
      have hframe := hmove.frame
      have hready : Ready o.thread :=
        hframe.ready (hawake.ready.keep (Nat.le_refl _) id rfl)
      refine ⟨hthread ▸ hready, ?_⟩
      rw [hthread]
      intro hquiet hne
      have hquiet' : (s.threads h).pc.Quiet := hframe.pc ▸ hquiet
      rcases hmove.waking hawake.ready hquiet'.stage with
        ⟨next, hnext, hwaking⟩ | hpending | ⟨hnot, hqueue⟩
      · refine .inr ⟨c, next, ?_, hwaking⟩
        rw [hcallers, Function.update_self, hnext]
        rfl
      · exact .inl hpending
      · rcases hawake.woken hquiet' (hqueue ▸ hne) with hpending | ⟨b, call', hb, hwaking⟩
        · exact .inl (hframe.pending hpending)
        · refine .inr ⟨b, call', ?_, hwaking⟩
          have hbc : b ≠ c := by
            rintro rfl
            rw [hcall] at hb
            cases hb
            exact hnot hwaking
          rw [hcallers, Function.update_of_ne hbc]
          exact hb

omit [DecidableEq H] [DecidableEq C] [DecidableEq Token] in
theorem Awake.initial (h : H) : Awake (Dispatch.initial : State H C Token) h where
  ready := .at_stage 0 rfl (by omega) (by omega) (by omega) (by omega)
  woken hquiet := hquiet.elim

theorem reachable_awake (hreach : machine.Reachable s) (h : H) : Awake s h :=
  hreach.invariant (I := (Awake · h)) (fun _ hs => hs ▸ Awake.initial h)
    fun _ _ _ hawake _ hstep => hawake.step hstep

/-- No wake-up is lost: while a thread is blocked in its loop with no delivery
pending, and no producer is between its push and the end of its wake-up, the
queue is empty. -/
theorem no_lost_wakeup (hreach : machine.Reachable s)
    (hpoll : (s.threads h).pc = .poll) (hpending : ¬ (s.threads h).Pending)
    (hwaking : ¬ Waking s h) : (s.threads h).queue = [] := by
  by_contra hne
  rcases (reachable_awake hreach h).woken (hpoll ▸ trivial) hne with h | h
  · exact hpending h
  · exact hwaking h

/-- A message is posted before the thread has started, and the first drain finds
it. -/
def earlyPost : List (Action Unit Unit Unit) :=
  List.flatten [
    [.post () () 0], List.replicate 3 (.call ()),
    List.replicate 9 (.thread () .run), [.thread () (.finish false)],
    List.replicate 4 (.thread () .run)]

theorem no_lost_wakeup_run :
    ∃ s : State Unit Unit Unit, machine.exec initial earlyPost = some s ∧
      (s.threads ()).pc = .poll ∧ (s.threads ()).queue = [] := by
  obtain ⟨s, hrun, hpoll, hpending, hidle⟩ : ∃ s, machine.exec initial earlyPost = some s ∧
      (s.threads ()).pc = .poll ∧ ¬ (s.threads ()).Pending ∧ s.callers () = none :=
    ⟨_, rfl, rfl, by decide, rfl⟩
  refine ⟨s, hrun, hpoll, no_lost_wakeup (.of_exec rfl hrun) hpoll hpending ?_⟩
  rintro ⟨c, call, hcall, -⟩
  rw [hidle] at hcall
  cases hcall

end Dispatch
end Cyan
