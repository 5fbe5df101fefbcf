import Cyan.Dispatch.WakeUp

/-!
# The event that `stop` wakes

`execute` stores `running_` before `initialize_message_queue` has made
`queued_event_`, and `stop` takes `is_running()` as the proof that the event
exists: `enqueue_unsafe` follows the pointer without the test that `enqueue`
makes.

* `Created` is the state of a thread from the moment `running_` is set: its event
  exists, or it is the next thing to be made.
* `StopsOutside` asks of a `stop` that is about to enqueue its message that it
  does not load `is_running()` between the two.
* `finds_event`: in the runs under that condition no null pointer is followed.
* `stop_faults`: a `stop` that does not meet it follows null unless the handler
  thread makes the event in time.
-/

namespace Cyan
namespace Dispatch

open Base Event

variable {H C Token : Type*} {h : H} {c : C} {n : Nat} {call : Call Token}
  {tokens : Token → SerialToken} {t : HandlerThread Token} {o : Outcome H C Token}

/-- The event exists, or `execute` stands in front of making it. -/
def HandlerThread.Created (t : HandlerThread Token) : Prop :=
  t.pc = .makeEvent ∨ ∃ a, t.queuedEvent = some a

/-- `execute` has not come to make the event. -/
def Pc.early : Pc Token → Bool
  | .start => true
  | .setRunning => true
  | .makeEvent => true
  | _ => false

/-- Where `running_` and the event of one thread stand. -/
structure Published (t : HandlerThread Token) : Prop where
  running : t.running = true → t.Created
  early : t.pc.early = true → t.queuedEvent = none

@[simp] theorem Drain.after_early (d : Drain) :
    (d.after : Pc Token).early = false := by
  cases d <;> rfl

@[simp] theorem Origin.after_early (og : Origin) :
    (og.after : Pc Token).early = false := by
  cases og <;> rfl

/-- A `stop` that has loaded `is_running()` finds the event when it comes to it:
the thread has made it, or will do so next while the queue is not empty, and then
`stop(true)` returns. -/
def Call.FindsEvent (t : HandlerThread Token) : Call Token → Prop
  | .isEmpty _ => (∃ a, t.queuedEvent = some a) ∨ t.pc = .makeEvent ∧ t.queue ≠ []
  | .pushUnsafe _ _ => ∃ a, t.queuedEvent = some a
  | .deref _ => ∃ a, t.queuedEvent = some a
  | .fault _ => False
  | _ => True

/-- `stop` loads `is_running()` and, as the queue stands, goes on to enqueue its
message: `!safe || queue_->empty()`. -/
def Call.stops (queue : List (Message Token)) : Call Token → Bool
  | .isRunning _ safe => !safe || queue.isEmpty
  | _ => false

/-- A call begins in front of the test of `running_`. -/
theorem Action.opens_findsEvent {a : Action H C Token} {e : Mark H C Token}
    (hopens : a.opens n = some (c, h, call, e)) : call.FindsEvent t := by
  cases a <;> cases hopens <;> trivial

/-! ## The steps of the thread -/

variable [DecidableEq Token]

omit [DecidableEq Token] in
theorem stepEnqueue_queue_ne_nil (hqueue : t.queue ≠ []) (e : Enqueue Token) :
    (t.stepEnqueue e).1.queue ≠ [] := by
  cases e with
  | push msg => simp [HandlerThread.stepEnqueue]
  | send op p => exact (stepSend_queue t p).symm ▸ hqueue
  | _ => exact hqueue

/-- The thread does not lose its event. -/
theorem ThreadMove.event (hevent : ∃ a, t.queuedEvent = some a)
    (hmove : ThreadMove h tokens t o) : ∃ a, o.thread.queuedEvent = some a := by
  obtain ⟨a, ha⟩ := hevent
  cases hmove with
  | makeEvent _ => exact ⟨_, rfl⟩
  | startEvent _ => exact ⟨a.start, congrArg (Option.map Async.start) ha⟩
  | setCallback _ => exact ⟨a.setCallback, congrArg (Option.map Async.setCallback) ha⟩
  | subCount _ _ => exact ⟨_, rfl⟩
  | resend _ => exact (stepSend_frame t _).event a ha
  | enqueue _ => exact (stepEnqueue_frame t _).event a ha
  | deliver _ _ _ => exact ⟨_, rfl⟩
  | _ => exact ⟨a, ha⟩

/-- The thread goes from making the event to having it. -/
theorem ThreadMove.created (hcreated : t.Created) (hmove : ThreadMove h tokens t o) :
    o.thread.Created := by
  rcases hcreated with hpc | hevent
  · cases hmove with
    | makeEvent _ => exact .inr ⟨_, rfl⟩
    | expire hpc' _ => simp [hpc] at hpc'
    | _ => simp_all
  · exact .inr (hmove.event hevent)

/-- `running_` is set by the thread that makes the event next. -/
theorem ThreadMove.running (hrunning : o.thread.running = true)
    (hmove : ThreadMove h tokens t o) : t.running = true ∨ o.thread.Created := by
  cases hmove with
  | setRunning _ => exact .inr (.inl rfl)
  | clearRunning _ => cases hrunning
  | resend _ => exact .inl ((stepSend_frame t _).running ▸ hrunning)
  | enqueue _ => exact .inl ((stepEnqueue_frame t _).running ▸ hrunning)
  | _ => exact .inl hrunning

/-- The thread does not come back in front of making the event. -/
theorem ThreadMove.early (hearly : o.thread.pc.early = true)
    (hmove : ThreadMove h tokens t o) :
    t.pc.early = true ∧ o.thread.queuedEvent = t.queuedEvent := by
  cases hmove with
  | start hpc _ => exact ⟨by rw [hpc]; rfl, rfl⟩
  | setRunning hpc => exact ⟨by rw [hpc]; rfl, rfl⟩
  | subCount _ _ =>
      simp only [Outcome.of, HandlerThread.goto] at hearly
      split at hearly <;> cases hearly
  | resend _ =>
      simp only [Outcome.of, HandlerThread.goto] at hearly
      cases hnext : (t.stepSend _).2 <;> rw [hnext] at hearly <;> cases hearly
  | enqueue _ =>
      simp only [Outcome.of, HandlerThread.goto] at hearly
      cases hnext : (t.stepEnqueue _).2 <;> rw [hnext] at hearly <;> cases hearly
  | isStopping _ =>
      simp only [Outcome.of, HandlerThread.goto] at hearly
      split at hearly
      · cases hearly
      · simp at hearly
  | deliver _ _ _ =>
      simp only [Outcome.of, HandlerThread.goto] at hearly
      split at hearly <;> cases hearly
  | isEmpty _ => simp [Outcome.of, HandlerThread.goto] at hearly
  | stopLoop _ _ => simp [Outcome.of, HandlerThread.goto] at hearly
  | release _ => simp [Outcome.of, HandlerThread.goto, Outcome.of] at hearly
  | finishPayload _ _ => simp [Outcome.of, HandlerThread.goto] at hearly
  | _ => cases hearly

theorem ThreadMove.published (hpublished : Published t)
    (hmove : ThreadMove h tokens t o) : Published o.thread where
  running hrunning := by
    rcases hmove.running hrunning with hrun | hcreated
    · exact hmove.created (hpublished.running hrun)
    · exact hcreated
  early hearly := by
    obtain ⟨hbefore, hsame⟩ := hmove.early hearly
    rw [hsame]
    exact hpublished.early hbefore

/-! ## The calls -/

/-- A step of a call keeps a created event. -/
theorem CallMove.created (hcreated : t.Created)
    (hmove : CallMove h tokens t c n call o) : o.thread.Created := by
  have hframe := hmove.frame
  rcases hcreated with hpc | ⟨a, ha⟩
  · exact .inl (hframe.pc.trans hpc)
  · exact .inr (hframe.event a ha)

theorem CallMove.published (hpublished : Published t)
    (hmove : CallMove h tokens t c n call o) : Published o.thread where
  running hrunning :=
    hmove.created (hpublished.running (hmove.frame.running ▸ hrunning))
  early hearly := by
    have hnone : t.queuedEvent = none :=
      hpublished.early (hmove.frame.pc ▸ hearly)
    cases hafter : o.thread.queuedEvent with
    | none => rfl
    | some a' =>
        obtain ⟨a, ha, -⟩ := hmove.frame.kept a' hafter
        cases hnone.symm.trans ha

/-- The thread leaves a call what it is to find. -/
theorem ThreadMove.findsEvent (hfinds : call.FindsEvent t)
    (hmove : ThreadMove h tokens t o) : call.FindsEvent o.thread := by
  cases call with
  | isEmpty op =>
      left
      rcases hfinds with hevent | ⟨hpc, -⟩
      · exact hmove.event hevent
      · -- only the thread takes messages out, and its next step makes the event
        cases hmove with
        | makeEvent _ => exact ⟨_, rfl⟩
        | expire hpc' _ => simp [hpc] at hpc'
        | _ => simp_all
  | pushUnsafe op msg => exact hmove.event hfinds
  | deref op => exact hmove.event hfinds
  | _ => exact hfinds

/-- A step of a call keeps a filled queue. -/
theorem CallMove.queue_ne_nil (hqueue : t.queue ≠ [])
    (hmove : CallMove h tokens t c n call o) : o.thread.queue ≠ [] := by
  cases hmove with
  | enqueue e e' _ => exact stepEnqueue_queue_ne_nil hqueue e
  | enqueued e _ => exact stepEnqueue_queue_ne_nil hqueue e
  | pushUnsafe op msg => simp
  | _ => exact hqueue

/-- A step of one call leaves another what it is to find. -/
theorem CallMove.findsEvent {other : Call Token} (hfinds : other.FindsEvent t)
    (hmove : CallMove h tokens t c n call o) : other.FindsEvent o.thread := by
  have hevent : (∃ a, t.queuedEvent = some a) → ∃ a, o.thread.queuedEvent = some a :=
    fun ⟨a, ha⟩ => hmove.frame.event a ha
  cases other with
  | isEmpty op =>
      rcases hfinds with hfinds | ⟨hpc, hqueue⟩
      · exact .inl (hevent hfinds)
      · exact .inr ⟨hmove.frame.pc.trans hpc, hmove.queue_ne_nil hqueue⟩
  | pushUnsafe op msg => exact hevent hfinds
  | deref op => exact hevent hfinds
  | _ => exact hfinds

/-- The call that moves, when it does not load `is_running()` in the gap. -/
theorem CallMove.findsEvent_next {call' : Call Token} (hpublished : Published t)
    (hfinds : call.FindsEvent t) (houtside : call.stops t.queue = true → t.pc ≠ .makeEvent)
    (hmove : CallMove h tokens t c n call o) (hnext : o.next = some call') :
    call'.FindsEvent o.thread := by
  cases hmove with
  | safe op hrun =>
      cases hnext
      rcases hpublished.running hrun with hpc | hevent
      · -- in the gap the queue is not empty, and `stop(true)` will return
        refine .inr ⟨hpc, fun hnil => houtside ?_ hpc⟩
        exact List.isEmpty_iff.mpr hnil
      · exact .inl hevent
  | forced op hrun =>
      cases hnext
      rcases hpublished.running hrun with hpc | hevent
      · exact absurd hpc (houtside rfl)
      · exact hevent
  | empty op hnil =>
      cases hnext
      rcases hfinds with hevent | ⟨-, hqueue⟩
      · exact hevent
      · exact absurd hnil hqueue
  | pushUnsafe op msg => cases hnext; exact hfinds
  | fault op hnone =>
      obtain ⟨a, ha⟩ := hfinds
      cases hnone.symm.trans ha
  | _ => cases hnext <;> trivial

/-! ## The run -/

variable [DecidableEq H] [DecidableEq C] {s s' : State H C Token}

/-- No `stop` that goes on to enqueue its message loads `is_running()` while the
handler thread stands between `running_.store(true)` and the creation of
`queued_event_`. -/
def StopsOutside (s : State H C Token) : Action H C Token → Prop
  | .call c => ∀ x ∈ s.callers c, x.2.stops (s.threads x.1).queue = true →
      (s.threads x.1).pc ≠ .makeEvent
  | _ => True

instance (s : State H C Token) : (a : Action H C Token) → Decidable (StopsOutside s a)
  | .call c => inferInstanceAs (Decidable (∀ x ∈ s.callers c, _ → _))
  | .send _ _ _ => isTrue trivial
  | .post _ _ _ => isTrue trivial
  | .postSerial _ _ _ => isTrue trivial
  | .stop _ _ _ => isTrue trivial
  | .thread _ _ => isTrue trivial

theorem published_of_reachable (hreach : machine.Reachable s) (h : H) :
    Published (s.threads h) := by
  refine hreach.invariant (I := fun s => Published (s.threads h)) ?_ ?_
  · rintro s rfl
    exact ⟨fun hrun => (by cases hrun), fun _ => rfl⟩
  · intro s a s' hpublished _ hstep
    cases step_view hstep h with
    | other hsame _ => exact hsame ▸ hpublished
    | call c call o _ _ hmove hthread _ => exact hthread ▸ hmove.published hpublished
    | thread choice o _ hmove hthread _ =>
        exact hthread ▸ hmove.published hpublished

/-- A step leaves the calls that do not move with it what they are to find. -/
theorem findsEvent_of_step {a : Action H C Token} (hfinds : call.FindsEvent (s.threads h))
    (hstep : step s a = some s') : call.FindsEvent (s'.threads h) := by
  cases step_view hstep h with
  | other hsame _ => exact hsame ▸ hfinds
  | call c call o _ _ hmove hthread _ => exact hthread ▸ hmove.findsEvent hfinds
  | thread choice o _ hmove hthread _ => exact hthread ▸ hmove.findsEvent hfinds

/-- In the runs under the condition every call finds its event. -/
theorem findsEvent_of_reachable (hreach : machine.ReachableUnder StopsOutside s)
    (hcall : s.callers c = some (h, call)) : call.FindsEvent (s.threads h) := by
  refine hreach.invariant_reachable (I := fun s => ∀ c h call,
    s.callers c = some (h, call) → call.FindsEvent (s.threads h)) ?_ ?_ c h call hcall
  · rintro s rfl c h call hcall
    cases hcall
  · intro s a s' hbefore hfinds hok (hstep : step s a = some s') c h call hcall
    cases step_move hstep with
    | opens _ b g call' e hopens _ =>
        by_cases hcb : c = b
        · subst hcb
          cases (Function.update_self ..).symm.trans hcall
          exact Action.opens_findsEvent hopens
        · exact hfinds c h call ((Function.update_of_ne hcb ..).symm.trans hcall)
    | call b g call' o hbefore' hmove =>
        by_cases hcb : c = b
        · subst hcb
          have hnow : o.next.map (g, ·) = some (h, call) :=
            (Function.update_self c _ s.callers).symm.trans hcall
          obtain ⟨call'', hnext, heq⟩ := Option.map_eq_some_iff.mp hnow
          cases heq
          -- the call that moves, with the condition on its own step
          have hfinds' := hmove.findsEvent_next
            (published_of_reachable hbefore.reachable h)
            (hfinds c h call' hbefore') (hok (h, call') hbefore') hnext
          exact (s.apply_self h o).symm ▸ hfinds'
        · exact findsEvent_of_step
            (hfinds c h call ((Function.update_of_ne hcb ..).symm.trans hcall)) hstep
    | thread g choice o hmove => exact findsEvent_of_step (hfinds c h call hcall) hstep

/-- In every run in which no `stop` that goes on to enqueue its message loads
`is_running()` between `running_.store(true)` and the creation of
`queued_event_`, `enqueue_unsafe` follows no null pointer. -/
theorem finds_event (hreach : machine.ReachableUnder StopsOutside s) (c : C) (h : H)
    (op : Nat) : s.callers c ≠ some (h, .fault op) :=
  fun hfault => findsEvent_of_reachable hreach hfault

/-- A thread comes up and is told to stop while it runs its loop. -/
theorem finds_event_run : ∃ s : State Unit Unit Unit,
    machine.ReachableUnder StopsOutside s ∧
    s.callers () = some ((), .enqueue (.send 0 .addCount)) ∧
    ∀ op, s.callers () ≠ some ((), .fault op) := by
  obtain ⟨s, hrun, hcall⟩ : ∃ s : State Unit Unit Unit,
      machine.execUnder StopsOutside initial
        (List.flatten [List.replicate 9 (.thread () .run), [.stop () () false],
          List.replicate 4 (.call ())]) = some s ∧
      s.callers () = some ((), .enqueue (.send 0 .addCount)) := ⟨_, rfl, rfl⟩
  have hreach := Machine.ReachableUnder.of_execUnder rfl hrun
  exact ⟨s, hreach, hcall, finds_event hreach () ()⟩

/-- `stop(false)` comes between the store of `running_` and the creation of the
event. -/
theorem stop_follows_null :
    ¬ ∀ s : State Unit Unit Unit, machine.Reachable s →
      ∀ op, s.callers () ≠ some ((), .fault op) := by
  intro hclaim
  obtain ⟨s, hrun, hfault⟩ : ∃ s : State Unit Unit Unit,
      machine.exec initial
        (List.flatten [List.replicate 2 (.thread () .run), [.stop () () false],
          List.replicate 4 (.call ())]) = some s ∧
      s.callers () = some ((), .fault 0) := ⟨_, rfl, rfl⟩
  exact hclaim s (.of_exec rfl hrun) 0 hfault

/-! ## The condition leaves out nothing else -/

/-- By the steps of its own that follow, the call of `c` follows null. -/
def Faults (s : State H C Token) (c : C) : Prop :=
  ∃ n s' h op, machine.exec s (List.replicate n (.call c)) = some s' ∧
    s'.callers c = some (h, .fault op)

/-- What the next step of a call makes of its thread and of the call. -/
theorem exists_step_call (hcall : s.callers c = some (h, call))
    (ho : stepCall h s.tokens (s.threads h) c s.trace.length call = some o) :
    ∃ s', step s (.call c) = some s' ∧ s'.threads h = o.thread ∧
      s'.callers c = o.next.map (h, ·) := by
  refine ⟨{ s.apply h o with
    callers := Function.update s.callers c (o.next.map (h, ·)) }, ?_, s.apply_self h o,
    Function.update_self ..⟩
  simp only [step, hcall, ho, Option.map_some]

theorem Faults.of_step (hstep : step s (.call c) = some s') (hfaults : Faults s' c) :
    Faults s c := by
  obtain ⟨n, s'', h, op, hexec, hfault⟩ := hfaults
  refine ⟨n + 1, s'', h, op, ?_, hfault⟩
  rw [List.replicate_succ, Machine.exec_cons,
    show machine.step s (.call c) = some s' from hstep]
  exact hexec

theorem faults_of_deref {op : Nat} (hcall : s.callers c = some (h, .deref op))
    (hnone : (s.threads h).queuedEvent = none) : Faults s c := by
  obtain ⟨s', hstep, -, hfault⟩ := exists_step_call hcall
    (o := ⟨s.threads h, s.tokens, [], some (.fault op)⟩) (by rw [stepCall, hnone])
  exact .of_step hstep ⟨0, s', h, op, rfl, hfault⟩

theorem faults_of_pushUnsafe {op : Nat} {msg : Message Token}
    (hcall : s.callers c = some (h, .pushUnsafe op msg))
    (hnone : (s.threads h).queuedEvent = none) : Faults s c := by
  obtain ⟨s', hstep, hthread, hnext⟩ := exists_step_call hcall rfl
  exact .of_step hstep (faults_of_deref hnext (by rw [hthread]; exact hnone))

theorem faults_of_isEmpty {op : Nat} (hcall : s.callers c = some (h, .isEmpty op))
    (hnil : (s.threads h).queue = []) (hnone : (s.threads h).queuedEvent = none) :
    Faults s c := by
  obtain ⟨s', hstep, hthread, hnext⟩ := exists_step_call hcall
    (by rw [stepCall, if_pos (List.isEmpty_iff.mpr hnil)])
  exact .of_step hstep (faults_of_pushUnsafe hnext (by rw [hthread]; exact hnone))

/-- A `stop` that does not meet the condition follows null when its thread does
not move before. -/
theorem stop_faults {a : Action H C Token} (hreach : machine.Reachable s)
    (hinside : ¬ StopsOutside s a) : ∃ c, a = .call c ∧ Faults s c := by
  cases a with
  | call c =>
      refine ⟨c, rfl, ?_⟩
      simp only [StopsOutside, not_forall, not_not] at hinside
      obtain ⟨⟨h, call⟩, hcall, hstops, hpc⟩ := hinside
      have hnone : (s.threads h).queuedEvent = none :=
        (published_of_reachable hreach h).early (by rw [hpc]; rfl)
      have hrun : (s.threads h).running = true :=
        (reachable_awake hreach h).ready.running (by rw [hpc]; exact Nat.le_refl 2)
      cases call with
      | isRunning op safe =>
          cases safe with
          | false =>
              obtain ⟨s', hstep, hthread, hnext⟩ := exists_step_call hcall
                (by rw [stepCall, hrun]; rfl)
              exact .of_step hstep
                (faults_of_pushUnsafe hnext (by rw [hthread]; exact hnone))
          | true =>
              have hnil : (s.threads h).queue = [] := List.isEmpty_iff.mp hstops
              obtain ⟨s', hstep, hthread, hnext⟩ := exists_step_call hcall
                (by rw [stepCall, hrun]; rfl)
              exact .of_step hstep (faults_of_isEmpty hnext (by rw [hthread]; exact hnil)
                (by rw [hthread]; exact hnone))
      | _ => cases hstops
  | _ => exact absurd trivial hinside

end Dispatch
end Cyan
