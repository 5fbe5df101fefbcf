import Cyan.Dispatch.Drains

/-!
# What a safe stop keeps

`stop(true)` is meant to let the thread finish what has been accepted.

* `owed` lists the messages whose `enqueue` accepted them and returned before
  `stop(true)` was called.
* `KeepsAccepted` is the condition on a step: such a message is not left behind
  by the first check of `execute`, is not dropped by `process_queue`, and is not
  pushed onto a thread that has ended its last drain.
* `safe_stop_keeps` holds for every run that keeps to the condition, and
  `safe_stop_loses` is a run that does not.
-/

namespace Cyan
namespace Dispatch

open Base

variable {H C Token : Type*} [DecidableEq H] [DecidableEq C] [DecidableEq Token]
variable {s s' : State H C Token} {a : Action H C Token} {msg : Message Token}
  {g h : H} {es tr : List (Mark H C Token)}

/-! ## What the trace says about a thread -/

/-- The messages that `enqueue` has accepted on thread `h`. -/
def pushes (h : H) (tr : List (Mark H C Token)) : List (Message Token) :=
  tr.filterMap fun
    | .push msg g => if g = h then some msg else none
    | _ => none

/-- `stop(true)` has been called on thread `h`. -/
def safelyStopped (h : H) (tr : List (Mark H C Token)) : Bool :=
  tr.any fun
    | .callStop _ _ g safe => g = h && safe
    | _ => false

/-- The messages that were accepted on thread `h` by a call that returned before
`stop(true)` was called. -/
def owed (h : H) : List (Mark H C Token) → List (Message Token)
  | [] => []
  | .ret op :: tr =>
      if safelyStopped h tr then owed h tr
      else (pushes h tr).filter (·.op = op) ++ owed h tr
  | _ :: tr => owed h tr

/-- The message is owed, or it will be once its call returns. -/
def Pledged (h : H) (msg : Message Token) (tr : List (Mark H C Token)) : Prop :=
  msg ∈ owed h tr ∨ safelyStopped h tr = false

instance (h : H) (msg : Message Token) (tr : List (Mark H C Token)) :
    Decidable (Pledged h msg tr) :=
  inferInstanceAs (Decidable (_ ∨ _))

section

omit [DecidableEq C] [DecidableEq Token]

theorem pushes_append (es tr : List (Mark H C Token)) :
    pushes h (es ++ tr) = pushes h es ++ pushes h tr :=
  List.filterMap_append

/-- A message is pledged from the beginning. -/
theorem Pledged.tail {e : Mark H C Token} (hpledged : Pledged h msg (e :: tr)) :
    Pledged h msg tr := by
  rcases hpledged with howed | hstop
  · cases e with
    | ret op =>
        rw [owed] at howed
        split at howed
        · exact .inl howed
        · exact .inr (eq_false_of_ne_true ‹_›)
    | _ => exact .inl howed
  · exact .inr (Bool.or_eq_false_iff.mp hstop).2

theorem Pledged.before (hpledged : Pledged h msg (es ++ tr)) : Pledged h msg tr := by
  induction es with
  | nil => exact hpledged
  | cons e es ih => exact ih hpledged.tail

theorem pushes_plain (hplain : ∀ e ∈ es, e.Plain) (tr : List (Mark H C Token)) :
    pushes h (es ++ tr) = pushes h tr :=
  filterMap_skip (fun e he => by
    have hplain := hplain e he
    cases e <;> first | rfl | exact hplain.elim) tr

theorem owed_pushed (howed : msg ∈ owed h tr) : msg ∈ pushes h tr := by
  induction tr with
  | nil => cases howed
  | cons e tr ih =>
      have hold : msg ∈ pushes h tr → msg ∈ pushes h (e :: tr) := fun hmem =>
        pushes_append [e] tr ▸ List.mem_append_right _ hmem
      cases e with
      | ret op =>
          rw [owed] at howed
          split at howed
          · exact ih howed
          · rcases List.mem_append.mp howed with hnow | howed
            · exact (List.mem_filter.mp hnow).1
            · exact ih howed
      | _ => exact hold (ih howed)

end

/-! ## The condition -/

/-- The step of a call leaves no accepted message with a thread that drains no
more. -/
def Call.KeepsAccepted (h : H) (tr : List (Mark H C Token)) (t : HandlerThread Token) :
    Call Token → Prop
  | .enqueue (.push msg) => t.leaving = true → msg.timeout ≤ 0 → ¬ Pledged h msg tr
  | _ => True

/-- The step of a thread neither leaves nor drops an accepted message. -/
def Pc.KeepsAccepted (h : H) (tr : List (Mark H C Token)) (t : HandlerThread Token) :
    Pc Token → Prop
  | .start => t.stopping = true → ∀ msg ∈ t.queue, msg.timeout ≤ 0 → ¬ Pledged h msg tr
  | .enqueue _ (.isStopping msg) => t.stopping = true → ¬ Pledged h msg tr
  | _ => True

/-- The step keeps what has been accepted. -/
def KeepsAccepted (s : State H C Token) : Action H C Token → Prop
  | .call c => ∀ x ∈ s.callers c, x.2.KeepsAccepted x.1 s.trace (s.threads x.1)
  | .thread h _ => (s.threads h).pc.KeepsAccepted h s.trace (s.threads h)
  | _ => True

instance (h : H) (tr : List (Mark H C Token)) (t : HandlerThread Token)
    (call : Call Token) : Decidable (call.KeepsAccepted h tr t) := by
  unfold Call.KeepsAccepted
  split <;> infer_instance

instance (h : H) (tr : List (Mark H C Token)) (t : HandlerThread Token)
    (pc : Pc Token) : Decidable (pc.KeepsAccepted h tr t) := by
  unfold Pc.KeepsAccepted
  split <;> infer_instance

instance (s : State H C Token) (a : Action H C Token) : Decidable (KeepsAccepted s a) := by
  unfold KeepsAccepted
  split <;> infer_instance

/-! ## Steps -/

/-- The message is somewhere in the thread, but not in its timer wheel. -/
def Inside (s : State H C Token) (h : H) (msg : Message Token) : Prop :=
  ∃ k, k ≠ .timerWheel ∧ msg ∈ contents s (.spot h k)

section

omit [DecidableEq C]

/-- A message without a timeout stays in its thread until it has been processed,
unless `process_queue` drops it. -/
theorem Flow.inside (hflow : Flow s a s') (hok : KeepsAccepted s a)
    (hpledged : Pledged h msg s.trace) (htimeout : msg.timeout ≤ 0)
    (hinside : Inside s h msg) : .processed msg h ∈ s'.trace ∨ Inside s' h msg := by
  obtain ⟨k, hk, hmsg⟩ := hinside
  cases hflow with
  | stay _ hcontents _ _ _ => exact .inr ⟨k, hk, (hcontents _).symm ▸ hmsg⟩
  | come c _ _ hcome _ _ _ _ _ _ => exact .inr ⟨k, hk, hcome.mem_after hmsg⟩
  | draw c g old tok _ _ hbecame _ _ =>
      have hspot : contents s' (.spot h k) = contents s (.spot h k) :=
        hbecame.others _ fun heq => nomatch heq
      exact .inr ⟨k, hk, hspot.symm ▸ hmsg⟩
  | went _ p q moved hwent hpass _ _ =>
      rcases hwent.mem_after_or_eq hmsg with hstays | ⟨hp, rfl⟩
      · exact .inr ⟨k, hk, hstays⟩
      · have harrived := hwent.mem_target
        cases hpass with
        | post c g _ _ _ => cases hp
        | postStop c g op _ _ => cases hp
        -- only a message with a timeout gets into the timer wheel
        | delay g _ hpositive => omega
        | expire g _ =>
            cases hp
            exact absurd rfl hk
        | _ =>
            cases hp
            exact .inr ⟨_, by decide, harrived⟩
  | gone es tokens p left hgone hexit _ htrace =>
      rcases hgone.mem_after_or_eq hmsg with hstays | ⟨hp, rfl⟩
      · exact .inr ⟨k, hk, hstays⟩
      · cases hexit with
        | refusePost c g _ _ _ _ => cases hp
        | refuse g choice d _ ha hpc hstop =>
            cases hp
            subst ha
            rw [KeepsAccepted, hpc] at hok
            exact absurd hpledged (hok hstop)
        | _ =>
            cases hp
            rw [htrace]
            exact .inl (List.mem_cons_self ..)

/-- A thread that leaves has none of the accepted messages in it. -/
theorem ThreadMove.keeps {o : Outcome H C Token} {choice : Choice}
    (htimer : ∀ msg, (s.threads h).pc = .process .timer msg → msg.type ≠ .stop)
    (hmove : ThreadMove h s.tokens (s.threads h) o)
    (hok : KeepsAccepted s (.thread h choice)) (hpledged : Pledged h msg s.trace)
    (htimeout : msg.timeout ≤ 0) (hbefore : Inside s h msg)
    (hafter : ∃ k, k ≠ .timerWheel ∧ msg ∈ o.thread.holds k)
    (hstays : (s.threads h).leaving = false) : o.thread.leaving = false := by
  by_contra hleaving
  cases hmove.leaves htimer (eq_true_of_ne_false hleaving) with
  | quits hquit _ =>
      -- nothing has been dequeued yet, so the message is still in the queue
      obtain ⟨k, hk, hmsg⟩ := hbefore
      rw [HandlerThread.quitting] at hquit
      split at hquit
      · have hpc : (s.threads h).pc = .start := ‹_›
        have hqueue : msg ∈ (s.threads h).queue := by
          cases k with
          | queue => exact hmsg
          | timerWheel => exact absurd rfl hk
          | _ =>
              have hmsg : msg ∈ (s.threads h).pc.holds _ := hmsg
              rw [hpc] at hmsg
              cases hmsg
        rw [KeepsAccepted, hpc] at hok
        exact hok hquit msg hqueue htimeout hpledged
      · cases hquit
  | empty hnil hnone =>
      obtain ⟨k, hk, hmsg⟩ := hafter
      cases k with
      | queue =>
          have hmsg : msg ∈ o.thread.queue := hmsg
          rw [hnil] at hmsg
          cases hmsg
      | timerWheel => exact hk rfl
      | _ =>
          have hmsg : msg ∈ o.thread.pc.holds _ := hmsg
          rw [hnone] at hmsg
          cases hmsg
  | left hleft _ =>
      rw [hstays] at hleft
      cases hleft

end

/-- A call does not make a thread leave. -/
theorem call_leaving {c : C} (hstep : Dispatch.step s (.call c) = some s') (h : H) :
    (s'.threads h).leaving = (s.threads h).leaving := by
  cases step_view hstep h with
  | other hthread _ => rw [hthread]
  | call c' call o _ _ hmove hthread _ =>
      rw [hthread]
      exact leaving_eq hmove.frame.pc hmove.frame.loopDone
  | thread choice o ha _ _ _ => cases ha

omit [DecidableEq C] in
/-- A step accepts nothing, or a call pushes its message. -/
theorem Flow.pushes (hflow : Flow s a s') (h : H) :
    pushes h s'.trace = pushes h s.trace ∨
      ∃ c msg, a = .call c ∧ s.callers c = some (h, .enqueue (.push msg)) ∧
        msg ∈ contents s' (.spot h .queue) ∧
        pushes h s'.trace = msg :: pushes h s.trace := by
  cases hflow with
  | stay es _ hplain _ htrace => exact .inl (htrace ▸ pushes_plain hplain _)
  | come c new e _ _ _ _ hplain _ htrace =>
      rw [htrace]
      refine .inl (pushes_plain (fun e' he' => ?_) _)
      rw [List.mem_singleton.mp he']
      exact hplain
  | draw c g old tok _ _ _ _ htrace => exact .inl (htrace ▸ rfl)
  | went es p q moved hwent hpass _ htrace =>
      cases hpass with
      | post c g _ ha hcall =>
          by_cases hgh : g = h
          · subst hgh
            refine .inr ⟨c, moved, ha, hcall, hwent.mem_target, ?_⟩
            rw [htrace, pushes_append]
            simp [Dispatch.pushes]
          · refine .inl ?_
            rw [htrace, pushes_append]
            simp [Dispatch.pushes, hgh]
      | _ => exact .inl (htrace ▸ rfl)
  | gone es tokens p left _ hexit _ htrace =>
      rw [htrace]
      cases hexit <;> exact .inl rfl

/-! ## The invariant -/

/-- The message has been processed, or it is in a thread that will get to it. -/
def Kept (s : State H C Token) (h : H) (msg : Message Token) : Prop :=
  .processed msg h ∈ s.trace ∨ ((s.threads h).leaving = false ∧ Inside s h msg)

/-- Everything that has been accepted is kept. -/
def AllKept (s : State H C Token) : Prop :=
  ∀ h, ∀ msg ∈ pushes h s.trace, msg.timeout ≤ 0 → Pledged h msg s.trace → Kept s h msg

theorem Kept.step (hkept : Kept s h msg) (hreach : machine.Reachable s)
    (hok : KeepsAccepted s a) (hstep : Dispatch.step s a = some s')
    (hpledged : Pledged h msg s.trace) (htimeout : msg.timeout ≤ 0) : Kept s' h msg := by
  have hflow := step_flow hstep
  obtain ⟨es, htrace⟩ := hflow.trace
  rcases hkept with hprocessed | ⟨hstays, hinside⟩
  · rw [Kept, htrace]
    exact .inl (List.mem_append_right _ hprocessed)
  · rcases hflow.inside hok hpledged htimeout hinside with hprocessed | hafter
    · exact .inl hprocessed
    · refine .inr ⟨?_, hafter⟩
      cases step_view hstep h with
      | other hthread _ =>
          rw [hthread]
          exact hstays
      | call c call o ha _ _ _ _ =>
          subst ha
          exact (call_leaving hstep h).trans hstays
      | thread choice o ha hmove hthread _ =>
          subst ha
          rw [hthread]
          refine hmove.keeps (fun _ => reachable_unstopped hreach) hok hpledged htimeout
            hinside ?_ hstays
          obtain ⟨k, hk, hmsg⟩ := hafter
          rw [contents, hthread] at hmsg
          exact ⟨k, hk, hmsg⟩

theorem AllKept.step (hkept : AllKept s) (hreach : machine.Reachable s)
    (hok : KeepsAccepted s a) (hstep : Dispatch.step s a = some s') : AllKept s' := by
  have hflow := step_flow hstep
  obtain ⟨es, htrace⟩ := hflow.trace
  intro h msg hmsg htimeout hpledged
  have hbefore : Pledged h msg s.trace := (htrace ▸ hpledged).before
  have hold : msg ∈ pushes h s.trace → Kept s' h msg := fun hmem =>
    (hkept h msg hmem htimeout hbefore).step hreach hok hstep hbefore htimeout
  rcases hflow.pushes h with hsame | ⟨c, new, rfl, hcall, harrived, hpushed⟩
  · exact hold (hsame ▸ hmsg)
  · rw [hpushed] at hmsg
    rcases List.mem_cons.mp hmsg with rfl | hmsg
    · -- the message that was just pushed
      refine .inr ⟨?_, .queue, by decide, harrived⟩
      rw [call_leaving hstep h]
      by_contra hleaving
      exact hok (h, _) hcall (eq_true_of_ne_false hleaving) htimeout hbefore
    · exact hold hmsg

theorem reachable_kept (hreach : machine.ReachableUnder KeepsAccepted s) : AllKept s :=
  hreach.invariant_reachable (I := AllKept) (fun _ hs => hs ▸ fun _ _ hmsg => nomatch hmsg)
    fun _ _ _ hbefore hkept hok hstep => hkept.step hbefore.reachable hok hstep

/-- As long as every step keeps what has been accepted, a message without a
timeout whose `enqueue` returned before `stop(true)` was called has been processed
when `execute` has returned. -/
theorem safe_stop_keeps (hreach : machine.ReachableUnder KeepsAccepted s)
    (hexit : (s.threads h).pc = .exited) (howed : msg ∈ owed h s.trace)
    (htimeout : msg.timeout ≤ 0) : .processed msg h ∈ s.trace := by
  rcases reachable_kept hreach h msg (owed_pushed howed) htimeout (.inl howed) with
    hprocessed | ⟨hstays, -⟩
  · exact hprocessed
  · rw [HandlerThread.leaving, hexit] at hstays
    cases hstays

/-- A task is posted before the thread starts, and `stop(true)` comes while the
thread runs it. -/
def stopWhileRunning : List (Action Unit Unit Unit) :=
  List.flatten [
    [.post () () 0], List.replicate 3 (.call ()),
    List.replicate 9 (.thread () .run),
    [.stop () () true], List.replicate 8 (.call ()),
    [.thread () (.finish false)], List.replicate 8 (.thread () .run),
    [.thread () .deliver], List.replicate 7 (.thread () .run)]

theorem safe_stop_keeps_run :
    ∃ s : State Unit Unit Unit,
      machine.execUnder KeepsAccepted initial stopWhileRunning = some s ∧
        (s.threads ()).pc = .exited ∧
        .processed (makeCallableMessage 0 0) () ∈ s.trace := by
  obtain ⟨s, hrun, hexit, howed⟩ : ∃ s : State Unit Unit Unit,
      machine.execUnder KeepsAccepted initial stopWhileRunning = some s ∧
        (s.threads ()).pc = .exited ∧ owed () s.trace = [makeCallableMessage 0 0] :=
    ⟨_, rfl, rfl, rfl⟩
  refine ⟨s, hrun, hexit, safe_stop_keeps (.of_execUnder rfl hrun) hexit ?_ (Int.le_refl 0)⟩
  rw [howed]
  exact List.mem_singleton_self _

/-! ## Without the condition -/

/-- A task is posted, and `stop(true)` comes before the first check of
`execute`. -/
def stopBeforeStart : List (Action Unit Unit Unit) :=
  List.flatten [
    [.post () () 0], List.replicate 3 (.call ()),
    [.stop () () true], List.replicate 2 (.call ()),
    [.thread () .run]]

/-- The thread returns at once and never runs the task. -/
theorem safe_stop_loses :
    ∃ s : State Unit Unit Unit, machine.Reachable s ∧ (s.threads ()).pc = .exited ∧
      makeCallableMessage 0 0 ∈ owed () s.trace ∧
      .processed (makeCallableMessage 0 0) () ∉ s.trace := by
  obtain ⟨s, hrun, hexit, howed, hnot⟩ : ∃ s : State Unit Unit Unit,
      machine.exec initial stopBeforeStart = some s ∧ (s.threads ()).pc = .exited ∧
        owed () s.trace = [makeCallableMessage 0 0] ∧
        .processed (makeCallableMessage 0 0) () ∉ s.trace :=
    ⟨_, rfl, rfl, rfl, by decide⟩
  refine ⟨s, .of_exec rfl hrun, hexit, ?_, hnot⟩
  rw [howed]
  exact List.mem_singleton_self _

end Dispatch
end Cyan
