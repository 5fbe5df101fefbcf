import Cyan.Dispatch.Custody

/-!
# Threads that will still drain their queue

A thread gives its queue up when it returns from its first check, or when it
leaves its loop.  It leaves after the drain that asked for the break has seen
the queue empty, so leaving never begins with a message in hand.
-/

namespace Cyan
namespace Dispatch

open Base Event

variable {H C Token : Type*} [DecidableEq H] [DecidableEq C] [DecidableEq Token]
variable {h : H} {tokens : Token → SerialToken} {t t' : HandlerThread Token}
  {o : Outcome H C Token} {s s' : State H C Token} {a : Action H C Token}
  {msg : Message Token}

/-- The thread has ended its last drain: it is out of its loop, or it is past the
last drain of an iteration that ends with a break. -/
def HandlerThread.leaving (t : HandlerThread Token) : Bool :=
  match t.pc with
  | .onFinalize => true
  | .clearRunning => true
  | .exited => true
  | .isStopping .callback => t.loopDone
  | .isEmpty .callback => t.loopDone
  | .subCount => t.loopDone
  | .resend _ => t.loopDone
  | .invoke => t.loopDone
  | .poll => t.loopDone
  | .process .timer _ => t.loopDone
  | .running .timer _ => t.loopDone
  | .release .timer _ => t.loopDone
  | _ => false

/-- The thread is about to return from the first check of `execute`. -/
def HandlerThread.quitting (t : HandlerThread Token) : Bool :=
  match t.pc with
  | .start => t.stopping
  | _ => false

/-- The thread will still drain its queue. -/
def HandlerThread.willDrain (t : HandlerThread Token) : Bool :=
  !t.leaving && !t.quitting

/-- What the timer wheel calls back for has a timeout. -/
def Timed (t : HandlerThread Token) : Prop :=
  ∀ msg, t.pc = .process .timer msg → 0 < msg.timeout

omit [DecidableEq H] [DecidableEq C] in
theorem ThreadMove.timed (hwheel : ∀ msg ∈ t.timerWheel, 0 < msg.timeout)
    (hmove : ThreadMove h tokens t o) : Timed o.thread := by
  intro m hm
  cases hmove with
  | @subCount a _ _ =>
      have hm : (if a.subCount.2 then Pc.resend .addCount else .invoke) =
        .process .timer m := hm
      split at hm <;> cases hm
  | @resend p _ =>
      have hm : ((t.stepSend p).2.map Pc.resend).getD .invoke = .process .timer m := hm
      cases hnext : (t.stepSend p).2 <;> rw [hnext] at hm <;> cases hm
  | @enqueue d e _ =>
      have hm : ((t.stepEnqueue e).2.map (Pc.enqueue d)).getD (.drain d) =
        .process .timer m := hm
      cases hnext : (t.stepEnqueue e).2 <;> rw [hnext] at hm <;> cases hm
  | @isStopping d _ =>
      have hm : (if t.stopping then .isEmpty d else d.after) = Pc.process .timer m := hm
      split at hm
      · cases hm
      · cases d <;> cases hm
  | @isEmpty d _ => cases d <;> cases hm
  | @stopLoop og _ _ _ => cases og <;> cases hm
  | @release og _ _ => cases og <;> cases hm
  | @finishPayload og _ _ _ _ => cases og <;> cases hm
  | @deliver a _ _ _ =>
      have hm : (if a.callback then Pc.drain .callback else .invoke) =
        .process .timer m := hm
      split at hm <;> cases hm
  | expire _ hmsg =>
      cases hm
      exact hwheel m (List.mem_of_getElem? hmsg)
  | _ => cases hm

theorem timed_step (htimed : Timed (s.threads h)) (hcustody : Custody s)
    (hstep : Dispatch.step s a = some s') : Timed (s'.threads h) := by
  cases step_view hstep h with
  | other hthread _ => exact hthread ▸ htimed
  | thread choice o _ hmove hthread _ => exact hthread ▸ hmove.timed (hcustody.wheel h)
  | call c call o _ _ hmove hthread _ =>
      intro msg hmsg
      rw [hthread, hmove.frame.pc] at hmsg
      exact htimed msg hmsg

theorem reachable_timed (hreach : machine.Reachable s) (h : H) : Timed (s.threads h) :=
  hreach.invariant_reachable (I := fun s => Timed (s.threads h))
    (fun _ hs => hs ▸ fun _ hmsg => nomatch hmsg)
    fun _ _ _ hbefore htimed _ hstep => timed_step htimed (reachable_custody hbefore) hstep

/-- A stop message is never processed by the timer wheel. -/
theorem reachable_unstopped (hreach : machine.Reachable s) {h : H}
    (hpc : (s.threads h).pc = .process .timer msg) : msg.type ≠ .stop := by
  intro htype
  have hmem : msg ∈ contents s (.spot h .acquired) := by
    show msg ∈ (s.threads h).pc.holds .acquired
    rw [hpc]
    exact List.mem_singleton_self msg
  exact (reachable_custody hreach).stop _ msg hmem htype (reachable_timed hreach h msg hpc)

/-- How a thread comes to be leaving. -/
inductive ThreadMove.Leaves (t t' : HandlerThread Token) : Prop
  | quits : t.quitting = true → t'.queue = t.queue → Leaves t t'
  | empty : t'.queue = [] → (∀ k, t'.pc.holds k = []) → Leaves t t'
  | left : t.leaving = true → t'.queue = t.queue → Leaves t t'

section

omit [DecidableEq H] [DecidableEq C]

theorem ThreadMove.leaves
    (htimer : ∀ msg, t.pc = .process .timer msg → msg.type ≠ .stop)
    (hmove : ThreadMove h tokens t o) (hleaving : o.thread.leaving = true) :
    ThreadMove.Leaves t o.thread := by
  have hold : ∀ {k : Pc Token}, t.pc = k →
      ({ t with pc := k } : HandlerThread Token).leaving = true → t.leaving = true := by
    rintro _ rfl hleaving
    exact hleaving
  cases hmove with
  | quit hpc hstop =>
      refine .quits ?_ rfl
      rw [HandlerThread.quitting, hpc]
      exact hstop
  -- the loop ends with the iteration in which the break was requested
  | leave hpc hdone => exact .left (by rw [HandlerThread.leaving, hpc]; exact hdone) rfl
  | onFinalize hpc => exact .left (by rw [HandlerThread.leaving, hpc]) rfl
  | clearRunning hpc => exact .left (by rw [HandlerThread.leaving, hpc]) rfl
  | iterate hpc hdone =>
      have hleaving : t.loopDone = true := hleaving
      rw [hdone] at hleaving
      cases hleaving
  | @subCount a hpc _ =>
      refine .left ?_ rfl
      have hdone : t.loopDone = true := by
        have hleaving : (HandlerThread.leaving ({ t with queuedEvent := some a.subCount.1 }.goto
          (if a.subCount.2 then Pc.resend .addCount else .invoke))) = true := hleaving
        split at hleaving <;> exact hleaving
      rw [HandlerThread.leaving, hpc]
      exact hdone
  | @resend p hpc =>
      refine .left ?_ (stepSend_queue t p)
      have hdone : (t.stepSend p).1.loopDone = true := by
        have hleaving : (HandlerThread.leaving ((t.stepSend p).1.goto
          (((t.stepSend p).2.map Pc.resend).getD .invoke))) = true := hleaving
        cases hnext : (t.stepSend p).2 <;> rw [hnext] at hleaving <;> exact hleaving
      rw [HandlerThread.leaving, hpc]
      exact (stepSend_frame t p).loopDone ▸ hdone
  -- the drain ends here, and it ends with an empty queue and empty hands
  | drained hpc hnil => exact .empty hnil fun k => by cases k <;> rfl
  | @enqueue d e _ =>
      have hdrain : HandlerThread.leaving ((t.stepEnqueue e).1.goto
          (((t.stepEnqueue e).2.map (Pc.enqueue d)).getD (.drain d))) = false := by
        cases (t.stepEnqueue e).2 <;> rfl
      exact absurd (hdrain.symm.trans hleaving) Bool.false_ne_true
  | @isStopping d hpc =>
      have hdone : d = .callback ∧ t.loopDone = true := by
        have hleaving : HandlerThread.leaving
          (t.goto (if t.stopping then .isEmpty d else d.after)) = true := hleaving
        cases d <;> split at hleaving <;> first
          | exact ⟨rfl, hleaving⟩
          | cases hleaving
      obtain ⟨rfl, hdone⟩ := hdone
      exact .left (by rw [HandlerThread.leaving, hpc]; exact hdone) rfl
  | @isEmpty d hpc =>
      cases d with
      -- a break that is requested before `ev_run` does not count
      | execute => cases hleaving
      | callback =>
          have hdone : (t.loopDone || t.queue.isEmpty) = true := hleaving
          rcases Bool.or_eq_true_iff.mp hdone with hdone | hnil
          · exact .left (by rw [HandlerThread.leaving, hpc]; exact hdone) rfl
          · exact .empty (List.isEmpty_iff.mp hnil) fun k => by cases k <;> rfl
  | @stopLoop og msg hpc htype =>
      cases og with
      -- after a stop message the drain goes on to the end of the queue
      | queue d => cases hleaving
      | timer => exact absurd htype (htimer msg hpc)
  | @begin og _ hpc _ =>
      cases og with
      | queue d => cases hleaving
      | timer => exact .left (by rw [HandlerThread.leaving, hpc]; exact hleaving) rfl
  | @release og _ hpc =>
      cases og with
      | queue d => cases hleaving
      | timer => exact .left (by rw [HandlerThread.leaving, hpc]; exact hleaving) rfl
  | @finish og _ _ hpc _ =>
      cases og with
      | queue d => cases hleaving
      | timer => exact .left (by rw [HandlerThread.leaving, hpc]; exact hleaving) rfl
  | @finishPayload og _ _ hpc _ =>
      cases og with
      | queue d => cases hleaving
      | timer => exact .left (by rw [HandlerThread.leaving, hpc]; exact hleaving) rfl
  | @deliver a hpc _ _ =>
      refine .left ?_ rfl
      have hdone : t.loopDone = true := by
        have hleaving : HandlerThread.leaving ({ t with queuedEvent := some a.deliver }.goto
          (if a.callback then Pc.drain .callback else .invoke)) = true := hleaving
        split at hleaving
        · cases hleaving
        · exact hleaving
      rw [HandlerThread.leaving, hpc]
      exact hdone
  | expire hpc _ =>
      refine .left ?_ rfl
      rcases hpc with hpc | hpc <;> rw [HandlerThread.leaving, hpc] <;> exact hleaving
  | _ => cases hleaving

/-- No step goes back to the first check. -/
theorem ThreadMove.started (hmove : ThreadMove h tokens t o) :
    o.thread.quitting = false := by
  cases hmove with
  | @subCount a _ _ =>
      show HandlerThread.quitting (HandlerThread.goto _
        (if a.subCount.2 then Pc.resend .addCount else .invoke)) = false
      split <;> rfl
  | @resend p _ =>
      show HandlerThread.quitting ((t.stepSend p).1.goto
        (((t.stepSend p).2.map Pc.resend).getD .invoke)) = false
      cases (t.stepSend p).2 <;> rfl
  | @enqueue d e _ =>
      show HandlerThread.quitting ((t.stepEnqueue e).1.goto
        (((t.stepEnqueue e).2.map (Pc.enqueue d)).getD (.drain d))) = false
      cases (t.stepEnqueue e).2 <;> rfl
  | @isStopping d _ =>
      show HandlerThread.quitting (t.goto (if t.stopping then .isEmpty d else d.after)) = false
      cases d <;> split <;> rfl
  | @isEmpty d _ => cases d <;> rfl
  | @stopLoop og _ _ _ => cases og <;> rfl
  | @release og _ _ => cases og <;> rfl
  | @finishPayload og _ _ _ _ => cases og <;> rfl
  | @deliver a _ _ _ =>
      show HandlerThread.quitting (HandlerThread.goto _
        (if a.callback then Pc.drain .callback else .invoke)) = false
      split <;> rfl
  | _ => rfl

end

section

omit [DecidableEq Token]

theorem leaving_eq (hpc : t'.pc = t.pc) (hdone : t'.loopDone = t.loopDone) :
    t'.leaving = t.leaving := by
  rw [HandlerThread.leaving, HandlerThread.leaving, hpc, hdone]

/-- Whether a thread will drain its queue is a matter of where it is, of a
requested break, and of `stopping_` at the first check. -/
theorem willDrain_eq (hpc : t'.pc = t.pc) (hdone : t'.loopDone = t.loopDone)
    (hstop : t.pc = .start → t'.stopping = t.stopping) : t'.willDrain = t.willDrain := by
  have hquit : t'.quitting = t.quitting := by
    rw [HandlerThread.quitting, HandlerThread.quitting, hpc]
    cases hstart : t.pc <;> first | rfl | exact hstop hstart
  rw [HandlerThread.willDrain, HandlerThread.willDrain, leaving_eq hpc hdone, hquit]

end

end Dispatch
end Cyan
