import Cyan.Dispatch.SafeStop
import Cyan.Dispatch.StopLoop

/-!
# Messages are kept, run once and run in order

What becomes of the messages that `enqueue` accepts on one handler thread.

* `one_station`: while the thread is not stopping, an accepted message is with its
  producer, in one spot of the thread, or done.
* `Settled` and `RunsOnce`: a message leaves the system when it has been
  processed, and the user's code runs for one message after the other.
* `InOrder`: the messages without a timeout and without a token that have been
  started, that are in the hands of `process_queue` and that are in the queue make
  up the messages that were pushed, in their order.
* `messages_conserved` puts them together.
-/

namespace Cyan
namespace Dispatch

open Base

variable {H C Token : Type*} [DecidableEq H] [DecidableEq C] [DecidableEq Token]
variable {g h : H} {tokens : Token → SerialToken} {t t' : HandlerThread Token}
  {o : Outcome H C Token} {s s' : State H C Token} {a : Action H C Token}
  {msg : Message Token} {es tr : List (Mark H C Token)}

/-! ## What the trace says -/

/-- The messages whose callable or `on_message` has begun on thread `h`. -/
def begun (h : H) (tr : List (Mark H C Token)) : List (Message Token) :=
  tr.filterMap fun
    | .started msg g => if g = h then some msg else none
    | _ => none

/-- The messages that thread `h` has processed. -/
def processed (h : H) (tr : List (Mark H C Token)) : List Nat :=
  tr.filterMap fun
    | .processed msg g => if g = h then some msg.op else none
    | _ => none

/-- The messages that have been processed on any thread. -/
def settled (tr : List (Mark H C Token)) : List Nat :=
  tr.filterMap fun
    | .processed msg _ => some msg.op
    | _ => none

/-- On thread `h` a message begins only when all that began before it have been
processed. -/
def OneAtATime (h : H) : List (Mark H C Token) → Prop
  | [] => True
  | .started _ g :: tr =>
      (g = h → ∀ msg ∈ begun h tr, msg.op ∈ processed h tr) ∧ OneAtATime h tr
  | _ :: tr => OneAtATime h tr

section

omit [DecidableEq C] [DecidableEq Token]

theorem begun_append (es tr : List (Mark H C Token)) :
    begun h (es ++ tr) = begun h es ++ begun h tr :=
  List.filterMap_append

theorem processed_append (es tr : List (Mark H C Token)) :
    processed h (es ++ tr) = processed h es ++ processed h tr :=
  List.filterMap_append

/-- What a thread has processed has been processed. -/
theorem processed_sublist (h : H) (tr : List (Mark H C Token)) :
    (processed h tr).Sublist (settled tr) := by
  induction tr with
  | nil => exact .slnil
  | cons e tr ih =>
      cases e with
      | processed msg g =>
          by_cases hgh : g = h
          · subst hgh
            simpa [processed, settled] using ih
          · simpa [processed, settled, hgh] using ih.cons msg.op
      | _ => exact ih

end

/-! ## Every message is settled once -/

/-- A message that has been processed is nowhere any more. -/
structure Settled (s : State H C Token) : Prop where
  once : (settled s.trace).Nodup
  old : ∀ op ∈ settled s.trace, op < s.trace.length
  away : ∀ p, ∀ msg ∈ contents s p, msg.op ∉ settled s.trace

section

omit [DecidableEq H] [DecidableEq C] [DecidableEq Token]

/-- Marks of which none says that a message has been processed. -/
theorem settled_skip (hskip : ∀ e ∈ es, ∀ msg g, e ≠ .processed msg g)
    (tr : List (Mark H C Token)) : settled (es ++ tr) = settled tr :=
  filterMap_skip (fun e he => by
    have hskip := hskip e he
    cases e with
    | processed msg g => exact absurd rfl (hskip msg g)
    | _ => rfl) tr

theorem settled_plain (hplain : ∀ e ∈ es, e.Plain) (tr : List (Mark H C Token)) :
    settled (es ++ tr) = settled tr :=
  settled_skip (fun e he msg g heq => by
    subst heq
    exact hplain _ he) tr

end

omit [DecidableEq H] [DecidableEq C] in
/-- A step settles nothing, or it settles the message that leaves. -/
theorem Flow.settled (hflow : Flow s a s') :
    settled s'.trace = settled s.trace ∨
      ∃ p msg, Gone (contents s) (contents s') p msg ∧
        settled s'.trace = msg.op :: settled s.trace := by
  cases hflow with
  | stay es _ hplain _ htrace => exact .inl (htrace ▸ settled_plain hplain _)
  | come c new e _ _ _ _ hplain _ htrace =>
      rw [htrace]
      refine .inl (settled_plain (fun e' he' => ?_) _)
      rw [List.mem_singleton.mp he']
      exact hplain
  | draw c g old tok _ _ _ _ htrace => exact .inl (htrace ▸ rfl)
  | went es p q moved _ hpass _ htrace =>
      rw [htrace]
      cases hpass <;> exact .inl rfl
  | gone es tokens p left hgone hexit _ htrace =>
      rw [htrace]
      cases hexit with
      | refusePost => exact .inl rfl
      | refuse => exact .inl rfl
      | stopLoop => exact .inr ⟨_, _, hgone, rfl⟩
      | finishPayload => exact .inr ⟨_, _, hgone, rfl⟩
      | release => exact .inr ⟨_, _, hgone, rfl⟩

theorem Settled.step (hsettled : Settled s) (hcustody : Custody s)
    (hstep : Dispatch.step s a = some s') : Settled s' := by
  have hflow := step_flow hstep
  obtain ⟨es, htrace⟩ := hflow.trace
  have hlength : s.trace.length ≤ s'.trace.length := by
    rw [htrace, List.length_append]
    omega
  -- no message comes back under the identity of a settled one
  have haway : ∀ p, ∀ msg ∈ contents s' p, msg.op ∉ Dispatch.settled s.trace := by
    intro p msg hmsg
    rcases hflow.origin hmsg with ⟨q, hq⟩ | ⟨hnew, -, -, -⟩ | ⟨c, g, old, token, -, -, hold, rfl⟩
    · exact hsettled.away q msg hq
    · intro hop
      have := hsettled.old _ hop
      omega
    · exact hsettled.away (.caller c) old hold
  rcases hflow.settled with hsame | ⟨p, msg, hgone, hmore⟩
  · exact ⟨hsame ▸ hsettled.once,
      fun op hop => (hsettled.old op (hsame ▸ hop)).trans_le hlength, hsame ▸ haway⟩
  · have hmsg := hgone.mem_source
    refine ⟨?_, fun op hop => ?_, fun q other hother hop => ?_⟩
    · rw [hmore]
      exact List.nodup_cons.mpr ⟨hsettled.away p msg hmsg, hsettled.once⟩
    · rw [hmore] at hop
      rcases List.mem_cons.mp hop with rfl | hop
      · exact (hcustody.old p msg hmsg).trans_le hlength
      · exact (hsettled.old op hop).trans_le hlength
    · rw [hmore] at hop
      rcases List.mem_cons.mp hop with heq | hop
      · exact hcustody.sole.key_ne_of_gone hgone hother heq
      · exact haway q other hother hop

theorem reachable_settled (hreach : machine.Reachable s) : Settled s := by
  refine hreach.invariant_reachable (I := Settled) ?_ ?_
  · rintro s rfl
    exact ⟨List.nodup_nil, fun _ hop => (nomatch hop), fun _ _ _ hop => nomatch hop⟩
  · intro s a s' hbefore hsettled _ hstep
    exact hsettled.step (reachable_custody hbefore) hstep

/-! ## Every accepted message has a place -/

/-- The message is in a spot of the thread, or the thread has processed it. -/
def Placed (s : State H C Token) (h : H) (msg : Message Token) : Prop :=
  msg.op ∈ processed h s.trace ∨ ∃ k, msg ∈ contents s (.spot h k)

/-- A step that processes nothing keeps what has been processed. -/
theorem processed_mono {op : Nat} (hop : op ∈ processed h s.trace)
    (hstep : Dispatch.step s a = some s') : op ∈ processed h s'.trace := by
  obtain ⟨es, htrace⟩ := (step_flow hstep).trace
  rw [htrace, processed_append]
  exact List.mem_append_right _ hop

omit [DecidableEq C] in
/-- A message leaves its thread only when it has been processed, as long as the
thread is not stopping. -/
theorem Flow.placed (hflow : Flow s a s') (hrunning : (s.threads h).stopping = false)
    {k : Spot} (hmsg : msg ∈ contents s (.spot h k)) :
    msg.op ∈ processed h s'.trace ∨ ∃ k', msg ∈ contents s' (.spot h k') := by
  cases hflow with
  | stay _ hcontents _ _ _ => exact .inr ⟨k, (hcontents _).symm ▸ hmsg⟩
  | come c _ _ hcome _ _ _ _ _ _ => exact .inr ⟨k, hcome.mem_after hmsg⟩
  | draw c g old tok _ _ hbecame _ _ =>
      have hspot : contents s' (.spot h k) = contents s (.spot h k) :=
        hbecame.others _ fun heq => nomatch heq
      exact .inr ⟨k, hspot.symm ▸ hmsg⟩
  | went _ p q moved hwent hpass _ _ =>
      rcases hwent.mem_after_or_eq hmsg with hstays | ⟨hp, rfl⟩
      · exact .inr ⟨k, hstays⟩
      · have harrived := hwent.mem_target
        cases hpass with
        | post => cases hp
        | postStop => cases hp
        -- every other way leads from a spot of a thread to one of the same thread
        | _ =>
            cases hp
            exact .inr ⟨_, harrived⟩
  | gone es tokens p left hgone hexit _ htrace =>
      rcases hgone.mem_after_or_eq hmsg with hstays | ⟨hp, rfl⟩
      · exact .inr ⟨k, hstays⟩
      · cases hexit with
        | refusePost => cases hp
        | refuse g choice d _ _ _ hstop =>
            cases hp
            rw [hrunning] at hstop
            cases hstop
        | _ =>
            cases hp
            rw [htrace, processed_append]
            exact .inl (List.mem_append_left _ (by simp [processed]))

/-- The thread does not come back from stopping. -/
theorem stopping_back (hstep : Dispatch.step s a = some s')
    (hrunning : (s'.threads h).stopping = false) : (s.threads h).stopping = false := by
  cases step_view hstep h with
  | other hthread _ => exact hthread ▸ hrunning
  | thread choice o _ hmove hthread _ =>
      rw [hthread, hmove.stopping] at hrunning
      exact hrunning
  | call c call o _ _ hmove hthread _ =>
      rw [hthread] at hrunning
      cases hmove with
      | setStopping => cases hrunning
      | enqueue e e' _ => exact (stepEnqueue_frame _ e).stopping ▸ hrunning
      | enqueued e _ => exact (stepEnqueue_frame _ e).stopping ▸ hrunning
      | _ => exact hrunning

/-- While a thread is not stopping, what has been pushed to it has a place. -/
theorem reachable_placed (hreach : machine.Reachable s)
    (hrunning : (s.threads h).stopping = false) :
    ∀ msg ∈ pushes h s.trace, Placed s h msg := by
  refine hreach.invariant_within
    (W := fun s => (s.threads h).stopping = false)
    (I := fun s => ∀ msg ∈ pushes h s.trace, Placed s h msg)
    (fun s a s' hstep hafter => stopping_back hstep hafter) ?_ ?_ hrunning
  · rintro s rfl msg hmsg
    cases hmsg
  · intro s a s' hplaced _ hstep hafter msg hmsg
    have hflow := step_flow hstep
    have hbefore := stopping_back hstep hafter
    have hold : msg ∈ pushes h s.trace → Placed s' h msg := by
      intro hmem
      rcases hplaced msg hmem with hdone | ⟨k, hk⟩
      · exact .inl (processed_mono hdone hstep)
      · exact hflow.placed hbefore hk
    rcases hflow.pushes h with hsame | ⟨c, new, -, -, harrived, hpushed⟩
    · exact hold (hsame ▸ hmsg)
    · rw [hpushed] at hmsg
      rcases List.mem_cons.mp hmsg with rfl | hmem
      · exact .inr ⟨.queue, harrived⟩
      · exact hold hmem

/-- The places of an accepted message. -/
inductive Station (C : Type*)
  /-- the hands of the producer, behind the check of `enqueue` -/
  | producer (c : C)
  /-- the queue, the timer wheel or the hands of the thread -/
  | spot (k : Spot)
  /-- processed -/
  | done
  deriving DecidableEq, Repr

/-- The message that a call has still to push to thread `h`. -/
def Call.toPush : Call Token → List (Message Token)
  | .enqueue (.push msg) => [msg]
  | _ => []

/-- The messages of thread `h`, by their places. -/
def stationed (s : State H C Token) (h : H) : Station C → List Nat
  | .producer c => (s.callers c).elim [] fun x =>
      if x.1 = h then x.2.toPush.map Message.op else []
  | .spot k => (contents s (.spot h k)).map Message.op
  | .done => processed h s.trace

/-- `enqueue` has accepted the message for thread `h`. -/
def Accepted (s : State H C Token) (h : H) (msg : Message Token) : Prop :=
  msg ∈ pushes h s.trace ∨ ∃ c, s.callers c = some (h, .enqueue (.push msg))

omit [DecidableEq C] [DecidableEq Token] in
/-- What a station holds, apart from the messages that are done, is in the
contents. -/
theorem stationed_contents {op : Nat} {p : Station C} (hop : op ∈ stationed s h p) :
    (p = .done ∧ op ∈ processed h s.trace) ∨
      (∃ c, p = .producer c ∧ ∃ msg ∈ contents s (.caller c), msg.op = op) ∨
      ∃ k, p = .spot k ∧ ∃ msg ∈ contents s (.spot h k), msg.op = op := by
  cases p with
  | done => exact .inl ⟨rfl, hop⟩
  | spot k =>
      obtain ⟨msg, hmsg, rfl⟩ := List.mem_map.mp hop
      exact .inr (.inr ⟨k, rfl, msg, hmsg, rfl⟩)
  | producer c =>
      refine .inr (.inl ⟨c, rfl, ?_⟩)
      simp only [stationed] at hop
      cases hcall : s.callers c with
      | none => simp [hcall] at hop
      | some x =>
          obtain ⟨g, call⟩ := x
          simp only [hcall, Option.elim_some] at hop
          split at hop
          · obtain ⟨msg, hmsg, rfl⟩ := List.mem_map.mp hop
            refine ⟨msg, ?_, rfl⟩
            rw [contents_caller hcall]
            cases call with
            | enqueue e =>
                cases e with
                | push msg' => exact hmsg
                | _ => cases hmsg
            | _ => cases hmsg
          · cases hop

/-- No message is at two stations. -/
theorem stationed_unique (hreach : machine.Reachable s) {op : Nat} {p q : Station C}
    (hp : op ∈ stationed s h p) (hq : op ∈ stationed s h q) : p = q := by
  have hsole := (reachable_custody hreach).sole
  have hsettled := reachable_settled hreach
  have haway : ∀ r, ∀ msg ∈ contents s r, msg.op ∉ processed h s.trace :=
    fun r msg hmsg hop =>
      hsettled.away r msg hmsg ((processed_sublist h _).subset hop)
  rcases stationed_contents hp with
    ⟨rfl, hdone⟩ | ⟨c, rfl, msg, hmsg, rfl⟩ | ⟨k, rfl, msg, hmsg, rfl⟩ <;>
  rcases stationed_contents hq with
    ⟨rfl, hdone'⟩ | ⟨c', rfl, msg', hmsg', hop⟩ | ⟨k', rfl, msg', hmsg', hop⟩
  · rfl
  · exact absurd hdone (hop ▸ haway _ msg' hmsg')
  · exact absurd hdone (hop ▸ haway _ msg' hmsg')
  · exact absurd hdone' (haway _ msg hmsg)
  · cases hsole.sole _ _ msg msg' hmsg hmsg' hop.symm
    rfl
  · cases hsole.sole _ _ msg msg' hmsg hmsg' hop.symm
  · exact absurd hdone' (haway _ msg hmsg)
  · cases hsole.sole _ _ msg msg' hmsg hmsg' hop.symm
  · cases hsole.sole _ _ msg msg' hmsg hmsg' hop.symm
    rfl

/-- No message is at a station twice. -/
theorem stationed_nodup (hreach : machine.Reachable s) (p : Station C) :
    (stationed s h p).Nodup := by
  cases p with
  | done => exact (reachable_settled hreach).once.sublist (processed_sublist h _)
  | spot k => exact (reachable_custody hreach).sole.nodup _
  | producer c =>
      simp only [stationed]
      cases s.callers c with
      | none => exact List.nodup_nil
      | some x =>
          obtain ⟨g, call⟩ := x
          simp only [Option.elim_some]
          split
          · cases call with
            | enqueue e => cases e <;> simp [Call.toPush]
            | _ => exact List.nodup_nil
          · exact List.nodup_nil

/-- An accepted message is at exactly one station. -/
theorem one_station (hreach : machine.Reachable s)
    (hrunning : (s.threads h).stopping = false) (haccepted : Accepted s h msg) :
    ∃! p, msg.op ∈ stationed s h p := by
  have hsome : ∃ p, msg.op ∈ stationed s h p := by
    rcases haccepted with hpushed | ⟨c, hcall⟩
    · rcases reachable_placed hreach hrunning msg hpushed with hdone | ⟨k, hk⟩
      · exact ⟨.done, hdone⟩
      · exact ⟨.spot k, List.mem_map_of_mem hk⟩
    · refine ⟨.producer c, ?_⟩
      simp [stationed, hcall, Call.toPush]
  obtain ⟨p, hp⟩ := hsome
  exact ⟨p, hp, fun q hq => stationed_unique hreach hq hp⟩

/-! ## One message after the other -/

section

omit [DecidableEq C] [DecidableEq Token]

theorem NoStart.begun (hnone : NoStart h es) (tr : List (Mark H C Token)) :
    begun h (es ++ tr) = begun h tr :=
  filterMap_skip (fun e he => by
    have hnone := hnone e he
    cases e with
    | started msg g =>
        have hgh : g ≠ h := fun heq => hnone msg (heq ▸ rfl)
        exact if_neg hgh
    | _ => rfl) tr

theorem NoStart.oneAtATime (hnone : NoStart h es) (hbefore : OneAtATime h tr) :
    OneAtATime h (es ++ tr) := by
  induction es with
  | nil => exact hbefore
  | cons e es ih =>
      have hrest := ih fun e' he' => hnone e' (List.mem_cons_of_mem _ he')
      cases e with
      | started msg g =>
          refine ⟨fun hgh => ?_, hrest⟩
          exact absurd (hgh ▸ rfl) (hnone _ (List.mem_cons_self ..) msg)
      | _ => exact hrest

end

/-- The user's code of the message is running, or its token is being released. -/
def UnderWay (s : State H C Token) (h : H) (msg : Message Token) : Prop :=
  msg ∈ contents s (.spot h .running) ∨ msg ∈ contents s (.spot h .ended)

omit [DecidableEq C] in
/-- A message under way stays so until it has been processed. -/
theorem Flow.underWay (hflow : Flow s a s') (hway : UnderWay s h msg) :
    msg.op ∈ processed h s'.trace ∨ UnderWay s' h msg := by
  obtain ⟨k, hk, hmsg⟩ : ∃ k, (k = .running ∨ k = .ended) ∧
      msg ∈ contents s (.spot h k) := by
    rcases hway with hmsg | hmsg
    · exact ⟨_, .inl rfl, hmsg⟩
    · exact ⟨_, .inr rfl, hmsg⟩
  have hstill : msg ∈ contents s' (.spot h k) → UnderWay s' h msg := by
    rcases hk with rfl | rfl
    · exact .inl
    · exact .inr
  cases hflow with
  | stay _ hcontents _ _ _ => exact .inr (hstill ((hcontents _).symm ▸ hmsg))
  | come c _ _ hcome _ _ _ _ _ _ => exact .inr (hstill (hcome.mem_after hmsg))
  | draw c g old tok _ _ hbecame _ _ =>
      have hspot : contents s' (.spot h k) = contents s (.spot h k) :=
        hbecame.others _ fun heq => nomatch heq
      exact .inr (hstill (hspot.symm ▸ hmsg))
  | went _ p q moved hwent hpass _ _ =>
      rcases hwent.mem_after_or_eq hmsg with hstays | ⟨hp, rfl⟩
      · exact .inr (hstill hstays)
      · have harrived := hwent.mem_target
        cases hpass with
        | finish g _ threw =>
            cases hp
            exact .inr (.inr harrived)
        | post => cases hp
        | postStop => cases hp
        | _ =>
            cases hp
            rcases hk with hk | hk <;> cases hk
  | gone es tokens p left hgone hexit _ htrace =>
      rcases hgone.mem_after_or_eq hmsg with hstays | ⟨hp, rfl⟩
      · exact .inr (hstill hstays)
      · cases hexit with
        | refusePost => cases hp
        | refuse =>
            cases hp
            rcases hk with hk | hk <;> cases hk
        | _ =>
            cases hp
            rw [htrace, processed_append]
            exact .inl (List.mem_append_left _ (by simp [processed]))

omit [DecidableEq H] [DecidableEq C] [DecidableEq Token] in
/-- In front of `process()` the thread is not in the middle of another message. -/
theorem underWay_not_acquired {msg' : Message Token}
    (hmsg : msg ∈ contents s (.spot h .acquired)) : ¬ UnderWay s h msg' := by
  have hmsg : msg ∈ (s.threads h).pc.holds .acquired := hmsg
  intro hway
  cases hpc : (s.threads h).pc with
  | process og held =>
      rcases hway with hmem | hmem
      · have hmem : msg' ∈ (s.threads h).pc.holds .running := hmem
        rw [hpc] at hmem
        cases hmem
      · have hmem : msg' ∈ (s.threads h).pc.holds .ended := hmem
        rw [hpc] at hmem
        cases hmem
  | enqueue d e => cases e <;> rw [hpc] at hmsg <;> cases hmsg
  | _ => rw [hpc] at hmsg; cases hmsg

/-- What has begun on the thread has been processed or is under way, nothing has
begun twice, and nothing has begun beside something else. -/
structure RunsOnce (h : H) (s : State H C Token) : Prop where
  known : ∀ msg ∈ begun h s.trace, msg.op ∈ processed h s.trace ∨ UnderWay s h msg
  once : ((begun h s.trace).map Message.op).Nodup
  alone : OneAtATime h s.trace

theorem RunsOnce.step (hruns : RunsOnce h s) (hsettled : Settled s)
    (hstep : Dispatch.step s a = some s') : RunsOnce h s' := by
  have hflow := step_flow hstep
  have hknown : ∀ msg ∈ begun h s.trace,
      msg.op ∈ processed h s'.trace ∨ UnderWay s' h msg := by
    intro msg hmsg
    rcases hruns.known msg hmsg with hdone | hway
    · exact .inl (processed_mono hdone hstep)
    · exact hflow.underWay hway
  rcases hflow.begins h with ⟨es, htrace, hnone⟩ | ⟨msg, hwent, htrace⟩
  · have hsame : begun h s'.trace = begun h s.trace := by
      rw [htrace]
      exact hnone.begun _
    refine ⟨hsame ▸ hknown, hsame ▸ hruns.once, ?_⟩
    rw [htrace]
    exact hnone.oneAtATime hruns.alone
  · have hacquired := hwent.mem_source
    -- nothing else is under way, so all that has begun has been processed
    have hdone : ∀ msg' ∈ begun h s.trace, msg'.op ∈ processed h s.trace := by
      intro msg' hmsg'
      rcases hruns.known msg' hmsg' with hdone | hway
      · exact hdone
      · exact absurd hway (underWay_not_acquired hacquired)
    have hbegun : begun h s'.trace = msg :: begun h s.trace := by
      rw [htrace, begun_append]
      simp [begun]
    refine ⟨fun msg' hmsg' => ?_, ?_, ?_⟩
    · rw [hbegun] at hmsg'
      rcases List.mem_cons.mp hmsg' with rfl | hmsg'
      · exact .inr (.inl hwent.mem_target)
      · exact hknown msg' hmsg'
    · rw [hbegun]
      refine List.nodup_cons.mpr ⟨fun hmem => ?_, hruns.once⟩
      obtain ⟨msg', hmsg', hop⟩ := List.mem_map.mp hmem
      exact hsettled.away _ msg hacquired
        ((processed_sublist h _).subset (hop ▸ hdone msg' hmsg'))
    · rw [htrace]
      exact ⟨fun _ => hdone, hruns.alone⟩

theorem reachable_runsOnce (hreach : machine.Reachable s) (h : H) : RunsOnce h s := by
  refine hreach.invariant_reachable (I := RunsOnce h) ?_ ?_
  · rintro s rfl
    exact ⟨fun _ hmsg => (nomatch hmsg), List.nodup_nil, trivial⟩
  · intro s a s' hbefore hruns _ hstep
    exact hruns.step (reachable_settled hbefore) hstep

/-! ## Plain messages keep their order -/

/-- A message of `send` or `post` without a timeout and without a token. -/
def Message.plain (msg : Message Token) : Bool :=
  msg.type ≠ .stop && msg.serialToken.isNone && !(0 < msg.timeout)

/-- The message between the queue and the user's code. -/
def Pc.inHand : Pc Token → List (Message Token)
  | .dispatch _ msg => [msg]
  | .process _ msg => [msg]
  | _ => []

/-- The message that `process_queue` puts back. -/
def Pc.deferred : Pc Token → List (Message Token)
  | .enqueue _ (.isStopping msg) => [msg]
  | .enqueue _ (.push msg) => [msg]
  | _ => []

section

omit [DecidableEq Token]

@[simp] theorem Drain.after_inHand (d : Drain) : (d.after : Pc Token).inHand = [] := by
  cases d <;> rfl

@[simp] theorem Origin.after_inHand (og : Origin) : (og.after : Pc Token).inHand = [] := by
  cases og <;> rfl

@[simp] theorem Drain.after_deferred (d : Drain) :
    (d.after : Pc Token).deferred = [] := by
  cases d <;> rfl

@[simp] theorem Origin.after_deferred (og : Origin) :
    (og.after : Pc Token).deferred = [] := by
  cases og <;> rfl

theorem plain_of_timeout (htimeout : 0 < msg.timeout) : msg.plain = false := by
  simp [Message.plain, htimeout]

theorem plain_of_stop (htype : msg.type = .stop) : msg.plain = false := by
  simp [Message.plain, htype]

/-- A message that has to wait for its turn has a token. -/
theorem plain_of_refused (hrefused : msg.tryAcquire tokens = false) :
    msg.plain = false := by
  cases htoken : msg.serialToken with
  | none => simp [Message.tryAcquire, htoken] at hrefused
  | some token => simp [Message.plain, htoken]

end

/-- What a step of the thread does to the messages that are lined up, and to the
messages that are put back. -/
structure KeepsLine (t : HandlerThread Token) (o : Outcome H C Token) (h : H) : Prop where
  line : (o.thread.queue.reverse ++ o.thread.pc.inHand ++ begun h o.marks).filter
      Message.plain =
    (t.queue.reverse ++ t.pc.inHand).filter Message.plain
  deferred : ∀ msg ∈ o.thread.pc.deferred, msg.plain = false

section

omit [DecidableEq C] [DecidableEq Token]

/-- A step that neither takes from the queue nor has a message in hand. -/
theorem KeepsLine.idle (hqueue : o.thread.queue = t.queue)
    (hbefore : t.pc.inHand = []) (hafter : o.thread.pc.inHand = [])
    (hmarks : begun h o.marks = []) (hdeferred : o.thread.pc.deferred = []) :
    KeepsLine t o h where
  line := by simp only [hqueue, hbefore, hafter, hmarks, List.append_nil]
  deferred msg hmsg := by
    rw [hdeferred] at hmsg
    cases hmsg

/-- The stages of `enqueue` inside `process_queue`. -/
theorem stepEnqueue_keepsLine {d : Drain} {e : Enqueue Token} (hpc : t.pc = .enqueue d e)
    (hdeferred : ∀ msg ∈ t.pc.deferred, msg.plain = false) :
    KeepsLine t (.of (H := H) (C := C) tokens ((t.stepEnqueue e).1.goto
      (((t.stepEnqueue e).2.map (.enqueue d)).getD (.drain d))) []) h := by
  rw [hpc] at hdeferred
  cases e with
  | isStopping msg =>
      have hmsg := hdeferred msg (List.mem_singleton_self msg)
      cases hstop : t.stopping with
      | true =>
          refine .idle rfl (by rw [hpc]; rfl) ?_ rfl ?_ <;>
            simp [Outcome.of, HandlerThread.goto, HandlerThread.stepEnqueue, hstop,
              Pc.inHand, Pc.deferred]
      | false =>
          constructor
          · simp [Outcome.of, HandlerThread.goto, HandlerThread.stepEnqueue, hstop,
              Pc.inHand, hpc, begun]
          · intro msg' hmsg'
            simp [Outcome.of, HandlerThread.goto, HandlerThread.stepEnqueue, hstop,
              Pc.deferred] at hmsg'
            exact hmsg' ▸ hmsg
  | push msg =>
      have hmsg := hdeferred msg (List.mem_singleton_self msg)
      constructor
      · -- the message joins the queue behind the plain ones
        simp [Outcome.of, HandlerThread.goto, HandlerThread.stepEnqueue, Pc.inHand, hpc,
          begun, hmsg]
      · intro msg' hmsg'
        simp [Outcome.of, HandlerThread.goto, HandlerThread.stepEnqueue,
          Pc.deferred] at hmsg'
  | wake op =>
      refine .idle rfl (by rw [hpc]; rfl) ?_ rfl ?_ <;>
        cases hevent : t.queuedEvent <;>
        simp [Outcome.of, HandlerThread.goto, HandlerThread.stepEnqueue, hevent,
          Pc.inHand, Pc.deferred]
  | send op p =>
      refine .idle (stepSend_queue t p) (by rw [hpc]; rfl) ?_ rfl ?_ <;>
        cases hnext : (t.stepSend p).2 <;>
        simp [Outcome.of, HandlerThread.goto, HandlerThread.stepEnqueue, hnext,
          Pc.inHand, Pc.deferred]

end

omit [DecidableEq C] in
theorem ThreadMove.keepsLine (hwheel : ∀ msg ∈ t.timerWheel, 0 < msg.timeout)
    (hdeferred : ∀ msg ∈ t.pc.deferred, msg.plain = false)
    (hmove : ThreadMove h tokens t o) : KeepsLine t o h := by
  cases hmove with
  | enqueue hpc => exact stepEnqueue_keepsLine hpc hdeferred
  | @subCount a hpc _ =>
      refine .idle rfl (by rw [hpc]; rfl) ?_ rfl ?_ <;>
        cases ha : a.subCount.2 <;>
        simp [Outcome.of, HandlerThread.goto, Pc.inHand, Pc.deferred]
  | @resend p hpc =>
      refine .idle (stepSend_queue t p) (by rw [hpc]; rfl) ?_ rfl ?_ <;>
        cases hnext : (t.stepSend p).2 <;>
        simp [Outcome.of, HandlerThread.goto, Pc.inHand, Pc.deferred]
  | @isStopping d hpc =>
      refine .idle rfl (by rw [hpc]; rfl) ?_ rfl ?_ <;>
        cases hstop : t.stopping <;>
        simp [Outcome.of, HandlerThread.goto, hstop] <;> rfl
  | @isEmpty d hpc =>
      exact .idle rfl (by rw [hpc]; rfl) d.after_inHand rfl d.after_deferred
  | @deliver a hpc _ _ =>
      refine .idle rfl (by rw [hpc]; rfl) ?_ rfl ?_ <;>
        cases ha : a.callback <;>
        simp [Outcome.of, HandlerThread.goto, Pc.inHand, Pc.deferred]
  | @dequeue d msg rest hpc hqueue =>
      constructor
      · simp [Outcome.of, HandlerThread.goto, hqueue, hpc, Pc.inHand, begun]
      · exact fun _ hmsg => nomatch hmsg
  | @delay d msg hpc htimeout =>
      constructor
      · simp [Outcome.of, HandlerThread.goto, hpc, Pc.inHand, begun,
          plain_of_timeout htimeout]
      · exact fun _ hmsg => nomatch hmsg
  | @acquire d msg hpc _ _ =>
      constructor
      · simp [Outcome.of, HandlerThread.goto, hpc, Pc.inHand, begun]
      · exact fun _ hmsg => nomatch hmsg
  | @defer d msg hpc _ hrefused =>
      have hmsg := plain_of_refused hrefused
      constructor
      · simp [Outcome.of, HandlerThread.goto, hpc, Pc.inHand, begun, hmsg]
      · intro msg' hmsg'
        rw [List.mem_singleton.mp hmsg']
        exact hmsg
  | @stopLoop og msg hpc htype =>
      have hbefore : t.pc.inHand = [msg] := by rw [hpc]; rfl
      constructor
      · simp [Outcome.of, HandlerThread.goto, hbefore, begun, plain_of_stop htype]
      · simp [Outcome.of, HandlerThread.goto]
  | @begin og msg hpc _ =>
      constructor
      · simp [Outcome.of, HandlerThread.goto, hpc, Pc.inHand, begun]
      · exact fun _ hmsg => nomatch hmsg
  | @release og msg hpc =>
      exact .idle rfl (by rw [hpc]; rfl) og.after_inHand rfl og.after_deferred
  | @finishPayload og msg threw hpc _ =>
      exact .idle rfl (by rw [hpc]; rfl) og.after_inHand rfl og.after_deferred
  | @expire i msg hpc hmsg =>
      have htimeout := hwheel msg (List.mem_of_getElem? hmsg)
      have hbefore : t.pc.inHand = [] := by
        rcases hpc with hpc | hpc <;> rw [hpc] <;> rfl
      have hafter : (Pc.process .timer msg).inHand = [msg] := rfl
      constructor
      · simp [Outcome.of, HandlerThread.goto, hbefore, hafter, begun,
          plain_of_timeout htimeout]
      · exact fun _ hmsg => nomatch hmsg
  | _ hpc => exact .idle rfl (by rw [hpc]; rfl) rfl rfl rfl

/-- A message that `enqueue_unsafe` is about to push is a stop message. -/
def PushesStops (s : State H C Token) : Prop :=
  ∀ c h op msg, s.callers c = some (h, .pushUnsafe op msg) → msg.type = .stop

theorem PushesStops.step (hstops : PushesStops s)
    (hstep : Dispatch.step s a = some s') : PushesStops s' := by
  intro c g op msg hc
  cases step_caller hstep c with
  | other hsame => exact hstops c g op msg (hsame ▸ hc)
  | opens h call e hopens _ hnow _ =>
      rw [hnow] at hc
      cases hc
      cases a <;> cases hopens
  | call h call o _ hmove hnow _ =>
      rw [hnow] at hc
      cases hmove <;> cases hc <;> rfl

theorem reachable_pushesStops (hreach : machine.Reachable s) : PushesStops s :=
  Machine.ReachableUnder.invariant (I := PushesStops)
    (fun _ hs => hs ▸ fun _ _ _ _ hc => nomatch hc)
    (fun _ _ _ hstops _ hstep => hstops.step hstep) hreach

/-- The plain messages that the thread has begun, has in hand and has in its queue
are the plain messages that were pushed, newest first. -/
structure InOrder (h : H) (s : State H C Token) : Prop where
  line : (pushes h s.trace).filter Message.plain =
    ((s.threads h).queue.reverse ++ (s.threads h).pc.inHand ++ begun h s.trace).filter
      Message.plain
  deferred : ∀ msg ∈ (s.threads h).pc.deferred, msg.plain = false

omit [DecidableEq C] [DecidableEq Token] in
/-- A step that pushes nothing to the thread and begins nothing on it. -/
theorem InOrder.still (horder : InOrder h s)
    (hpushes : pushes h s'.trace = pushes h s.trace)
    (hbegun : begun h s'.trace = begun h s.trace)
    (hqueue : (s'.threads h).queue = (s.threads h).queue)
    (hpc : (s'.threads h).pc = (s.threads h).pc) : InOrder h s' where
  line := by
    rw [hpushes, hbegun, hqueue, hpc]
    exact horder.line
  deferred := hpc ▸ horder.deferred

section

omit [DecidableEq C]

/-- The marks of a thread are about messages of its own. -/
theorem ThreadMove.marks (hmove : ThreadMove g tokens t o) (h : H) :
    pushes h o.marks = [] ∧ (g ≠ h → begun h o.marks = []) := by
  cases hmove with
  | begin _ _ => exact ⟨rfl, fun hgh => by simp [begun, Outcome.of, hgh]⟩
  | _ => exact ⟨rfl, fun _ => rfl⟩

/-- A call begins no message, and pushes at most one, to its own thread. -/
theorem CallMove.marks {c : C} {n : Nat} {call : Call Token}
    (hmove : CallMove g tokens t c n call o) (h : H) :
    begun h o.marks = [] ∧ (g ≠ h → pushes h o.marks = []) := by
  cases hmove with
  | enqueue e e' _ =>
      cases e with
      | push msg => exact ⟨rfl, fun hgh => by simp [pushes, Enqueue.marks, hgh]⟩
      | _ => exact ⟨rfl, fun _ => rfl⟩
  | _ => exact ⟨rfl, fun _ => rfl⟩

/-- What a call does to the queue of its thread, message for message. -/
theorem CallMove.line {c : C} {n : Nat} {call : Call Token}
    (hstop : ∀ op msg, call = .pushUnsafe op msg → msg.type = .stop)
    (hmove : CallMove h tokens t c n call o) :
    (o.thread.queue.reverse).filter Message.plain =
      (pushes h o.marks ++ t.queue.reverse).filter Message.plain := by
  cases hmove with
  | enqueue e e' _ =>
      cases e with
      | push msg => simp [pushes, Enqueue.marks, HandlerThread.stepEnqueue]
      | send op p => simp [pushes, Enqueue.marks, HandlerThread.stepEnqueue, stepSend_queue]
      | _ => rfl
  | enqueued e hdone =>
      cases e with
      | push msg => cases hdone
      | send op p => simp [pushes, HandlerThread.stepEnqueue, stepSend_queue]
      | _ => rfl
  | pushUnsafe op msg =>
      -- a stop message is not a plain one
      simp [pushes, plain_of_stop (hstop op msg rfl)]
  | _ => rfl

end

theorem InOrder.step (horder : InOrder h s) (hcustody : Custody s)
    (hstops : PushesStops s) (hstep : Dispatch.step s a = some s') : InOrder h s' := by
  cases step_move hstep with
  | opens _ c g call e hopens _ =>
      refine horder.still ?_ ?_ rfl rfl <;> cases a <;> cases hopens <;> rfl
  | call c g call o hcall hmove =>
      obtain ⟨hbegun, hother⟩ := hmove.marks h
      have hbegun' : begun h (o.marks ++ s.trace) = begun h s.trace := by
        rw [begun_append, hbegun, List.nil_append]
      by_cases hgh : g = h
      · subst hgh
        have hline := hmove.line fun op msg heq => hstops c g op msg (heq ▸ hcall)
        have hthread : (s.apply g o).threads g = o.thread := s.apply_self g o
        refine ⟨?_, ?_⟩
        · show (pushes g (o.marks ++ s.trace)).filter Message.plain =
            (((s.apply g o).threads g).queue.reverse ++ ((s.apply g o).threads g).pc.inHand ++
              begun g (o.marks ++ s.trace)).filter Message.plain
          rw [hbegun', hthread, hmove.frame.pc, pushes_append, List.filter_append, horder.line]
          simp only [List.filter_append, hline, List.append_assoc]
        · show ∀ msg ∈ ((s.apply g o).threads g).pc.deferred, _
          rw [hthread, hmove.frame.pc]
          exact horder.deferred
      · have hsame := s.apply_of_ne o (Ne.symm hgh)
        refine horder.still ?_ hbegun' (congrArg _ hsame) (congrArg _ hsame)
        show pushes h (o.marks ++ s.trace) = _
        rw [pushes_append, hother hgh, List.nil_append]
  | thread g choice o hmove =>
      obtain ⟨hpushes, hother⟩ := hmove.marks h
      have hpushes' : pushes h (o.marks ++ s.trace) = pushes h s.trace := by
        rw [pushes_append, hpushes, List.nil_append]
      by_cases hgh : g = h
      · subst hgh
        have hkeeps := hmove.keepsLine (hcustody.wheel g) horder.deferred
        have hthread : (s.apply g o).threads g = o.thread := s.apply_self g o
        refine ⟨?_, ?_⟩
        · show (pushes g (o.marks ++ s.trace)).filter Message.plain =
            (((s.apply g o).threads g).queue.reverse ++ ((s.apply g o).threads g).pc.inHand ++
              begun g (o.marks ++ s.trace)).filter Message.plain
          rw [hpushes', hthread, begun_append, ← List.append_assoc, List.filter_append,
            hkeeps.line, ← List.filter_append]
          exact horder.line
        · rw [hthread]
          exact hkeeps.deferred
      · have hsame := s.apply_of_ne o (Ne.symm hgh)
        refine horder.still hpushes' ?_ (congrArg _ hsame) (congrArg _ hsame)
        show begun h (o.marks ++ s.trace) = _
        rw [begun_append, hother hgh, List.nil_append]

theorem reachable_inOrder (hreach : machine.Reachable s) (h : H) : InOrder h s := by
  refine hreach.invariant_reachable (I := InOrder h) ?_ ?_
  · rintro s rfl
    exact ⟨rfl, fun _ hmsg => nomatch hmsg⟩
  · intro s a s' hbefore horder _ hstep
    exact horder.step (reachable_custody hbefore) (reachable_pushesStops hbefore) hstep

/-! ## The result -/

/-- What holds of the messages of a thread. -/
structure Conserved (s : State H C Token) (h : H) : Prop where
  /-- an accepted message is at one station -/
  place : ∀ msg, Accepted s h msg → ∃! p, msg.op ∈ stationed s h p
  /-- and there only once -/
  single : ∀ p, (stationed s h p).Nodup
  /-- no message is run twice -/
  once : ((begun h s.trace).map Message.op).Nodup
  /-- no two messages are run at a time -/
  alone : OneAtATime h s.trace
  /-- the plain messages that have been run are the first that were pushed, in their
  order (both lists have the newest message in front) -/
  fifo : (begun h s.trace).filter Message.plain <:+ (pushes h s.trace).filter Message.plain

/-- Message conservation: whenever a handler thread is not stopping, every accepted
message is in one place, no message is run twice or beside another one, and plain
messages are run in the order in which they were enqueued. -/
theorem messages_conserved (hreach : machine.Reachable s)
    (hrunning : (s.threads h).stopping = false) : Conserved s h where
  place _ haccepted := one_station hreach hrunning haccepted
  single := stationed_nodup hreach
  once := (reachable_runsOnce hreach h).once
  alone := (reachable_runsOnce hreach h).alone
  fifo := by
    rw [(reachable_inOrder hreach h).line, List.filter_append]
    exact List.suffix_append ..

/-- A delayed message and a plain one: the plain one is running, and the other is in
the timer wheel. -/
theorem messages_conserved_run : ∃ s : State Unit Unit Unit,
    machine.Reachable s ∧ (s.threads ()).timerWheel = [makeCallableMessage 5 0] ∧
      begun () s.trace = [makeCallableMessage 0 3] ∧ Conserved s () := by
  obtain ⟨s, hrun, hstop, hwheel, hbegun⟩ : ∃ s : State Unit Unit Unit,
      machine.exec initial
        (List.flatten [
          [.post () () 5], List.replicate 3 (.call ()),
          [.post () () 0], List.replicate 3 (.call ()),
          List.replicate 11 (.thread () .run)]) = some s ∧
      (s.threads ()).stopping = false ∧
      (s.threads ()).timerWheel = [makeCallableMessage 5 0] ∧
      begun () s.trace = [makeCallableMessage 0 3] := ⟨_, rfl, rfl, rfl, rfl⟩
  have hreach : machine.Reachable s := .of_exec rfl hrun
  exact ⟨s, hreach, hwheel, hbegun, messages_conserved hreach hstop⟩

end Dispatch
end Cyan
