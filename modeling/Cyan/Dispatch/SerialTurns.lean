import Cyan.Dispatch.Drains
import Cyan.Dispatch.SerialOrder

/-!
# No turn of a serial token is lost

`post` draws the sequence number of a task in front of `enqueue`, and `enqueue`
drops the task when the thread is stopping.  The tasks behind it then wait for a
turn that never ends.

* `Carried` says that a number still has its one message at a place from which
  it gets on.
* `KeepsTurns` is the condition on a step: no task of the token is checked by
  `enqueue` on a stopping thread, none is left in the queue of a thread that
  drains no more, and fewer than `2 ^ 64` turns are outstanding.
* `no_turn_lost` holds for every run that keeps to the condition, and `turn_lost`
  is a run that does not.
-/

namespace Cyan
namespace Dispatch

open Base Event

variable {H C Token : Type*} [DecidableEq H] [DecidableEq C] [DecidableEq Token]
variable {s s' : State H C Token} {a : Action H C Token} {msg : Message Token}
  {p q : Place H C} {token : Token} {h : H}

/-- A message in this place is being enqueued, waits in a queue that will be
drained, is held by `process_queue`, or is being processed. -/
def Place.Active (s : State H C Token) : Place H C → Prop
  | .spot h .queue => (s.threads h).willDrain = true
  | .spot _ .timerWheel => False
  | _ => True

/-- The message has the turn `n` of the token. -/
def Message.HasTurn (token : Token) (n : UInt64) (msg : Message Token) : Prop :=
  msg.serialToken = some token ∧ msg.sequence = n

/-- One message has the turn, and it is at an active place. -/
def Carried (token : Token) (s : State H C Token) (n : UInt64) : Prop :=
  ∃ p msg, msg ∈ contents s p ∧ msg.HasTurn token n ∧ p.Active s ∧
    ∀ q, ∀ m ∈ contents s q, m.HasTurn token n → q = p ∧ m = msg

/-- Every outstanding turn of the token will come. -/
structure TurnsCome (token : Token) (s : State H C Token) : Prop where
  carried : ∀ n, (s.tokens token).executingSequence ≤ n →
    n < (s.tokens token).currentSequence → Carried token s n
  /-- whoever has a turn waits for a turn that is carried -/
  awaited : ∀ p, ∀ msg ∈ contents s p, msg.serialToken = some token →
    Carried token s (s.tokens token).executingSequence

/-! ## The condition -/

/-- The step of a call keeps the turns of the token. -/
def Call.KeepsTurns (token : Token) (counters : SerialToken) (t : HandlerThread Token) :
    Call Token → Prop
  | .setSerialToken _ tok =>
      tok = token → counters.currentSequence + 1 ≠ counters.executingSequence
  | .enqueue (.isStopping msg) => msg.serialToken = some token → t.stopping = false
  | .enqueue (.push msg) => msg.serialToken = some token → t.willDrain = true
  | .setStopping _ _ => t.pc = .start → ∀ msg ∈ t.queue, msg.serialToken ≠ some token
  | _ => True

/-- The step of a thread keeps the turns of the token. -/
def Pc.KeepsTurns (token : Token) (t : HandlerThread Token) : Pc Token → Prop
  | .enqueue _ (.isStopping msg) => msg.serialToken = some token → t.stopping = false
  | _ => True

/-- The step keeps the turns of the token. -/
def KeepsTurns (token : Token) (s : State H C Token) : Action H C Token → Prop
  | .call c => ∀ x ∈ s.callers c, x.2.KeepsTurns token (s.tokens token) (s.threads x.1)
  | .thread h _ => (s.threads h).pc.KeepsTurns token (s.threads h)
  | _ => True

instance (token : Token) (counters : SerialToken) (t : HandlerThread Token) :
    (call : Call Token) → Decidable (call.KeepsTurns token counters t)
  | .setSerialToken _ _ => inferInstanceAs (Decidable (_ → _ ≠ _))
  | .enqueue (.isStopping _) => inferInstanceAs (Decidable (_ → _ = _))
  | .enqueue (.push _) => inferInstanceAs (Decidable (_ → _ = _))
  | .enqueue (.wake _) => isTrue trivial
  | .enqueue (.send _ _) => isTrue trivial
  | .setStopping _ _ =>
      inferInstanceAs (Decidable (t.pc = .start → ∀ msg ∈ t.queue, msg.serialToken ≠ some token))
  | .isRunning _ _ => isTrue trivial
  | .isEmpty _ => isTrue trivial
  | .pushUnsafe _ _ => isTrue trivial
  | .deref _ => isTrue trivial
  | .fault _ => isTrue trivial

instance (token : Token) (t : HandlerThread Token) :
    (pc : Pc Token) → Decidable (pc.KeepsTurns token t)
  | .enqueue _ (.isStopping _) => inferInstanceAs (Decidable (_ → _ = _))
  | .enqueue _ (.push _) | .enqueue _ (.wake _) | .enqueue _ (.send _ _) => isTrue trivial
  | .start | .setRunning | .makeEvent | .startEvent | .setCallback => isTrue trivial
  | .onInitialize | .drain _ | .dispatch _ _ | .isStopping _ | .isEmpty _ => isTrue trivial
  | .process _ _ | .running _ _ | .release _ _ => isTrue trivial
  | .startLoop | .poll | .invoke | .subCount | .resend _ => isTrue trivial
  | .onFinalize | .clearRunning | .exited => isTrue trivial

instance (token : Token) (s : State H C Token) :
    (a : Action H C Token) → Decidable (KeepsTurns token s a)
  | .call c => inferInstanceAs
      (Decidable (∀ x ∈ s.callers c, x.2.KeepsTurns token (s.tokens token) (s.threads x.1)))
  | .thread h _ => inferInstanceAs
      (Decidable ((s.threads h).pc.KeepsTurns token (s.threads h)))
  | .send _ _ _ => isTrue trivial
  | .post _ _ _ => isTrue trivial
  | .postSerial _ _ _ => isTrue trivial
  | .stop _ _ _ => isTrue trivial

/-! ## Queues that are drained no more -/

/-- A thread that will not drain its queue has no task of the token in it. -/
def Drained (token : Token) (s : State H C Token) : Prop :=
  ∀ h, (s.threads h).willDrain = false → ∀ msg ∈ (s.threads h).queue,
    msg.serialToken ≠ some token

omit [DecidableEq H] [DecidableEq C] [DecidableEq Token] in
theorem Drained.initial (token : Token) :
    Drained token (Dispatch.initial : State H C Token) :=
  fun _ hwill => nomatch hwill

section

omit [DecidableEq H] [DecidableEq C]

/-- A step of a thread ends its draining only with an empty queue. -/
theorem Drained.thread (hdrained : Drained token s)
    (htimer : ∀ msg, (s.threads h).pc = .process .timer msg → msg.type ≠ .stop)
    {o : Outcome H C Token} (hmove : ThreadMove h s.tokens (s.threads h) o)
    (hwill : o.thread.willDrain = false) :
    ∀ msg ∈ o.thread.queue, msg.serialToken ≠ some token := by
  have hleaving : o.thread.leaving = true := by
    rw [HandlerThread.willDrain, hmove.started] at hwill
    simpa using hwill
  cases hmove.leaves htimer hleaving with
  | quits hquit hqueue =>
      rw [hqueue]
      exact hdrained h (by rw [HandlerThread.willDrain, hquit, Bool.not_true, Bool.and_false])
  | empty hnil _ =>
      intro msg hmsg
      rw [hnil] at hmsg
      cases hmsg
  | left hleft hqueue =>
      rw [hqueue]
      exact hdrained h (by rw [HandlerThread.willDrain, hleft, Bool.not_true, Bool.false_and])

/-- A step of a call that keeps the turns puts no task of the token into such a
queue. -/
theorem Drained.call (hdrained : Drained token s) (hprep : Prepared s) {c : C}
    {call : Call Token} {o : Outcome H C Token} {n : Nat}
    (hcall : s.callers c = some (h, call))
    (hmove : CallMove h s.tokens (s.threads h) c n call o)
    (hok : call.KeepsTurns token (s.tokens token) (s.threads h))
    (hwill : o.thread.willDrain = false) :
    ∀ msg ∈ o.thread.queue, msg.serialToken ≠ some token := by
  have hold := hdrained h
  cases hmove with
  | enqueue e e' _ =>
      have hframe := stepEnqueue_frame (s.threads h) e
      rw [willDrain_eq hframe.pc hframe.loopDone fun _ => hframe.stopping] at hwill
      cases e with
      | push new =>
          intro msg hmsg htoken
          rcases List.mem_append.mp hmsg with hmsg | hmsg
          · exact hold hwill msg hmsg htoken
          · rw [List.mem_singleton.mp hmsg] at htoken
            rw [hok htoken] at hwill
            cases hwill
      | send op p =>
          rw [HandlerThread.stepEnqueue, stepSend_queue]
          exact hold hwill
      | _ => exact hold hwill
  | enqueued e hdone =>
      have hframe := stepEnqueue_frame (s.threads h) e
      rw [willDrain_eq hframe.pc hframe.loopDone fun _ => hframe.stopping] at hwill
      cases e with
      | push new => cases hdone
      | send op p =>
          rw [HandlerThread.stepEnqueue, stepSend_queue]
          exact hold hwill
      | _ => exact hold hwill
  | setStopping op safe =>
      -- only at the first check does the flag decide whether the queue is drained
      by_cases hstart : (s.threads h).pc = .start
      · exact hok hstart
      · have hsame : HandlerThread.willDrain { s.threads h with stopping := true } =
            (s.threads h).willDrain := willDrain_eq rfl rfl fun hpc => absurd hpc hstart
        exact hold (hsame.symm.trans hwill)
  | pushUnsafe op new =>
      intro msg hmsg htoken
      rcases List.mem_append.mp hmsg with hmsg | hmsg
      · exact hold (hwill ▸ (willDrain_eq rfl rfl fun _ => rfl).symm) msg hmsg htoken
      · rw [List.mem_singleton.mp hmsg, hprep.toStop c h op new hcall] at htoken
        cases htoken
  | _ => exact hold hwill

end

theorem Drained.step (hdrained : Drained token s) (hreach : machine.Reachable s)
    (hok : KeepsTurns token s a) (hstep : Dispatch.step s a = some s') :
    Drained token s' := by
  intro h hwill
  cases step_view hstep h with
  | other hthread _ =>
      rw [hthread] at hwill ⊢
      exact hdrained h hwill
  | thread choice o _ hmove hthread _ =>
      rw [hthread] at hwill ⊢
      exact hdrained.thread (fun _ => reachable_unstopped hreach) hmove hwill
  | call c call o ha hcall hmove hthread _ =>
      subst ha
      rw [hthread] at hwill ⊢
      exact hdrained.call (reachable_custody hreach).prepared hcall hmove
        (hok (h, call) hcall) hwill

/-! ## Turns that are not over -/

/-- A task of the token that has drawn and is not released is in the system. -/
def Alive (token : Token) (s : State H C Token) : Prop :=
  ∀ op ∈ draws token s.trace, op ∉ releases token s.trace →
    ∃ p, ∃ msg ∈ contents s p, msg.op = op ∧ msg.serialToken = some token

section

omit [DecidableEq H] [DecidableEq C]

theorem releases_append (es tr : List (Mark H C Token)) :
    releases token (es ++ tr) = releases token es ++ releases token tr :=
  List.filterMap_append

/-- Only `release` takes a task of the token out of the system when the step keeps
its turns. -/
theorem Exit.released (hcustody : Custody s) (hok : KeepsTurns token s a)
    {es : List (Mark H C Token)} {tokens : Token → SerialToken}
    (hmsg : msg ∈ contents s p) (hexit : Exit s a es tokens p msg)
    (htoken : msg.serialToken = some token) : msg.op ∈ releases token es := by
  cases hexit with
  | refusePost c h _ ha hcall hstop =>
      subst ha
      rw [hok (h, _) hcall htoken] at hstop
      cases hstop
  -- the condition rules out the two ways in which `enqueue` drops a message
  | refuse h choice d _ ha hpc hstop =>
      subst ha
      rw [KeepsTurns, hpc] at hok
      rw [hok htoken] at hstop
      cases hstop
  | stopLoop h _ htype =>
      exact absurd htoken (hcustody.callable hmsg (by rw [htype]; decide))
  | finishPayload h _ threw htype => exact absurd htoken (hcustody.callable hmsg htype)
  | release h _ => simp [releases, Message.ofToken, htoken]

/-- The message that draws had no number yet, so a message with one stays. -/
theorem Custody.numbered (hcustody : Custody s) {c : C} {old new : Message Token}
    {tok : Token} (hcall : s.callers c = some (h, .setSerialToken old tok))
    (hbecame : Became (contents s) (contents s') (.caller c) old new)
    (hmsg : msg ∈ contents s p) (htoken : msg.serialToken = some token) :
    msg ∈ contents s' p := by
  have hp : p ≠ .caller c := by
    rintro rfl
    rw [hbecame.before, List.mem_singleton] at hmsg
    rw [hmsg, (hcustody.prepared.toDraw c h old tok hcall).2.2] at htoken
    cases htoken
  exact (hbecame.others p hp).symm ▸ hmsg

/-- A task of the token stays in the system until it is released. -/
theorem Alive.keep (hcustody : Custody s) (hok : KeepsTurns token s a)
    (hflow : Flow s a s') (hmsg : msg ∈ contents s p)
    (htoken : msg.serialToken = some token) (hnot : msg.op ∉ releases token s'.trace) :
    ∃ q, msg ∈ contents s' q := by
  cases hflow with
  | stay _ hcontents _ _ _ => exact ⟨p, (hcontents p).symm ▸ hmsg⟩
  | come c _ _ hcome _ _ _ _ _ _ => exact ⟨p, hcome.mem_after hmsg⟩
  | draw c h old tok _ hcall hbecame _ _ =>
      exact ⟨p, hcustody.numbered hcall hbecame hmsg htoken⟩
  | went _ _ q _ hwent _ _ _ =>
      rcases hwent.mem_after_or_eq hmsg with hstays | ⟨-, rfl⟩
      · exact ⟨p, hstays⟩
      · exact ⟨q, hwent.mem_target⟩
  | gone es tokens q _ hgone hexit _ htrace =>
      rcases hgone.mem_after_or_eq hmsg with hstays | ⟨-, rfl⟩
      · exact ⟨p, hstays⟩
      · refine absurd ?_ hnot
        rw [htrace, releases_append]
        exact List.mem_append_left _ (hexit.released hcustody hok hgone.mem_source htoken)

end

theorem Alive.step (halive : Alive token s) (hcustody : Custody s)
    (hok : KeepsTurns token s a) (hstep : Dispatch.step s a = some s') :
    Alive token s' := by
  have hflow := step_flow hstep
  obtain ⟨es, htrace⟩ := hflow.trace
  intro op hop hnot
  have hkeep : op ∈ draws token s.trace →
      ∃ p, ∃ msg ∈ contents s' p, msg.op = op ∧ msg.serialToken = some token := by
    intro hold
    have hnot' : op ∉ releases token s.trace := fun hmem =>
      hnot (by rw [htrace, releases_append]; exact List.mem_append_right _ hmem)
    obtain ⟨p, msg, hmsg, rfl, htoken⟩ := halive op hold hnot'
    obtain ⟨q, hq⟩ := Alive.keep hcustody hok hflow hmsg htoken hnot
    exact ⟨q, msg, hq, rfl, htoken⟩
  rcases hflow.draws token with hsame | ⟨c, h, old, -, -, hbecame, hdrawn⟩
  · exact hkeep (hsame ▸ hop)
  · rw [hdrawn] at hop
    rcases List.mem_cons.mp hop with rfl | hop
    · refine ⟨.caller c, (old.setSerialToken s.tokens token).2, ?_, rfl, rfl⟩
      rw [hbecame.after]
      exact List.mem_singleton_self _
    · exact hkeep hop

/-! ## The result -/

/-- The turns of the token while every step keeps them. -/
structure TurnsKept (token : Token) (s : State H C Token) : Prop where
  serving : Serving token s
  within : (draws token s.trace).length < (releases token s.trace).length + 2 ^ 64
  alive : Alive token s
  drained : Drained token s

omit [DecidableEq H] in
theorem TurnsKept.initial (token : Token) :
    TurnsKept token (Dispatch.initial : State H C Token) where
  serving := .initial token
  within := Nat.zero_lt_succ _
  alive _ hop := nomatch hop
  drained := .initial token

theorem TurnsKept.within_step (hkept : TurnsKept token s) (hok : KeepsTurns token s a)
    (hstep : Dispatch.step s a = some s') :
    (draws token s'.trace).length < (releases token s'.trace).length + 2 ^ 64 := by
  have hwithin := hkept.within
  have hflow := step_flow hstep
  obtain ⟨es, htrace⟩ := hflow.trace
  have hreleases : (releases token s.trace).length ≤ (releases token s'.trace).length := by
    rw [htrace, releases_append, List.length_append]
    omega
  rcases hflow.draws token with hsame | ⟨c, h, old, rfl, hcall, -, hdrawn⟩
  · rw [hsame]
    omega
  · -- the counters do not meet, so there is room for one more turn
    have hnext := hok (h, _) hcall rfl
    rw [hkept.serving.current, hkept.serving.executing] at hnext
    have hroom : (draws token s.trace).length + 1 ≠
        (releases token s.trace).length + 2 ^ 64 := by
      intro heq
      apply hnext
      apply UInt64.toNat_inj.mp
      rw [UInt64.toNat_add, UInt64.toNat_ofNat', UInt64.toNat_ofNat']
      show (_ % 2 ^ 64 + 1) % 2 ^ 64 = _
      omega
    rw [hdrawn, List.length_cons]
    omega

theorem TurnsKept.step (hkept : TurnsKept token s) (hreach : machine.Reachable s)
    (hok : KeepsTurns token s a) (hstep : Dispatch.step s a = some s') :
    TurnsKept token s' where
  serving := hkept.serving.step (reachable_custody hreach) (reachable_program hreach)
    hkept.within hstep
  within := hkept.within_step hok hstep
  alive := hkept.alive.step (reachable_custody hreach) hok hstep
  drained := hkept.drained.step hreach hok hstep

theorem reachable_turnsKept (hreach : machine.ReachableUnder (KeepsTurns token) s) :
    TurnsKept token s :=
  hreach.invariant_reachable (I := TurnsKept token) (fun _ hs => hs ▸ TurnsKept.initial token)
    fun _ _ _ hbefore hkept hok hstep => hkept.step hbefore.reachable hok hstep

omit [DecidableEq H] in
/-- An outstanding number is carried. -/
theorem TurnsKept.carried (hkept : TurnsKept token s) (hcustody : Custody s) {n : Nat}
    (hlow : (releases token s.trace).length ≤ n) (hhigh : n < (draws token s.trace).length) :
    Carried token s (.ofNat n) := by
  have honce := hcustody.drawnOnce token
  have hwithin := hkept.within
  -- whoever has drawn the number is not released yet, so its message is alive
  obtain ⟨op, hturn⟩ := Turn.exists_of_lt hhigh
  have hnot : op ∉ releases token s.trace := by
    intro hmem
    obtain ⟨m, hm, hturn'⟩ := Turn.of_served hkept.serving.served hmem
    have := hturn.number_unique honce hturn'
    omega
  obtain ⟨p, msg, hmsg, rfl, htoken⟩ := hkept.alive op hturn.mem hnot
  obtain ⟨m, hturn', -, hseq⟩ := hkept.serving.waiting p msg hmsg htoken
  rw [hturn'.number_unique honce hturn] at hseq
  refine ⟨p, msg, hmsg, ⟨htoken, hseq⟩, ?_, fun q other hother hturns => ?_⟩
  · rcases p with c | ⟨h, k⟩
    · trivial
    · cases k with
      | queue =>
          by_contra hwill
          exact hkept.drained h (eq_false_of_ne_true hwill) msg hmsg htoken
      | timerWheel => exact hcustody.untimed hmsg htoken
      | _ => trivial
  · -- fewer than `2 ^ 64` numbers are outstanding, so the wrapped number is one number
    obtain ⟨hothertoken, hotherseq⟩ := hturns
    obtain ⟨l, hotherturn, hle, hotherseq'⟩ :=
      hkept.serving.waiting q other hother hothertoken
    have := hotherturn.lt
    have hequal : l = n :=
      ofNat_apart (by omega) (by omega) (hotherseq'.symm.trans hotherseq)
    rw [hequal] at hotherturn
    exact hcustody.sole.eq_of_key_eq hother hmsg (hotherturn.item_unique hturn)

/-- As long as every step keeps the turns of the token, each outstanding number is
carried by one message at an active place, and whoever has a turn waits for a
turn that will come. -/
theorem no_turn_lost (hreach : machine.ReachableUnder (KeepsTurns token) s) :
    TurnsCome token s := by
  have hkept := reachable_turnsKept hreach
  have hcustody := reachable_custody hreach.reachable
  have hwithin := hkept.within
  have hserved := hkept.serving.served.length_le
  constructor
  · -- the counters of the source are the two lengths, wrapped
    intro n hlow hhigh
    rw [hkept.serving.executing] at hlow
    rw [hkept.serving.current] at hhigh
    obtain ⟨m, hmlow, hmhigh, rfl⟩ := exists_between hserved hwithin hlow hhigh
    exact hkept.carried hcustody hmlow hmhigh
  · intro p msg hmsg htoken
    obtain ⟨n, hturn, hle, -⟩ := hkept.serving.waiting p msg hmsg htoken
    have := hturn.lt
    rw [hkept.serving.executing]
    exact hkept.carried hcustody (Nat.le_refl _) (by omega)

/-- In the middle of `twoTasks`: the first task is being processed and the second
one is being put back. -/
theorem no_turn_lost_run :
    ∃ s : State Bool Unit Unit,
      machine.execUnder (KeepsTurns ()) initial (twoTasks.take 27) = some s ∧
        (s.tokens ()).executingSequence = 0 ∧ (s.tokens ()).currentSequence = 2 ∧
        TurnsCome () s := by
  obtain ⟨s, hrun, hexecuting, hcurrent⟩ : ∃ s : State Bool Unit Unit,
      machine.execUnder (KeepsTurns ()) initial (twoTasks.take 27) = some s ∧
        (s.tokens ()).executingSequence = 0 ∧ (s.tokens ()).currentSequence = 2 :=
    ⟨_, rfl, rfl, rfl⟩
  exact ⟨s, hrun, hexecuting, hcurrent, no_turn_lost (.of_execUnder rfl hrun)⟩

/-! ## Without the condition -/

omit [DecidableEq H] in
/-- A message that leaves the system takes its number along. -/
theorem TurnsKept.of_gone (hkept : TurnsKept token s) (hcustody : Custody s)
    (hgone : Gone (contents s) (contents s') p msg)
    (htoken : msg.serialToken = some token) : ¬ Carried token s' msg.sequence := by
  rintro ⟨q, other, hother, ⟨hothertoken, hotherseq⟩, -⟩
  have hwithin := hkept.within
  obtain ⟨n, hturn, hle, hseq⟩ := hkept.serving.waiting p msg hgone.mem_source htoken
  obtain ⟨m, hturn', hle', hseq'⟩ :=
    hkept.serving.waiting q other (hgone.mem_before hother) hothertoken
  have := hturn.lt
  have := hturn'.lt
  have hequal : m = n :=
    ofNat_apart (by omega) (by omega) (hseq'.symm.trans (hotherseq.trans hseq))
  rw [hequal] at hturn'
  exact hcustody.sole.key_ne_of_gone hgone hother (hturn'.item_unique hturn)

/-- A stopping thread that puts a task back loses its turn, which stays
outstanding. -/
theorem requeue_loses (hreach : machine.ReachableUnder (KeepsTurns token) s) {d : Drain}
    (hpc : (s.threads h).pc = .enqueue d (.isStopping msg))
    (hstop : (s.threads h).stopping = true) (htoken : msg.serialToken = some token) :
    ∃ s', step s (.thread h .run) = some s' ∧ s'.tokens = s.tokens ∧
      ¬ Carried token s' msg.sequence := by
  have hthread : stepThread (C := C) h s.tokens (s.threads h) .run =
      some (.of s.tokens ((s.threads h).goto (.drain d)) []) := by
    rw [stepThread, hpc]
    show some (Outcome.of _ ((s.threads h).goto
      (((if (s.threads h).stopping then none else some (.push msg)).map
        (Pc.enqueue d)).getD (.drain d))) []) = _
    rw [hstop]
    rfl
  have hgone : Gone (s.threads h).holds ((s.threads h).goto (.drain d)).holds .held msg := by
    constructor
    · show ((s.threads h).pc.holds .held).Perm [msg]
      rw [hpc]
      exact .refl _
    · intro k hk
      have hrest : (Pc.drain d : Pc Token).holds k = (s.threads h).pc.holds k := by
        rw [hpc]
        cases k <;> first | rfl | exact absurd rfl hk
      cases k <;> first | rfl | exact hrest
  refine ⟨_, congrArg (Option.map (s.apply h)) hthread, rfl, ?_⟩
  exact (reachable_turnsKept hreach).of_gone (reachable_custody hreach.reachable)
    (gone_apply hgone) htoken

/-- `stop(true)` on the second thread of `twoTasks` while that thread is about to put
its task back. -/
def stopWhileWaiting : List (Action Bool Unit Unit) :=
  twoTasks.take 25 ++ [.stop () true true, .call (), .thread true .run]

/-- The second task has drawn number 1 and was accepted, but `process_queue` drops
it, and number 1 is never released. -/
theorem turn_lost :
    ∃ s : State Bool Unit Unit, machine.Reachable s ∧
      (s.tokens ()).executingSequence = 0 ∧ (s.tokens ()).currentSequence = 2 ∧
      ¬ TurnsCome () s := by
  obtain ⟨s, hrun, hexecuting, hcurrent, hnone⟩ : ∃ s : State Bool Unit Unit,
      machine.exec initial stopWhileWaiting = some s ∧
        (s.tokens ()).executingSequence = 0 ∧ (s.tokens ()).currentSequence = 2 ∧
        ∀ p, ∀ msg ∈ contents s p, msg.sequence = 0 := by
    refine ⟨_, rfl, rfl, rfl, ?_⟩
    rintro (c | ⟨g, k⟩) msg hmsg
    · cases hmsg
    · cases g <;> cases k <;> cases hmsg <;> first
        | rfl
        | exact absurd ‹_ ∈ []› List.not_mem_nil
  refine ⟨s, .of_exec rfl hrun, hexecuting, hcurrent, fun hcome => ?_⟩
  obtain ⟨p, msg, hmsg, ⟨-, hseq⟩, -⟩ :=
    hcome.carried 1 (hexecuting ▸ by decide) (hcurrent ▸ by decide)
  rw [hnone p msg hmsg] at hseq
  cases hseq

end Dispatch
end Cyan
