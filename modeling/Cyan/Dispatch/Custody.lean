import Cyan.Dispatch.Flow

/-!
# Every message is in one place

`Custody` is the invariant behind all statements about messages: each one is in
one place only, only callables without a timeout carry a token, only messages
with a timeout are in a timer wheel, and a message draws a sequence number at
most once.
-/

namespace Cyan
namespace Dispatch

open Base

variable {H C Token : Type*} [DecidableEq H] [DecidableEq C] [DecidableEq Token]
variable {s s' : State H C Token} {a : Action H C Token} {msg : Message Token}
  {p q : Place H C} {token : Token}

/-- The messages that have drawn a sequence number of the token. -/
def draws (token : Token) (tr : List (Mark H C Token)) : List Nat :=
  tr.filterMap fun
    | .draw _ op tok => if tok = token then some op else none
    | _ => none

/-- Messages that are still to draw a sequence number are as `post` made them, and
messages that `enqueue_unsafe` is about to push are as `stop` made them. -/
structure Prepared (s : State H C Token) : Prop where
  toDraw : ∀ c h msg token, s.callers c = some (h, .setSerialToken msg token) →
    msg.type = .callable ∧ msg.timeout = 0 ∧ msg.serialToken = none
  toStop : ∀ c h op msg, s.callers c = some (h, .pushUnsafe op msg) →
    msg.serialToken = none

theorem Prepared.step (hprep : Prepared s) (hstep : Dispatch.step s a = some s') :
    Prepared s' := by
  constructor
  · intro c g msg token hc
    cases step_caller hstep c with
    | other hsame => exact hprep.toDraw c g msg token (hsame ▸ hc)
    | opens h call e hopens _ hnow _ =>
        rw [hnow] at hc
        cases hc
        cases a <;> cases hopens
        exact ⟨rfl, rfl, rfl⟩
    | call h call o _ hmove hnow _ =>
        rw [hnow] at hc
        cases hmove <;> cases hc
  · intro c g op msg hc
    cases step_caller hstep c with
    | other hsame => exact hprep.toStop c g op msg (hsame ▸ hc)
    | opens h call e hopens _ hnow _ =>
        rw [hnow] at hc
        cases hc
        cases a <;> cases hopens
    | call h call o _ hmove hnow _ =>
        rw [hnow] at hc
        cases hmove <;> cases hc <;> rfl

/-- Where the messages are and what they are like. -/
structure Custody (s : State H C Token) : Prop where
  prepared : Prepared s
  sole : Sole Message.op (contents s)
  old : ∀ p, ∀ msg ∈ contents s p, msg.op < s.trace.length
  serial : ∀ p, ∀ msg ∈ contents s p, msg.serialToken ≠ none →
    msg.type = .callable ∧ ¬ 0 < msg.timeout
  stop : ∀ p, ∀ msg ∈ contents s p, msg.type = .stop → ¬ 0 < msg.timeout
  wheel : ∀ h, ∀ msg ∈ contents s (.spot h .timerWheel), 0 < msg.timeout
  drawnOld : ∀ token, ∀ op ∈ draws token s.trace, op < s.trace.length
  drawnOnce : ∀ token, (draws token s.trace).Nodup
  undrawn : ∀ p, ∀ msg ∈ contents s p, msg.serialToken = none →
    ∀ token, msg.op ∉ draws token s.trace

omit [DecidableEq H] [DecidableEq C] in
theorem draws_append (es tr : List (Mark H C Token)) :
    draws token (es ++ tr) = draws token es ++ draws token tr :=
  List.filterMap_append

/-- A projection of the trace skips the marks it does not look at. -/
theorem filterMap_skip {E X : Type*} {f : E → Option X} {es : List E}
    (hskip : ∀ e ∈ es, f e = none) (tr : List E) :
    (es ++ tr).filterMap f = tr.filterMap f := by
  rw [List.filterMap_append, List.filterMap_eq_nil_iff.mpr hskip, List.nil_append]

section

omit [DecidableEq H] [DecidableEq C]

theorem draws_plain {es : List (Mark H C Token)} (hplain : ∀ e ∈ es, e.Plain)
    (tr : List (Mark H C Token)) : draws token (es ++ tr) = draws token tr :=
  filterMap_skip (fun e he => by
    have hplain := hplain e he
    cases e <;> first | rfl | exact hplain.elim) tr

/-- The trace only grows. -/
theorem Flow.trace (hflow : Flow s a s') : ∃ es, s'.trace = es ++ s.trace := by
  cases hflow with
  | stay es _ _ _ htrace => exact ⟨es, htrace⟩
  | come c msg e _ _ _ _ _ _ htrace => exact ⟨_, htrace⟩
  | draw c h msg token _ _ _ _ htrace => exact ⟨_, htrace⟩
  | went es p q msg _ _ _ htrace => exact ⟨es, htrace⟩
  | gone es tokens p msg _ _ _ htrace => exact ⟨es, htrace⟩

/-- Only `set_serial_token` draws. -/
theorem Flow.draws (hflow : Flow s a s') (token : Token) :
    draws token s'.trace = draws token s.trace ∨
      ∃ c h msg, a = .call c ∧ s.callers c = some (h, .setSerialToken msg token) ∧
        Became (contents s) (contents s') (.caller c) msg
          (msg.setSerialToken s.tokens token).2 ∧
        draws token s'.trace = msg.op :: draws token s.trace := by
  cases hflow with
  | stay es _ hplain _ htrace => exact .inl (htrace ▸ draws_plain hplain _)
  | come c msg e _ _ _ _ hplain _ htrace =>
      rw [htrace]
      refine .inl (draws_plain (fun e' he' => ?_) _)
      rw [List.mem_singleton.mp he']
      exact hplain
  | draw c h msg tok ha hcall hbecame _ htrace =>
      rw [htrace]
      by_cases htok : tok = token
      · subst htok
        exact .inr ⟨c, h, msg, ha, hcall, hbecame, by simp [Dispatch.draws]⟩
      · exact .inl (by simp [Dispatch.draws, htok])
  | went es p q msg _ hpass _ htrace =>
      rw [htrace]
      cases hpass <;> exact .inl rfl
  | gone es tokens p msg _ hexit _ htrace =>
      rw [htrace]
      cases hexit <;> exact .inl rfl

end

/-- A message was there before, or a call has just made it, or it has just drawn
its sequence number. -/
theorem Flow.origin (hflow : Flow s a s') (hmsg : msg ∈ contents s' p) :
    (∃ q, msg ∈ contents s q) ∨
      (msg.op = s.trace.length ∧ msg.serialToken = none ∧
        (msg.type = .stop → msg.timeout = 0) ∧ s'.trace ≠ s.trace) ∨
      ∃ c h old token, p = .caller c ∧
        s.callers c = some (h, .setSerialToken old token) ∧
        old ∈ contents s (.caller c) ∧ msg = (old.setSerialToken s.tokens token).2 := by
  cases hflow with
  | stay es hsame _ _ _ => exact .inl ⟨p, hsame p ▸ hmsg⟩
  | come c new e hcome hop htoken hstop _ _ htrace =>
      rcases hcome.mem_before_or_eq hmsg with hold | ⟨-, rfl⟩
      · exact .inl ⟨p, hold⟩
      · refine .inr (.inl ⟨hop, htoken, hstop, fun heq => ?_⟩)
        rw [htrace] at heq
        simpa using congrArg List.length heq
  | draw c h old token _ hcall hbecame _ _ =>
      by_cases hp : p = .caller c
      · subst hp
        rw [hbecame.after, List.mem_singleton] at hmsg
        exact .inr (.inr ⟨c, h, old, token, rfl, hcall,
          hbecame.before ▸ List.mem_singleton_self old, hmsg⟩)
      · exact .inl ⟨p, hbecame.others p hp ▸ hmsg⟩
  | went es q r moved hwent _ _ _ =>
      rcases hwent.mem_before_or_eq hmsg with hold | ⟨-, rfl⟩
      · exact .inl ⟨p, hold⟩
      · exact .inl ⟨q, hwent.mem_source⟩
  | gone es tokens q left hgone _ _ _ => exact .inl ⟨p, hgone.mem_before hmsg⟩

omit [DecidableEq H] [DecidableEq C] [DecidableEq Token] in
/-- There are no messages at first. -/
theorem contents_initial (p : Place H C) :
    contents (Dispatch.initial : State H C Token) p = [] := by
  rcases p with c | ⟨h, k⟩
  · rfl
  · cases k <;> rfl

section

omit [DecidableEq H] [DecidableEq C]

theorem Custody.initial : Custody (Dispatch.initial : State H C Token) := by
  have hnone : ∀ p, ∀ msg : Message Token,
      msg ∉ contents (Dispatch.initial : State H C Token) p := by
    intro p msg hmsg
    rw [contents_initial] at hmsg
    cases hmsg
  refine ⟨⟨fun _ _ _ _ hc => (nomatch hc), fun _ _ _ _ hc => (nomatch hc)⟩,
    ⟨fun p => ?_, fun p _ x _ hx => absurd hx (hnone p x)⟩,
    fun p msg hmsg => absurd hmsg (hnone p msg), fun p msg hmsg => absurd hmsg (hnone p msg),
    fun p msg hmsg => absurd hmsg (hnone p msg), fun h msg hmsg => absurd hmsg (hnone _ msg),
    fun _ _ hop => (nomatch hop), fun _ => List.nodup_nil,
    fun p msg hmsg => absurd hmsg (hnone p msg)⟩
  rw [contents_initial]
  exact List.nodup_nil

/-- The messages stay in one place each. -/
theorem Custody.sole_step (hcustody : Custody s) (hflow : Flow s a s') :
    Sole Message.op (contents s') := by
  cases hflow with
  | stay es hsame _ _ _ =>
      have heq : contents s' = contents s := funext hsame
      exact heq ▸ hcustody.sole
  | come c msg e hcome hop _ _ _ _ _ =>
      refine hcustody.sole.of_come hcome fun r z hz => ?_
      have := hcustody.old r z hz
      omega
  | draw c h msg token _ _ hbecame _ _ => exact hcustody.sole.of_became hbecame rfl
  | went es p q msg hwent _ _ _ => exact hcustody.sole.of_went hwent
  | gone es tokens p msg hgone _ _ _ => exact hcustody.sole.of_gone hgone

/-- Only messages with a timeout come into a timer wheel. -/
theorem Custody.wheel_step (hcustody : Custody s) (hflow : Flow s a s') (h : H) :
    ∀ msg ∈ contents s' (.spot h .timerWheel), 0 < msg.timeout := by
  intro msg hmsg
  cases hflow with
  | stay es hsame _ _ _ => exact hcustody.wheel h msg (hsame _ ▸ hmsg)
  | come c new e hcome _ _ _ _ _ _ =>
      rcases hcome.mem_before_or_eq hmsg with hold | ⟨heq, -⟩
      · exact hcustody.wheel h msg hold
      · cases heq
  | draw c g old token _ _ hbecame _ _ =>
      rw [hbecame.others (.spot h .timerWheel) (fun heq => nomatch heq)] at hmsg
      exact hcustody.wheel h msg hmsg
  | went es p q moved hwent hpass _ _ =>
      rcases hwent.mem_before_or_eq hmsg with hold | ⟨rfl, rfl⟩
      · exact hcustody.wheel h msg hold
      · cases hpass
        assumption
  | gone es tokens p left hgone _ _ _ => exact hcustody.wheel h msg (hgone.mem_before hmsg)

end

/-- A message without a sequence number has not drawn one. -/
theorem Custody.undrawn_step (hcustody : Custody s) (hflow : Flow s a s')
    (p : Place H C) : ∀ msg ∈ contents s' p, msg.serialToken = none →
      ∀ token, msg.op ∉ draws token s'.trace := by
  intro msg hmsg hnone token hop
  have hnew : msg.op ∈ draws token s.trace ∨ ∃ c drawn,
      Became (contents s) (contents s') (.caller c) drawn
        (drawn.setSerialToken s.tokens token).2 ∧ msg.op = drawn.op := by
    rcases hflow.draws token with hsame | ⟨c, h, drawn, -, -, hbecame, hdrawn⟩
    · exact .inl (hsame ▸ hop)
    · rw [hdrawn] at hop
      rcases List.mem_cons.mp hop with heq | hop
      · exact .inr ⟨c, drawn, hbecame, heq⟩
      · exact .inl hop
  rcases hflow.origin hmsg with ⟨q, hq⟩ | ⟨hlength, -, -, -⟩ | ⟨c, h, old, tok, -, -, -, rfl⟩
  · rcases hnew with hold | ⟨c, drawn, hbecame, heq⟩
    · exact hcustody.undrawn q msg hq hnone token hold
    · have hdrawn : drawn ∈ contents s (.caller c) :=
        hbecame.before ▸ List.mem_singleton_self drawn
      -- the message that draws is the only one under its identity
      by_cases hp : p = .caller c
      · rw [hp, hbecame.after, List.mem_singleton] at hmsg
        rw [hmsg] at hnone
        cases hnone
      · rw [hbecame.others p hp] at hmsg
        exact hp (hcustody.sole.eq_of_key_eq hmsg hdrawn heq).1
  · rcases hnew with hold | ⟨c, drawn, hbecame, heq⟩
    · have := hcustody.drawnOld token _ hold
      omega
    · have := hcustody.old _ drawn (hbecame.before ▸ List.mem_singleton_self drawn)
      omega
  · cases hnone

theorem Custody.step (hcustody : Custody s) (hstep : Dispatch.step s a = some s') :
    Custody s' := by
  have hflow := step_flow hstep
  obtain ⟨es, htrace⟩ := hflow.trace
  have hlength : s.trace.length ≤ s'.trace.length := by
    rw [htrace, List.length_append]
    omega
  have hold : ∀ p, ∀ msg ∈ contents s' p, msg.op < s'.trace.length := by
    intro p msg hmsg
    rcases hflow.origin hmsg with ⟨q, hq⟩ | ⟨hop, -, -, hne⟩ | ⟨c, h, old, token, -, -, hmem, rfl⟩
    · have := hcustody.old q msg hq
      omega
    · have hgrown : es ≠ [] := fun hnil => hne (by rw [htrace, hnil]; rfl)
      have := List.length_pos_iff.mpr hgrown
      rw [htrace, List.length_append]
      omega
    · have := hcustody.old _ old hmem
      show old.op < _
      omega
  refine ⟨hcustody.prepared.step hstep, hcustody.sole_step hflow, hold, ?_, ?_, ?_, ?_, ?_, ?_⟩
  · intro p msg hmsg htoken
    rcases hflow.origin hmsg with ⟨q, hq⟩ | ⟨-, hnone, -, -⟩ | ⟨c, h, old, token, -, hcall, -, rfl⟩
    · exact hcustody.serial q msg hq htoken
    · exact absurd hnone htoken
    · obtain ⟨htype, htimeout, -⟩ := hcustody.prepared.toDraw c h old token hcall
      refine ⟨htype, ?_⟩
      show ¬ 0 < old.timeout
      omega
  · intro p msg hmsg htype
    rcases hflow.origin hmsg with ⟨q, hq⟩ | ⟨-, -, hzero, -⟩ | ⟨c, h, old, token, -, hcall, -, rfl⟩
    · exact hcustody.stop q msg hq htype
    · have := hzero htype
      omega
    · have htype' : old.type = .stop := htype
      rw [(hcustody.prepared.toDraw c h old token hcall).1] at htype'
      cases htype'
  · exact hcustody.wheel_step hflow
  · intro token op hop
    rcases hflow.draws token with hsame | ⟨c, h, msg, -, hcall, hbecame, hdrawn⟩
    · have := hcustody.drawnOld token op (hsame ▸ hop)
      omega
    · rw [hdrawn] at hop
      rcases List.mem_cons.mp hop with rfl | hop
      · have := hcustody.old (.caller c) msg (hbecame.before ▸ List.mem_singleton_self msg)
        omega
      · have := hcustody.drawnOld token op hop
        omega
  · intro token
    rcases hflow.draws token with hsame | ⟨c, h, msg, -, hcall, hbecame, hdrawn⟩
    · exact hsame ▸ hcustody.drawnOnce token
    · obtain ⟨-, -, hnone⟩ := hcustody.prepared.toDraw c h msg token hcall
      rw [hdrawn]
      exact List.nodup_cons.mpr ⟨hcustody.undrawn (.caller c) msg
        (hbecame.before ▸ List.mem_singleton_self msg) hnone token,
        hcustody.drawnOnce token⟩
  · exact hcustody.undrawn_step hflow

theorem reachable_custody (hreach : machine.Reachable s) : Custody s :=
  hreach.invariant (I := Custody) (fun _ hs => hs ▸ Custody.initial)
    fun _ _ _ hcustody _ hstep => hcustody.step hstep

end Dispatch
end Cyan
