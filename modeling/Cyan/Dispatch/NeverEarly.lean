import Cyan.Dispatch.TimedWheels

/-!
# A delayed task is never early

`Delayed` follows one message from the call that makes it.  Its timeout keeps the drain
from processing it, so it goes to the timer wheel of its thread.  There its request is
armed, and no callback begins before the request expires.
-/

namespace Cyan
namespace Dispatch

open Base Event

variable {H C Token : Type*} [DecidableEq H] [DecidableEq C] [DecidableEq Token]
variable {s s' : TimedState H C Token} {op : Nat} {timeout due : Int}

/-- What holds of the message of a call with a timeout: nothing begins to process it
before `due`. -/
structure Delayed (op : Nat) (timeout due : Int) (s : TimedState H C Token) : Prop where
  made : op < s.base.trace.length
  kept : ∀ p, ∀ msg ∈ contents s.base p, msg.op = op → msg.timeout = timeout
  begun : ∀ h k, k.Taken → ∀ msg ∈ contents s.base (.spot h k), msg.op = op → due ≤ s.clock
  armed : ∀ h r msg, s.captured h r = some msg → msg.op = op →
    TimerWheel.Armed r timeout due (s.wheels h)
  later : due ≤ s.clock + TimerWheel.ofMilliseconds timeout

namespace Delayed

/-! ## A step without the clock -/

section Base

variable {b b' : State H C Token} {a : Action H C Token}

/-- The timeout of a message does not change. -/
theorem kept_step (hmade : op < b.trace.length)
    (hkept : ∀ p, ∀ msg ∈ contents b p, msg.op = op → msg.timeout = timeout)
    (hstep : Dispatch.step b a = some b') :
    ∀ p, ∀ msg ∈ contents b' p, msg.op = op → msg.timeout = timeout := by
  intro p msg hmsg hop
  rcases (step_flow hstep).origin hmsg with
    ⟨q, hq⟩ | ⟨hnew, -⟩ | ⟨c, h, old, token, -, -, hold, rfl⟩
  · exact hkept q msg hq hop
  · omega
  · exact hkept _ old hold hop

theorem made_step (hmade : op < b.trace.length) (hstep : Dispatch.step b a = some b') :
    op < b'.trace.length := by
  obtain ⟨es, htrace⟩ := (step_flow hstep).trace
  rw [htrace, List.length_append]
  omega

/-- A message that is being processed was so before, or has no timeout, or has expired. -/
theorem taken_step (hstep : Dispatch.step b a = some b') {h : H} {k : Spot} (hk : k.Taken)
    {msg : Message Token} (hmsg : msg ∈ contents b' (.spot h k)) :
    (∃ k', Spot.Taken k' ∧ msg ∈ contents b (.spot h k')) ∨
      (msg ∈ contents b (.spot h .held) ∧ ¬0 < msg.timeout) ∨
      (contents b (.spot h .timerWheel)).Perm (msg :: contents b' (.spot h .timerWheel)) := by
  cases step_flow hstep with
  | stay es hsame _ _ _ => exact .inl ⟨k, hk, hsame _ ▸ hmsg⟩
  | come c new e hcome _ _ _ _ _ _ =>
      rcases hcome.mem_before_or_eq hmsg with hold | ⟨heq, -⟩
      · exact .inl ⟨k, hk, hold⟩
      · cases heq
  | draw c g old token _ _ hbecame _ _ =>
      rw [hbecame.others (.spot h k) (fun heq => nomatch heq)] at hmsg
      exact .inl ⟨k, hk, hmsg⟩
  | gone es tokens p left hgone _ _ _ => exact .inl ⟨k, hk, hgone.mem_before hmsg⟩
  | went es p q moved hwent hpass _ _ =>
      rcases hwent.mem_before_or_eq hmsg with hold | ⟨rfl, rfl⟩
      · exact .inl ⟨k, hk, hold⟩
      · cases hpass with
        | acquire _ _ hnot _ => exact .inr (.inl ⟨hwent.mem_source, hnot⟩)
        | expire => exact .inr (.inr hwent.source)
        | begin => exact .inl ⟨.acquired, trivial, hwent.mem_source⟩
        | finish => exact .inl ⟨.running, trivial, hwent.mem_source⟩
        | _ => exact absurd hk (fun hk => hk.elim)

end Base

/-- A step in which no message leaves a timer wheel. -/
theorem base_step {b' : State H C Token} {a : Action H C Token}
    (hdelayed : Delayed op timeout due s)
    (hpos : 0 < timeout) (hstep : Dispatch.step s.base a = some b')
    (hwheels : ∀ h, (s.base.threads h).timerWheel.length ≤ (b'.threads h).timerWheel.length)
    (hbase : s'.base = b') (hclock : s'.clock = s.clock)
    (harmed : ∀ h r msg, s'.captured h r = some msg → msg.op = op →
      TimerWheel.Armed r timeout due (s'.wheels h)) :
    Delayed op timeout due s' where
  made := hbase ▸ made_step hdelayed.made hstep
  kept := hbase ▸ kept_step hdelayed.made hdelayed.kept hstep
  begun h k hk msg hmsg hop := by
    rw [hbase] at hmsg
    rw [hclock]
    rcases taken_step hstep hk hmsg with ⟨k', hk', hold⟩ | ⟨hheld, hnot⟩ | hperm
    · exact hdelayed.begun h k' hk' msg hold hop
    · rw [hdelayed.kept _ msg hheld hop] at hnot
      exact absurd hpos hnot
    · -- the wheel of the thread is not shorter than before
      have hlength := hperm.length_eq
      have hle : (s.base.threads h).timerWheel.length ≤ (b'.threads h).timerWheel.length :=
        hwheels h
      have hlength : (s.base.threads h).timerWheel.length =
        (b'.threads h).timerWheel.length + 1 := hlength
      omega
  armed := harmed
  later := by
    rw [hclock]
    exact hdelayed.later

/-! ## A step with the clock -/

omit [DecidableEq C] [DecidableEq Token] in
/-- A step of one wheel. -/
theorem armed_wheel (hdelayed : Delayed op timeout due s) {h : H} {w : TimerWheel}
    {a : TimerWheel.Action} (hstep : TimerWheel.machine.step (s.wheels h) a = some w) (g : H)
    (r : Nat) (msg : Message Token) (hmsg : s.captured g r = some msg) (hop : msg.op = op) :
    TimerWheel.Armed r timeout due (Function.update s.wheels h w g) := by
  have harmed := hdelayed.armed g r msg hmsg hop
  by_cases hgh : g = h
  · subst hgh
    rw [Function.update_self]
    exact harmed.move (TimerWheel.step_move hstep)
  · rw [Function.update_of_ne hgh]
    exact harmed

/-- The message is posted to the wheel of its thread. -/
theorem armed_delay (hdelayed : Delayed op timeout due s) (hcoupled : Coupled s) {h : H}
    {d : Drain} {msg : Message Token} (hpc : (s.base.threads h).pc = .dispatch d msg) (g : H)
    (r : Nat) (held : Message Token) (hheld : (s.postDelayed h msg).captured g r = some held)
    (hop : held.op = op) : TimerWheel.Armed r timeout due ((s.postDelayed h msg).wheels g) := by
  have htied := hcoupled.tied h
  have hcall := Tied.callable_of_idle (htied.idle_of_dispatch hpc)
  have hheld : Function.update s.captured h _ g r = some held := hheld
  show TimerWheel.Armed r timeout due (Function.update s.wheels h _ g)
  by_cases hgh : g = h
  · subst hgh
    rw [Function.update_self] at hheld ⊢
    by_cases hr : r = (s.wheels g).posts
    · subst hr
      rw [Function.update_self] at hheld
      cases hheld
      have hmem : msg ∈ contents s.base (.spot g .held) := by
        show msg ∈ (s.base.threads g).pc.holds .held
        rw [hpc]
        exact List.mem_singleton_self msg
      have htimeout := hdelayed.kept _ msg hmem hop
      have hexact : TimerWheel.toMilliseconds (TimerWheel.ofMilliseconds timeout) = timeout :=
        Int.mul_tdiv_cancel _ (by decide)
      have hlater := hdelayed.later
      rw [← htied.sameClock] at hlater
      have hpost := TimerWheel.Armed.post (d := TimerWheel.ofMilliseconds timeout) hlater
        (by rw [hexact]; exact hlater)
      rw [hexact] at hpost
      rw [htimeout]
      exact hpost
    · rw [Function.update_of_ne hr] at hheld
      exact (hdelayed.armed g r held hheld hop).move (.post _ hcall)
  · rw [Function.update_of_ne hgh] at hheld ⊢
    exact hdelayed.armed g r held hheld hop

/-- The callback of an armed request begins at `due` or later. -/
theorem callback (hdelayed : Delayed op timeout due s) (hcoupled : Coupled s) {h : H}
    {w : TimerWheel} {now : Int} {r : Nat} {msg : Message Token}
    (hstep : TimerWheel.machine.step (s.wheels h) .run = some w)
    (hpc : w.pc = .process now r) (hmsg : s.captured h r = some msg) (hop : msg.op = op) :
    due ≤ s.clock := by
  have htied := hcoupled.tied h
  have hmove : TimerWheel.BookMove (s.wheels h) w := TimerWheel.stepBookkeeper_move hstep
  rw [← htied.sameClock]
  exact (hdelayed.armed h r msg hmsg hop).le_clock htied.reachable hstep (hmove.starts hpc)

theorem move {a : TimedAction H C Token} (hdelayed : Delayed op timeout due s)
    (hpos : 0 < timeout) (hcoupled : Coupled s) (hmove : TimedMove s a s') :
    Delayed op timeout due s' := by
  cases hmove with
  | call b base hcall hstep =>
      refine hdelayed.base_step hpos hstep (fun h => ?_) rfl rfl hdelayed.armed
      rw [(call_frame hcall hstep h).2]
  | own h choice o hfree hstep hwheel =>
      refine hdelayed.base_step hpos (step_thread hstep) (fun g => ?_) rfl rfl hdelayed.armed
      by_cases hgh : g = h
      · subst hgh
        rw [State.apply_self, hwheel]
      · rw [State.apply_of_ne _ _ hgh]
  | delay h choice d msg hpc hdelay hstep =>
      refine hdelayed.base_step hpos hstep (fun g => ?_) rfl rfl fun g r held hheld hop => ?_
      · by_cases hgh : g = h
        · subst hgh
          rw [State.apply_self]
          show _ ≤ ((s.base.threads g).timerWheel ++ [msg]).length
          rw [List.length_append]
          omega
        · rw [State.apply_of_ne _ _ hgh]
      · exact hdelayed.armed_delay hcoupled hpc g r held hheld hop
  | wait d =>
      refine { hdelayed with
        begun := fun h k hk msg hmsg hop => ?_
        armed := fun h r msg hmsg hop => ?_
        later := ?_ }
      · have hle := hdelayed.begun h k hk msg hmsg hop
        show due ≤ s.clock + d
        omega
      · have harmed := hdelayed.armed h r msg hmsg hop
        exact harmed.move (.wait d)
      · have hle := hdelayed.later
        show due ≤ s.clock + d + _
        omega
  | tick h w hloop hstep =>
      exact { hdelayed with armed := hdelayed.armed_wheel hstep }
  | bookkeeper h w hloop hstep hnone =>
      exact { hdelayed with armed := hdelayed.armed_wheel hstep }
  | callback h w now r msg hloop hstep hpc hmsg =>
      obtain ⟨b, hb⟩ := hcoupled.step_callback hloop hstep hpc hmsg
      refine {
        made := made_step hdelayed.made hb
        kept := kept_step hdelayed.made hdelayed.kept hb
        begun := fun g k hk taken htaken hop => ?_
        armed := hdelayed.armed_wheel hstep
        later := hdelayed.later }
      by_cases hgh : g = h
      · subst hgh
        -- the thread holds the message of the callback and no other
        have hsame : taken = msg := by
          have htaken : taken ∈ ((TimedState.beginCallback s.base g msg).threads g).holds k :=
            htaken
          rw [TimedState.beginCallback, State.apply_self] at htaken
          cases k <;> first | exact hk.elim | exact List.mem_singleton.mp htaken | cases htaken
        subst hsame
        exact hdelayed.callback hcoupled hstep hpc hmsg hop
      · have htaken : taken ∈ ((TimedState.beginCallback s.base h msg).threads g).holds k :=
          htaken
        rw [TimedState.beginCallback, State.apply_of_ne _ _ hgh] at htaken
        exact hdelayed.begun g k hk taken htaken hop

theorem exec (hdelayed : Delayed op timeout due s) (hpos : 0 < timeout)
    (hreach : TimedState.machine.Reachable s) {as : List (TimedAction H C Token)}
    (hexec : TimedState.machine.exec s as = some s') : Delayed op timeout due s' := by
  obtain ⟨-, hlast⟩ := Machine.exec_invariant
    (I := fun s => TimedState.machine.Reachable s ∧ Delayed op timeout due s)
    (fun _ _ _ _ ⟨hreach, hdelayed⟩ hstep => ⟨.step hreach trivial hstep,
      hdelayed.move hpos (coupled hreach) (timed_step_move hstep)⟩) ⟨hreach, hdelayed⟩ hexec
  exact hlast

/-- A call with a timeout makes a message that is delayed by it. -/
theorem call (hcoupled : Coupled s) {c : C} {h : H} {msg : Message Token}
    {e : Mark H C Token} (hop : msg.op = s.base.trace.length) (hidle : s.base.callers c = none) :
    Delayed msg.op msg.timeout (s.clock + TimerWheel.ofMilliseconds msg.timeout)
      { s with base := { s.base with
        callers := Function.update s.base.callers c (some (h, .enqueue (.isStopping msg)))
        trace := e :: s.base.trace } } := by
  have hcustody := reachable_custody hcoupled.base
  have hnew : ∀ p, ∀ other ∈ contents s.base p, other.op ≠ msg.op := by
    intro p other hother
    have hold := hcustody.old p other hother
    omega
  refine {
    made := ?_
    kept := fun p other hother hsame => ?_
    begun := fun g k _ other hother hsame => absurd hsame (hnew (.spot g k) other hother)
    armed := fun g r other hother hsame => ?_
    later := Int.le_refl _ }
  · show msg.op < (e :: s.base.trace).length
    rw [List.length_cons]
    omega
  · cases p with
    | spot g k => exact absurd hsame (hnew (.spot g k) other hother)
    | caller b =>
        have hother : other ∈ (Function.update s.base.callers c
            (some (h, Call.enqueue (.isStopping msg))) b).elim [] fun x => x.2.holds := hother
        by_cases hbc : b = c
        · subst hbc
          rw [Function.update_self] at hother
          rw [List.mem_singleton.mp hother]
        · rw [Function.update_of_ne hbc] at hother
          exact absurd hsame (hnew (.caller b) other hother)
  · have hold := hcoupled.old g r other hother
    omega

end Delayed

omit [DecidableEq C] in
/-- The thread has taken the message that it starts to process. -/
theorem Flow.mem_of_started {b b' : State H C Token} {a : Action H C Token}
    (hflow : Flow b a b') {msg : Message Token} {h : H}
    (hstarts : b'.trace = .started msg h :: b.trace) : msg ∈ contents b (.spot h .acquired) := by
  rcases hflow.begins h with ⟨es, htrace, hnone⟩ | ⟨begun, hwent, htrace⟩
  · rw [hstarts, ← List.singleton_append, List.append_left_inj] at htrace
    exact absurd rfl (hnone _ (htrace ▸ List.mem_singleton_self _) msg)
  · rw [hstarts] at htrace
    cases htrace
    exact hwent.mem_source

/-- The call posts a task or sends a payload with the timeout. -/
def Action.delays (timeout : Int) : Action H C Token → Prop
  | .post _ _ d => d = timeout
  | .send _ _ d => d = timeout
  | _ => False

theorem delayed_of_call {a : Action H C Token} (hcoupled : Coupled s)
    (hcall : a.delays timeout) (hstep : TimedState.machine.step s (.base a) = some s') :
    Delayed s.base.trace.length timeout
      (s.clock + TimerWheel.ofMilliseconds timeout) s' := by
  have hmove : TimedMove s (.base a) s' := timed_step_move hstep
  cases a with
  | post c h d =>
      obtain rfl : d = timeout := hcall
      cases hmove with
      | call _ base _ hbase =>
          cases Dispatch.step_move hbase with
          | opens _ _ _ _ e hopens hidle =>
              cases hopens
              have hnew : (makeCallableMessage d s.base.trace.length : Message Token).op =
                s.base.trace.length := rfl
              exact Delayed.call hcoupled hnew hidle
  | send c h d =>
      obtain rfl : d = timeout := hcall
      cases hmove with
      | call _ base _ hbase =>
          cases Dispatch.step_move hbase with
          | opens _ _ _ _ e hopens hidle =>
              cases hopens
              have hnew : (makePayloadMessage d s.base.trace.length : Message Token).op =
                s.base.trace.length := rfl
              exact Delayed.call hcoupled hnew hidle
  | _ => exact hcall.elim

/-- A delayed task is never early: when a message of a call with a timeout of `timeout`
milliseconds starts to be processed, the clock has gone on by that much since the call. -/
theorem never_early {s₀ s₁ : TimedState H C Token}
    (hreach : TimedState.machine.Reachable s₀) {call : Action H C Token} {timeout : Int}
    (hpos : 0 < timeout) (hcall : call.delays timeout)
    (hopens : TimedState.machine.step s₀ (.base call) = some s₁)
    {as : List (TimedAction H C Token)} (hexec : TimedState.machine.exec s₁ as = some s)
    {a : TimedAction H C Token} (hstep : TimedState.machine.step s a = some s')
    {msg : Message Token} {h : H} (hop : msg.op = s₀.base.trace.length)
    (hstarts : s'.base.trace = .started msg h :: s.base.trace) :
    s₀.clock + TimerWheel.ofMilliseconds timeout ≤ s.clock := by
  have hreach₁ : TimedState.machine.Reachable s₁ := .step hreach trivial hopens
  have hreach' := hreach₁.exec hexec
  have hdelayed := (delayed_of_call (coupled hreach) hcall hopens).exec hpos hreach₁ hexec
  rcases (coupled hreach').base_move (timed_step_move hstep) with hsame | ⟨b, hb⟩
  · rw [hsame] at hstarts
    exact absurd hstarts.symm (List.cons_ne_self _ _)
  · exact hdelayed.begun h .acquired trivial msg ((step_flow hb).mem_of_started hstarts) hop

/-- A task that is posted with a timeout of five milliseconds before the thread runs, up to
the callback. -/
def delayedRun : List (TimedAction Unit Unit Unit) :=
  List.replicate 3 (.base (.call ())) ++ List.replicate 11 (.base (.thread () .run)) ++
    [.wait 5000000, .tick (), .bookkeeper ()]

theorem never_early_run : ∃ s s' : TimedState Unit Unit Unit, ∃ msg,
    s'.base.trace = .started msg () :: s.base.trace ∧
      0 + TimerWheel.ofMilliseconds 5 ≤ s.clock := by
  obtain ⟨s₁, hopens, s, hexec, s', hstep, msg, hop, hstarts⟩ :
      ∃ s₁, TimedState.machine.step (TimedState.initial 0 : TimedState Unit Unit Unit)
          (.base (.post () () 5)) = some s₁ ∧
        ∃ s, TimedState.machine.exec s₁ delayedRun = some s ∧
          ∃ s', TimedState.machine.step s (.base (.thread () .run)) = some s' ∧
            ∃ msg, msg.op = 0 ∧ s'.base.trace = .started msg () :: s.base.trace :=
    ⟨_, rfl, _, rfl, _, rfl, _, rfl, rfl⟩
  have hcall : (Action.post () () 5 : Action Unit Unit Unit).delays 5 := rfl
  exact ⟨s, s', msg, hstarts,
    never_early (.start ⟨0, rfl⟩) (by decide) hcall hopens hexec hstep hop hstarts⟩

end Dispatch
end Cyan
