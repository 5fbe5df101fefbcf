import Cyan.Dispatch.Custody
import Cyan.Dispatch.DelayedTask
import Cyan.Event.TimerWheelDue

/-!
# The timer wheels of the handler threads

What ties the wheels with their clock to the handler threads without one.

* `Booked` says that the messages which a thread has in its timer wheel are those of the
  requests that `bookkeeper` has not come to yet.
* `Coupled` is the invariant of every run.  A step with a clock is a step without one or
  leaves the threads alone, so what holds of all runs of the handler threads holds here.
-/

namespace Cyan
namespace Event
namespace TimerWheel

/-- The request that `bookkeeper` takes out. -/
def Pc.current : Pc → Option Nat
  | .process _ i => some i
  | .eraseRequest _ i => some i
  | .eraseEntry _ i => some i
  | _ => none

end TimerWheel
end Event

namespace Dispatch

open Base Event

section Booked

variable {M : Type*} {held : List M} {captured : Nat → Option M} {w w' : TimerWheel}

/-- The messages of the requests that wait in the wheel are `held`. -/
def Booked (held : List M) (captured : Nat → Option M) (w : TimerWheel) : Prop :=
  ∃ rs : List Nat, (Multimap.values w.timeHiearchy).Perm (w.pc.current.toList ++ rs) ∧
    (rs.map captured).Perm (held.map some)

theorem Booked.frame (h : Booked held captured w)
    (htime : (Multimap.values w'.timeHiearchy).Perm (Multimap.values w.timeHiearchy))
    (hpc : w'.pc.current = w.pc.current) : Booked held captured w' := by
  obtain ⟨rs, hvalues, hheld⟩ := h
  refine ⟨rs, htime.trans ?_, hheld⟩
  rw [hpc]
  exact hvalues

/-- A message is posted to the wheel. -/
theorem Booked.post (h : Booked held captured w) (hstored : TimerWheel.Stored w)
    (msg : M) (timeout : Int) :
    Booked (held ++ [msg]) (Function.update captured w.posts (some msg)) (w.post timeout) := by
  obtain ⟨rs, hvalues, hheld⟩ := h
  have hold : ∀ r ∈ rs, r ≠ w.posts := by
    intro r hr
    have hmem := hvalues.symm.subset (List.mem_append_right _ hr)
    exact Nat.ne_of_lt (hstored.old r hmem)
  have hsame : rs.map (Function.update captured w.posts (some msg)) = rs.map captured :=
    List.map_congr_left fun r hr => Function.update_of_ne (hold r hr) ..
  refine ⟨w.posts :: rs, ?_, ?_⟩
  · rw [TimerWheel.post_timeHiearchy, TimerWheel.post_pc]
    exact (Multimap.values_emplace ..).trans ((hvalues.cons _).trans List.perm_middle.symm)
  · rw [List.map_cons, Function.update_self, hsame, List.map_append, List.map_singleton]
    exact (hheld.cons _).trans (List.perm_append_singleton ..).symm

/-- A step of `bookkeeper` leaves the waiting requests alone or begins the callback of one
of them. -/
theorem Booked.bookkeeper [DecidableEq M] (h : Booked held captured w)
    (hlive : ∀ r, (w.request r).isCancelled = false) (hmove : TimerWheel.BookMove w w') :
    Booked held captured w' ∧ (∀ now r, w'.pc ≠ .process now r) ∨
      ∃ now r msg, w'.pc = .process now r ∧ captured r = some msg ∧ msg ∈ held ∧
        TimerWheel.Starts w w' r ∧ Booked (held.erase msg) captured w' := by
  cases hmove with
  | atEnd hpc =>
      exact .inl ⟨h.frame (.refl _) (by rw [hpc]; rfl), fun _ _ heq => nomatch heq⟩
  | @stale now i entry hpc hentry _ =>
      have hperm := TimerWheel.Stored.values_reinsert (w.request i).expiry
        (TimerWheel.Stored.find_mem hentry)
      refine .inl ⟨h.frame hperm rfl, fun _ _ heq => ?_⟩
      rw [hpc] at heq
      cases heq
  | @due now i entry hpc hentry _ _ _ =>
      obtain ⟨rs, hvalues, hheld⟩ := h
      rw [hpc] at hvalues
      have hi : i ∈ rs := hvalues.subset (TimerWheel.Stored.find_mem hentry)
      obtain ⟨msg, hmsg, hcaptured⟩ := List.mem_map.mp
        (hheld.subset (List.mem_map_of_mem (f := captured) hi))
      have hrs := List.perm_cons_erase hi
      refine .inr ⟨now, i, msg, rfl, hcaptured.symm, hmsg, ⟨_, rfl⟩, rs.erase i,
        hvalues.trans hrs, ?_⟩
      have hboth := ((hrs.map captured).symm.trans hheld).trans
        ((List.perm_cons_erase hmsg).map some)
      rw [List.map_cons, List.map_cons, hcaptured] at hboth
      exact hboth.cons_inv
  | dueCancelled hpc _ _ _ hcancelled =>
      rw [hlive] at hcancelled
      cases hcancelled
  | notDue hpc _ _ _ =>
      exact .inl ⟨h.frame (.refl _) (by rw [hpc]; rfl), fun _ _ heq => nomatch heq⟩
  | processed hpc =>
      exact .inl ⟨h.frame (.refl _) (by rw [hpc]; rfl), fun _ _ heq => nomatch heq⟩
  | eraseRequest hpc =>
      exact .inl ⟨h.frame (.refl _) (by rw [hpc]; rfl), fun _ _ heq => nomatch heq⟩
  | @eraseEntry now i hpc =>
      obtain ⟨rs, hvalues, hheld⟩ := h
      rw [hpc] at hvalues
      have hi : i ∈ Multimap.values w.timeHiearchy :=
        hvalues.symm.subset (List.mem_cons_self ..)
      refine .inl ⟨⟨rs, ?_, hheld⟩, fun _ _ heq => nomatch heq⟩
      exact ((Multimap.perm_erase hi).symm.trans hvalues).cons_inv
  | finish active hpc _ =>
      exact .inl ⟨h.frame (.refl _) (by rw [hpc]; rfl), fun _ _ heq => nomatch heq⟩

end Booked

variable {H C Token : Type*} [DecidableEq H] [DecidableEq C] [DecidableEq Token]
variable {h : H} {tokens : Token → SerialToken} {t : HandlerThread Token}
  {o : Outcome H C Token} {s s' : TimedState H C Token}

/-! ## Where the thread stands while `bookkeeper` runs -/

/-- The thread is inside a callback of the timer wheel. -/
def HandlerThread.inCallback (t : HandlerThread Token) : Bool :=
  match t.pc with
  | .process .timer _ => true
  | .running .timer _ => true
  | .release .timer _ => true
  | _ => false

omit [DecidableEq H] [DecidableEq C] in
theorem ThreadMove.inCallback (hmove : ThreadMove h tokens t o)
    (hin : t.inCallback = true) : o.thread.inLoop = true ∨ o.thread.inCallback = true := by
  unfold HandlerThread.inCallback at hin
  cases hmove with
  | @stopLoop og msg hpc _ =>
      rw [hpc] at hin
      cases og with
      | queue d => cases hin
      | timer => exact .inl rfl
  | @begin og msg hpc _ =>
      rw [hpc] at hin
      cases og with
      | queue d => cases hin
      | timer => exact .inr rfl
  | @release og msg hpc =>
      rw [hpc] at hin
      cases og with
      | queue d => cases hin
      | timer => exact .inl rfl
  | @finish og msg threw hpc _ =>
      rw [hpc] at hin
      cases og with
      | queue d => cases hin
      | timer => exact .inr rfl
  | @finishPayload og msg threw hpc _ =>
      rw [hpc] at hin
      cases og with
      | queue d => cases hin
      | timer => exact .inl rfl
  | expire hpc _ => rcases hpc with hpc | hpc <;> rw [hpc] at hin <;> cases hin
  | _ => simp_all

/-- While `bookkeeper` runs, the thread is in the loop or in a callback. -/
def Attended (w : TimerWheel) (t : HandlerThread Token) : Prop :=
  w.pc = .idle ∨ t.inLoop = true ∨ t.inCallback = true

/-! ## What a call leaves alone -/

theorem call_frame {s s' : State H C Token} {a : Action H C Token}
    (hcall : ∀ h choice, a ≠ .thread h choice) (hstep : Dispatch.step s a = some s') (h : H) :
    (s'.threads h).pc = (s.threads h).pc ∧
      (s'.threads h).timerWheel = (s.threads h).timerWheel := by
  cases step_view hstep h with
  | other hsame _ => rw [hsame]; exact ⟨rfl, rfl⟩
  | call c call o _ _ hmove hthread _ =>
      rw [hthread]
      exact ⟨hmove.frame.pc, hmove.frame.timerWheel⟩
  | thread choice o ha _ _ _ => exact absurd ha (hcall h choice)

/-- The callback that `bookkeeper` begins is the expiry of its message. -/
theorem step_beginCallback {s : State H C Token} {h : H} {msg : Message Token}
    (hloop : (s.threads h).inLoop = true) (hmsg : msg ∈ (s.threads h).timerWheel) :
    Dispatch.step s (.thread h (.expire ((s.threads h).timerWheel.idxOf msg))) =
      some (TimedState.beginCallback s h msg) := by
  have hget := List.getElem?_idxOf hmsg
  have herase := List.eraseIdx_idxOf_eq_erase msg (s.threads h).timerWheel
  unfold HandlerThread.inLoop at hloop
  simp only [Dispatch.step, stepThread]
  split at hloop
  · rename_i hpc
    rw [hpc, stepExpire, hget, Option.map_some, Option.map_some, herase]
    rfl
  · rename_i hpc
    rw [hpc, stepExpire, hget, Option.map_some, Option.map_some, herase]
    rfl
  · cases hloop

/-! ## The invariant of every run -/

/-- What the clock and the wheel have to do with a handler thread. -/
structure Tied (clock : Int) (w : TimerWheel) (t : HandlerThread Token)
    (captured : Nat → Option (Message Token)) : Prop where
  reachable : TimerWheel.machine.Reachable w
  sameClock : w.clock = clock
  live : ∀ r, (w.request r).isCancelled = false
  attended : Attended w t
  booked : Booked t.timerWheel captured w

/-- The handler threads are in a state of a run without a clock, and the wheels are in
states of their own runs. -/
structure Coupled (s : TimedState H C Token) : Prop where
  base : Dispatch.machine.Reachable s.base
  tied : ∀ h, Tied s.clock (s.wheels h) (s.base.threads h) (s.captured h)
  old : ∀ h r msg, s.captured h r = some msg → msg.op < s.base.trace.length

namespace Tied

variable {clock : Int} {w w' : TimerWheel} {t t' : HandlerThread Token}
  {captured : Nat → Option (Message Token)}

section

omit [DecidableEq Token]

theorem initial (clock : Int) :
    Tied clock (TimerWheel.create clock) (HandlerThread.initial : HandlerThread Token)
      fun _ => none where
  reachable := .start ⟨clock, _, rfl⟩
  sameClock := rfl
  live _ := rfl
  attended := .inl rfl
  booked := ⟨[], .refl _, .refl _⟩

/-- The thread goes on and leaves its wheel alone. -/
theorem thread (h : Tied clock w t captured) (hattended : Attended w t')
    (hwheel : t'.timerWheel = t.timerWheel) : Tied clock w t' captured :=
  { h with
    attended := hattended
    booked := by
      rw [hwheel]
      exact h.booked }

/-- A step of the wheel that cancels nothing. -/
theorem wheel (h : Tied clock w t captured) {a : TimerWheel.Action}
    (hstep : TimerWheel.machine.step w a = some w') (hclock : w'.clock = clock)
    (hlive : ∀ r, (w'.request r).isCancelled = (w.request r).isCancelled)
    (hattended : Attended w' t') (hbooked : Booked t'.timerWheel captured w') :
    Tied clock w' t' captured where
  reachable := .step h.reachable trivial hstep
  sameClock := hclock
  live r := (hlive r).trans (h.live r)
  attended := hattended
  booked := hbooked

/-- In front of a message the wheel is idle. -/
theorem idle_of_dispatch (h : Tied clock w t captured) {d : Drain} {msg : Message Token}
    (hpc : t.pc = .dispatch d msg) : w.pc = .idle := by
  rcases h.attended with hidle | hloop | hcallback
  · exact hidle
  · rw [HandlerThread.inLoop, hpc] at hloop
    cases hloop
  · rw [HandlerThread.inCallback, hpc] at hcallback
    cases hcallback

end

theorem callable_of_idle (hidle : w.pc = .idle) : w.callable = true := by
  rw [TimerWheel.callable, hidle]

section

omit [DecidableEq Token]

/-- The thread posts a message to its wheel. -/
theorem delay (h : Tied clock w t captured) {d : Drain} {msg : Message Token}
    (hpc : t.pc = .dispatch d msg) :
    Tied clock (w.post (TimerWheel.ofMilliseconds msg.timeout))
      ({ t with timerWheel := t.timerWheel ++ [msg] }.goto (.drain d))
      (Function.update captured w.posts (some msg)) := by
  have hidle := h.idle_of_dispatch hpc
  have hstep : TimerWheel.machine.step w
      (.post (TimerWheel.ofMilliseconds msg.timeout)) = some _ :=
    if_pos (callable_of_idle hidle)
  exact {
    reachable := .step h.reachable trivial hstep
    sameClock := by rw [TimerWheel.post_clock, h.sameClock]
    live := fun r => by
      rw [TimerWheel.post_request, Function.update_apply]
      split
      · rfl
      · exact h.live r
    attended := .inl (by rw [TimerWheel.post_pc, hidle])
    booked := h.booked.post (TimerWheel.stored h.reachable) msg _ }

theorem wait (h : Tied clock w t captured) (d : Nat) :
    Tied (clock + d) { w with clock := w.clock + d } t captured where
  reachable := .step h.reachable trivial (a := .wait d) rfl
  sameClock := by
    show w.clock + d = clock + d
    rw [h.sameClock]
  live := h.live
  attended := h.attended
  booked := h.booked

theorem tick (h : Tied clock w t captured) (hloop : t.inLoop = true)
    (hstep : TimerWheel.machine.step w .tick = some w') : Tied clock w' t captured := by
  have hmove : TimerWheel.Move w .tick w' := TimerWheel.step_move hstep
  cases hmove with
  | tick hpc =>
      refine h.wheel hstep h.sameClock (fun _ => rfl) (.inr (.inl hloop)) ?_
      exact h.booked.frame (.refl _) (by rw [hpc]; rfl)

end

/-- A step of `bookkeeper`, which may begin a callback. -/
theorem bookkeeper (h : Tied clock w t captured) (hloop : t.inLoop = true)
    (hstep : TimerWheel.machine.step w .run = some w') :
    Tied clock w' t captured ∧ (∀ now r, w'.pc ≠ .process now r) ∨
      ∃ now r msg, w'.pc = .process now r ∧ captured r = some msg ∧ msg ∈ t.timerWheel ∧
        Tied clock w' ({ t with timerWheel := t.timerWheel.erase msg }.goto
          (.process .timer msg)) captured := by
  have hmove : TimerWheel.BookMove w w' := TimerWheel.stepBookkeeper_move hstep
  have hclock : w'.clock = clock := hmove.clock.trans h.sameClock
  have hlive : ∀ r, (w'.request r).isCancelled = (w.request r).isCancelled := by
    intro r
    cases hmove <;> rfl
  rcases h.booked.bookkeeper h.live hmove with
    ⟨hbooked, hnone⟩ | ⟨now, r, msg, hpc, hcaptured, hmsg, -, hbooked⟩
  · exact .inl ⟨h.wheel hstep hclock hlive (.inr (.inl hloop)) hbooked, hnone⟩
  · exact .inr ⟨now, r, msg, hpc, hcaptured, hmsg,
      h.wheel hstep hclock hlive (.inr (.inr rfl)) hbooked⟩

end Tied

theorem step_thread {s : State H C Token} {h : H} {choice : Choice}
    (hstep : stepThread h s.tokens (s.threads h) choice = some o) :
    Dispatch.step s (.thread h choice) = some (s.apply h o) := by
  rw [Dispatch.step, hstep, Option.map_some]

/-- The message of the callback that begins is in the timer wheel of the thread. -/
theorem Coupled.step_callback (hcoupled : Coupled s) {h : H} {w : TimerWheel} {now : Int}
    {r : Nat} {msg : Message Token} (hloop : (s.base.threads h).inLoop = true)
    (hstep : TimerWheel.machine.step (s.wheels h) .run = some w)
    (hpc : w.pc = .process now r) (hmsg : s.captured h r = some msg) :
    ∃ b, Dispatch.step s.base b = some (TimedState.beginCallback s.base h msg) := by
  rcases (hcoupled.tied h).bookkeeper hloop hstep with
    ⟨-, hnone⟩ | ⟨now', r', msg', hpc', hmsg', hmem, -⟩
  · exact absurd hpc (hnone now r)
  · rw [hpc] at hpc'
    cases hpc'
    rw [hmsg] at hmsg'
    cases hmsg'
    exact ⟨_, step_beginCallback hloop hmem⟩

/-- A step of the handler threads with a clock is one without it, or leaves them alone. -/
theorem Coupled.base_move {a : TimedAction H C Token} (hcoupled : Coupled s)
    (hmove : TimedMove s a s') :
    s'.base = s.base ∨ ∃ b, Dispatch.step s.base b = some s'.base := by
  cases hmove with
  | call b base hcall hstep => exact .inr ⟨b, hstep⟩
  | own h choice o hfree hstep hwheel => exact .inr ⟨_, step_thread hstep⟩
  | delay h choice d msg hpc hdelay hstep => exact .inr ⟨_, hstep⟩
  | wait d => exact .inl rfl
  | tick h w hloop hstep => exact .inl rfl
  | bookkeeper h w hloop hstep hnone => exact .inl rfl
  | callback h w now r msg hloop hstep hpc hmsg =>
      exact .inr (hcoupled.step_callback hloop hstep hpc hmsg)

theorem Coupled.tied_move {a : TimedAction H C Token} (hcoupled : Coupled s)
    (hmove : TimedMove s a s')
    (g : H) : Tied s'.clock (s'.wheels g) (s'.base.threads g) (s'.captured g) := by
  have hg := hcoupled.tied g
  cases hmove with
  | call b base hcall hstep =>
      obtain ⟨hpc, hwheel⟩ := call_frame hcall hstep g
      refine hg.thread ?_ hwheel
      have hattended := hg.attended
      unfold Attended HandlerThread.inLoop HandlerThread.inCallback at hattended ⊢
      rw [hpc]
      exact hattended
  | own h choice o hfree hstep hwheel =>
      by_cases hgh : g = h
      · subst hgh
        show Tied _ _ ((s.base.apply g o).threads g) _
        rw [State.apply_self]
        refine hg.thread ?_ hwheel
        rcases hg.attended with hidle | hloop | hcallback
        · exact .inl hidle
        · rw [TimedState.free, hloop, Bool.not_true, Bool.or_false] at hfree
          exact .inl (of_decide_eq_true hfree)
        · exact .inr ((stepThread_move hstep).inCallback hcallback)
      · show Tied _ _ ((s.base.apply h o).threads g) _
        rw [State.apply_of_ne _ _ hgh]
        exact hg
  | delay h choice d msg hpc hdelay hstep =>
      by_cases hgh : g = h
      · subst hgh
        show Tied _ (Function.update s.wheels g _ g) ((s.base.apply g _).threads g)
          (Function.update s.captured g _ g)
        rw [Function.update_self, Function.update_self, State.apply_self]
        exact hg.delay hpc
      · show Tied _ (Function.update s.wheels h _ g) ((s.base.apply h _).threads g)
          (Function.update s.captured h _ g)
        rw [Function.update_of_ne hgh, Function.update_of_ne hgh, State.apply_of_ne _ _ hgh]
        exact hg
  | wait d => exact hg.wait d
  | tick h w hloop hstep =>
      by_cases hgh : g = h
      · subst hgh
        show Tied _ (Function.update s.wheels g w g) _ _
        rw [Function.update_self]
        exact hg.tick hloop hstep
      · show Tied _ (Function.update s.wheels h w g) _ _
        rw [Function.update_of_ne hgh]
        exact hg
  | bookkeeper h w hloop hstep hnone =>
      by_cases hgh : g = h
      · subst hgh
        show Tied _ (Function.update s.wheels g w g) _ _
        rw [Function.update_self]
        rcases hg.bookkeeper hloop hstep with ⟨htied, -⟩ | ⟨now, r, msg, hpc, hmsg, -, -⟩
        · exact htied
        · rw [hnone now r hpc] at hmsg
          cases hmsg
      · show Tied _ (Function.update s.wheels h w g) _ _
        rw [Function.update_of_ne hgh]
        exact hg
  | callback h w now r msg hloop hstep hpc hmsg =>
      by_cases hgh : g = h
      · subst hgh
        show Tied _ (Function.update s.wheels g w g)
          ((TimedState.beginCallback s.base g msg).threads g) _
        rw [Function.update_self, TimedState.beginCallback, State.apply_self]
        rcases hg.bookkeeper hloop hstep with
          ⟨-, hnone⟩ | ⟨now', r', msg', hpc', hmsg', -, htied⟩
        · exact absurd hpc (hnone now r)
        · rw [hpc] at hpc'
          cases hpc'
          rw [hmsg] at hmsg'
          cases hmsg'
          exact htied
      · show Tied _ (Function.update s.wheels h w g)
          ((TimedState.beginCallback s.base h msg).threads g) _
        rw [Function.update_of_ne hgh, TimedState.beginCallback, State.apply_of_ne _ _ hgh]
        exact hg

/-- A callback holds a message that the thread has had in hand. -/
theorem Coupled.old_move {a : TimedAction H C Token} (hcoupled : Coupled s)
    (hmove : TimedMove s a s') (g : H) (r : Nat) (msg : Message Token)
    (hmsg : s'.captured g r = some msg) : msg.op < s.base.trace.length := by
  cases hmove with
  | delay h choice d held hpc hdelay hstep =>
      have hmsg : Function.update s.captured h _ g r = some msg := hmsg
      by_cases hgh : g = h
      · subst hgh
        rw [Function.update_self] at hmsg
        by_cases hr : r = (s.wheels g).posts
        · subst hr
          rw [Function.update_self] at hmsg
          cases hmsg
          refine (reachable_custody hcoupled.base).old (.spot g .held) msg ?_
          show msg ∈ (s.base.threads g).pc.holds .held
          rw [hpc]
          exact List.mem_singleton_self msg
        · rw [Function.update_of_ne hr] at hmsg
          exact hcoupled.old g r msg hmsg
      · rw [Function.update_of_ne hgh] at hmsg
        exact hcoupled.old g r msg hmsg
  | _ => exact hcoupled.old g r msg hmsg

theorem coupled (hreach : TimedState.machine.Reachable s) : Coupled s := by
  refine hreach.invariant ?_ fun s a s' hcoupled _ hstep => ?_
  · rintro s ⟨clock, rfl⟩
    exact ⟨.start rfl, fun _ => .initial clock, fun _ _ _ hmsg => nomatch hmsg⟩
  · have hmove := timed_step_move hstep
    rcases hcoupled.base_move hmove with hsame | ⟨b, hb⟩
    · exact ⟨hsame ▸ hcoupled.base, hcoupled.tied_move hmove,
        hsame ▸ hcoupled.old_move hmove⟩
    · refine ⟨.step hcoupled.base trivial hb, hcoupled.tied_move hmove,
        fun h r msg hmsg => ?_⟩
      obtain ⟨es, htrace⟩ := (step_flow hb).trace
      have hold := hcoupled.old_move hmove h r msg hmsg
      rw [htrace, List.length_append]
      omega

end Dispatch
end Cyan
