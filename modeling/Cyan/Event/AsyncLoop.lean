import Mathlib.Data.Multiset.Count
import Cyan.Base.Machine
import Cyan.Event.Async

/-!
# An asynchronous event and its loop

This module puts the steps of `event::async` into a program: any number of
threads call `send()`, and one loop delivers the event, runs the callback of
the user and then the rest of the wrapper of `set_callback`.

* `pipecb` clears `sent` and queues the event; the callback runs later in the
  same iteration, and sends may come in between.
* A call of `send()` from inside the callback is a call of a thread of its own.
* The loop may die between two iterations, after which `loop_ref_.lock()` is
  null.

The field `trace` records the calls of `send()` by the program and the starts of
the callback, newest first; it never influences a step.

* `callbacks_le_sends`: as long as every callback ends while `count_` is at most
  one, the callback has not been started more often than the program called
  `send()`.
* `laps`: once `count_` is larger, the wrapper goes on to wake itself.
-/

namespace Cyan
namespace Event
namespace AsyncLoop

open Base

variable {Thread : Type*}

/-- What the trace records. -/
inductive Mark (Thread : Type*)
  /-- the program calls `send()` -/
  | send (t : Thread)
  /-- `callback()` begins -/
  | callback
  deriving DecidableEq, Repr

/-- Where the loop stands. -/
inductive Pc
  /-- between two events -/
  | idle
  /-- `ev_feed_event` has queued the event -/
  | fed
  /-- `callback()` runs -/
  | callback
  /-- `count_.fetch_sub(1) > 1` -/
  | subCount
  /-- `send()` of the wrapper -/
  | resend (p : Async.Send)
  deriving DecidableEq, Repr

/-- The event, its loop and the calls of `send()` in progress. -/
structure State (Thread : Type*) where
  async : Async
  /-- the loop exists -/
  alive : Bool
  pc : Pc
  sending : Thread → Option Async.Send
  trace : List (Mark Thread)

/-- What may happen next. -/
inductive Action (Thread : Type*)
  /-- `t` calls `send()` -/
  | send (t : Thread)
  /-- the call of `t` takes its next step -/
  | run (t : Thread)
  /-- the loop takes its next step -/
  | loop
  /-- the loop is destroyed -/
  | expire
  deriving DecidableEq, Repr

/-- The next step of the loop. -/
def stepLoop (s : State Thread) : Option (State Thread) :=
  match s.pc with
  | .idle =>
      if s.alive && s.async.due then
        some { s with async := s.async.deliver, pc := .fed }
      else none
  | .fed =>
      -- `async_callback` calls nothing when `data` is null
      if s.async.callback then
        some { s with pc := .callback, trace := .callback :: s.trace }
      else some { s with pc := .idle }
  | .callback => some { s with pc := .subCount }
  | .subCount =>
      some { s with
        async := s.async.subCount.1
        pc := if s.async.subCount.2 then .resend .addCount else .idle }
  | .resend p =>
      some { s with
        async := (s.async.stepSend s.alive p).1
        pc := (s.async.stepSend s.alive p).2.elim .idle .resend }

section Step

variable [DecidableEq Thread]

/-- One step of the program or of the loop. -/
def step (s : State Thread) : Action Thread → Option (State Thread)
  | .send t =>
      match s.sending t with
      | none => some { s with
          sending := Function.update s.sending t (some .addCount)
          trace := .send t :: s.trace }
      | some _ => none
  | .run t =>
      (s.sending t).map fun p => { s with
        async := (s.async.stepSend s.alive p).1
        sending := Function.update s.sending t (s.async.stepSend s.alive p).2 }
  | .loop => stepLoop s
  | .expire =>
      if s.pc = .idle ∧ s.alive then some { s with alive := false } else none

/-- A started event with a callback, before the first call of `send()`. -/
def initial : State Thread where
  async := Async.create.setCallback.start
  alive := true
  pc := .idle
  sending := fun _ => none
  trace := []

/-- The event, its loop and the threads that send. -/
def machine : Machine (State Thread) (Action Thread) where
  start := fun s => s = initial
  step := step

end Step

/-- The calls of `send()` by the program, by their threads. -/
def senders : List (Mark Thread) → List Thread :=
  List.filterMap fun
    | .send t => some t
    | .callback => none

/-- How often the program has called `send()`. -/
def sends (tr : List (Mark Thread)) : Nat :=
  (senders tr).length

/-- How often the callback has been started. -/
def callbacks (tr : List (Mark Thread)) : Nat :=
  tr.countP fun
    | .send _ => false
    | .callback => true

@[simp] theorem senders_send (t : Thread) (tr : List (Mark Thread)) :
    senders (.send t :: tr) = t :: senders tr := rfl

@[simp] theorem senders_callback (tr : List (Mark Thread)) :
    senders (.callback :: tr) = senders tr := rfl

@[simp] theorem callbacks_send (t : Thread) (tr : List (Mark Thread)) :
    callbacks (.send t :: tr) = callbacks tr := by
  simp [callbacks]

@[simp] theorem callbacks_callback (tr : List (Mark Thread)) :
    callbacks (.callback :: tr) = callbacks tr + 1 := by
  simp [callbacks]

/-- No callback ends while `count_` is larger than one. -/
def EndsAlone (s : State Thread) (a : Action Thread) : Prop :=
  a = .loop → s.pc = .subCount → s.async.count ≤ 1

instance [DecidableEq Thread] (s : State Thread) (a : Action Thread) :
    Decidable (EndsAlone s a) := by
  unfold EndsAlone
  infer_instance

section Invariant

variable [DecidableEq Thread]

/-- A delivery that has been taken and not been answered by a callback yet. -/
def fed : Pc → Nat
  | .fed => 1
  | _ => 0

/-- A call of `send()` that may still set the flag. -/
def unsettled (s : State Thread) (t : Thread) : Nat :=
  if (s.sending t).isSome then 1 else 0

/-- Every callback, started or owed, is paid for by a call of the program that
has set the flag; a call pays once, and not before it has reached its end. -/
structure Paid (s : State Thread) (settled : Multiset Thread) : Prop where
  calls : ∀ t, settled.count t + unsettled s t ≤ (senders s.trace).count t
  covers : callbacks s.trace + fed s.pc + s.async.sent.toNat ≤ settled.card
  quiet : ∀ p, s.pc ≠ .resend p

/-- A step of a call that leaves the flag alone and goes on. -/
theorem unsettled_update (s : State Thread) (t u : Thread)
    (next : Option Async.Send) (a : Async) :
    unsettled { s with async := a, sending := Function.update s.sending t next } u =
      if u = t then (if next.isSome then 1 else 0) else unsettled s u := by
  by_cases hut : u = t
  · subst hut
    simp [unsettled]
  · simp [unsettled, hut]

/-- What a step of `send()` does to the flag: it raises it only when the call
ends. -/
theorem stepSend_sent (a : Async) (alive : Bool) (p : Async.Send) :
    (a.stepSend alive p).1.sent = a.sent ∨ (a.stepSend alive p).2 = none := by
  cases p with
  | addCount => exact .inl rfl
  | isPending => exact .inl rfl
  | send => exact .inr rfl

/-- A call of the program goes on. -/
theorem Paid.run {s : State Thread} {settled : Multiset Thread} {t : Thread}
    {p : Async.Send} (h : Paid s settled) (hp : s.sending t = some p) :
    ∃ settled', Paid { s with
      async := (s.async.stepSend s.alive p).1
      sending := Function.update s.sending t (s.async.stepSend s.alive p).2 }
      settled' := by
  have hin : unsettled s t = 1 := by simp [unsettled, hp]
  rcases stepSend_sent s.async s.alive p with hsent | hdone
  · -- the flag stays, so nobody pays
    refine ⟨settled, ?_, ?_, h.quiet⟩
    · intro u
      have hu := h.calls u
      rw [unsettled_update]
      change _ ≤ (senders s.trace).count u
      by_cases hut : u = t
      · subst hut
        rw [if_pos rfl]
        split <;> omega
      · rw [if_neg hut]
        exact hu
    · change _ + _ + (s.async.stepSend s.alive p).1.sent.toNat ≤ _
      rw [hsent]
      exact h.covers
  · -- the call has ended and pays for the flag
    refine ⟨t ::ₘ settled, ?_, ?_, h.quiet⟩
    · intro u
      have hu := h.calls u
      rw [unsettled_update, hdone, Multiset.count_cons]
      by_cases hut : u = t
      · subst hut
        simp only [if_true, Option.isSome_none, Bool.false_eq_true, if_false]
        change _ ≤ (senders s.trace).count u
        omega
      · simpa [hut] using hu
    · have hcovers := h.covers
      have hflag := Bool.toNat_le (s.async.stepSend s.alive p).1.sent
      rw [Multiset.card_cons]
      change callbacks s.trace + fed s.pc +
        (s.async.stepSend s.alive p).1.sent.toNat ≤ _
      omega

/-- The loop takes a step, and no callback ends while more than one send is
counted. -/
theorem Paid.loop {s s' : State Thread} {settled : Multiset Thread}
    (h : Paid s settled) (hok : EndsAlone s .loop) (hstep : stepLoop s = some s') :
    Paid s' settled := by
  have hcovers := h.covers
  unfold stepLoop at hstep
  cases hpc : s.pc with
  | idle =>
      simp only [hpc] at hstep
      split at hstep
      · rename_i hdue
        cases hstep
        have hsent : s.async.sent = true := by
          simp only [Async.due, Bool.and_eq_true] at hdue
          exact hdue.2.2
        refine ⟨h.calls, ?_, fun p hp => by cases hp⟩
        -- the raised flag becomes a queued event
        rw [hpc, hsent] at hcovers
        exact hcovers
      · cases hstep
  | fed =>
      simp only [hpc] at hstep
      rw [hpc] at hcovers
      split at hstep
      · cases hstep
        refine ⟨h.calls, ?_, fun p hp => by cases hp⟩
        simpa [fed] using hcovers
      · cases hstep
        refine ⟨h.calls, ?_, fun p hp => by cases hp⟩
        simp only [fed] at hcovers ⊢
        omega
  | callback =>
      simp only [hpc] at hstep
      cases hstep
      refine ⟨h.calls, ?_, fun p hp => by cases hp⟩
      rw [hpc] at hcovers
      exact hcovers
  | subCount =>
      simp only [hpc] at hstep
      cases hstep
      have hcount : s.async.subCount.2 = false := by
        have hle := hok rfl hpc
        simpa [Async.subCount] using hle
      rw [hpc] at hcovers
      refine ⟨h.calls, ?_, ?_⟩
      · rw [hcount]
        exact hcovers
      · intro p
        simp [hcount]
  | resend p => exact absurd hpc (h.quiet p)

theorem Paid.step {s s' : State Thread} {a : Action Thread}
    {settled : Multiset Thread} (h : Paid s settled) (hok : EndsAlone s a)
    (hstep : step s a = some s') : ∃ settled', Paid s' settled' := by
  cases a with
  | send t =>
      simp only [AsyncLoop.step] at hstep
      cases hidle : s.sending t with
      | some p => simp [hidle] at hstep
      | none =>
          simp only [hidle] at hstep
          cases hstep
          refine ⟨settled, ?_, ?_, h.quiet⟩
          · intro u
            have hu := h.calls u
            by_cases hut : u = t
            · subst hut
              simp only [unsettled, hidle] at hu
              simp [unsettled]
              simpa using hu
            · simpa [unsettled, hut, List.count_cons, Ne.symm hut] using hu
          · simpa using h.covers
  | run t =>
      simp only [AsyncLoop.step] at hstep
      obtain ⟨p, hp, rfl⟩ := Option.map_eq_some_iff.mp hstep
      exact h.run hp
  | loop => exact ⟨settled, h.loop hok hstep⟩
  | expire =>
      simp only [AsyncLoop.step] at hstep
      split at hstep
      · cases hstep
        exact ⟨settled, h.calls, h.covers, h.quiet⟩
      · cases hstep

/-- In every run in which no callback ends while more than one send is counted,
every start of a callback has a send of its own. -/
theorem paid_of_reachable {s : State Thread}
    (h : machine.ReachableUnder EndsAlone s) : ∃ settled, Paid s settled := by
  refine h.invariant (I := fun s => ∃ settled, Paid s settled) ?_ ?_
  · intro s hs
    cases hs
    exact ⟨0, by simp [unsettled, initial], Nat.le_refl 0,
      fun p hp => by cases hp⟩
  · intro s a s' ⟨settled, hs⟩ hok hstep
    exact hs.step hok hstep

/-- The callback is not started more often than the program sends, in every run
whose callbacks end while `count_` is at most one. -/
theorem callbacks_le_sends {s : State Thread}
    (h : machine.ReachableUnder EndsAlone s) :
    callbacks s.trace ≤ sends s.trace := by
  obtain ⟨settled, hpaid⟩ := paid_of_reachable h
  have hle : settled ≤ (senders s.trace : Multiset Thread) := by
    rw [Multiset.le_iff_count]
    intro t
    rw [Multiset.coe_count]
    exact (Nat.le_add_right _ _).trans (hpaid.calls t)
  calc callbacks s.trace
      ≤ callbacks s.trace + fed s.pc + s.async.sent.toNat := by omega
    _ ≤ settled.card := hpaid.covers
    _ ≤ sends s.trace := by simpa [sends] using Multiset.card_le_card hle

/-- Two threads send one after the other, and the loop answers each send by a
callback of its own. -/
theorem callbacks_le_sends_run :
    ∃ s : State Bool, machine.ReachableUnder EndsAlone s ∧
      callbacks s.trace = 2 ∧ callbacks s.trace ≤ sends s.trace := by
  obtain ⟨s, hrun, hcallbacks⟩ : ∃ s,
      (machine : Machine (State Bool) (Action Bool)).execUnder EndsAlone initial
        (List.flatten [[.send true], List.replicate 3 (.run true),
          List.replicate 4 .loop, [.send false],
          List.replicate 3 (.run false), List.replicate 4 .loop]) = some s ∧
      callbacks s.trace = 2 := ⟨_, rfl, rfl⟩
  have hreach := Machine.ReachableUnder.of_execUnder rfl hrun
  exact ⟨s, hreach, hcallbacks, callbacks_le_sends hreach⟩

/-- While `count_` is larger than one at the end of a callback, the wrapper
raises the flag again and the event is as before. -/
theorem lap {s : State Thread} (hpc : s.pc = .idle) (halive : s.alive = true)
    (hdue : s.async.due = true) (hcallback : s.async.callback = true)
    (hcount : 1 < s.async.count) :
    machine.exec s (List.replicate 7 .loop) =
      some { s with trace := .callback :: s.trace } := by
  obtain ⟨⟨active, sent, callback, count⟩, alive, pc, sending, tr⟩ := s
  simp only [Async.due, Bool.and_eq_true] at hpc halive hdue hcallback hcount
  obtain ⟨hactive, hsent⟩ := hdue
  subst hpc halive hactive hsent hcallback
  simp [List.replicate, machine, step, stepLoop, Async.due, Async.deliver,
    Async.subCount, Async.stepSend, Async.isPending, hcount]

/-- The wrapper wakes itself as often as the loop runs: no call of the program
is needed for any number of callbacks. -/
theorem laps {s : State Thread} (hpc : s.pc = .idle) (halive : s.alive = true)
    (hdue : s.async.due = true) (hcallback : s.async.callback = true)
    (hcount : 1 < s.async.count) (n : Nat) :
    ∃ loops, machine.exec s (List.replicate loops .loop) =
      some { s with trace := List.replicate n .callback ++ s.trace } := by
  induction n with
  | zero => exact ⟨0, rfl⟩
  | succ n ih =>
      obtain ⟨loops, hloops⟩ := ih
      have hlap := lap (s := { s with
        trace := List.replicate n .callback ++ s.trace })
        hpc halive hdue hcallback hcount
      refine ⟨loops + 7, ?_⟩
      rw [List.replicate_add]
      exact Machine.exec_trans _ hloops hlap

end Invariant

/-- Two sends meet in `count_` before the first delivery; the second callback
finds the count of the wrapper's own send, and so does every later one. -/
theorem async_overdelivers :
    ¬ ∀ s : State Bool, machine.Reachable s →
      callbacks s.trace ≤ sends s.trace := by
  intro hclaim
  obtain ⟨s, hrun, hsends, hpc, halive, hdue, hcallback, hcount⟩ : ∃ s,
      (machine : Machine (State Bool) (Action Bool)).exec initial
        (List.flatten [[.send true, .send false],
          List.replicate 3 (.run true), List.replicate 2 (.run false)]) =
        some s ∧
      sends s.trace = 2 ∧ s.pc = .idle ∧ s.alive = true ∧
      s.async.due = true ∧ s.async.callback = true ∧ 1 < s.async.count :=
    ⟨_, rfl, rfl, rfl, rfl, rfl, rfl, by decide⟩
  obtain ⟨loops, hloops⟩ := laps hpc halive hdue hcallback hcount 3
  have hle := hclaim _ ((Machine.Reachable.of_exec rfl hrun).exec hloops)
  simp only [callbacks, sends, senders] at hle hsends
  simp [List.replicate, hsends] at hle

end AsyncLoop
end Event
end Cyan
