import Cyan.Lockfree.QueueFifo
import Cyan.Lockfree.QueueLineSteps

/-!
# Asking whether the queue is empty

`empty()` loads `tail_` and `head_` and compares the pointers.  C++ leaves open which
of the two is loaded first, so both orders are steps here.  One call of `empty()` runs
next to the threads of the queue, over nodes that are never reused; the state records
the states of the queue during the call.

* `false` is right in either order: while the queue holds nothing at any instant,
  neither pointer moves.
* `true` is right when `head_` is loaded first.  When `tail_` is loaded first it can move
  on before `head_` arrives at the node that was loaded, and then `true` says that a
  queue was empty that never was.
-/

namespace Cyan
namespace Lockfree
namespace Queue

open Base

variable {Thread P T : Type*}

/-! ## The call -/

/-- Where the call of `empty()` stands. -/
inductive Call (P : Type*)
  | idle
  | called
  /-- `tail_.load().get_ptr()` -/
  | tailLoaded (tail : Option P)
  /-- `head_.load().get_ptr()` -/
  | headLoaded (head : Option P)
  | returned (answer : Bool)
  deriving DecidableEq

/-- The call has begun and not returned. -/
def Call.running : Call P → Bool
  | .called => true
  | .tailLoaded _ => true
  | .headLoaded _ => true
  | _ => false

/-- What the call has loaded. -/
def Call.loaded : Call P → Option (Option P)
  | .tailLoaded tail => some tail
  | .headLoaded head => some head
  | _ => none

/-- The queue, the nodes that have been handed out, the call, and the states of the
queue during the call, newest first. -/
structure Watched (Thread P T : Type*) where
  queue : State Thread P T
  used : P → Bool
  call : Call P
  instants : List (State Thread P T)

/-- A step of the queue or of `empty()`. -/
inductive Step (Thread P T : Type*)
  | queue (a : Action Thread P T)
  | empty
  | loadTail
  | loadHead

section Machine

variable [DecidableEq Thread] [DecidableEq P]

/-- One step of the queue and the call. -/
def Watched.step (movedFrom : T → T) (w : Watched Thread P T) :
    Step Thread P T → Option (Watched Thread P T)
  | .queue a =>
      if fresh w.used a then
        (Queue.step movedFrom w.queue a).map fun s =>
          { w with
            queue := s
            used := handOut w.used a
            instants := if w.call.running then s :: w.instants else w.instants }
      else none
  | .empty =>
      if w.call.running then none
      else some { w with call := .called, instants := [w.queue] }
  | .loadTail =>
      match w.call with
      | .called => some { w with call := .tailLoaded w.queue.tail.ptr }
      | .headLoaded head => some { w with call := .returned (w.queue.tail.ptr = head) }
      | _ => none
  | .loadHead =>
      match w.call with
      | .called => some { w with call := .headLoaded w.queue.head.ptr }
      | .tailLoaded tail => some { w with call := .returned (tail = w.queue.head.ptr) }
      | _ => none

/-- A new queue, which nobody has asked. -/
def Watched.initial (heap : P → Node P T) (dummy : P) (data : T) : Watched Thread P T where
  queue := Queue.initial heap dummy data
  used := fun p => p = dummy
  call := .idle
  instants := []

/-- The queue over nodes that are never reused, with a caller of `empty()`. -/
def watched (movedFrom : T → T) : Machine (Watched Thread P T) (Step Thread P T) where
  start w := ∃ heap dummy data, w = Watched.initial heap dummy data
  step := Watched.step movedFrom

end Machine

/-! ## What the answers should say -/

/-- Every value whose enqueue has returned has been dequeued. -/
def AllDequeued (s : State Thread P T) : Prop :=
  ∀ x, .retEnqueue x ∈ s.trace → Dequeued x s.trace

/-- The queue holds a linked value that has not been dequeued. -/
def HoldsValue (s : State Thread P T) : Prop :=
  ∃ x, .link x ∈ s.trace ∧ ¬Dequeued x s.trace

/-- The answer was right at some instant of the call. -/
def Watched.Right (w : Watched Thread P T) : Prop :=
  (w.call = .returned true → ∃ s ∈ w.instants, AllDequeued s) ∧
    (w.call = .returned false → ∃ s ∈ w.instants, HoldsValue s)

/-- A call that has loaded `tail_` first and finds `head_` at that node: the two have
pointed to one node at some instant of the call. -/
def Met [DecidableEq P] (w : Watched Thread P T) : Step Thread P T → Prop
  | .loadHead =>
      match w.call with
      | .tailLoaded tail => tail = w.queue.head.ptr →
          ∃ s ∈ w.instants, s.head.ptr = s.tail.ptr
      | _ => True
  | _ => True

instance [DecidableEq P] (w : Watched Thread P T) (a : Step Thread P T) :
    Decidable (Met w a) := by
  unfold Met
  split
  · split <;> infer_instance
  · infer_instance

variable [DecidableEq Thread] [DecidableEq P]
variable {s s' : State Thread P T} {used : P → Bool} {row row' : List P}
variable {h h' l l' : Nat} {w w' : Watched Thread P T}

/-! ## What the positions say about the values -/

section

omit [DecidableEq Thread] [DecidableEq P]

theorem Line.allDequeued (hline : Line s used row h l) (hmeet : s.head.ptr = s.tail.ptr) :
    AllDequeued s := by
  intro x hx
  obtain ⟨i, p, hi, hil, hp, rfl⟩ := hline.returned hx
  have hsame : h = l := by
    refine hline.position (Nat.lt_of_le_of_lt hline.le hline.lt) ?_
    rw [← hline.head, hmeet, hline.tail]
  exact hline.taken hi (by omega) hp

theorem Line.holdsValue (hline : Line s used row h l) (hlt : h + 1 < row.length) :
    HoldsValue s := by
  have hp := List.getElem?_eq_getElem hlt
  refine ⟨_, hline.linked (Nat.succ_pos h) hp, ?_⟩
  rintro ⟨d, hd⟩
  obtain ⟨i, q, hi, hih, hq, hop⟩ := hline.takes hd
  have hsame := hline.ops hi (Nat.succ_pos h) hq hp hop
  omega

end

/-! ## The call over the line -/

/-- What a running call knows. -/
structure Asking (w : Watched Thread P T) (row : List P) (h : Nat) : Prop where
  now : w.call.running = true → w.queue ∈ w.instants
  met : ∀ s ∈ w.instants, s.head.ptr = s.tail.ptr → AllDequeued s
  /-- as long as nothing is in the queue, `head_` is at the end of the line -/
  still : ∀ v, w.call.loaded = some v → ∃ i, i < row.length ∧ v = row[i]? ∧
    ((∃ s ∈ w.instants, HoldsValue s) ∨ i = h ∧ h + 1 = row.length)
  behind : ∀ v, w.call = .headLoaded v → ∃ i, i ≤ h ∧ v = row[i]?
  right : w.Right

/-- The queue is in line, and so is the call. -/
def Watching (w : Watched Thread P T) : Prop :=
  ∃ row h l, InLine w.queue w.used row h l ∧ Asking w row h

omit [DecidableEq P] in
theorem Call.loaded_running {c : Call P} {v : Option P} (hv : c.loaded = some v) :
    c.running = true := by
  cases c <;> first | rfl | cases hv

section

omit [DecidableEq Thread] [DecidableEq P]

/-- A call that has not returned has not been wrong. -/
theorem Watched.right_of_running (hrunning : w.call.running = true) : w.Right := by
  constructor
  · intro hcall
    rw [hcall] at hrunning
    cases hrunning
  · intro hcall
    rw [hcall] at hrunning
    cases hrunning

/-- The end of the line, or a value in the queue. -/
theorem Asking.end_or_holds (hin : InLine w.queue w.used row h l)
    (hnow : w.queue ∈ w.instants) :
    (∃ s ∈ w.instants, HoldsValue s) ∨ h = l ∧ h + 1 = row.length := by
  have hle := hin.shape.le
  have hlt := hin.shape.lt
  by_cases hend : h + 1 < row.length
  · exact .inl ⟨w.queue, hnow, hin.shape.holdsValue hend⟩
  · exact .inr ⟨by omega, by omega⟩

end

/-- A step of the queue. -/
theorem Asking.queue {movedFrom : T → T} {a : Action Thread P T}
    (hin : InLine w.queue w.used row h l) (hask : Asking w row h)
    (hstep : Watched.step movedFrom w (.queue a) = some w') : Watching w' := by
  simp only [Watched.step] at hstep
  split at hstep
  · rename_i hfresh
    obtain ⟨s, hs, rfl⟩ := Option.map_eq_some_iff.mp hstep
    obtain ⟨row', h', l', hin', hgrows, hle, hapart⟩ := hin.step hfresh hs
    have hget : ∀ {i}, i < row.length → row'[i]? = row[i]? := by
      intro i hi
      obtain ⟨rest, rfl⟩ := hgrows
      exact List.getElem?_append_left hi
    refine ⟨row', h', l', hin', ?_⟩
    cases hrunning : w.call.running with
    | false =>
        have hnone : ∀ v, w.call.loaded ≠ some v := by
          intro v hv
          rw [Call.loaded_running hv] at hrunning
          cases hrunning
        exact {
          now := fun hrun => absurd (hrun.symm.trans hrunning) (by simp)
          met := by simpa [hrunning] using hask.met
          still := fun v hv => absurd hv (hnone v)
          behind := fun v hv => absurd (by rw [hv]; rfl) (hnone v)
          right := by simpa [hrunning, Watched.Right] using hask.right }
    | true =>
        refine {
          now := fun _ => List.mem_cons_self ..
          met := List.forall_mem_cons.mpr ⟨hin'.shape.allDequeued, hask.met⟩
          still := fun v hv => ?_
          behind := fun v hv => ?_
          right := Watched.right_of_running hrunning }
        · obtain ⟨i, hi, hv, hor⟩ := hask.still v hv
          refine ⟨i, Nat.lt_of_lt_of_le hi hgrows.length_le, hv.trans (hget hi).symm, ?_⟩
          rcases hor with ⟨q, hq, hholds⟩ | ⟨rfl, hend⟩
          · exact .inl ⟨q, List.mem_cons_of_mem _ hq, hholds⟩
          · rcases Asking.end_or_holds (w := { w with
              queue := s, used := handOut w.used a, instants := s :: w.instants }) hin'
              (List.mem_cons_self ..) with hholds | ⟨-, hend'⟩
            · exact .inl hholds
            · refine .inr ⟨?_, hend'⟩
              -- nothing was linked, so there was nothing to take
              rcases hapart with hline | hhead
              · rw [hline] at hend'
                omega
              · exact hhead.symm
        · obtain ⟨i, hi, hv⟩ := hask.behind v hv
          have hlt := Nat.lt_of_le_of_lt hin.shape.le hin.shape.lt
          exact ⟨i, Nat.le_trans hi hle, hv.trans (hget (by omega)).symm⟩
  · cases hstep

/-- A load of `tail_`. -/
theorem Asking.loadTail {movedFrom : T → T} (hin : InLine w.queue w.used row h l)
    (hask : Asking w row h) (hstep : Watched.step movedFrom w .loadTail = some w') :
    Watching w' := by
  have hline := hin.shape
  simp only [Watched.step] at hstep
  split at hstep
  · rename_i hcall
    cases hstep
    have hnow := hask.now (by rw [hcall]; rfl)
    refine ⟨row, h, l, hin, fun _ => hnow, hask.met, fun v hv => ?_,
      fun v hv => (nomatch hv), Watched.right_of_running rfl⟩
    cases hv
    refine ⟨l, hline.lt, hline.tail, ?_⟩
    rcases Asking.end_or_holds hin hnow with hholds | ⟨heq, hend⟩
    · exact .inl hholds
    · exact .inr ⟨heq.symm, hend⟩
  · rename_i head hcall
    cases hstep
    have hnow := hask.now (by rw [hcall]; rfl)
    refine ⟨row, h, l, hin, fun hrun => (nomatch hrun), hask.met, fun v hv => (nomatch hv),
      fun v hv => (nomatch hv), fun hanswer => ?_, fun hanswer => ?_⟩
    · -- `tail_` is where `head_` was, and `head_` cannot have passed it
      have hsame : w.queue.tail.ptr = head := by simpa using hanswer
      obtain ⟨i, hi, hptr⟩ := hask.behind head hcall
      have hpos : l = i := hline.position hline.lt (by rw [← hline.tail, hsame, hptr])
      have hmeet : h = l := Nat.le_antisymm hline.le (by omega)
      exact ⟨w.queue, hnow, hask.met _ hnow (by rw [hline.head, hline.tail, hmeet])⟩
    · have hne : w.queue.tail.ptr ≠ head := by simpa using hanswer
      obtain ⟨i, hi, hptr, hor⟩ := hask.still head (by rw [hcall]; rfl)
      rcases hor with hholds | ⟨rfl, hend⟩
      · exact hholds
      · have hmeet : i = l := by
          have := hline.le
          have := hline.lt
          omega
        exact absurd (by rw [hline.tail, hptr, hmeet]) hne
  · cases hstep

/-- A load of `head_`. -/
theorem Asking.loadHead {movedFrom : T → T} (hin : InLine w.queue w.used row h l)
    (hask : Asking w row h) (hmet : Met w .loadHead)
    (hstep : Watched.step movedFrom w .loadHead = some w') : Watching w' := by
  have hline := hin.shape
  have hlt := Nat.lt_of_le_of_lt hline.le hline.lt
  simp only [Watched.step] at hstep
  split at hstep
  · rename_i hcall
    cases hstep
    have hnow := hask.now (by rw [hcall]; rfl)
    refine ⟨row, h, l, hin, fun _ => hnow, hask.met, fun v hv => ?_, fun v hv => ?_,
      Watched.right_of_running rfl⟩
    · cases hv
      refine ⟨h, hlt, hline.head, ?_⟩
      rcases Asking.end_or_holds hin hnow with hholds | ⟨-, hend⟩
      · exact .inl hholds
      · exact .inr ⟨rfl, hend⟩
    · cases hv
      exact ⟨h, Nat.le_refl h, hline.head⟩
  · rename_i tail hcall
    cases hstep
    refine ⟨row, h, l, hin, fun hrun => (nomatch hrun), hask.met, fun v hv => (nomatch hv),
      fun v hv => (nomatch hv), fun hanswer => ?_, fun hanswer => ?_⟩
    · have hsame : tail = w.queue.head.ptr := by simpa using hanswer
      simp only [Met, hcall] at hmet
      obtain ⟨s, hs, hmeet⟩ := hmet hsame
      exact ⟨s, hs, hask.met s hs hmeet⟩
    · have hne : tail ≠ w.queue.head.ptr := by simpa using hanswer
      obtain ⟨i, hi, hptr, hor⟩ := hask.still tail (by rw [hcall]; rfl)
      rcases hor with hholds | ⟨rfl, -⟩
      · exact hholds
      · exact absurd (hptr.trans hline.head.symm) hne
  · cases hstep

theorem Watching.step {movedFrom : T → T} {a : Step Thread P T} (hwatching : Watching w)
    (hmet : Met w a) (hstep : Watched.step movedFrom w a = some w') : Watching w' := by
  obtain ⟨row, h, l, hin, hask⟩ := hwatching
  cases a with
  | queue a => exact hask.queue hin hstep
  | loadTail => exact hask.loadTail hin hstep
  | loadHead => exact hask.loadHead hin hmet hstep
  | empty =>
      simp only [Watched.step] at hstep
      split at hstep
      · cases hstep
      · cases hstep
        refine ⟨row, h, l, hin, fun _ => List.mem_cons_self .., fun s hs => ?_,
          fun v hv => (nomatch hv), fun v hv => (nomatch hv), Watched.right_of_running rfl⟩
        rw [List.mem_singleton.mp hs]
        exact hin.shape.allDequeued

/-- Over nodes that are never reused, every answer is right, in every run in which a call
that loads `tail_` first and then finds `head_` there has seen the two meet. -/
theorem empty_right {movedFrom : T → T} (hreach : (watched movedFrom).ReachableUnder Met w) :
    w.Right := by
  obtain ⟨row, h, l, -, hask⟩ : Watching w := by
    refine hreach.invariant ?_ fun w a w' hwatching hmet hstep => hwatching.step hmet hstep
    rintro w ⟨heap, dummy, data, rfl⟩
    exact ⟨[dummy], 0, 0, InLine.initial heap dummy data, fun hrun => (nomatch hrun),
      fun s hs => (nomatch hs), fun v hv => (nomatch hv), fun v hv => (nomatch hv),
      fun hcall => (nomatch hcall), fun hcall => (nomatch hcall)⟩
  exact hask.right

/-! ## Two runs -/

/-- A queue of numbers with the dummy at address `0`. -/
def numbers : Watched Bool Nat Nat :=
  Watched.initial (fun _ => ⟨⟨none, 0⟩, 0, 0⟩) 0 0

/-- A whole call of `enqueue` by `t`, with the node `n`. -/
def enqueueRun (t : Bool) (value n : Nat) : List (Step Bool Nat Nat) :=
  .queue (.enqueue t value) :: .queue (.allocate t n) :: List.replicate 8 (.queue (.run t))

/-- A whole call of `try_dequeue` by `t`. -/
def dequeueRun (t : Bool) : List (Step Bool Nat Nat) :=
  .queue (.tryDequeue t 0) :: List.replicate 6 (.queue (.run t)) ++ [.queue (.deallocate t none)]

/-- A value goes through the queue; a call that loads `tail_` first finds `head_` there,
and the two have met. -/
theorem empty_right_run : ∃ w : Watched Bool Nat Nat, (watched id).ReachableUnder Met w ∧
    w.call = .returned true ∧ .retEnqueue 0 ∈ w.queue.trace ∧ w.Right := by
  obtain ⟨w, hrun, hcall, hreturned⟩ : ∃ w,
      (watched id).execUnder Met numbers (List.flatten [enqueueRun true 7 1, dequeueRun true,
        [.empty, .loadTail, .loadHead]]) = some w ∧
      w.call = .returned true ∧ .retEnqueue 0 ∈ w.queue.trace := ⟨_, rfl, rfl, by decide⟩
  have hreach := Machine.ReachableUnder.of_execUnder
    (show (watched id).start numbers from ⟨_, _, _, rfl⟩) hrun
  exact ⟨w, hreach, hcall, hreturned, empty_right hreach⟩

/-- The queue holds a value that has been enqueued when the call begins.  The call loads
`tail_`; then a second value is enqueued, and the first is dequeued, which moves `head_`
to the node that the call has loaded.  The answer is `true`, and the queue was not empty
at any instant of the call. -/
theorem empty_never_empty : ¬ ∀ w : Watched Bool Nat Nat,
    (watched id).Reachable w → w.Right := by
  intro hclaim
  obtain ⟨w, hrun, hcall, hheld⟩ : ∃ w,
      (watched id).exec numbers (List.flatten [enqueueRun true 7 1, [.empty, .loadTail],
        enqueueRun true 8 2, dequeueRun false, [.loadHead]]) = some w ∧
      w.call = .returned true ∧ ∀ s ∈ w.instants, ∃ x ∈ s.trace.filterMap
        (fun | .retEnqueue op => some op | _ => none), x ∉ taken s.trace :=
    ⟨_, rfl, rfl, by decide⟩
  obtain ⟨s, hs, hall⟩ := (hclaim w (.of_exec ⟨_, _, _, rfl⟩ hrun)).1 hcall
  obtain ⟨x, hx, hkept⟩ := hheld s hs
  obtain ⟨e, he, hop⟩ := List.mem_filterMap.mp hx
  cases e with
  | retEnqueue op =>
      cases hop
      exact hkept (mem_taken.mpr (hall x he))
  | _ => cases hop

end Queue
end Lockfree
end Cyan
