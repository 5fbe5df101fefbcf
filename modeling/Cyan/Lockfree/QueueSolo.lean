import Cyan.Lockfree.Queue

/-!
# Calls that run alone

The queue is lock-free: a call that nobody disturbs finishes after a fixed
number of steps.  This module computes what such a call does from an arbitrary
state, whatever the stalled operations of other threads have left behind.

* `solo_enqueue`: from a state in which `tail_` is at the end of the list, an
  undisturbed enqueue appends its node and returns.
* `solo_dequeue`: from a state in which the list is not empty and `tail_` has
  left the dummy, an undisturbed dequeue takes the first item and returns it.
-/

namespace Cyan
namespace Lockfree
namespace Queue

open Base

variable {Thread P T : Type*} [DecidableEq Thread] [DecidableEq P]

/-- The steps of an enqueue that nobody disturbs, into the free node `n`. -/
def soloEnqueue (t : Thread) (value : T) (n : P) : List (Action Thread P T) :=
  ([.enqueue t value, .allocate t n] : List (Action Thread P T)) ++ List.replicate 8 (.run t)

/-- The steps of a dequeue that nobody disturbs; `word` is what the free list
writes into the old dummy. -/
def soloDequeue (t : Thread) (value : T) (word : Option P) :
    List (Action Thread P T) :=
  .tryDequeue t value :: List.replicate 6 (.run t) ++ [.deallocate t word]

/-- The first part of an undisturbed enqueue: the node is taken and constructed. -/
theorem solo_construct (movedFrom : T → T) {s : State Thread P T} {t : Thread}
    (value : T) {n : P} (hidle : s.pc t = .idle) (hfree : s.allocated n = false) :
    (machine movedFrom).exec s
        (([.enqueue t value, .allocate t n] : List (Action Thread P T)) ++
          List.replicate 2 (.run t)) =
      some { s with
        heap := Function.update s.heap n ⟨⟨none, 0⟩, value, s.trace.length⟩
        allocated := Function.update s.allocated n true
        pc := Function.update s.pc t (.loadTail s.trace.length n)
        trace := .callEnqueue s.trace.length value :: s.trace } := by
  simp only [machine, List.replicate, List.cons_append, List.nil_append, Machine.exec_cons,
    Machine.exec_nil, Option.bind_some, Option.orElse_eq_orElse, Option.orElse_eq_or,
    Option.some_or, step, enqueue, beginEnqueue, stepEnqueue, State.emit, State.goto,
    State.setNode, State.setData, hidle, hfree, Bool.false_eq_true, ↓reduceIte,
    Function.update_self, Function.update_idem]

/-- The second part: the node is linked behind the last one and `tail_` follows. -/
theorem solo_link (movedFrom : T → T) {s : State Thread P T} {t : Thread} {op : Nat}
    {x n : P} {k j : UInt64} (hpc : s.pc t = .loadTail op n)
    (htail : s.tail = ⟨some x, k⟩) (hnext : (s.heap x).next = ⟨none, j⟩) :
    (machine movedFrom).exec s (List.replicate 6 (.run t)) =
      some { s with
        tail := ⟨some n, k + 1⟩
        heap := Function.update s.heap x { s.heap x with next := ⟨some n, j + 1⟩ }
        pc := Function.update s.pc t .idle
        trace := .retEnqueue op :: .swing :: .link op :: s.trace } := by
  simp only [machine, List.replicate, Machine.exec_cons, Machine.exec_nil, Option.bind_some,
    Option.orElse_eq_orElse, Option.orElse_eq_or, Option.some_or, step, stepEnqueue,
    exchangeTail, State.emit, State.goto, State.setNode, State.setNext, hpc, htail, hnext,
    ↓reduceIte, Function.update_self, Function.update_idem, TaggedPtr.getNextTag_eq]

/-- An undisturbed enqueue appends its node behind the last one. -/
theorem solo_enqueue (movedFrom : T → T) {s : State Thread P T} {t : Thread}
    {x n : P} {k j : UInt64} (value : T) (hidle : s.pc t = .idle)
    (htail : s.tail = ⟨some x, k⟩) (hnext : (s.heap x).next = ⟨none, j⟩)
    (hfree : s.allocated n = false) (hne : x ≠ n) :
    ∃ s', (machine movedFrom).exec s (soloEnqueue t value n) = some s' ∧
      s'.head = s.head ∧ s'.tail = ⟨some n, k + 1⟩ ∧
      s'.heap = Function.update
        (Function.update s.heap n ⟨⟨none, 0⟩, value, s.trace.length⟩) x
        { s.heap x with next := ⟨some n, j + 1⟩ } ∧
      s'.allocated = Function.update s.allocated n true ∧ s'.pc = s.pc ∧
      s'.trace = .retEnqueue s.trace.length :: .swing ::
        .link s.trace.length :: .callEnqueue s.trace.length value :: s.trace := by
  have hpc : Function.update s.pc t .idle = s.pc := by
    rw [← hidle, Function.update_eq_self]
  have hx : Function.update s.heap n ⟨⟨none, 0⟩, value, s.trace.length⟩ x = s.heap x :=
    Function.update_of_ne hne ..
  have hlink := solo_link movedFrom (s := { s with
    heap := Function.update s.heap n ⟨⟨none, 0⟩, value, s.trace.length⟩
    allocated := Function.update s.allocated n true
    pc := Function.update s.pc t (.loadTail s.trace.length n)
    trace := .callEnqueue s.trace.length value :: s.trace }) (j := j)
    (Function.update_self ..) htail ((congrArg Node.next hx).trans hnext)
  have hrun := (machine movedFrom).exec_trans
    (solo_construct movedFrom value hidle hfree) hlink
  refine ⟨_, hrun, rfl, rfl, ?_, rfl, ?_, rfl⟩
  · dsimp only
    rw [hx]
  · dsimp only
    rw [Function.update_idem, hpc]

/-- The first part of an undisturbed dequeue: the dummy and its successor pass the
check. -/
theorem solo_read (movedFrom : T → T) {s : State Thread P T} {t : Thread} {x : P}
    {k : UInt64} (value : T) (hidle : s.pc t = .idle) (hhead : s.head = ⟨some x, k⟩)
    (htail : s.tail.ptr ≠ some x) :
    (machine movedFrom).exec s
        ((.tryDequeue t value : Action Thread P T) :: List.replicate 4 (.run t)) =
      some { s with
        pc := Function.update s.pc t
          (.moveData s.trace.length value s.head (s.heap x).next)
        trace := .callDequeue s.trace.length value :: s.trace } := by
  have hoff : some x ≠ s.tail.ptr := htail.symm
  simp only [machine, List.replicate, Machine.exec_cons, Machine.exec_nil, Option.bind_some,
    Option.orElse_eq_orElse, Option.orElse_eq_or, Option.none_or, step, tryDequeue,
    stepEnqueue, stepDequeue, State.emit, State.goto, hidle, hhead, hoff, ↓reduceIte,
    Function.update_self, Function.update_idem]

/-- The second part: the item is moved out, `head_` moves on, and the dummy goes
back to the pool. -/
theorem solo_take (movedFrom : T → T) {s : State Thread P T} {t : Thread} {op : Nat}
    {x y : P} {k : UInt64} {next : TaggedPtr P} {value : T} (word : Option P)
    (hpc : s.pc t = .moveData op value ⟨some x, k⟩ next) (hhead : s.head = ⟨some x, k⟩)
    (hnext : next.ptr = some y) (hne : x ≠ y) :
    (machine movedFrom).exec s
        (List.replicate 2 (.run t) ++ ([.deallocate t word] : List (Action Thread P T))) =
      some { s with
        head := ⟨some y, k + 1⟩
        heap := Function.update
          (Function.update s.heap y
            { s.heap y with data := movedFrom (s.heap y).data }) x
          { s.heap x with next := ⟨word, (s.heap x).next.tag⟩ }
        allocated := Function.update s.allocated x false
        pc := Function.update s.pc t .idle
        trace := .retDequeue op (some (s.heap y).op) (s.heap y).data ::
          .take op (s.heap y).op :: s.trace } := by
  have hx : Function.update s.heap y { s.heap y with data := movedFrom (s.heap y).data } x =
      s.heap x := Function.update_of_ne hne ..
  simp only [machine, List.replicate, List.cons_append, List.nil_append, Machine.exec_cons,
    Machine.exec_nil, Option.bind_some, Option.orElse_eq_orElse, Option.orElse_eq_or,
    Option.none_or, step, stepEnqueue, stepDequeue, State.emit, State.goto, State.setNode,
    State.setNext, State.setData, hpc, hhead, hnext, hx, ↓reduceIte, Function.update_self,
    Function.update_idem, TaggedPtr.getNextTag_eq]

/-- An undisturbed dequeue takes the item behind the dummy. -/
theorem solo_dequeue (movedFrom : T → T) {s : State Thread P T} {t : Thread}
    {x y : P} {k : UInt64} (value : T) (word : Option P)
    (hidle : s.pc t = .idle) (hhead : s.head = ⟨some x, k⟩)
    (htail : s.tail.ptr ≠ some x) (hnext : (s.heap x).next.ptr = some y)
    (hne : x ≠ y) :
    ∃ s', (machine movedFrom).exec s (soloDequeue t value word) = some s' ∧
      s'.head = ⟨some y, k + 1⟩ ∧ s'.tail = s.tail ∧
      s'.heap = Function.update
        (Function.update s.heap y
          { s.heap y with data := movedFrom (s.heap y).data }) x
        { s.heap x with next := ⟨word, (s.heap x).next.tag⟩ } ∧
      s'.allocated = Function.update s.allocated x false ∧ s'.pc = s.pc ∧
      s'.trace =
        .retDequeue s.trace.length (some (s.heap y).op) (s.heap y).data ::
        .take s.trace.length (s.heap y).op ::
        .callDequeue s.trace.length value :: s.trace := by
  have hpc : Function.update s.pc t .idle = s.pc := by
    rw [← hidle, Function.update_eq_self]
  have htake := solo_take movedFrom (s := { s with
    pc := Function.update s.pc t (.moveData s.trace.length value s.head (s.heap x).next)
    trace := .callDequeue s.trace.length value :: s.trace }) word
    ((Function.update_self ..).trans (by rw [hhead])) hhead hnext hne
  have hrun := (machine movedFrom).exec_trans
    (solo_read movedFrom value hidle hhead htail) htake
  refine ⟨_, hrun, rfl, rfl, rfl, rfl, ?_, rfl⟩
  dsimp only
  rw [Function.update_idem, hpc]

end Queue
end Lockfree
end Cyan
