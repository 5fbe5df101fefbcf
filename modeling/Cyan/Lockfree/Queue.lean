import Cyan.Base.Machine
import Cyan.Base.Path
import Cyan.Lockfree.TaggedPtr

/-!
# The lock-free queue, step by step

This module embeds `lockfree::queue<T>`: the linked list with a dummy node at
`head_`, the lagging `tail_`, and the retry loops of `enqueue(node*)` and
`try_dequeue`.  Every atomic load, store and compare-exchange of the code is
one step of one thread, and the threads interleave freely.

* The memory is a function from addresses to nodes.  It starts with arbitrary
  contents, and a node keeps its contents when it goes back to the pool except
  for the pointer word of `next`, which the free list overwrites.
* The pool is atomic: `allocate` hands out any node that is not outstanding,
  and `deallocate` takes one back.
* The local variables of a call live in its program counter, under the names
  they have in the source.
* The element type is arbitrary; `movedFrom v` is what a move leaves behind in
  an object that held `v` (`id` for a trivially copyable type, the empty
  pointer for `std::unique_ptr`).

The field `op` of a node, the parameter `old` of `casHead` and the field
`trace` of a state record what happened and never influence a step.  A call is
identified by the length of the trace at which it began.
-/

namespace Cyan
namespace Lockfree
namespace Queue

open Base

variable {Thread P T : Type*}

/-- `queue::node`.  `op` is the call whose constructor last ran on the node. -/
structure Node (P T : Type*) where
  next : TaggedPtr P
  data : T
  op : Nat

/-- What the trace records: the calls and returns, and the successful
exchanges on a node's `next` (`link`), on `tail_` (`swing`) and on `head_`
(`take`). -/
inductive Event (T : Type*)
  | callEnqueue (op : Nat) (value : T)
  | retEnqueue (op : Nat)
  | callDequeue (op : Nat) (value : T)
  | retDequeue (op : Nat) (taken : Option Nat) (value : T)
  | link (op : Nat)
  | swing
  | take (op item : Nat)
  deriving DecidableEq, Repr

/-- Where a thread stands, with the local variables that are still needed. -/
inductive Pc (P T : Type*)
  | idle
  /-- `node* n = pool_.allocate()` -/
  | allocate (op : Nat) (value : T)
  /-- `new (n) node{value}`: the initializer of `next` -/
  | initNext (op : Nat) (value : T) (n : P)
  /-- `new (n) node{value}`: the initializer of `data` -/
  | initData (op : Nat) (value : T) (n : P)
  /-- `auto tail = tail_.load()` -/
  | loadTail (op : Nat) (n : P)
  /-- `auto next = tail->next.load()` -/
  | loadNext (op : Nat) (n : P) (tail : TaggedPtr P)
  /-- `if (tail == tail_.load())` -/
  | recheckTail (op : Nat) (n : P) (tail next : TaggedPtr P)
  /-- `tail->next.compare_exchange_strong(next, new_tail)` -/
  | casNext (op : Nat) (n : P) (tail next : TaggedPtr P)
  /-- `new_tail.set_tag(tail_.load().get_next_tag())` -/
  | reloadTail (op : Nat) (n : P) (tail : TaggedPtr P)
  /-- `tail_.compare_exchange_strong(tail, new_tail)`, then `return` -/
  | swingTail (op : Nat) (tail newTail : TaggedPtr P)
  /-- the same exchange on behalf of another enqueue -/
  | helpTail (op : Nat) (n : P) (tail newTail : TaggedPtr P)
  /-- `auto head = head_.load()` -/
  | loadHead (op : Nat) (value : T)
  /-- `auto tail = tail_.load()` -/
  | loadTailAt (op : Nat) (value : T) (head : TaggedPtr P)
  /-- `auto next = head->next.load()` -/
  | loadHeadNext (op : Nat) (value : T) (head tail : TaggedPtr P)
  /-- `if (head == head_.load())` -/
  | recheckHead (op : Nat) (value : T) (head tail next : TaggedPtr P)
  /-- `tail_.compare_exchange_strong(tail, node)` inside `try_dequeue` -/
  | helpTailAt (op : Nat) (value : T) (tail node : TaggedPtr P)
  /-- `value = std::move(next->data)` -/
  | moveData (op : Nat) (value : T) (head next : TaggedPtr P)
  /-- `head_.compare_exchange_strong(head, node)`; `old` is what the caller's
  value and `next->data` were before the move -/
  | casHead (op : Nat) (value : T) (head next : TaggedPtr P) (old : T × T)
  /-- `head->~node()` and `pool_.deallocate(head)`, then `return true` -/
  | deallocate (op : Nat) (value : T) (item : Nat) (n : P)
  /-- a null pointer was followed -/
  | fault

/-- The shared memory, the pool's bookkeeping, the threads and the trace
(newest event first). -/
structure State (Thread P T : Type*) where
  head : TaggedPtr P
  tail : TaggedPtr P
  heap : P → Node P T
  allocated : P → Bool
  pc : Thread → Pc P T
  trace : List (Event T)

/-- What a scheduler can do: start a call on an idle thread, let a thread take
its next atomic step, and choose for the pool. -/
inductive Action (Thread P T : Type*)
  | enqueue (t : Thread) (value : T)
  | emplace (t : Thread) (value : T)
  | tryDequeue (t : Thread) (value : T)
  | run (t : Thread)
  | allocate (t : Thread) (n : P)
  | deallocate (t : Thread) (word : Option P)

namespace State

variable [DecidableEq Thread] [DecidableEq P] (s : State Thread P T)

/-- Thread `t` moves on to `k`. -/
def goto (t : Thread) (k : Pc P T) : State Thread P T :=
  { s with pc := Function.update s.pc t k }

/-- The trace grows by one event. -/
def emit (e : Event T) : State Thread P T :=
  { s with trace := e :: s.trace }

/-- Write node `p`. -/
def setNode (p : P) (node : Node P T) : State Thread P T :=
  { s with heap := Function.update s.heap p node }

/-- Write `p->next`. -/
def setNext (p : P) (next : TaggedPtr P) : State Thread P T :=
  s.setNode p { s.heap p with next := next }

/-- Write `p->data`. -/
def setData (p : P) (data : T) : State Thread P T :=
  s.setNode p { s.heap p with data := data }

end State

variable [DecidableEq Thread] [DecidableEq P]

/-- Every enqueueing member starts the same way: the call takes a node from the
pool, constructs it from the value and hands it to `enqueue(node*)`. -/
def beginEnqueue (s : State Thread P T) (t : Thread) (value : T) :
    Option (State Thread P T) :=
  match s.pc t with
  | .idle =>
      some ((s.goto t (.allocate s.trace.length value)).emit
        (.callEnqueue s.trace.length value))
  | _ => none

/-- `enqueue(const_reference)` and `enqueue(value_type&&)`: the node is
constructed from `value`. -/
def enqueue (s : State Thread P T) (t : Thread) (value : T) :
    Option (State Thread P T) :=
  beginEnqueue s t value

/-- `emplace(args...)`: the node is constructed from the `value_type` that the
arguments build, here `value`. -/
def emplace (s : State Thread P T) (t : Thread) (value : T) :
    Option (State Thread P T) :=
  beginEnqueue s t value

/-- `try_dequeue(reference value)`. -/
def tryDequeue (s : State Thread P T) (t : Thread) (value : T) :
    Option (State Thread P T) :=
  match s.pc t with
  | .idle =>
      some ((s.goto t (.loadHead s.trace.length value)).emit
        (.callDequeue s.trace.length value))
  | _ => none

/-- `tail_.compare_exchange_strong(tail, newTail)`. -/
def exchangeTail (s : State Thread P T) (tail newTail : TaggedPtr P) :
    State Thread P T :=
  if s.tail = tail then { s with tail := newTail }.emit .swing else s

omit [DecidableEq Thread] in
/-- No thread moves in it. -/
theorem exchangeTail_pc {s : State Thread P T} (tail newTail : TaggedPtr P) :
    (exchangeTail s tail newTail).pc = s.pc := by
  unfold exchangeTail
  split <;> rfl

/-- One step of `enqueue(node*)`, from the construction of the node on. -/
def stepEnqueue (s : State Thread P T) (t : Thread) :
    Pc P T → Option (State Thread P T)
  | .initNext op value n =>
      some ((s.setNode n { s.heap n with next := ⟨none, 0⟩, op := op }).goto t
        (.initData op value n))
  | .initData op value n => some ((s.setData n value).goto t (.loadTail op n))
  | .loadTail op n => some (s.goto t (.loadNext op n s.tail))
  | .loadNext op n tail =>
      match tail.ptr with
      | none => some (s.goto t .fault)
      | some a => some (s.goto t (.recheckTail op n tail (s.heap a).next))
  | .recheckTail op n tail next =>
      if tail = s.tail then
        if next.ptr = none then some (s.goto t (.casNext op n tail next))
        else some (s.goto t (.helpTail op n tail ⟨next.ptr, tail.getNextTag⟩))
      else some (s.goto t (.loadTail op n))
  | .casNext op n tail next =>
      match tail.ptr with
      | none => some (s.goto t .fault)
      | some a =>
          if (s.heap a).next = next then
            some (((s.setNext a ⟨some n, next.getNextTag⟩).emit (.link op)).goto t
              (.reloadTail op n tail))
          else some (s.goto t (.loadTail op n))
  | .reloadTail op n tail =>
      some (s.goto t (.swingTail op tail ⟨some n, s.tail.getNextTag⟩))
  | .swingTail op tail newTail =>
      some (((exchangeTail s tail newTail).emit (.retEnqueue op)).goto t .idle)
  | .helpTail op n tail newTail =>
      some ((exchangeTail s tail newTail).goto t (.loadTail op n))
  | _ => none

/-- One step of `try_dequeue`, except for its return to the pool. -/
def stepDequeue (movedFrom : T → T) (s : State Thread P T) (t : Thread) :
    Pc P T → Option (State Thread P T)
  | .loadHead op value => some (s.goto t (.loadTailAt op value s.head))
  | .loadTailAt op value head =>
      some (s.goto t (.loadHeadNext op value head s.tail))
  | .loadHeadNext op value head tail =>
      match head.ptr with
      | none => some (s.goto t .fault)
      | some h => some (s.goto t (.recheckHead op value head tail (s.heap h).next))
  | .recheckHead op value head tail next =>
      if head = s.head then
        if head.ptr = tail.ptr then
          if next.ptr = none then
            some ((s.emit (.retDequeue op none value)).goto t .idle)
          else
            some (s.goto t (.helpTailAt op value tail ⟨next.ptr, tail.getNextTag⟩))
        else some (s.goto t (.moveData op value head next))
      else some (s.goto t (.loadHead op value))
  | .helpTailAt op value tail node =>
      some ((exchangeTail s tail node).goto t (.loadHead op value))
  | .moveData op value head next =>
      match next.ptr with
      | none => some (s.goto t .fault)
      | some x =>
          some ((s.setData x (movedFrom (s.heap x).data)).goto t
            (.casHead op (s.heap x).data head next (value, (s.heap x).data)))
  | .casHead op value head next _ =>
      match head.ptr, next.ptr with
      | some h, some x =>
          if s.head = head then
            some (({ s with head := ⟨next.ptr, head.getNextTag⟩ }.emit
              (.take op (s.heap x).op)).goto t
              (.deallocate op value (s.heap x).op h))
          else some (s.goto t (.loadHead op value))
      | _, _ => some (s.goto t .fault)
  | _ => none

/-- One step of the queue.  `allocate` and `deallocate` are the two steps in
which the pool has a choice: which free node it hands out, and which pointer it
leaves in the word that `next` shares with the free list. -/
def step (movedFrom : T → T) (s : State Thread P T) :
    Action Thread P T → Option (State Thread P T)
  | .enqueue t value => enqueue s t value
  | .emplace t value => emplace s t value
  | .tryDequeue t value => tryDequeue s t value
  | .run t => stepEnqueue s t (s.pc t) <|> stepDequeue movedFrom s t (s.pc t)
  | .allocate t n =>
      match s.pc t with
      | .allocate op value =>
          if s.allocated n then none
          else some ({ s with allocated := Function.update s.allocated n true }.goto t
            (.initNext op value n))
      | _ => none
  | .deallocate t word =>
      match s.pc t with
      | .deallocate op value item n =>
          some ((({ s with allocated := Function.update s.allocated n false }.setNext n
            ⟨word, (s.heap n).next.tag⟩).emit
            (.retDequeue op (some item) value)).goto t .idle)
      | _ => none

/-- `queue::queue` and `initialize`: a dummy node, taken from the pool, is both
`head_` and `tail_`; the rest of the memory is arbitrary. -/
def initial (heap : P → Node P T) (dummy : P) (data : T) :
    State Thread P T where
  head := ⟨some dummy, 0⟩
  tail := ⟨some dummy, 0⟩
  heap := Function.update heap dummy ⟨⟨none, 0⟩, data, 0⟩
  allocated := fun p => p = dummy
  pc := fun _ => .idle
  trace := []

/-- The queue as a machine, for one behaviour of a moved-from element. -/
def machine (movedFrom : T → T) :
    Machine (State Thread P T) (Action Thread P T) where
  start s := ∃ heap dummy data, s = initial heap dummy data
  step := step movedFrom

end Queue
end Lockfree
end Cyan
