import Cyan.Base.Machine
import Cyan.Base.Path

/-!
# The lock-free stack, step by step

This module embeds `lockfree::stack<T>`: a linked list headed by the bare
pointer `head_`, with the retry loops of `push`, `try_pop` and `clear`.  Every
atomic access, and every plain access to a node's `next` or `data`, is one step
of one thread.

* A weak compare-exchange may fail although it finds the expected value; the
  scheduler chooses when (`Action.spurious`).
* The pool is atomic: `allocate` hands out any node that is not outstanding, and
  `deallocate` takes one back and overwrites its `next`.
* The element type is trivially copyable, so a move leaves its source alone.

The field `op` of a node, the parameter `item` of a program counter and the
field `trace` of a state record what happened and never influence a step.  A
call is identified by the length of the trace at which it began.
-/

namespace Cyan
namespace Lockfree
namespace Stack

open Base

variable {Thread P T : Type*}

/-- `stack::node`.  `op` is the call whose constructor last ran on the node. -/
structure Node (P T : Type*) where
  next : Option P
  data : T
  op : Nat

/-- What the trace records: the calls and returns, and the successful exchanges
on `head_` of `push`, `try_pop` and `clear`. -/
inductive Event (P T : Type*)
  | callPush (op : Nat) (value : T)
  | pushed (op : Nat) (n : P)
  | retPush (op : Nat)
  | callPop (op : Nat) (value : T)
  | popped (op item : Nat) (n : P)
  | retPop (op : Nat) (taken : Option Nat) (value : T)
  | callClear (op : Nat)
  | cleared (op : Nat)
  | retClear (op : Nat)
  deriving DecidableEq, Repr

/-- Where a thread stands, with the local variables that are still needed. -/
inductive Pc (P T : Type*)
  | idle
  /-- `node_type* n = pool_.allocate()` -/
  | allocate (op : Nat) (value : T)
  /-- `new (n) node_type{value}`: the initializer of `next` -/
  | initNext (op : Nat) (value : T) (n : P)
  /-- `new (n) node_type{value}`: the initializer of `data` -/
  | initData (op : Nat) (value : T) (n : P)
  /-- `head_.load()`, for `n->next` -/
  | loadForNext (op : Nat) (n : P)
  /-- `n->next = ...` -/
  | storeNext (op : Nat) (n : P) (head : Option P)
  /-- `head_.compare_exchange_weak(n->next, n)`, then return -/
  | casPush (op : Nat) (n : P)
  /-- `auto head = head_.load()`, then `if (!head) return false` -/
  | loadHead (op : Nat) (value : T)
  /-- `head->next`, the second argument of the exchange -/
  | readNext (op : Nat) (value : T) (head : P)
  /-- `head_.compare_exchange_weak(head, head->next)` -/
  | casPop (op : Nat) (value : T) (head : P) (next : Option P)
  /-- `value = std::move(head->data)` -/
  | moveData (op : Nat) (value : T) (item : Nat) (head : P)
  /-- `head->~node_type()` and `pool_.deallocate(head)`, then `return true` -/
  | deallocate (op : Nat) (value : T) (item : Nat) (head : P)
  /-- `auto head = head_.load()` of `clear` -/
  | loadAll (op : Nat)
  /-- `head_.compare_exchange_weak(head, nullptr)` -/
  | casClear (op : Nat) (head : Option P)
  /-- `while (head)`, then `auto n = head; head = head->next` -/
  | sweep (op : Nat) (head : Option P)
  /-- `n->~node_type()` and `pool_.deallocate(n)` -/
  | discard (op : Nat) (n : P) (head : Option P)

/-- The shared memory, the pool's bookkeeping, the threads and the trace
(newest event first). -/
structure State (Thread P T : Type*) where
  head : Option P
  heap : P → Node P T
  allocated : P → Bool
  pc : Thread → Pc P T
  trace : List (Event P T)

/-- What a scheduler can do: start a call on an idle thread, let a thread take
its next atomic step, let a weak exchange fail, and choose for the pool. -/
inductive Action (Thread P T : Type*)
  | push (t : Thread) (value : T)
  | emplace (t : Thread) (value : T)
  | tryPop (t : Thread) (value : T)
  | clear (t : Thread)
  | run (t : Thread)
  | spurious (t : Thread)
  | allocate (t : Thread) (n : P)
  | deallocate (t : Thread) (word : Option P)

namespace State

variable [DecidableEq Thread] [DecidableEq P] (s : State Thread P T)

/-- Thread `t` moves on to `k`. -/
def goto (t : Thread) (k : Pc P T) : State Thread P T :=
  { s with pc := Function.update s.pc t k }

/-- The trace grows by one event. -/
def emit (e : Event P T) : State Thread P T :=
  { s with trace := e :: s.trace }

/-- Write node `p`. -/
def setNode (p : P) (node : Node P T) : State Thread P T :=
  { s with heap := Function.update s.heap p node }

/-- Write `p->next`. -/
def setNext (p : P) (next : Option P) : State Thread P T :=
  s.setNode p { s.heap p with next := next }

end State

variable [DecidableEq Thread] [DecidableEq P]

/-- Every pushing member starts the same way: the call takes a node from the
pool and constructs it from the value. -/
def beginPush (s : State Thread P T) (t : Thread) (value : T) :
    Option (State Thread P T) :=
  match s.pc t with
  | .idle =>
      some ((s.goto t (.allocate s.trace.length value)).emit
        (.callPush s.trace.length value))
  | _ => none

/-- `push(value_type&&)` and `push(const_reference)`: the node is constructed
from `value`. -/
def push (s : State Thread P T) (t : Thread) (value : T) :
    Option (State Thread P T) :=
  beginPush s t value

/-- `emplace(args...)`: the node is constructed from the `value_type` that the
arguments build, here `value`. -/
def emplace (s : State Thread P T) (t : Thread) (value : T) :
    Option (State Thread P T) :=
  beginPush s t value

/-- `try_pop(reference value)`. -/
def tryPop (s : State Thread P T) (t : Thread) (value : T) :
    Option (State Thread P T) :=
  match s.pc t with
  | .idle =>
      some ((s.goto t (.loadHead s.trace.length value)).emit
        (.callPop s.trace.length value))
  | _ => none

/-- `clear()`. -/
def clear (s : State Thread P T) (t : Thread) : Option (State Thread P T) :=
  match s.pc t with
  | .idle =>
      some ((s.goto t (.loadAll s.trace.length)).emit (.callClear s.trace.length))
  | _ => none

/-- `try_pop` goes on with the head it has loaded, or returns `false`. -/
def popFrom (s : State Thread P T) (t : Thread) (op : Nat) (value : T) :
    Option P → State Thread P T
  | none => (s.emit (.retPop op none value)).goto t .idle
  | some h => s.goto t (.readNext op value h)

/-- A failed exchange on `head_` loads the current head into its first
argument: the field `n->next` in `push`, the local `head` in `try_pop` and
`clear`. -/
def exchangeFailed (s : State Thread P T) (t : Thread) :
    Pc P T → Option (State Thread P T)
  | .casPush _ n => some (s.setNext n s.head)
  | .casPop op value _ _ => some (popFrom s t op value s.head)
  | .casClear op _ => some (s.goto t (.casClear op s.head))
  | _ => none

/-- One step of `push`, from the construction of the node on. -/
def stepPush (s : State Thread P T) (t : Thread) :
    Pc P T → Option (State Thread P T)
  | .initNext op value n =>
      some ((s.setNode n { s.heap n with next := none, op := op }).goto t
        (.initData op value n))
  | .initData op value n =>
      some ((s.setNode n { s.heap n with data := value }).goto t (.loadForNext op n))
  | .loadForNext op n => some (s.goto t (.storeNext op n s.head))
  | .storeNext op n head => some ((s.setNext n head).goto t (.casPush op n))
  | .casPush op n =>
      if s.head = (s.heap n).next then
        some ((({ s with head := some n }.emit (.pushed op n)).emit
          (.retPush op)).goto t .idle)
      else exchangeFailed s t (.casPush op n)
  | _ => none

/-- One step of `try_pop`, except for its return to the pool. -/
def stepPop (s : State Thread P T) (t : Thread) :
    Pc P T → Option (State Thread P T)
  | .loadHead op value => some (popFrom s t op value s.head)
  | .readNext op value h => some (s.goto t (.casPop op value h (s.heap h).next))
  | .casPop op value h next =>
      if s.head = some h then
        some (({ s with head := next }.emit (.popped op (s.heap h).op h)).goto t
          (.moveData op value (s.heap h).op h))
      else exchangeFailed s t (.casPop op value h next)
  | .moveData op _ item h =>
      some (s.goto t (.deallocate op (s.heap h).data item h))
  | _ => none

/-- One step of `clear`, except for its returns to the pool. -/
def stepClear (s : State Thread P T) (t : Thread) :
    Pc P T → Option (State Thread P T)
  | .loadAll op => some (s.goto t (.casClear op s.head))
  | .casClear op head =>
      if s.head = head then
        some (({ s with head := none }.emit (.cleared op)).goto t (.sweep op head))
      else exchangeFailed s t (.casClear op head)
  | .sweep op none => some ((s.emit (.retClear op)).goto t .idle)
  | .sweep op (some n) => some (s.goto t (.discard op n (s.heap n).next))
  | _ => none

/-- One step of the stack.  `allocate` and `deallocate` are the two steps in
which the pool has a choice: which free node it hands out, and which pointer it
leaves in the word that `next` shares with the free list. -/
def step (s : State Thread P T) : Action Thread P T → Option (State Thread P T)
  | .push t value => push s t value
  | .emplace t value => emplace s t value
  | .tryPop t value => tryPop s t value
  | .clear t => clear s t
  | .run t =>
      stepPush s t (s.pc t) <|> stepPop s t (s.pc t) <|> stepClear s t (s.pc t)
  | .spurious t => exchangeFailed s t (s.pc t)
  | .allocate t n =>
      match s.pc t with
      | .allocate op value =>
          if s.allocated n then none
          else some ({ s with allocated := Function.update s.allocated n true }.goto t
            (.initNext op value n))
      | _ => none
  | .deallocate t word =>
      match s.pc t with
      | .deallocate op value item n =>
          some ((({ s with allocated := Function.update s.allocated n false }.setNext n
            word).emit (.retPop op (some item) value)).goto t .idle)
      | .discard op n head =>
          some (({ s with allocated := Function.update s.allocated n false }.setNext n
            word).goto t (.sweep op head))
      | _ => none

/-- `stack::stack`: the list is empty, and the memory is arbitrary. -/
def initial (heap : P → Node P T) : State Thread P T where
  head := none
  heap := heap
  allocated := fun _ => false
  pc := fun _ => .idle
  trace := []

/-- The stack as a machine. -/
def machine : Machine (State Thread P T) (Action Thread P T) where
  start s := ∃ heap, s = initial heap
  step := step

end Stack
end Lockfree
end Cyan
