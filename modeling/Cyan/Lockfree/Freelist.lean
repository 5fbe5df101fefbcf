import Cyan.Base.Machine
import Cyan.Base.Path

/-!
# The free list, step by step

This module embeds `lockfree::detail::freelist<T>`: a list of unused nodes that
is linked through the first word of each node and headed by the atomic `head_`.
Every atomic access, and every plain access to a node's `next`, is one step of
one thread.

* A weak compare-exchange may fail although it finds the expected value; the
  scheduler chooses when (`Action.spurious`).
* `mapped` is the state of the system allocator, which hands out any node that
  it has not handed out already.
* Whoever owns a node may overwrite its first word at any time: the caller of
  `allocate` until it calls `deallocate`, and the system while the node is not
  mapped (`Action.write`).

The field `trace` records the returns of `allocate` and the calls of
`deallocate`, newest first.  A node is outstanding if the last of these records
about it is a return of `allocate`.
-/

namespace Cyan
namespace Lockfree
namespace Freelist

open Base

variable {Thread P : Type*}

/-- A return of `allocate` with its node, or a call of `deallocate`. -/
inductive Event (P : Type*)
  | allocated (n : P)
  | deallocated (n : P)
  deriving DecidableEq, Repr

/-- The node has been handed out and not been given back. -/
def outstanding [DecidableEq P] : List (Event P) → P → Bool
  | [], _ => false
  | .allocated m :: tr, n => m = n || outstanding tr n
  | .deallocated m :: tr, n => m ≠ n && outstanding tr n

/-- Where a thread stands, with the local variables that are still needed. -/
inductive Pc (P : Type*)
  | idle
  /-- `node* head = head_.load()` -/
  | loadHead
  /-- `return allocator_.allocate(1)` -/
  | systemAllocate
  /-- `head->next`, the second argument of the exchange -/
  | readNext (head : Option P)
  /-- `head_.compare_exchange_weak(head, head->next)` -/
  | casHead (head : P) (next : Option P)
  /-- `size_.fetch_sub(1)`, then `return head` -/
  | subSize (head : P)
  /-- `if (size_ == max_size_)` -/
  | checkSize (n : P)
  /-- `allocator_.deallocate(value, 1)`, then `return` -/
  | systemDeallocate (n : P)
  /-- `head_.load()`, for `n->next` -/
  | loadForNext (n : P)
  /-- `n->next = ...` -/
  | storeNext (n : P) (head : Option P)
  /-- `head_.compare_exchange_weak(n->next, n)` -/
  | casNode (n : P)
  /-- `size_.fetch_add(1)`, then return -/
  | addSize
  /-- a null pointer was followed -/
  | fault
  deriving DecidableEq, Repr

/-- The shared memory, the system allocator, the threads and the trace. -/
structure State (Thread P : Type*) where
  head : Option P
  next : P → Option P
  size : UInt64
  mapped : P → Bool
  pc : Thread → Pc P
  trace : List (Event P)

/-- What a scheduler can do. -/
inductive Action (Thread P : Type*)
  | allocate (t : Thread)
  | deallocate (t : Thread) (n : P)
  | run (t : Thread)
  | spurious (t : Thread)
  | system (t : Thread) (n : P)
  | write (n : P) (word : Option P)

namespace State

variable [DecidableEq Thread] [DecidableEq P] (s : State Thread P)

/-- Thread `t` moves on to `k`. -/
def goto (t : Thread) (k : Pc P) : State Thread P :=
  { s with pc := Function.update s.pc t k }

/-- The trace grows by one event. -/
def emit (e : Event P) : State Thread P :=
  { s with trace := e :: s.trace }

/-- Write `n->next`. -/
def setNext (n : P) (word : Option P) : State Thread P :=
  { s with next := Function.update s.next n word }

end State

variable [DecidableEq Thread] [DecidableEq P]

/-- A failed exchange on `head_` loads the current head into its first
argument: the local `head` in `allocate`, the field `n->next` in
`deallocate`. -/
def exchangeFailed (s : State Thread P) (t : Thread) :
    Pc P → Option (State Thread P)
  | .casHead _ _ => some (s.goto t (.readNext s.head))
  | .casNode n => some (s.setNext n s.head)
  | _ => none

/-- One step of `allocate`, apart from the choice of the system allocator. -/
def stepAllocate (s : State Thread P) (t : Thread) :
    Pc P → Option (State Thread P)
  | .loadHead =>
      match s.head with
      | none => some (s.goto t .systemAllocate)
      | some h => some (s.goto t (.readNext (some h)))
  | .readNext none => some (s.goto t .fault)
  | .readNext (some h) => some (s.goto t (.casHead h (s.next h)))
  | .casHead h next =>
      if s.head = some h then some ({ s with head := next }.goto t (.subSize h))
      else exchangeFailed s t (.casHead h next)
  | .subSize h =>
      some (({ s with size := s.size - 1 }.emit (.allocated h)).goto t .idle)
  | _ => none

/-- One step of `deallocate`. -/
def stepDeallocate (maxSize : UInt64) (s : State Thread P) (t : Thread) :
    Pc P → Option (State Thread P)
  | .checkSize n =>
      if s.size = maxSize then some (s.goto t (.systemDeallocate n))
      else some (s.goto t (.loadForNext n))
  | .systemDeallocate n =>
      some ({ s with mapped := Function.update s.mapped n false }.goto t .idle)
  | .loadForNext n => some (s.goto t (.storeNext n s.head))
  | .storeNext n head => some ((s.setNext n head).goto t (.casNode n))
  | .casNode n =>
      if s.head = s.next n then some ({ s with head := some n }.goto t .addSize)
      else exchangeFailed s t (.casNode n)
  | .addSize => some ({ s with size := s.size + 1 }.goto t .idle)
  | _ => none

/-- One step of the free list.  A call of `deallocate` takes a node that an
earlier call of `allocate` returned and that has not been given back since. -/
def step (maxSize : UInt64) (s : State Thread P) :
    Action Thread P → Option (State Thread P)
  | .allocate t =>
      match s.pc t with
      | .idle => some (s.goto t .loadHead)
      | _ => none
  | .deallocate t n =>
      match s.pc t with
      | .idle =>
          if outstanding s.trace n then
            some ((s.emit (.deallocated n)).goto t (.checkSize n))
          else none
      | _ => none
  | .run t => stepAllocate s t (s.pc t) <|> stepDeallocate maxSize s t (s.pc t)
  | .spurious t => exchangeFailed s t (s.pc t)
  | .system t n =>
      match s.pc t with
      | .systemAllocate =>
          if s.mapped n then none
          else some (({ s with mapped := Function.update s.mapped n true }.emit
            (.allocated n)).goto t .idle)
      | _ => none
  | .write n word =>
      if outstanding s.trace n || !s.mapped n then some (s.setNext n word)
      else none

/-- Nothing is mapped, and the rest of the memory is arbitrary. -/
def empty (next : P → Option P) : State Thread P where
  head := none
  next := next
  size := 0
  mapped := fun _ => false
  pc := fun _ => .idle
  trace := []

/-- One round of the constructor's loop, `deallocate(allocator_.allocate(1))`,
with the node that the system hands out. -/
def prefill (s : State Thread P) (n : P) : State Thread P :=
  { s with
    mapped := Function.update s.mapped n true
    next := Function.update s.next n s.head
    head := some n
    size := s.size + 1 }

/-- The free list as a machine.  The constructor fills the list with as many
nodes as it may hold. -/
def machine (maxSize : UInt64) : Machine (State Thread P) (Action Thread P) where
  start s := ∃ (next : P → Option P) (nodes : List P), nodes.Nodup ∧
    nodes.length = maxSize.toNat ∧ s = nodes.foldl prefill (empty next)
  step := step maxSize

end Freelist
end Lockfree
end Cyan
