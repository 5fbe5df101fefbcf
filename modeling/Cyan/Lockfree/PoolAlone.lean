import Cyan.Base.Fuel
import Cyan.Lockfree.Freelist

/-!
# The free list in one thread

This module embeds `lockfree::detail::freelist<T>` for a container that only one thread
uses: a member function is a program on the memory, and it may throw.

* A node of the container and a node of the free list are the same memory.  Its first word
  is `next` for either of them; the queue keeps a tag beside it, and the element behind it.
* Every loop of the source is a loop here, and gets fuel.
* `Env` is what the run depends on besides the code: the addresses that the system
  allocator hands out, the weak exchanges that fail for no reason, and the operations of the
  element type that throw.

The field `trace` records the nodes that the container has got from its pool and has given
back since the pool was made, newest first, and `system` those that the pool has got from the
system allocator and has returned to it.
-/

namespace Cyan
namespace Lockfree
namespace Alone

open Base Freelist

/-- What ends a program before it returns. -/
inductive Stop
  /-- an exception of the element type -/
  | thrown
  /-- a failed `assert` -/
  | assertion
  /-- a null pointer is followed -/
  | fault
  /-- a loop goes on -/
  | running
  deriving DecidableEq, Repr

/-- The memory of a node. -/
structure Cell (P T : Type) where
  word : Option P
  tag : UInt64
  data : T

/-- The members of the container, those of its pool, and the memory around them.  The
counters number the questions to `Env`. -/
structure Memory (κ P T : Type) where
  members : κ
  heap : P → Cell P T
  mapped : List P
  head : Option P
  size : UInt64
  trace : List (Event P)
  system : List (Event P)
  requests : Nat
  exchanges : Nat
  elements : Nat

/-- What a run depends on besides the code. -/
structure Env (P T : Type) where
  /-- the address with which the system allocator answers a request -/
  pick : Nat → List P → P
  /-- no address is handed out twice -/
  pick_fresh : ∀ k mapped, pick k mapped ∉ mapped
  /-- what the memory holds when it is handed out -/
  garbage : Nat → Cell P T
  /-- a weak exchange fails although it finds the expected value -/
  spurious : Nat → Bool
  /-- but not for ever -/
  fair : ∀ k, ∃ j, k ≤ j ∧ spurious j = false
  /-- a constructor or an assignment of the element type throws -/
  throws : Nat → Bool
  /-- what a failed assignment to the first value leaves in the second, its source -/
  failed : Nat → T → T → T
  /-- what a move leaves behind -/
  movedFrom : T → T
  /-- `T()` -/
  blank : T

/-- An atomic member. -/
structure Atomic (κ P T α : Type) where
  load : Memory κ P T → α
  store : α → Memory κ P T → Memory κ P T
  /-- the exchanges are only counted -/
  load_exchanges : ∀ s e, load { s with exchanges := e } = load s

/-- A program of the thread. -/
abbrev Run (κ P T : Type) := EStateM Stop (Memory κ P T)

variable {κ P T : Type} [DecidableEq P]

namespace Memory

/-- The first word of every node. -/
abbrev words (s : Memory κ P T) (n : P) : Option P :=
  (s.heap n).word

/-- Write a node. -/
def setCell (s : Memory κ P T) (n : P) (cell : Cell P T) : Memory κ P T :=
  { s with heap := Function.update s.heap n cell }

/-- Write the first word of a node. -/
def setWord (s : Memory κ P T) (n : P) (word : Option P) : Memory κ P T :=
  s.setCell n { s.heap n with word := word }

/-- Write the element of a node. -/
def setData (s : Memory κ P T) (n : P) (data : T) : Memory κ P T :=
  s.setCell n { s.heap n with data := data }

/-- The system hands out a node with whatever it holds. -/
def handOut (s : Memory κ P T) (n : P) (cell : Cell P T) : Memory κ P T :=
  { s with
    mapped := n :: s.mapped
    heap := Function.update s.heap n cell
    system := .allocated n :: s.system
    requests := s.requests + 1 }

/-- The system takes a node back. -/
def takeBack (s : Memory κ P T) (n : P) : Memory κ P T :=
  { s with
    mapped := s.mapped.erase n
    system := .deallocated n :: s.system }

end Memory

/-- `head_` of the pool. -/
def poolHead : Atomic κ P T (Option P) where
  load s := s.head
  store head s := { s with head := head }
  load_exchanges _ _ := rfl

section Environment

variable (env : Env P T)

/-- `allocator_.allocate(1)` -/
def systemAllocate : Run κ P T P := do
  let s ← get
  let n := env.pick s.requests s.mapped
  set (s.handOut n (env.garbage s.requests))
  return n

/-- `allocator_.deallocate(n, 1)` -/
def systemDeallocate (n : P) : Run κ P T Unit :=
  modify (·.takeBack n)

/-- `member.compare_exchange_weak(expected, desired)`: whether it succeeds, and `expected`
behind it. -/
def exchangeWeak {α : Type} [DecidableEq α] (member : Atomic κ P T α) (expected desired : α) :
    Run κ P T (Bool × α) := do
  let s ← get
  set { s with exchanges := s.exchanges + 1 }
  if member.load s = expected ∧ env.spurious s.exchanges = false then
    modify (member.store desired)
    return (true, expected)
  else return (false, member.load s)

/-- `member.compare_exchange_strong(expected, desired)` -/
def exchangeStrong {α : Type} [DecidableEq α] (member : Atomic κ P T α)
    (expected desired : α) : Run κ P T Bool := do
  if member.load (← get) = expected then
    modify (member.store desired)
    return true
  else return false

/-- `while (!head_.compare_exchange_weak(head, head->next));` -/
def popHead (fuel : Nat) (head : Option P) : Run κ P T P :=
  loop .running (fun head => do
    match head with
    | none => throw .fault
    | some h =>
        let (done, seen) ← exchangeWeak env poolHead (some h) ((← get).heap h).word
        return if done then .inr h else .inl seen) fuel head

/-- `while (!head_.compare_exchange_weak(n->next, n));` -/
def pushHead (member : Atomic κ P T (Option P)) (fuel : Nat) (n : P) : Run κ P T Unit :=
  loop .running (fun _ => do
    let (done, seen) ← exchangeWeak env member ((← get).heap n).word (some n)
    if done then return .inr ()
    else
      modify (·.setWord n seen)
      return .inl ()) fuel ()

/-- `freelist::allocate` -/
def allocate (fuel : Nat) : Run κ P T P := do
  match (← get).head with
  | none => systemAllocate env
  | some head => do
      let head ← popHead env fuel (some head)
      modify fun s => { s with size := s.size - 1 }
      return head

variable (maxSize : UInt64)

/-- `freelist::deallocate` -/
def deallocate (fuel : Nat) (value : P) : Run κ P T Unit := do
  if (← get).size = maxSize then systemDeallocate value
  else
    modify fun s => s.setWord value s.head
    pushHead env poolHead fuel value
    modify fun s => { s with size := s.size + 1 }

/-- `rounds` rounds of `for (std::size_t i = 0; i < max_size_; i++)`. -/
def fill (fuel : Nat) : Nat → Run κ P T Unit
  | 0 => return
  | rounds + 1 => do
      deallocate env maxSize fuel (← systemAllocate env)
      fill fuel rounds

/-- `freelist::freelist` -/
def createPool (fuel : Nat) : Run κ P T Unit := do
  modify fun s => { s with head := none, size := 0, trace := [], system := [] }
  fill env maxSize fuel maxSize.toNat

/-- `while (head)` of the destructor. -/
def releaseAll (fuel : Nat) (head : Option P) : Run κ P T Unit :=
  loop .running (fun head => do
    match head with
    | none => return .inr ()
    | some n =>
        let head := ((← get).heap n).word
        systemDeallocate n
        return .inl head) fuel head

/-- `freelist::~freelist` -/
def destroyPool (fuel : Nat) : Run κ P T Unit := do
  if maxSize = 0 then return
  if (← get).size ≠ maxSize then throw .assertion
  let head := (← get).head
  if head = none then throw .assertion
  releaseAll fuel head

/-! ## What a container does with nodes and elements -/

/-- `pool_.allocate()` -/
def obtain (fuel : Nat) : Run κ P T P := do
  let n ← allocate env fuel
  modify fun s => { s with trace := .allocated n :: s.trace }
  return n

/-- `pool_.deallocate(n)` -/
def giveBack (fuel : Nat) (n : P) : Run κ P T Unit := do
  modify fun s => { s with trace := .deallocated n :: s.trace }
  deallocate env maxSize fuel n

/-- A constructor of the element type, which may throw. -/
def construct (value : T) : Run κ P T T := do
  let s ← get
  set { s with elements := s.elements + 1 }
  if env.throws s.elements then throw .thrown
  else return value

/-- `new (n) node{ value }` with the initialiser of `next`. -/
def constructNode (next : Memory κ P T → Memory κ P T) (n : P) (value : T) :
    Run κ P T Unit := do
  modify next
  let data ← construct env value
  modify (·.setData n data)

/-- `p->` -/
def follow (p : Option P) : Run κ P T P :=
  match p with
  | none => throw .fault
  | some n => return n

/-- `value = std::move(n->data)`, which may throw. -/
def moveOut (value : T) (n : P) : Run κ P T T := do
  let s ← get
  let data := (s.heap n).data
  if env.throws s.elements then
    set { s.setData n (env.failed s.elements value data) with elements := s.elements + 1 }
    throw .thrown
  else
    set { s.setData n (env.movedFrom data) with elements := s.elements + 1 }
    return data

/-- What an operation of a container returns: `taken` is a `bool` and the referenced value. -/
inductive Answer (T : Type)
  | done
  | taken (found : Bool) (value : T)
  | isEmpty (empty : Bool)
  deriving DecidableEq, Repr

end Environment

/-! ## What is free and what is outside -/

/-- Every node went out while it was in, and came in while it was out. -/
def Once : List (Event P) → Prop
  | [] => True
  | .allocated n :: trace => outstanding trace n = false ∧ Once trace
  | .deallocated n :: trace => outstanding trace n = true ∧ Once trace

/-- These are the nodes that are outside. -/
structure Tallies (trace : List (Event P)) (nodes : List P) : Prop where
  once : Once trace
  outstanding : ∀ n, outstanding trace n ↔ n ∈ nodes

/-- The number of nodes that are outside. -/
def handedOut : List (Event P) → Int
  | [] => 0
  | .allocated _ :: trace => handedOut trace + 1
  | .deallocated _ :: trace => handedOut trace - 1

/-- The nodes of the free list. -/
structure FreeNodes (maxSize : UInt64) (s : Memory κ P T) (free : List P) : Prop where
  chain : Path s.words s.head free none
  size : s.size = .ofNat free.length
  bound : free.length ≤ maxSize.toNat
  mapped : ∀ n ∈ free, n ∈ s.mapped

/-- The nodes of the free list, and those that the container has.  There are always enough
of them to fill the list again. -/
structure Pool (maxSize : UInt64) (s : Memory κ P T) (free out : List P) : Prop
    extends FreeNodes maxSize s free where
  enough : maxSize.toNat ≤ free.length + out.length
  nodup : (free ++ out).Nodup
  mappedOut : ∀ n ∈ out, n ∈ s.mapped
  once : Once s.trace
  outstanding : ∀ n, outstanding s.trace n ↔ n ∈ out

end Alone
end Lockfree
end Cyan
