import Cyan.Lockfree.PoolRuns
import Cyan.Lockfree.TaggedPtr

/-!
# The queue in one thread

This module embeds `lockfree::queue<T>` over its real pool, for one thread: the constructor,
every operation, and the destructor with that of the pool.
-/

namespace Cyan
namespace Lockfree
namespace Alone
namespace Queue

open Base Freelist

/-- `head_` and `tail_`. -/
structure Members (P : Type) where
  head : TaggedPtr P
  tail : TaggedPtr P
  deriving DecidableEq, Repr

variable {P T : Type} [DecidableEq P]

/-- A queue and its pool in memory. -/
abbrev State (P T : Type) := Memory (Members P) P T

/-- `head_` -/
def head : Atomic (Members P) P T (TaggedPtr P) where
  load s := s.members.head
  store head s := { s with members := { s.members with head := head } }
  load_exchanges _ _ := rfl

/-- `tail_` -/
def tail : Atomic (Members P) P T (TaggedPtr P) where
  load s := s.members.tail
  store tail s := { s with members := { s.members with tail := tail } }
  load_exchanges _ _ := rfl

/-- `n->next` -/
def next (n : P) : Atomic (Members P) P T (TaggedPtr P) where
  load s := ⟨(s.heap n).word, (s.heap n).tag⟩
  store p s := s.setCell n { s.heap n with word := p.ptr, tag := p.tag }
  load_exchanges _ _ := rfl

/-- The operations of one thread. -/
inductive Op (T : Type)
  | enqueue (value : T)
  | emplace (value : T)
  | tryDequeue (value : T)
  | empty
  deriving DecidableEq, Repr

/-- The operations on a list that is first in, first out. -/
def Op.onList : Op T → List T → Answer T × List T
  | .enqueue value, items => (.done, items ++ [value])
  | .emplace value, items => (.done, items ++ [value])
  | .tryDequeue value, [] => (.taken false value, [])
  | .tryDequeue _, x :: items => (.taken true x, items)
  | .empty, items => (.isEmpty items.isEmpty, items)

section Operations

variable (env : Env P T) (maxSize : UInt64)

/-- `new (n) node{ value }` -/
def newNode (n : P) (value : T) : Run (Members P) P T Unit :=
  constructNode env ((next n).store ⟨none, 0⟩) n value

/-- `queue::initialize` -/
def initializeQueue (fuel : Nat) : Run (Members P) P T Unit := do
  let n ← obtain env fuel
  newNode env n env.blank
  let dummy := ⟨some n, 0⟩
  modify (head.store dummy)
  modify (tail.store dummy)

/-- `queue::queue` -/
def create (fuel : Nat) : Run (Members P) P T Unit := do
  modify (head.store ⟨none, 0⟩)
  modify (tail.store ⟨none, 0⟩)
  createPool env maxSize fuel
  initializeQueue env fuel

/-- `queue::enqueue(node* n)` -/
def link (fuel : Nat) (n : P) : Run (Members P) P T Unit :=
  loop .running (fun _ => do
    let tail' := tail.load (← get)
    let last ← follow tail'.ptr
    let next' := (next last).load (← get)
    if tail' = tail.load (← get) then
      if next'.ptr = none then
        if ← exchangeStrong (next last) next' ⟨some n, next'.getNextTag⟩ then
          let tag := (tail.load (← get)).getNextTag
          let _ ← exchangeStrong tail tail' ⟨some n, tag⟩
          return .inr ()
        else return .inl ()
      else
        let _ ← exchangeStrong tail tail' ⟨next'.ptr, tail'.getNextTag⟩
        return .inl ()
    else return .inl ()) fuel ()

/-- `queue::enqueue` -/
def enqueue (fuel : Nat) (value : T) : Run (Members P) P T Unit := do
  let n ← obtain env fuel
  newNode env n value
  link fuel n

/-- `queue::emplace`, with what its arguments make: a temporary, and the node from it. -/
def emplace (fuel : Nat) (value : T) : Run (Members P) P T Unit := do
  let n ← obtain env fuel
  let value ← construct env value
  newNode env n value
  link fuel n

/-- `queue::try_dequeue` -/
def tryDequeue (fuel : Nat) (value : T) : Run (Members P) P T (Bool × T) :=
  loop .running (fun value => do
    let head' := head.load (← get)
    let tail' := tail.load (← get)
    let first ← follow head'.ptr
    let next' := (next first).load (← get)
    if head' = head.load (← get) then
      if head'.ptr = tail'.ptr then
        if next'.ptr = none then return .inr (false, value)
        else
          let _ ← exchangeStrong tail tail' ⟨next'.ptr, tail'.getNextTag⟩
          return .inl value
      else
        let value ← moveOut env value (← follow next'.ptr)
        if ← exchangeStrong head head' ⟨next'.ptr, head'.getNextTag⟩ then
          giveBack env maxSize fuel first
          return .inr (true, value)
        else return .inl value
    else return .inl value) fuel value

/-- `queue::empty` -/
def empty : Run (Members P) P T Bool := do
  let s ← get
  return s.members.tail.ptr = s.members.head.ptr

/-- `while (head.get_ptr() != tail.get_ptr())` of the destructor. -/
def release (fuel : Nat) (head' tail' : TaggedPtr P) : Run (Members P) P T Unit :=
  loop .running (fun head' => do
    if head'.ptr = tail'.ptr then return .inr ()
    else
      let n ← follow head'.ptr
      let head' := (next n).load (← get)
      giveBack env maxSize fuel n
      return .inl head') fuel head'

/-- `queue::~queue`, and the destructor of `pool_`. -/
def destroy (fuel : Nat) : Run (Members P) P T Unit := do
  let s ← get
  release env maxSize fuel s.members.head s.members.tail
  giveBack env maxSize fuel (← follow s.members.tail.ptr)
  destroyPool maxSize fuel

/-- One operation. -/
def runOp : Op T → Nat → Run (Members P) P T (Answer T)
  | .enqueue value, fuel => do
      enqueue env fuel value
      return .done
  | .emplace value, fuel => do
      emplace env fuel value
      return .done
  | .tryDequeue value, fuel => do
      let (found, value) ← tryDequeue env maxSize fuel value
      return .taken found value
  | .empty, _ => return .isEmpty (← empty)

/-- The life of a queue. -/
def life (ops : List (Op T)) (fuel : Nat) : Run (Members P) P T (List (Answer T)) := do
  create env maxSize fuel
  let answers ← sequence (runOp env maxSize) ops fuel
  destroy env maxSize fuel
  return answers

end Operations

end Queue
end Alone
end Lockfree
end Cyan
