import Cyan.Lockfree.PoolRuns

/-!
# The stack in one thread

This module embeds `lockfree::stack<T>` over its real pool, for one thread: the constructor,
every operation, and the destructor with that of the pool.
-/

namespace Cyan
namespace Lockfree
namespace Alone
namespace Stack

open Base Freelist

variable {P T : Type} [DecidableEq P]

/-- A stack and its pool in memory: the only other member is `head_`. -/
abbrev State (P T : Type) := Memory (Option P) P T

/-- `head_` -/
def head : Atomic (Option P) P T (Option P) where
  load s := s.members
  store head s := { s with members := head }
  load_exchanges _ _ := rfl

/-- The operations of one thread. -/
inductive Op (T : Type)
  | push (value : T)
  | emplace (value : T)
  | tryPop (value : T)
  | clear
  | empty
  deriving DecidableEq, Repr

/-- The operations on a list that is last in, first out. -/
def Op.onList : Op T → List T → Answer T × List T
  | .push value, items => (.done, value :: items)
  | .emplace value, items => (.done, value :: items)
  | .tryPop value, [] => (.taken false value, [])
  | .tryPop _, x :: items => (.taken true x, items)
  | .clear, _ => (.done, [])
  | .empty, items => (.isEmpty items.isEmpty, items)

section Operations

variable (env : Env P T) (maxSize : UInt64)

/-- `stack::stack` -/
def create (fuel : Nat) : Run (Option P) P T Unit := do
  createPool env maxSize fuel
  modify (head.store none)

/-- `new (n) node_type{ value }` -/
def newNode (n : P) (value : T) : Run (Option P) P T Unit :=
  constructNode env (·.setWord n none) n value

/-- `n->next = head_.load()` and the loop behind it. -/
def link (fuel : Nat) (n : P) : Run (Option P) P T Unit := do
  modify fun s => s.setWord n (head.load s)
  pushHead env head fuel n

/-- `stack::push` -/
def push (fuel : Nat) (value : T) : Run (Option P) P T Unit := do
  let n ← obtain env fuel
  newNode env n value
  link env fuel n

/-- `stack::emplace`, with what its arguments make: a temporary, and the node from it. -/
def emplace (fuel : Nat) (value : T) : Run (Option P) P T Unit := do
  let n ← obtain env fuel
  let value ← construct env value
  newNode env n value
  link env fuel n

/-- `while (!head_.compare_exchange_weak(head, head->next))`, with `if (!head) return false`
inside. -/
def popNode (fuel : Nat) (head' : P) : Run (Option P) P T (Option P) :=
  loop .running (fun head' => do
    let (done, seen) ← exchangeWeak env head (some head') ((← get).heap head').word
    return if done then .inr (some head')
      else match seen with
        | none => .inr none
        | some head' => .inl head') fuel head'

/-- `stack::try_pop` -/
def tryPop (fuel : Nat) (value : T) : Run (Option P) P T (Bool × T) := do
  match head.load (← get) with
  | none => return (false, value)
  | some head' => do
      match ← popNode env fuel head' with
      | none => return (false, value)
      | some n => do
          let value ← moveOut env value n
          giveBack env maxSize fuel n
          return (true, value)

/-- `stack::empty` -/
def empty : Run (Option P) P T Bool := do
  return head.load (← get) = none

/-- `while (!head_.compare_exchange_weak(head, nullptr));` -/
def takeAll (fuel : Nat) (head' : Option P) : Run (Option P) P T (Option P) :=
  loop .running (fun head' => do
    let (done, seen) ← exchangeWeak env head head' none
    return if done then .inr head' else .inl seen) fuel head'

/-- `while (head)` of `clear`. -/
def release (fuel : Nat) (head' : Option P) : Run (Option P) P T Unit :=
  loop .running (fun head' => do
    match head' with
    | none => return .inr ()
    | some n => do
        let head' := ((← get).heap n).word
        giveBack env maxSize fuel n
        return .inl head') fuel head'

/-- `stack::clear` -/
def clear (fuel : Nat) : Run (Option P) P T Unit := do
  let head' ← takeAll env fuel (head.load (← get))
  release env maxSize fuel head'

/-- `stack::~stack`, and the destructor of `pool_`. -/
def destroy (fuel : Nat) : Run (Option P) P T Unit := do
  clear env maxSize fuel
  destroyPool maxSize fuel

/-- One operation. -/
def runOp : Op T → Nat → Run (Option P) P T (Answer T)
  | .push value, fuel => do
      push env fuel value
      return .done
  | .emplace value, fuel => do
      emplace env fuel value
      return .done
  | .tryPop value, fuel => do
      let (found, value) ← tryPop env maxSize fuel value
      return .taken found value
  | .clear, fuel => do
      clear env maxSize fuel
      return .done
  | .empty, _ => return .isEmpty (← empty)

/-- The life of a stack. -/
def life (ops : List (Op T)) (fuel : Nat) : Run (Option P) P T (List (Answer T)) := do
  create env maxSize fuel
  let answers ← sequence (runOp env maxSize) ops fuel
  destroy env maxSize fuel
  return answers

end Operations

end Stack
end Alone
end Lockfree
end Cyan
