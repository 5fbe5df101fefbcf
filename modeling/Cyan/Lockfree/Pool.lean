import Cyan.Lockfree.FreelistMoves

/-!
# A container over its real free list

`queue` and `stack` take their nodes from a `freelist` and give them back to it,
and the free list links its nodes through the word in which the container keeps
`n->next`.  This module puts a container and the free list together: every
thread stands somewhere in the container, and while the container waits for
`pool_.allocate()` or `pool_.deallocate(n)`, also somewhere in the free list.

* `Client` is what the free list sees of a container: the steps of its members,
  the request on which a thread waits, how the thread resumes, and the words
  that both sides share.
* The container and the free list read and write one memory.  The container
  holds it; `view` shows it to the free list and `settle` brings it back.
* The free list does not know whom a node belongs to: unlike in
  `Freelist.machine`, whatever the container gives back is accepted.
* The system may overwrite a node while the node is in its hands
  (`Action.scribble`).
-/

namespace Cyan
namespace Lockfree

variable {Thread P K σ α : Type*}

namespace Freelist

/-- The value with which a call returns at its next step, if it does. -/
def Pc.returned : Pc P → Option (Option P)
  | .subSize h => some (some h)
  | .systemDeallocate _ => some none
  | .addSize => some none
  | _ => none

/-- The node that the next step reads or writes. -/
def Pc.touched : Pc P → Option P
  | .readNext head => head
  | .storeNext n _ => some n
  | .casNode n => some n
  | _ => none

/-- What an `allocate` without interference makes of the free list, when it
returns `n`. -/
def allocateAlone [DecidableEq P] (s : State Thread P) (n : P) :
    Option (State Thread P) :=
  match s.head with
  | some h =>
      if h = n then
        some ({ s with head := s.next h, size := s.size - 1 }.emit (.allocated n))
      else none
  | none =>
      if s.mapped n then none
      else some ({ s with mapped := Function.update s.mapped n true }.emit
        (.allocated n))

end Freelist

namespace Pool

open Base

/-- On what a thread of the container waits. -/
inductive Request (P : Type*)
  | none
  /-- `pool_.allocate()` -/
  | allocate
  /-- `pool_.deallocate(n)` -/
  | deallocate (n : P)
  deriving DecidableEq, Repr

/-- A container, as its free list sees it. -/
structure Client (σ α K Thread P : Type*) where
  /-- the steps of the container's members outside the pool -/
  step : σ → α → Option σ
  /-- where a thread stands -/
  pc : σ → Thread → K
  /-- on what it waits there -/
  request : K → Request P
  /-- how it goes on with the node that the pool returns, if any -/
  resume : σ → Thread → Option P → σ
  /-- `n->next`, as a pointer -/
  word : σ → P → Option P
  /-- the memory after the pool has written such words -/
  setWords : σ → (P → Option P) → σ
  /-- the node that a thread's next step reads or writes -/
  touched : K → Option P

/-- The container and the free list. -/
structure State (σ Thread P : Type*) where
  client : σ
  pool : Freelist.State Thread P

/-- What a scheduler can do: let the container take a step, start the call of
the pool that a thread waits for, let the pool take a step, and choose for the
system allocator. -/
inductive Action (α Thread P : Type*)
  | client (a : α)
  | call (t : Thread)
  | run (t : Thread)
  | spurious (t : Thread)
  | system (t : Thread) (n : P)
  | scribble (n : P) (word : Option P)

variable (C : Client σ α K Thread P)

/-- The free list in the memory of the container. -/
def view (s : State σ Thread P) : Freelist.State Thread P :=
  { s.pool with next := C.word s.client }

/-- The container after the free list has written to the memory. -/
def store (s : State σ Thread P) (pool : Freelist.State Thread P) : σ :=
  C.setWords s.client pool.next

/-- A step of thread `t` inside the pool.  With the last step of the call the
thread resumes in the container. -/
def settle (s : State σ Thread P) (t : Thread) (pool : Freelist.State Thread P) :
    State σ Thread P :=
  match (s.pool.pc t).returned with
  | some n => ⟨C.resume (store C s pool) t n, pool⟩
  | none => ⟨store C s pool, pool⟩

variable [DecidableEq Thread] [DecidableEq P]

/-- The call of the pool that thread `t` waits for starts. -/
def call (s : State σ Thread P) (t : Thread) : Option (State σ Thread P) :=
  match s.pool.pc t, C.request (C.pc s.client t) with
  | .idle, .allocate => some { s with pool := s.pool.goto t .loadHead }
  | .idle, .deallocate n =>
      some { s with pool := (s.pool.emit (.deallocated n)).goto t (.checkSize n) }
  | _, _ => none

/-- One step of the container over its free list. -/
def step (maxSize : UInt64) (s : State σ Thread P) :
    Action α Thread P → Option (State σ Thread P)
  | .client a => (C.step s.client a).map fun c => { s with client := c }
  | .call t => call C s t
  | .run t => (Freelist.step maxSize (view C s) (.run t)).map (settle C s t)
  | .spurious t => (Freelist.step maxSize (view C s) (.spurious t)).map (settle C s t)
  | .system t n =>
      (Freelist.step maxSize (view C s) (.system t n)).map fun pool =>
        ⟨C.resume (store C s pool) t (some n), pool⟩
  | .scribble n word =>
      if s.pool.mapped n then none
      else some { s with
        client := C.setWords s.client (Function.update (C.word s.client) n word) }

/-- The node that the next step of thread `t` reads or writes. -/
def touched (s : State σ Thread P) (t : Thread) : Option P :=
  match s.pool.pc t with
  | .idle => C.touched (C.pc s.client t)
  | k => k.touched

/-- The container over its free list, as a machine.  `start` says which states
the constructors of the two can leave. -/
def machine (start : State σ Thread P → Prop) (maxSize : UInt64) :
    Machine (State σ Thread P) (Action α Thread P) where
  start := start
  step := step C maxSize

end Pool
end Lockfree
end Cyan
