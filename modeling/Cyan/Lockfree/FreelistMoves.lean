import Cyan.Lockfree.Freelist

/-!
# What a step of the free list does

`Move` lists the steps of `allocate` and `deallocate` with everything they find
and change; `step_move` says that the machine takes no other.
-/

namespace Cyan
namespace Lockfree
namespace Freelist

open Base

variable {Thread P : Type*} [DecidableEq Thread] [DecidableEq P]

/-- The steps of the free list, one constructor for each outcome. -/
inductive Move (maxSize : UInt64) (s : State Thread P) :
    Action Thread P → State Thread P → Prop
  | allocate {t : Thread} (hpc : s.pc t = .idle) :
      Move maxSize s (.allocate t) (s.goto t .loadHead)
  | loadNull {t : Thread} (hpc : s.pc t = .loadHead) (hhead : s.head = none) :
      Move maxSize s (.run t) (s.goto t .systemAllocate)
  | loadHead {t : Thread} {h : P} (hpc : s.pc t = .loadHead)
      (hhead : s.head = some h) :
      Move maxSize s (.run t) (s.goto t (.readNext (some h)))
  | followNull {t : Thread} (hpc : s.pc t = .readNext none) :
      Move maxSize s (.run t) (s.goto t .fault)
  | readNext {t : Thread} {h : P} (hpc : s.pc t = .readNext (some h)) :
      Move maxSize s (.run t) (s.goto t (.casHead h (s.next h)))
  | remove {t : Thread} {h : P} {next : Option P} (hpc : s.pc t = .casHead h next)
      (hhead : s.head = some h) :
      Move maxSize s (.run t) ({ s with head := next }.goto t (.subSize h))
  | retry {t : Thread} {h : P} {next : Option P} (hpc : s.pc t = .casHead h next)
      (hhead : s.head ≠ some h) :
      Move maxSize s (.run t) (s.goto t (.readNext s.head))
  | spurious {t : Thread} {h : P} {next : Option P}
      (hpc : s.pc t = .casHead h next) :
      Move maxSize s (.spurious t) (s.goto t (.readNext s.head))
  | subSize {t : Thread} {h : P} (hpc : s.pc t = .subSize h) :
      Move maxSize s (.run t)
        (({ s with size := s.size - 1 }.emit (.allocated h)).goto t .idle)
  | systemAllocate {t : Thread} {n : P} (hpc : s.pc t = .systemAllocate)
      (hfree : s.mapped n = false) :
      Move maxSize s (.system t n)
        (({ s with mapped := Function.update s.mapped n true }.emit
          (.allocated n)).goto t .idle)
  | deallocate {t : Thread} {n : P} (hpc : s.pc t = .idle)
      (hout : outstanding s.trace n = true) :
      Move maxSize s (.deallocate t n)
        ((s.emit (.deallocated n)).goto t (.checkSize n))
  | full {t : Thread} {n : P} (hpc : s.pc t = .checkSize n)
      (hsize : s.size = maxSize) :
      Move maxSize s (.run t) (s.goto t (.systemDeallocate n))
  | notFull {t : Thread} {n : P} (hpc : s.pc t = .checkSize n)
      (hsize : s.size ≠ maxSize) :
      Move maxSize s (.run t) (s.goto t (.loadForNext n))
  | systemDeallocate {t : Thread} {n : P} (hpc : s.pc t = .systemDeallocate n) :
      Move maxSize s (.run t)
        ({ s with mapped := Function.update s.mapped n false }.goto t .idle)
  | loadForNext {t : Thread} {n : P} (hpc : s.pc t = .loadForNext n) :
      Move maxSize s (.run t) (s.goto t (.storeNext n s.head))
  | storeNext {t : Thread} {n : P} {head : Option P}
      (hpc : s.pc t = .storeNext n head) :
      Move maxSize s (.run t) ((s.setNext n head).goto t (.casNode n))
  | insert {t : Thread} {n : P} (hpc : s.pc t = .casNode n)
      (hhead : s.head = s.next n) :
      Move maxSize s (.run t) ({ s with head := some n }.goto t .addSize)
  | retryNode {t : Thread} {n : P} (hpc : s.pc t = .casNode n)
      (hhead : s.head ≠ s.next n) :
      Move maxSize s (.run t) (s.setNext n s.head)
  | spuriousNode {t : Thread} {n : P} (hpc : s.pc t = .casNode n) :
      Move maxSize s (.spurious t) (s.setNext n s.head)
  | addSize {t : Thread} (hpc : s.pc t = .addSize) :
      Move maxSize s (.run t) ({ s with size := s.size + 1 }.goto t .idle)
  | write {n : P} {word : Option P}
      (howner : (outstanding s.trace n || !s.mapped n) = true) :
      Move maxSize s (.write n word) (s.setNext n word)

variable {maxSize : UInt64} {s s' : State Thread P}

theorem move_of_stepAllocate {t : Thread}
    (hstep : stepAllocate s t (s.pc t) = some s') : Move maxSize s (.run t) s' := by
  cases hpc : s.pc t with
  | loadHead =>
      simp only [hpc, stepAllocate] at hstep
      split at hstep
      · rename_i hhead
        cases hstep
        exact .loadNull hpc hhead
      · rename_i h hhead
        cases hstep
        exact .loadHead hpc hhead
  | readNext head =>
      rw [hpc] at hstep
      cases head with
      | none => cases hstep; exact .followNull hpc
      | some h => cases hstep; exact .readNext hpc
  | casHead h next =>
      simp only [hpc, stepAllocate] at hstep
      split at hstep
      · rename_i hhead
        cases hstep
        exact .remove hpc hhead
      · rename_i hhead
        cases hstep
        exact .retry hpc hhead
  | subSize h =>
      rw [hpc] at hstep
      cases hstep
      exact .subSize hpc
  | _ => rw [hpc] at hstep; cases hstep

theorem move_of_stepDeallocate {t : Thread}
    (hstep : stepDeallocate maxSize s t (s.pc t) = some s') :
    Move maxSize s (.run t) s' := by
  cases hpc : s.pc t with
  | checkSize n =>
      simp only [hpc, stepDeallocate] at hstep
      split at hstep
      · rename_i hsize
        cases hstep
        exact .full hpc hsize
      · rename_i hsize
        cases hstep
        exact .notFull hpc hsize
  | systemDeallocate n =>
      rw [hpc] at hstep
      cases hstep
      exact .systemDeallocate hpc
  | loadForNext n => rw [hpc] at hstep; cases hstep; exact .loadForNext hpc
  | storeNext n head => rw [hpc] at hstep; cases hstep; exact .storeNext hpc
  | casNode n =>
      simp only [hpc, stepDeallocate] at hstep
      split at hstep
      · rename_i hhead
        cases hstep
        exact .insert hpc hhead
      · rename_i hhead
        cases hstep
        exact .retryNode hpc hhead
  | addSize => rw [hpc] at hstep; cases hstep; exact .addSize hpc
  | _ => rw [hpc] at hstep; cases hstep

/-- Every step of the machine is one of the moves. -/
theorem step_move {a : Action Thread P} (hstep : step maxSize s a = some s') :
    Move maxSize s a s' := by
  cases a with
  | allocate t =>
      simp only [step] at hstep
      split at hstep <;> cases hstep
      exact .allocate ‹_›
  | deallocate t n =>
      simp only [step] at hstep
      split at hstep
      · rename_i hpc
        split at hstep
        · rename_i hout
          cases hstep
          exact .deallocate hpc hout
        · cases hstep
      · cases hstep
  | run t =>
      simp only [step, Option.orElse_eq_orElse, Option.orElse_eq_or,
        Option.or_eq_some_iff] at hstep
      rcases hstep with hrun | ⟨-, hrun⟩
      · exact move_of_stepAllocate hrun
      · exact move_of_stepDeallocate hrun
  | spurious t =>
      simp only [step] at hstep
      cases hpc : s.pc t with
      | casHead h next => rw [hpc] at hstep; cases hstep; exact .spurious hpc
      | casNode n => rw [hpc] at hstep; cases hstep; exact .spuriousNode hpc
      | _ => rw [hpc] at hstep; cases hstep
  | system t n =>
      simp only [step] at hstep
      split at hstep
      · rename_i hpc
        split at hstep
        · cases hstep
        · rename_i hfree
          cases hstep
          exact .systemAllocate hpc (by simpa using hfree)
      · cases hstep
  | write n word =>
      simp only [step] at hstep
      split at hstep
      · rename_i howner
        cases hstep
        exact .write howner
      · cases hstep

section

omit [DecidableEq P]

/-- Where the threads stand after one of them has moved. -/
theorem goto_pc (s : State Thread P) (t u : Thread) (k : Pc P) :
    (s.goto t k).pc u = if u = t then k else s.pc u := by
  unfold State.goto
  exact Function.update_apply ..

@[simp] theorem goto_pc_self (s : State Thread P) (t : Thread) (k : Pc P) :
    (s.goto t k).pc t = k :=
  Function.update_self ..

/-- Moving to where the thread already stands. -/
theorem goto_self {t : Thread} {k : Pc P} (hpc : s.pc t = k) : s.goto t k = s := by
  cases s
  cases hpc
  unfold State.goto
  rw [Function.update_eq_self]

theorem goto_pc_of_ne (s : State Thread P) {t u : Thread} (k : Pc P) (hut : u ≠ t) :
    (s.goto t k).pc u = s.pc u :=
  Function.update_of_ne hut ..

end

omit [DecidableEq Thread] in
/-- The constructor runs before the threads. -/
theorem prefill_pc (nodes : List P) (s : State Thread P) :
    (nodes.foldl prefill s).pc = s.pc := by
  induction nodes generalizing s with
  | nil => rfl
  | cons n nodes ih => exact ih (prefill s n)

end Freelist
end Lockfree
end Cyan
