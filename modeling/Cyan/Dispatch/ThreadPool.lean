import Mathlib.Data.UInt
import Cyan.Base.Machine

/-!
# Choosing a pool thread

This module embeds `thread_pool::get_next_thread_idx`.  The load and each round
of the exchange loop are one step of one thread.

* A weak compare-exchange may fail although it finds the expected value; the
  scheduler chooses when (`Action.spurious`).
* `cur_idx_` may start with any value.

The loop goes on while the exchange succeeds: `terminates_iff` says for which
sizes a call that runs alone comes out of it.

The parameter `wins` of the stage `exchange`, which counts the exchanges of the
call that have succeeded, and the field `trace`, which records the successful
exchanges and the returns with their indices, newest first, never influence a
step.
-/

namespace Cyan
namespace Dispatch
namespace ThreadPool

open Base

variable {Thread : Type*}

/-- What the trace records. -/
inductive Mark (Thread : Type*)
  /-- an exchange of `t` has stored the index -/
  | claim (t : Thread) (idx : UInt32)
  /-- a call of `t` returns the index -/
  | ret (t : Thread) (idx : UInt32)
  deriving DecidableEq, Repr

/-- Where a thread stands. -/
inductive Pc
  | idle
  /-- `auto idx = cur_idx_.load()` -/
  | load
  /-- `cur_idx_.compare_exchange_weak(idx, (idx + 1) % size_)` -/
  | exchange (idx : UInt32) (wins : Nat)
  deriving DecidableEq, Repr

/-- The pool and the calls in progress. -/
structure State (Thread : Type*) where
  size : UInt32
  curIdx : UInt32
  pc : Thread → Pc
  trace : List (Mark Thread)

/-- What a scheduler can do. -/
inductive Action (Thread : Type*)
  | getNextThreadIdx (t : Thread)
  | run (t : Thread)
  | spurious (t : Thread)
  deriving DecidableEq, Repr

/-- `thread_pool::thread_pool(size)`, with the value that `cur_idx_` starts
from. -/
def create (size curIdx : UInt32) : State Thread where
  size := max size 1
  curIdx := curIdx
  pc := fun _ => .idle
  trace := []

/-- The constructor admits no pool without a thread. -/
theorem one_le_size (size : UInt32) : (1 : UInt32) ≤ max size 1 := by
  change 1 ≤ if size ≤ 1 then 1 else size
  split
  · exact UInt32.le_refl 1
  · rename_i hlarge
    exact UInt32.le_of_lt (UInt32.not_le.mp hlarge)

variable [DecidableEq Thread]

/-- Thread `t` moves on to `k`. -/
def State.goto (s : State Thread) (t : Thread) (k : Pc) : State Thread :=
  { s with pc := Function.update s.pc t k }

/-- A failed exchange loads `cur_idx_` into `idx`, and the call returns it. -/
def exchangeFailed (s : State Thread) (t : Thread) : State Thread :=
  { s with trace := .ret t s.curIdx :: s.trace }.goto t .idle

/-- One step of `get_next_thread_idx()`. -/
def step (s : State Thread) : Action Thread → Option (State Thread)
  | .getNextThreadIdx t =>
      match s.pc t with
      | .idle => some (s.goto t .load)
      | _ => none
  | .run t =>
      match s.pc t with
      | .idle => none
      | .load => some (s.goto t (.exchange s.curIdx 0))
      | .exchange idx wins =>
          if s.curIdx = idx then
            -- `idx` keeps its value, and the loop tries again
            some ({ s with
              curIdx := (idx + 1) % s.size
              trace := .claim t ((idx + 1) % s.size) :: s.trace }.goto t
                (.exchange idx (wins + 1)))
          else some (exchangeFailed s t)
  | .spurious t =>
      match s.pc t with
      | .exchange _ _ => some (exchangeFailed s t)
      | _ => none

/-- The pool as a machine, from any state with no call in progress. -/
def machine : Machine (State Thread) (Action Thread) where
  start s := ∃ size curIdx, s = create size curIdx
  step := step

/-! ## A call that runs alone -/

/-- The call of `t` leaves its loop when `t` runs alone, with an index of the
pool. -/
def Terminates (s : State Thread) (t : Thread) : Prop :=
  ∃ (k : Nat) (s' : State Thread) (idx : UInt32) (claims : List (Mark Thread)),
    machine.exec s (.getNextThreadIdx t :: List.replicate k (.run t)) = some s' ∧
      s'.pc t = .idle ∧ s'.trace = .ret t idx :: claims ∧ idx < s'.size

variable {s s' : State Thread} {t : Thread}

theorem run_load (hpc : s.pc t = .load) :
    machine.step s (.run t) = some (s.goto t (.exchange s.curIdx 0)) := by
  simp [machine, step, hpc]

theorem run_success {idx : UInt32} {wins : Nat} (hpc : s.pc t = .exchange idx wins)
    (hcur : s.curIdx = idx) :
    machine.step s (.run t) = some ({ s with
      curIdx := (idx + 1) % s.size
      trace := .claim t ((idx + 1) % s.size) :: s.trace }.goto t
        (.exchange idx (wins + 1))) := by
  simp [machine, step, hpc, hcur]

theorem run_failure {idx : UInt32} {wins : Nat} (hpc : s.pc t = .exchange idx wins)
    (hcur : s.curIdx ≠ idx) : machine.step s (.run t) = some (exchangeFailed s t) := by
  simp [machine, step, hpc, hcur]

/-- The next index, as a number. -/
theorem toNat_next {size idx : UInt32} (hidx : idx < size) :
    ((idx + 1) % size).toNat = (idx.toNat + 1) % size.toNat := by
  have hlt : idx.toNat < size.toNat := UInt32.lt_iff_toNat_lt.mp hidx
  have hsize := size.toNat_lt
  rw [UInt32.toNat_mod, UInt32.toNat_add]
  congr 1
  exact Nat.mod_eq_of_lt (by simp; omega)

theorem next_lt {size : UInt32} (hsize : 1 ≤ size) (idx : UInt32) :
    (idx + 1) % size < size := by
  rw [UInt32.lt_iff_toNat_lt, UInt32.toNat_mod]
  have hpos : 1 ≤ size.toNat := UInt32.le_iff_toNat_le.mp hsize
  exact Nat.mod_lt _ (by omega)

/-- The next index is another one, unless there is only one. -/
theorem next_eq_iff {size idx : UInt32} (hidx : idx < size) :
    (idx + 1) % size = idx ↔ size = 1 := by
  have hlt : idx.toNat < size.toNat := UInt32.lt_iff_toNat_lt.mp hidx
  rw [← UInt32.toNat_inj, ← UInt32.toNat_inj, toNat_next hidx]
  change _ ↔ size.toNat = 1
  constructor
  · intro hsame
    by_contra hsize
    by_cases hlast : idx.toNat + 1 = size.toNat
    · rw [hlast, Nat.mod_self] at hsame
      omega
    · rw [Nat.mod_eq_of_lt (by omega)] at hsame
      omega
  · intro hsize
    rw [hsize, Nat.mod_one]
    omega

@[simp] theorem goto_pc_self (s : State Thread) (t : Thread) (k : Pc) :
    (s.goto t k).pc t = k :=
  Function.update_self ..

/-- With two threads or more, the exchange after the first successful one finds
another value and fails, and the call returns the index it has claimed. -/
theorem terminates (hidle : s.pc t = .idle) (hsize : 1 ≤ s.size)
    (hcur : s.curIdx < s.size) (hmany : s.size ≠ 1) : Terminates s t := by
  have hnext : (s.curIdx + 1) % s.size ≠ s.curIdx :=
    fun hsame => hmany ((next_eq_iff hcur).mp hsame)
  have hcall : machine.step s (.getNextThreadIdx t) = some (s.goto t .load) := by
    simp [machine, step, hidle]
  -- the load, the exchange that claims the index, the exchange that fails
  have hload := run_load (goto_pc_self s t .load)
  have hclaim := run_success
    (goto_pc_self (s.goto t .load) t (.exchange s.curIdx 0)) rfl
  obtain ⟨s₃, hs₃⟩ : ∃ s₃, s₃ =
    { (s.goto t .load).goto t (.exchange s.curIdx 0) with
      curIdx := (s.curIdx + 1) % s.size
      trace := .claim t ((s.curIdx + 1) % s.size) :: s.trace }.goto t
        (.exchange s.curIdx 1) := ⟨_, rfl⟩
  have hleave : machine.step s₃ (.run t) = some (exchangeFailed s₃ t) := by
    have hpc : s₃.pc t = .exchange s.curIdx 1 := by
      rw [hs₃]
      exact goto_pc_self ..
    refine run_failure hpc ?_
    rw [hs₃]
    exact hnext
  refine ⟨3, exchangeFailed s₃ t, (s.curIdx + 1) % s.size,
    .claim t ((s.curIdx + 1) % s.size) :: s.trace, ?_, goto_pc_self .., ?_, ?_⟩
  · calc machine.exec s (.getNextThreadIdx t :: List.replicate 3 (.run t))
        = machine.exec (s.goto t .load) (List.replicate 3 (.run t)) :=
          machine.exec_of_step hcall _
      _ = machine.exec ((s.goto t .load).goto t (.exchange s.curIdx 0))
            (List.replicate 2 (.run t)) := machine.exec_of_step hload _
      _ = machine.exec s₃ [.run t] := by
          rw [hs₃]
          exact machine.exec_of_step hclaim _
      _ = some (exchangeFailed s₃ t) := machine.exec_of_step hleave []
  · rw [hs₃]
    rfl
  · rw [hs₃]
    exact next_lt hsize _

/-- The call of `t` is in its loop, and its next exchange succeeds. -/
def Spinning (s : State Thread) (t : Thread) : Prop :=
  s.size = 1 ∧ s.curIdx = 0 ∧
    (s.pc t = .load ∨ ∃ wins, s.pc t = .exchange 0 wins)

/-- With one thread every exchange finds the value it has stored itself. -/
theorem Spinning.run (h : Spinning s t)
    (hstep : machine.step s (.run t) = some s') :
    Spinning s' t := by
  obtain ⟨hsize, hcur, hpc | ⟨wins, hpc⟩⟩ := h
  · rw [run_load hpc] at hstep
    cases hstep
    exact ⟨hsize, hcur, .inr ⟨0, by rw [goto_pc_self, hcur]⟩⟩
  · rw [run_success hpc hcur] at hstep
    cases hstep
    refine ⟨hsize, ?_, .inr ⟨wins + 1, goto_pc_self ..⟩⟩
    simp [State.goto, hsize]

theorem Spinning.runs {k : Nat} (h : Spinning s t)
    (hexec : machine.exec s (List.replicate k (.run t)) = some s') :
    Spinning s' t := by
  induction k generalizing s with
  | zero =>
      cases hexec
      exact h
  | succ k ih =>
      obtain ⟨s₁, hs₁, hrest⟩ := Option.bind_eq_some_iff.mp hexec
      exact ih (h.run hs₁) hrest

/-- A call that runs alone comes out of its loop, with an index of the pool,
exactly if the pool has more than one thread. -/
theorem terminates_iff (s : State Thread) (t : Thread) (hidle : s.pc t = .idle)
    (hsize : 1 ≤ s.size) (hcur : s.curIdx < s.size) :
    Terminates s t ↔ s.size ≠ 1 := by
  constructor
  · rintro ⟨k, s', idx, claims, hexec, hend, -, -⟩ hone
    have hzero : s.curIdx = 0 := by
      rw [hone] at hcur
      rw [UInt32.lt_iff_toNat_lt] at hcur
      rw [← UInt32.toNat_inj]
      change s.curIdx.toNat < 1 at hcur
      change s.curIdx.toNat = 0
      omega
    obtain ⟨s₁, hs₁, hrest⟩ := Option.bind_eq_some_iff.mp hexec
    have hcall : machine.step s (.getNextThreadIdx t) = some (s.goto t .load) := by
      simp [machine, step, hidle]
    cases hcall.symm.trans hs₁
    have hspin : Spinning (s.goto t .load) t :=
      ⟨hone, hzero, .inl (goto_pc_self ..)⟩
    obtain ⟨-, -, hpc | ⟨wins, hpc⟩⟩ := hspin.runs hrest
    · cases hend.symm.trans hpc
    · cases hend.symm.trans hpc
  · exact terminates hidle hsize hcur

/-- A pool of four threads whose last index is current. -/
theorem terminates_iff_four :
    Terminates (create 4 3 : State Unit) () ↔ (create 4 3 : State Unit).size ≠ 1 :=
  terminates_iff _ () rfl (by decide) (by decide)

/-- The constructor makes a pool of one thread from the sizes `0` and `1`, and
the call never returns. -/
theorem one_thread_spins :
    ¬ ∀ size curIdx : UInt32, curIdx < (create size curIdx : State Unit).size →
      Terminates (create size curIdx : State Unit) () := by
  intro hclaim
  have hspin : Spinning ((create 1 0 : State Unit).goto () .load) () :=
    ⟨rfl, rfl, .inl rfl⟩
  obtain ⟨k, s', idx, claims, hexec, hend, -, -⟩ := hclaim 1 0 (by decide)
  obtain ⟨-, -, hpc | ⟨wins, hpc⟩⟩ := hspin.runs (k := k) hexec
  · cases hend.symm.trans hpc
  · cases hend.symm.trans hpc

end ThreadPool
end Dispatch
end Cyan
