import Mathlib.Data.Fintype.Basic
import Cyan.Lockfree.FreelistMoves

/-!
# The head that `allocate` follows

`allocate` tests its local `head` once, in front of the loop.  A failed exchange
loads `head_` into it again, and the loop then evaluates `head->next` without
another test; `stack::try_pop` has one.

* `EmptiesAlone` asks of the thread that takes the last node that no other is in
  the loop.
* `heads_found`: in the runs under that condition no null head is followed, and a
  call that ends has a node to return.
* `emptied_follows_null`: a thread that finds the list emptied in its loop follows
  null unless another inserts a node before.
-/

namespace Cyan
namespace Lockfree
namespace Freelist

open Base

variable {Thread P : Type*}

/-- A call of `allocate` is in progress and has not met a null head. -/
def Pc.allocating : Pc P → Bool
  | .loadHead => true
  | .systemAllocate => true
  | .readNext head => head.isSome
  | .casHead _ _ => true
  | .subSize _ => true
  | _ => false

/-- `allocate` has found a node in `head_` and has not taken one yet. -/
def Pc.inLoop : Pc P → Bool
  | .readNext _ => true
  | .casHead _ _ => true
  | _ => false

theorem readNext_ne_none {head : Option P} (h : head.isSome = true) :
    Pc.readNext head ≠ .readNext none := by
  intro hnone
  cases hnone
  cases h

section Exchange

variable [DecidableEq P] {s : State Thread P}

/-- The exchange of `allocate` by which `t` leaves `head_` null is its next
step. -/
def empties (s : State Thread P) (t : Thread) : Bool :=
  match s.pc t with
  | .casHead h next => s.head = some h && next.isNone
  | _ => false

theorem empties_eq_true {t : Thread} :
    empties s t = true ↔ ∃ h, s.pc t = .casHead h none ∧ s.head = some h := by
  unfold empties
  cases s.pc t <;> simp [and_comm]

end Exchange

variable [DecidableEq Thread] [DecidableEq P] {maxSize : UInt64}
  {s s' : State Thread P} {a : Action Thread P}

/-- `head_` becomes null only while no other thread is between the null test of
`allocate` and its exchange. -/
def EmptiesAlone (s : State Thread P) : Action Thread P → Prop
  | .run t => empties s t = true → ∀ u, u ≠ t → (s.pc u).inLoop = false
  | _ => True

instance [Fintype Thread] (s : State Thread P) :
    (a : Action Thread P) → Decidable (EmptiesAlone s a)
  | .run t => inferInstanceAs (Decidable (_ → ∀ u, u ≠ t → _))
  | .allocate _ => isTrue trivial
  | .deallocate _ _ => isTrue trivial
  | .spurious _ => isTrue trivial
  | .system _ _ => isTrue trivial
  | .write _ _ => isTrue trivial

/-- While a thread is in the loop of `allocate`, `head_` is not null: what an
exchange loads that fails is a node. -/
def LoopHasHead (s : State Thread P) : Prop :=
  ∀ t, (s.pc t).inLoop = true → s.head.isSome = true

omit [DecidableEq P] in
/-- Some thread goes on, and `head_` does not become null. -/
theorem LoopHasHead.goto {s₁ : State Thread P} {t : Thread} {k : Pc P}
    (h : LoopHasHead s) (hpc : s₁.pc = s.pc)
    (hhead : s.head.isSome = true → s₁.head.isSome = true)
    (hself : k.inLoop = true → s₁.head.isSome = true) : LoopHasHead (s₁.goto t k) := by
  intro u hu
  rw [goto_pc, hpc] at hu
  split at hu
  · exact hself hu
  · exact hhead (h u hu)

theorem LoopHasHead.step (h : LoopHasHead s) (hok : EmptiesAlone s a)
    (hstep : step maxSize s a = some s') : LoopHasHead s' := by
  cases step_move hstep with
  | loadHead _ hhead => exact h.goto rfl id fun _ => by rw [hhead]; rfl
  | readNext hpc => exact h.goto rfl id fun _ => h _ (by rw [hpc]; rfl)
  | retry hpc _ => exact h.goto rfl id fun _ => h _ (by rw [hpc]; rfl)
  | spurious hpc => exact h.goto rfl id fun _ => h _ (by rw [hpc]; rfl)
  | followNull hpc => exact h.goto rfl id (by simp [Pc.inLoop])
  | insert _ _ => exact h.goto rfl (fun _ => rfl) (by simp [Pc.inLoop])
  | @remove t node next hpc hhead =>
      cases next with
      | some n => exact h.goto rfl (fun _ => rfl) (by simp [Pc.inLoop])
      | none =>
          -- the list runs dry, and the condition leaves no thread in the loop
          intro u hu
          rw [goto_pc] at hu
          split at hu
          · cases hu
          · rename_i hut
            have hout := hok (empties_eq_true.mpr ⟨node, hpc, hhead⟩) u hut
            cases hout.symm.trans hu
  | retryNode => exact h
  | spuriousNode => exact h
  | write => exact h
  | _ => exact h.goto rfl id (by simp [Pc.inLoop])

/-- A thread that stands in front of `head->next` has a node to follow, and no
thread has followed null. -/
structure HeadsFound (s : State Thread P) : Prop where
  readNext : ∀ t, s.pc t ≠ .readNext none
  fault : ∀ t, s.pc t ≠ .fault

omit [DecidableEq P] in
/-- One thread moves to a place that follows no null head. -/
theorem HeadsFound.goto {t : Thread} {k : Pc P} (h : HeadsFound s)
    (hpc : s'.pc = s.pc) (hread : k ≠ .readNext none) (hfault : k ≠ .fault) :
    HeadsFound (s'.goto t k) where
  readNext u := by
    rw [goto_pc, hpc]
    split
    · exact hread
    · exact h.readNext u
  fault u := by
    rw [goto_pc, hpc]
    split
    · exact hfault
    · exact h.fault u

theorem HeadsFound.step (h : HeadsFound s) (hloop : LoopHasHead s)
    (hstep : step maxSize s a = some s') : HeadsFound s' := by
  cases step_move hstep with
  | followNull hpc => exact absurd hpc (h.readNext _)
  | retry hpc _ =>
      have hsome : s.head.isSome = true := hloop _ (by rw [hpc]; rfl)
      exact h.goto rfl (readNext_ne_none hsome) (by simp)
  | spurious hpc =>
      have hsome : s.head.isSome = true := hloop _ (by rw [hpc]; rfl)
      exact h.goto rfl (readNext_ne_none hsome) (by simp)
  | retryNode => exact ⟨h.readNext, h.fault⟩
  | spuriousNode => exact ⟨h.readNext, h.fault⟩
  | write => exact ⟨h.readNext, h.fault⟩
  | _ => exact h.goto rfl (by simp) (by simp)

/-- The call of `t` goes on, or it returns a node. -/
def GoesOn (s s' : State Thread P) (t : Thread) : Prop :=
  (s'.pc t).allocating = true ∨
    (s'.pc t = .idle ∧ ∃ n, s'.trace = .allocated n :: s.trace)

section

omit [DecidableEq P]

/-- Some thread `t` moves to `k`. -/
theorem GoesOn.goto {s₁ : State Thread P} {t u : Thread} {k : Pc P}
    (hin : (s.pc u).allocating = true) (hpc : s₁.pc = s.pc)
    (hself : u = t → k.allocating = true ∨
      (k = .idle ∧ ∃ n, s₁.trace = .allocated n :: s.trace)) :
    GoesOn s (s₁.goto t k) u := by
  by_cases hut : u = t
  · subst hut
    unfold GoesOn
    rw [goto_pc_self]
    exact hself rfl
  · left
    rw [goto_pc_of_ne _ _ hut, hpc]
    exact hin

/-- Some thread `t` moves that is in no call of `allocate`. -/
theorem GoesOn.elsewhere {s₁ : State Thread P} {t u : Thread} {k₀ k : Pc P}
    (hin : (s.pc u).allocating = true) (hpc : s₁.pc = s.pc) (ht : s.pc t = k₀)
    (hout : k₀.allocating = false) : GoesOn s (s₁.goto t k) u := by
  refine .goto hin hpc fun hut => ?_
  subst hut
  rw [ht, hout] at hin
  cases hin

end

/-- While `head_` is not null in its loop, a call of `allocate` ends only with a
node. -/
theorem goes_on {t : Thread} (hloop : LoopHasHead s)
    (hstep : step maxSize s a = some s') (hin : (s.pc t).allocating = true) :
    GoesOn s s' t := by
  cases step_move hstep with
  | allocate => exact .goto hin rfl fun _ => .inl rfl
  | loadNull => exact .goto hin rfl fun _ => .inl rfl
  | loadHead => exact .goto hin rfl fun _ => .inl rfl
  -- a call in progress has a head to follow
  | followNull hpc => exact .elsewhere hin rfl hpc rfl
  | readNext => exact .goto hin rfl fun _ => .inl rfl
  | remove => exact .goto hin rfl fun _ => .inl rfl
  | retry hpc _ =>
      exact .goto hin rfl fun _ => .inl (hloop _ (by rw [hpc]; rfl))
  | spurious hpc =>
      exact .goto hin rfl fun _ => .inl (hloop _ (by rw [hpc]; rfl))
  | subSize => exact .goto hin rfl fun _ => .inr ⟨rfl, _, rfl⟩
  | systemAllocate => exact .goto hin rfl fun _ => .inr ⟨rfl, _, rfl⟩
  | retryNode => exact .inl hin
  | spuriousNode => exact .inl hin
  | write => exact .inl hin
  -- the other stages are no stages of `allocate`
  | deallocate hpc => exact .elsewhere hin rfl hpc rfl
  | full hpc => exact .elsewhere hin rfl hpc rfl
  | notFull hpc => exact .elsewhere hin rfl hpc rfl
  | systemDeallocate hpc => exact .elsewhere hin rfl hpc rfl
  | loadForNext hpc => exact .elsewhere hin rfl hpc rfl
  | storeNext hpc => exact .elsewhere hin rfl hpc rfl
  | insert hpc => exact .elsewhere hin rfl hpc rfl
  | addSize hpc => exact .elsewhere hin rfl hpc rfl

/-- In every run in which `head_` becomes null only while no other thread is in
the loop of `allocate`, no null head is followed, and a call of `allocate` in
progress goes on until it returns a node. -/
theorem heads_found (hreach : (machine maxSize).ReachableUnder EmptiesAlone s) :
    HeadsFound s ∧ ∀ t a s', step maxSize s a = some s' →
      (s.pc t).allocating = true → GoesOn s s' t := by
  have hboth : LoopHasHead s ∧ HeadsFound s := by
    refine hreach.invariant (I := fun s => LoopHasHead s ∧ HeadsFound s) ?_ ?_
    · rintro s ⟨next, nodes, -, -, rfl⟩
      refine ⟨fun t ht => ?_, ?_, ?_⟩
      · rw [prefill_pc] at ht
        cases ht
      · intro t
        rw [prefill_pc]
        simp [empty]
      · intro t
        rw [prefill_pc]
        simp [empty]
    · rintro s a s' ⟨hloop, hfound⟩ hok hstep
      exact ⟨hloop.step hok hstep, hfound.step hloop hstep⟩
  exact ⟨hboth.2, fun t a s' hstep hin => goes_on hboth.1 hstep hin⟩

/-- Two threads read the head of a list of two.  The exchange of the second
fails, and it takes the last node when the first has left the loop. -/
theorem heads_found_run : ∃ s : State (Fin 2) ℕ,
    (machine 2).ReachableUnder EmptiesAlone s ∧
    s.trace = [.allocated 1, .allocated 0] ∧ s.head = none ∧ HeadsFound s := by
  obtain ⟨s, hrun, htrace, hhead⟩ : ∃ s : State (Fin 2) ℕ,
      (machine 2).execUnder EmptiesAlone ([1, 0].foldl prefill (empty fun _ => none))
        (List.flatten [[.allocate 0, .run 0, .run 0], .allocate 1 :: List.replicate 4 (.run 1),
          List.replicate 4 (.run 0)]) = some s ∧
      s.trace = [.allocated 1, .allocated 0] ∧ s.head = none := ⟨_, rfl, rfl, rfl⟩
  have hreach : (machine 2).ReachableUnder EmptiesAlone s :=
    .of_execUnder ⟨_, [1, 0], by decide, rfl, rfl⟩ hrun
  exact ⟨s, hreach, htrace, hhead, (heads_found hreach).1⟩

/-- Thread `0` has read the only node of the list; thread `1` takes it, and the
exchange of thread `0` fails on the empty list. -/
theorem null_followed :
    ¬ ∀ s : State ℕ ℕ, (machine 1).Reachable s → ∀ t, s.pc t ≠ .readNext none := by
  intro hclaim
  obtain ⟨s, hrun, hpc⟩ : ∃ s : State ℕ ℕ,
      (machine 1).exec ([0].foldl prefill (empty fun _ => none))
        (List.flatten [[.allocate 0, .run 0, .run 0], .allocate 1 :: List.replicate 4 (.run 1),
          [.run 0]]) = some s ∧
      s.pc 0 = .readNext none := ⟨_, rfl, rfl⟩
  exact hclaim s (.of_exec ⟨_, [0], by decide, rfl, rfl⟩ hrun) 0 hpc

/-! ## The condition leaves out nothing else -/

/-- By the steps of its own that follow, the call of `u` comes to `head->next` on
null. -/
def FollowsNull (maxSize : UInt64) (s : State Thread P) (u : Thread) : Prop :=
  ∃ n s', (machine maxSize).exec s (List.replicate n (.run u)) = some s' ∧
    s'.pc u = .readNext none

theorem FollowsNull.of_step {u : Thread} (hstep : step maxSize s (.run u) = some s')
    (hfollows : FollowsNull maxSize s' u) : FollowsNull maxSize s u := by
  obtain ⟨n, s'', hexec, hpc⟩ := hfollows
  refine ⟨n + 1, s'', ?_, hpc⟩
  rw [List.replicate_succ, Machine.exec_cons,
    show (machine maxSize).step s (.run u) = some s' from hstep]
  exact hexec

/-- The exchange fails on the empty list and loads null. -/
theorem followsNull_of_casHead {u : Thread} {h : P} {next : Option P}
    (hhead : s.head = none) (hpc : s.pc u = .casHead h next) :
    FollowsNull maxSize s u := by
  have hstep : step maxSize s (.run u) = some (s.goto u (.readNext none)) := by
    simp [step, hpc, stepAllocate, hhead, exchangeFailed]
  exact .of_step hstep ⟨0, _, rfl, goto_pc_self ..⟩

theorem followsNull_of_inLoop {u : Thread} (hhead : s.head = none)
    (hin : (s.pc u).inLoop = true) : FollowsNull maxSize s u := by
  cases hpc : s.pc u with
  | readNext head =>
      cases head with
      | none => exact ⟨0, s, rfl, hpc⟩
      | some h =>
          have hstep : step maxSize s (.run u) =
              some (s.goto u (.casHead h (s.next h))) := by
            simp [step, hpc, stepAllocate]
          exact .of_step hstep (followsNull_of_casHead hhead (goto_pc_self ..))
  | casHead h next => exact followsNull_of_casHead hhead hpc
  | _ => simp [hpc, Pc.inLoop] at hin

/-- When a step empties the list in front of a thread in the loop, that thread
follows null unless another inserts a node before. -/
theorem emptied_follows_null (hother : ¬ EmptiesAlone s a)
    (hstep : step maxSize s a = some s') : ∃ u, FollowsNull maxSize s' u := by
  cases a with
  | run t =>
      simp only [EmptiesAlone, Classical.not_imp, not_forall, Bool.not_eq_false] at hother
      obtain ⟨hempties, u, hut, hin⟩ := hother
      obtain ⟨h, hpc, hhead⟩ := empties_eq_true.mp hempties
      have hemptied : step maxSize s (.run t) =
          some ({ s with head := none }.goto t (.subSize h)) := by
        simp [step, hpc, stepAllocate, hhead]
      cases hstep.symm.trans hemptied
      refine ⟨u, followsNull_of_inLoop rfl ?_⟩
      rw [goto_pc_of_ne _ _ hut]
      exact hin
  | _ => exact absurd trivial hother

end Freelist
end Lockfree
end Cyan
