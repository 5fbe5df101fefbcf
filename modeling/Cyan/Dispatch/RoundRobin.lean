import Cyan.Base.Rotation
import Cyan.Dispatch.ThreadPool

/-!
# The pool as a round robin

Every successful exchange moves `cur_idx_` on by one place.  A call that wins
its first exchange, and only that one, and then fails on the value that it has
stored itself, returns the place it has claimed.

* `Rounds` ties the claims to the places in their order, and the returns of each
  thread to its claims.
* `fair` counts the returns: as long as every call claims one place and returns
  it, no place is ahead of another by more than one round.
-/

namespace Cyan
namespace Dispatch
namespace ThreadPool

open Base

variable {Thread : Type*}

/-- The successful exchanges, with their threads. -/
def claimed : List (Mark Thread) → List (Thread × UInt32) :=
  List.filterMap fun
    | .claim t idx => some (t, idx)
    | .ret _ _ => none

/-- The returns, with their threads. -/
def returned : List (Mark Thread) → List (Thread × UInt32) :=
  List.filterMap fun
    | .claim _ _ => none
    | .ret t idx => some (t, idx)

@[simp] theorem claimed_claim (t : Thread) (idx : UInt32) (tr : List (Mark Thread)) :
    claimed (.claim t idx :: tr) = (t, idx) :: claimed tr := rfl

@[simp] theorem claimed_ret (t : Thread) (idx : UInt32) (tr : List (Mark Thread)) :
    claimed (.ret t idx :: tr) = claimed tr := rfl

@[simp] theorem returned_claim (t : Thread) (idx : UInt32) (tr : List (Mark Thread)) :
    returned (.claim t idx :: tr) = returned tr := rfl

@[simp] theorem returned_ret (t : Thread) (idx : UInt32) (tr : List (Mark Thread)) :
    returned (.ret t idx :: tr) = (t, idx) :: returned tr := rfl

/-- The indices that calls have returned. -/
def indices (tr : List (Mark Thread)) : List UInt32 :=
  (returned tr).map Prod.snd

variable [DecidableEq Thread] {s s' : State Thread} {a : Action Thread}

/-- No weak exchange fails on the value it expects. -/
def NoSpurious : Action Thread → Prop
  | .spurious _ => False
  | _ => True

/-- The value that a call expects, and how often its exchange has succeeded. -/
def Pc.expected : Pc → Option (UInt32 × Nat)
  | .exchange idx wins => some (idx, wins)
  | _ => none

/-- The exchange of a call succeeds once, at the first try, and fails on the value
that the call has stored. -/
def ClaimsOnce (s : State Thread) : Action Thread → Prop
  | .run t => ∀ x ∈ (s.pc t).expected,
      if s.curIdx = x.1 then x.2 = 0
      else x.2 ≠ 0 ∧ s.curIdx = (x.1 + 1) % s.size
  | _ => True

/-- The runs of the round robin. -/
def Orderly (s : State Thread) (a : Action Thread) : Prop :=
  NoSpurious a ∧ ClaimsOnce s a

instance : (a : Action Thread) → Decidable (NoSpurious a)
  | .getNextThreadIdx _ => isTrue trivial
  | .run _ => isTrue trivial
  | .spurious _ => isFalse id

instance (s : State Thread) : (a : Action Thread) → Decidable (ClaimsOnce s a)
  | .getNextThreadIdx _ => isTrue trivial
  | .spurious _ => isTrue trivial
  | .run t => inferInstanceAs (Decidable (∀ x ∈ (s.pc t).expected, ite _ _ _))

instance (s : State Thread) (a : Action Thread) : Decidable (Orderly s a) :=
  inferInstanceAs (Decidable (_ ∧ _))

/-- The call of `t` has claimed `idx` and not returned it yet. -/
def pending (s : State Thread) (t : Thread) (idx : UInt32) : Nat :=
  match s.pc t with
  | .exchange old wins => if wins ≠ 0 ∧ (old + 1) % s.size = idx then 1 else 0
  | _ => 0

/-- A step of `t` leaves the claims of other threads alone. -/
theorem pending_goto_of_ne {s₁ : State Thread} {t u : Thread} {k : Pc}
    (hut : u ≠ t) (hpc : s₁.pc = s.pc) (hsize : s₁.size = s.size) (idx : UInt32) :
    pending (s₁.goto t k) u idx = pending s u idx := by
  simp only [pending, State.goto, Function.update_of_ne hut, hpc, hsize]

/-- The claims go round from place `b`, and every return is a claim of its
thread. -/
structure Rounds (b : ℕ) (s : State Thread) : Prop where
  size : 1 ≤ s.size
  turns : (claimed s.trace).map (fun x => x.2.toNat) =
    rotation s.size.toNat b (claimed s.trace).length
  next : ((s.curIdx + 1) % s.size).toNat =
    (b + (claimed s.trace).length + 1) % s.size.toNat
  own : ∀ t idx, (claimed s.trace).count (t, idx) =
    (returned s.trace).count (t, idx) + pending s t idx

/-- A thread that has claimed nothing moves to a stage without a claim. -/
theorem Rounds.goto {b : ℕ} {t : Thread} {k : Pc} (h : Rounds b s)
    (hbefore : ∀ idx, pending s t idx = 0)
    (hafter : ∀ idx, pending (s.goto t k) t idx = 0) : Rounds b (s.goto t k) where
  size := h.size
  turns := h.turns
  next := h.next
  own u idx := by
    have hown := h.own u idx
    by_cases hut : u = t
    · subst hut
      rw [hafter]
      rw [hbefore] at hown
      exact hown
    · rw [pending_goto_of_ne hut rfl rfl]
      exact hown

/-- The first exchange of a call claims the next place. -/
theorem Rounds.claim {b : ℕ} {t : Thread} {wins : Nat} (h : Rounds b s)
    (hpc : s.pc t = .exchange s.curIdx 0) :
    Rounds b ({ s with
      curIdx := (s.curIdx + 1) % s.size
      trace := .claim t ((s.curIdx + 1) % s.size) :: s.trace }.goto t
        (.exchange s.curIdx (wins + 1))) where
  size := h.size
  turns := by
    simp only [State.goto, claimed_claim, List.map_cons, List.length_cons,
      rotation_succ, h.turns, h.next]
  next := by
    change (((s.curIdx + 1) % s.size + 1) % s.size).toNat = _
    rw [toNat_next (next_lt h.size _), h.next]
    simp only [State.goto, claimed_claim, List.length_cons, Nat.mod_add_mod]
    congr 1
  own u idx := by
    have hown := h.own u idx
    by_cases hut : u = t
    · subst hut
      have hbefore : pending s u idx = 0 := by simp [pending, hpc]
      rw [hbefore] at hown
      simp only [State.goto, claimed_claim, returned_claim, List.count_cons, pending,
        Function.update_self, hown]
      by_cases hidx : (s.curIdx + 1) % s.size = idx <;> simp [hidx]
    · rw [pending_goto_of_ne (s := s) hut (by rfl) (by rfl)]
      simpa [State.goto, List.count_cons, Ne.symm hut] using hown

/-- The next exchange fails on the claimed value, and the call returns it. -/
theorem Rounds.ret {b : ℕ} {t : Thread} {idx : UInt32} {wins : Nat} (h : Rounds b s)
    (hpc : s.pc t = .exchange idx wins) (hwins : wins ≠ 0)
    (hcur : s.curIdx = (idx + 1) % s.size) : Rounds b (exchangeFailed s t) where
  size := h.size
  turns := h.turns
  next := h.next
  own u v := by
    have hown := h.own u v
    by_cases hut : u = t
    · subst hut
      have hafter : pending (exchangeFailed s u) u v = 0 := by
        simp [pending, exchangeFailed, State.goto]
      rw [hafter]
      simp only [pending, hpc, ← hcur] at hown
      simp only [exchangeFailed, State.goto, claimed_ret, returned_ret, List.count_cons, hown]
      by_cases hv : s.curIdx = v <;> simp [hv, hwins]
    · rw [exchangeFailed, pending_goto_of_ne (s := s) hut (by rfl) (by rfl)]
      simpa [ State.goto, List.count_cons, Ne.symm hut] using hown

theorem Rounds.step {b : ℕ} (h : Rounds b s) (hok : Orderly s a)
    (hstep : step s a = some s') : Rounds b s' := by
  obtain ⟨hspurious, honce⟩ := hok
  cases a with
  | getNextThreadIdx t =>
      simp only [ThreadPool.step] at hstep
      split at hstep
      · rename_i hpc
        cases hstep
        exact h.goto (fun _ => by simp [pending, hpc])
          fun _ => by simp [pending, State.goto]
      · cases hstep
  | spurious t => exact hspurious.elim
  | run t =>
      simp only [ThreadPool.step] at hstep
      split at hstep
      · cases hstep
      · rename_i hpc
        cases hstep
        exact h.goto (fun _ => by simp [pending, hpc])
          fun _ => by simp [pending, State.goto]
      · rename_i idx wins hpc
        have honce := honce (idx, wins) (by rw [hpc]; rfl)
        split at hstep
        · rename_i hcur
          cases hstep
          subst hcur
          rw [if_pos rfl] at honce
          cases honce
          exact h.claim hpc
        · rename_i hcur
          cases hstep
          rw [if_neg hcur] at honce
          exact h.ret hpc honce.1 honce.2

/-- A new pool, with the place in front of the first one that is claimed. -/
theorem Rounds.create (size curIdx : UInt32) :
    ∃ b, Rounds b (ThreadPool.create size curIdx : State Thread) := by
  have hsize : (1 : UInt32) ≤ max size 1 := one_le_size size
  have hlt := UInt32.lt_iff_toNat_lt.mp (next_lt hsize curIdx)
  refine ⟨((curIdx + 1) % max size 1).toNat + (max size 1).toNat - 1, hsize, rfl, ?_,
    fun _ _ => rfl⟩
  have hback : ((curIdx + 1) % max size 1).toNat + (max size 1).toNat - 1 + 0 + 1 =
      ((curIdx + 1) % max size 1).toNat + (max size 1).toNat := by omega
  change _ = (((curIdx + 1) % max size 1).toNat + (max size 1).toNat - 1 + 0 + 1) %
    (max size 1).toNat
  rw [hback, Nat.add_mod_right, Nat.mod_eq_of_lt hlt]
  rfl

theorem rounds_of_reachable (hreach : machine.ReachableUnder Orderly s) :
    ∃ b, Rounds b s := by
  refine hreach.invariant (I := fun s => ∃ b, Rounds b s) ?_ ?_
  · rintro s ⟨size, curIdx, rfl⟩
    exact Rounds.create size curIdx
  · rintro s a s' ⟨b, h⟩ hok hstep
    exact ⟨b, h.step hok hstep⟩

/-- While no call is in progress, the returns are the claims. -/
theorem Rounds.perm {b : ℕ} (h : Rounds b s) (hidle : ∀ t, s.pc t = .idle) :
    ((indices s.trace).map UInt32.toNat).Perm
      (rotation s.size.toNat b (indices s.trace).length) := by
  have hperm : (returned s.trace).Perm (claimed s.trace) := by
    rw [List.perm_iff_count]
    rintro ⟨t, idx⟩
    rw [h.own t idx]
    simp [pending, hidle]
  have hlength : (indices s.trace).length = (claimed s.trace).length := by
    simpa [ThreadPool.indices] using hperm.length_eq
  rw [hlength, ← h.turns, ThreadPool.indices, List.map_map]
  exact hperm.map fun x => x.2.toNat

/-- Fair round robin: in every run in which each call claims one place and
returns it, `k` returns give every place `k / n` times, rounded down or up,
whenever no call is in progress. -/
theorem fair (hreach : machine.ReachableUnder Orderly s)
    (hidle : ∀ t, s.pc t = .idle) (i : UInt32) (hi : i < s.size) :
    (indices s.trace).count i = (indices s.trace).length / s.size.toNat ∨
      (indices s.trace).count i =
        ((indices s.trace).length + s.size.toNat - 1) / s.size.toNat := by
  obtain ⟨b, h⟩ := rounds_of_reachable hreach
  have hcount : (indices s.trace).count i =
      (rotation s.size.toNat b (indices s.trace).length).count i.toNat := by
    rw [← (h.perm hidle).count_eq]
    exact (List.count_map_of_injective _ _ (fun _ _ => UInt32.toNat_inj.mp) _).symm
  rw [hcount]
  exact count_rotation _ _ _ _ (UInt32.lt_iff_toNat_lt.mp hi)

/-- Two threads call three times in a pool of two, one call after the other. -/
theorem fair_run : ∃ s : State Bool, machine.ReachableUnder Orderly s ∧
    indices s.trace = [0, 1, 0] ∧ (indices s.trace).count 1 = 1 ∧
    ((indices s.trace).count 1 = (indices s.trace).length / s.size.toNat ∨
      (indices s.trace).count 1 =
        ((indices s.trace).length + s.size.toNat - 1) / s.size.toNat) := by
  obtain ⟨s, hrun, hindices, hpc, hsize⟩ : ∃ s : State Bool,
      machine.execUnder Orderly (create 2 1)
        (List.flatten [.getNextThreadIdx true :: List.replicate 3 (.run true),
          .getNextThreadIdx false :: List.replicate 3 (.run false),
          .getNextThreadIdx true :: List.replicate 3 (.run true)]) = some s ∧
      indices s.trace = [0, 1, 0] ∧ (s.pc true = .idle ∧ s.pc false = .idle) ∧
      s.size = 2 := ⟨_, rfl, rfl, ⟨rfl, rfl⟩, rfl⟩
  have hreach : machine.ReachableUnder Orderly s := .of_execUnder ⟨2, 1, rfl⟩ hrun
  refine ⟨s, hreach, hindices, by rw [hindices]; rfl, ?_⟩
  exact fair hreach (fun t => by cases t; exacts [hpc.2, hpc.1]) 1 (by rw [hsize]; decide)

/-- Two calls load the same value.  One claims place `1`; the other loses its
first exchange and returns `1` without a claim, and so does the first. -/
theorem unfair : ¬ ∀ s : State Bool, machine.ReachableUnder (fun _ a => NoSpurious a) s →
    (∀ t, s.pc t = .idle) → ∀ i, i < s.size →
      (indices s.trace).count i = (indices s.trace).length / s.size.toNat ∨
        (indices s.trace).count i =
          ((indices s.trace).length + s.size.toNat - 1) / s.size.toNat := by
  intro hclaim
  obtain ⟨s, hrun, hindices, hpc, hsize⟩ : ∃ s : State Bool,
      machine.execUnder (fun _ a => NoSpurious a) (create 2 0)
        [.getNextThreadIdx true, .getNextThreadIdx false, .run true, .run false,
          .run true, .run false, .run true] = some s ∧
      indices s.trace = [1, 1] ∧ (s.pc true = .idle ∧ s.pc false = .idle) ∧
      s.size = 2 := ⟨_, rfl, rfl, ⟨rfl, rfl⟩, rfl⟩
  have hfair := hclaim s (.of_execUnder ⟨2, 0, rfl⟩ hrun)
    (fun t => by cases t; exacts [hpc.2, hpc.1]) 0 (by rw [hsize]; decide)
  rw [hindices, hsize] at hfair
  revert hfair
  decide

end ThreadPool
end Dispatch
end Cyan
