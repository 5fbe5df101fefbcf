import Mathlib.Logic.Function.Basic
import Mathlib.Data.Option.Basic

/-!
# Machines, runs and invariants

A machine is a set of start states together with an executable, partial step
function: `step s a = none` means that action `a` is not enabled in `s`.  The
interleavings of a concurrent program are the action lists that `exec`
accepts, so every statement about "any number of threads in any order" is a
statement about reachable states.

* `ReachableUnder ok` collects the states of those runs whose every step meets
  `ok`; `Reachable` is the unrestricted instance.
* `ReachableUnder.invariant` packages the induction over runs once.
* `ReachableUnder.invariant_reachable` hands the step the reachability of the
  state it starts from.
* `ReachableUnder.invariant_within` is the same induction for an invariant that
  is only needed while a quantity that never falls back stays in bounds.
-/

namespace Cyan
namespace Base

/-- A labelled transition system with an executable step function. -/
structure Machine (σ : Type*) (α : Type*) where
  start : σ → Prop
  step : σ → α → Option σ

namespace Machine

variable {σ α : Type*} (M : Machine σ α)

/-- Run a list of actions, failing at the first one that is not enabled. -/
def exec : σ → List α → Option σ
  | s, [] => some s
  | s, a :: as => (M.step s a).bind fun s' => exec s' as

@[simp] theorem exec_nil (s : σ) : M.exec s [] = some s := rfl

@[simp] theorem exec_cons (s : σ) (a : α) (as : List α) :
    M.exec s (a :: as) = (M.step s a).bind fun s' => M.exec s' as := rfl

/-- Running on after a first step. -/
theorem exec_of_step {s s' : σ} {a : α} (h : M.step s a = some s') (as : List α) :
    M.exec s (a :: as) = M.exec s' as := by
  rw [exec_cons, h, Option.bind_some]

/-- Repeating one action until it is not enabled any more ends in one state. -/
theorem exec_replicate_unique {s s₁ s₂ : σ} {a : α} {n m : Nat}
    (hfirst : M.exec s (List.replicate n a) = some s₁) (hfirstEnd : M.step s₁ a = none)
    (hsecond : M.exec s (List.replicate m a) = some s₂) (hsecondEnd : M.step s₂ a = none) :
    s₁ = s₂ := by
  induction n generalizing s m with
  | zero =>
      cases hfirst
      cases m with
      | zero =>
          cases hsecond
          rfl
      | succ m =>
          rw [List.replicate_succ, exec_cons, hfirstEnd] at hsecond
          cases hsecond
  | succ n ih =>
      rw [List.replicate_succ, exec_cons] at hfirst
      obtain ⟨s', hstep, hrest⟩ := Option.bind_eq_some_iff.mp hfirst
      cases m with
      | zero =>
          cases hsecond
          rw [hsecondEnd] at hstep
          cases hstep
      | succ m =>
          rw [List.replicate_succ, M.exec_of_step hstep] at hsecond
          exact ih hrest hsecond

/-- Running two action lists in a row is running their concatenation. -/
theorem exec_append (s : σ) (as bs : List α) :
    M.exec s (as ++ bs) = (M.exec s as).bind fun s' => M.exec s' bs := by
  induction as generalizing s with
  | nil => rfl
  | cons a as ih =>
      simp only [List.cons_append, exec_cons]
      cases hstep : M.step s a with
      | none => rfl
      | some s' => simpa using ih s'

/-- Two consecutive runs compose. -/
theorem exec_trans {s s' s'' : σ} {as bs : List α}
    (hfirst : M.exec s as = some s') (hsecond : M.exec s' bs = some s'') :
    M.exec s (as ++ bs) = some s'' := by
  rw [exec_append, hfirst]
  exact hsecond

/-- The states of the runs whose every step meets `ok`. -/
inductive ReachableUnder (ok : σ → α → Prop) : σ → Prop
  | start {s : σ} : M.start s → ReachableUnder ok s
  | step {s s' : σ} {a : α} :
      ReachableUnder ok s → ok s a → M.step s a = some s' → ReachableUnder ok s'

/-- The states of all runs. -/
def Reachable (s : σ) : Prop :=
  M.ReachableUnder (fun _ _ => True) s

variable {M}

/-- A run that meets a condition is a run. -/
theorem ReachableUnder.reachable {ok : σ → α → Prop} {s : σ}
    (h : M.ReachableUnder ok s) : M.Reachable s := by
  induction h with
  | start hstart => exact .start hstart
  | step _ _ hstep ih => exact .step ih trivial hstep

/-- A stronger condition allows fewer runs. -/
theorem ReachableUnder.mono {ok ok' : σ → α → Prop} {s : σ}
    (hweaker : ∀ s a, ok s a → ok' s a) (h : M.ReachableUnder ok s) :
    M.ReachableUnder ok' s := by
  induction h with
  | start hstart => exact .start hstart
  | step _ hok hstep ih => exact .step ih (hweaker _ _ hok) hstep

/-- Whatever holds at the start and is kept by every step that meets `ok`
holds in every state of the runs under `ok`. -/
theorem ReachableUnder.invariant {ok : σ → α → Prop} {I : σ → Prop}
    (hstart : ∀ s, M.start s → I s)
    (hstep : ∀ s a s', I s → ok s a → M.step s a = some s' → I s')
    {s : σ} (h : M.ReachableUnder ok s) : I s := by
  induction h with
  | start hs => exact hstart _ hs
  | step _ hok hs ih => exact hstep _ _ _ ih hok hs

/-- The run rule for an invariant whose preservation needs facts about the
reachable state the step starts from. -/
theorem ReachableUnder.invariant_reachable {ok : σ → α → Prop} {I : σ → Prop}
    (hstart : ∀ s, M.start s → I s)
    (hstep : ∀ s a s', M.ReachableUnder ok s → I s → ok s a →
      M.step s a = some s' → I s')
    {s : σ} (h : M.ReachableUnder ok s) : I s := by
  induction h with
  | start hs => exact hstart _ hs
  | step hbefore hok hs ih => exact hstep _ _ _ hbefore ih hok hs

/-- The run rule for an invariant that is needed only inside a bound.  Leaving
the bound is final, so a state inside it has only such states behind it. -/
theorem ReachableUnder.invariant_within {ok : σ → α → Prop}
    {W I : σ → Prop}
    (hback : ∀ s a s', M.step s a = some s' → W s' → W s)
    (hstart : ∀ s, M.start s → I s)
    (hstep : ∀ s a s', I s → ok s a → M.step s a = some s' →
      W s' → I s')
    {s : σ} (h : M.ReachableUnder ok s) (hwithin : W s) : I s := by
  refine h.invariant (I := fun s => W s → I s)
    (fun s hs _ => hstart s hs) ?_ hwithin
  intro s a s' ih hok hs hw
  exact hstep s a s' (ih (hback s a s' hs hw)) hok hs hw

/-- Whatever every step of a run keeps, the run keeps. -/
theorem exec_invariant {I : σ → Prop} {s s' : σ} {as : List α}
    (hkeep : ∀ s, ∀ a ∈ as, ∀ s', I s → M.step s a = some s' → I s') (hs : I s)
    (hexec : M.exec s as = some s') : I s' := by
  induction as generalizing s with
  | nil =>
      cases hexec
      exact hs
  | cons a as ih =>
      obtain ⟨s₁, hs₁, hrest⟩ := Option.bind_eq_some_iff.mp hexec
      have hfirst := hkeep s a (List.mem_cons_self ..) s₁ hs hs₁
      exact ih (fun s b hb => hkeep s b (List.mem_cons_of_mem _ hb)) hfirst hrest

/-- Running on from a reachable state stays among the reachable states. -/
theorem Reachable.exec {s s' : σ} {as : List α} (h : M.Reachable s)
    (hexec : M.exec s as = some s') : M.Reachable s' :=
  exec_invariant (fun _ _ _ _ hreach hstep => .step hreach trivial hstep) h hexec

/-- Whatever `exec` computes from a start state is reachable. -/
theorem Reachable.of_exec {s₀ s : σ} {as : List α}
    (hstart : M.start s₀) (hexec : M.exec s₀ as = some s) :
    M.Reachable s :=
  Reachable.exec (.start hstart) hexec

/-- Run a list of actions, checking the condition in front of every step. -/
def execUnder (M : Machine σ α) (ok : σ → α → Prop) [∀ s a, Decidable (ok s a)] :
    σ → List α → Option σ
  | s, [] => some s
  | s, a :: as =>
      if ok s a then (M.step s a).bind fun s' => execUnder M ok s' as else none

/-- A checked execution goes on from a reachable state; the check may be
stricter than the condition. -/
theorem ReachableUnder.execUnder {ok check : σ → α → Prop}
    [∀ s a, Decidable (check s a)] {s₀ s : σ} {as : List α}
    (hcheck : ∀ s a, check s a → ok s a) (hreach : M.ReachableUnder ok s₀)
    (hexec : M.execUnder check s₀ as = some s) : M.ReachableUnder ok s := by
  induction as generalizing s₀ with
  | nil =>
      cases hexec
      exact hreach
  | cons a as ih =>
      rw [Machine.execUnder] at hexec
      split at hexec
      · rename_i hok
        obtain ⟨s₁, hs₁, hrest⟩ := Option.bind_eq_some_iff.mp hexec
        exact ih (.step hreach (hcheck _ _ hok) hs₁) hrest
      · cases hexec

/-- Whatever the checked execution computes from a start state is reachable
under the condition. -/
theorem ReachableUnder.of_execUnder {ok : σ → α → Prop}
    [∀ s a, Decidable (ok s a)] {s₀ s : σ} {as : List α}
    (hstart : M.start s₀) (hexec : M.execUnder ok s₀ as = some s) :
    M.ReachableUnder ok s :=
  ReachableUnder.execUnder (fun _ _ hok => hok) (.start hstart) hexec

end Machine
end Base
end Cyan
