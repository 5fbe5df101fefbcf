import Mathlib.Logic.Basic

/-!
# How a program ends

A program is an `EStateM`: it reads and writes a state and may throw, and a throw leaves
the state as it is at that point.  `Ends Q E r` says that a run with the result `r` meets
`Q` when it returns and `E` when it throws.

The simp lemmas say what the steps of a program have to meet, the first step first, so a
proof about a program follows its text.  `Ends.mono` and `Ends.seq` put in what is known of
a step.
-/

namespace Cyan
namespace Base

universe u

variable {σ ε α β : Type u}

/-- A run that returns meets `Q`, and one that throws meets `E`. -/
def Ends (Q : α → σ → Prop) (E : ε → σ → Prop) : EStateM.Result ε σ α → Prop
  | .ok a s => Q a s
  | .error e s => E e s

namespace Ends

section Rules

variable {Q Q' : α → σ → Prop} {E E' : ε → σ → Prop} {s : σ}

theorem mono {r : EStateM.Result ε σ α} (h : Ends Q E r) (hQ : ∀ a s, Q a s → Q' a s)
    (hE : ∀ e s, E e s → E' e s) : Ends Q' E' r := by
  cases r with
  | ok a s => exact hQ a s h
  | error e s => exact hE e s h

@[simp] theorem pure_iff {a : α} :
    Ends Q E ((Pure.pure a : EStateM ε σ α) s) ↔ Q a s := Iff.rfl

@[simp] theorem throw_iff {e : ε} :
    Ends Q E ((throw e : EStateM ε σ α) s) ↔ E e s := Iff.rfl

@[simp] theorem bind_iff {x : EStateM ε σ β} {f : β → EStateM ε σ α} :
    Ends Q E ((x >>= f) s) ↔ Ends (fun b s' => Ends Q E (f b s')) E (x s) := by
  show Ends Q E (EStateM.bind x f s) ↔ _
  unfold EStateM.bind
  cases x s <;> rfl

@[simp] theorem map_iff {x : EStateM ε σ β} {f : β → α} :
    Ends Q E ((f <$> x) s) ↔ Ends (fun b s' => Q (f b) s') E (x s) := by
  show Ends Q E (EStateM.map f x s) ↔ _
  unfold EStateM.map
  cases x s <;> rfl

@[simp] theorem ite_iff {c : Prop} [Decidable c] {x y : EStateM ε σ α} :
    Ends Q E ((if c then x else y) s) ↔
      (c → Ends Q E (x s)) ∧ (¬c → Ends Q E (y s)) := by
  by_cases hc : c <;> simp [hc]

@[simp] theorem tryCatch_iff {x : EStateM ε σ α} {handle : ε → EStateM ε σ α} :
    Ends Q E ((tryCatch x handle) s) ↔ Ends Q (fun e s' => Ends Q E (handle e s')) (x s) := by
  show Ends Q E (EStateM.tryCatch x handle s) ↔ _
  unfold EStateM.tryCatch
  cases x s <;> rfl

/-- A run meets what it is. -/
theorem result {r : EStateM.Result ε σ α} (h : Ends Q E r) :
    Ends (fun a s => Q a s ∧ r = .ok a s) (fun e s => E e s ∧ r = .error e s) r := by
  cases r with
  | ok a s => exact ⟨h, rfl⟩
  | error e s => exact ⟨h, rfl⟩

/-- The first step is known by what it meets. -/
theorem seq {x : EStateM ε σ β} {f : β → EStateM ε σ α} {R : β → σ → Prop}
    (h : Ends R E (x s)) (hrest : ∀ b s', R b s' → Ends Q E (f b s')) :
    Ends Q E ((x >>= f) s) :=
  bind_iff.mpr (h.mono hrest fun _ _ he => he)

end Rules

section State

variable {E : ε → σ → Prop} {s : σ}

@[simp] theorem get_iff {Q : σ → σ → Prop} :
    Ends Q E ((get : EStateM ε σ σ) s) ↔ Q s s := Iff.rfl

@[simp] theorem set_iff {Q : PUnit → σ → Prop} {s' : σ} :
    Ends Q E ((set s' : EStateM ε σ PUnit) s) ↔ Q ⟨⟩ s' := Iff.rfl

@[simp] theorem modify_iff {Q : PUnit → σ → Prop} {f : σ → σ} :
    Ends Q E ((modify f : EStateM ε σ PUnit) s) ↔ Q ⟨⟩ (f s) := Iff.rfl

end State

end Ends

end Base
end Cyan
