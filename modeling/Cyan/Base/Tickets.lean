import Mathlib.Data.List.Basic
import Mathlib.Logic.Function.Basic

/-!
# Tickets

Concurrent operations often carry an identity that may be used once: a thread
holds a ticket, and at some step the ticket is spent.  `Tickets who spent` says
that no ticket has been spent twice, that no thread holds a spent ticket, and
that no two threads hold the same one.
-/

namespace Cyan
namespace Base

variable {Thread I : Type*}

/-- The tickets that threads hold and those that have been spent. -/
structure Tickets (who : Thread → Option I) (spent : List I) : Prop where
  once : spent.Nodup
  unspent : ∀ t i, who t = some i → i ∉ spent
  sole : ∀ t u i, who t = some i → who u = some i → t = u

namespace Tickets

variable {who who' : Thread → Option I} {spent : List I}

/-- Nobody holds a ticket and none has been spent. -/
theorem empty : Tickets (fun _ : Thread => (none : Option I)) [] where
  once := List.nodup_nil
  unspent _ _ h := by cases h
  sole _ _ _ h := by cases h

variable [DecidableEq Thread]

/-- A thread receives a new ticket. -/
theorem take {t : Thread} {i : I} (h : Tickets who spent) (hspent : i ∉ spent)
    (hfree : ∀ u, who u ≠ some i) :
    Tickets (Function.update who t (some i)) spent where
  once := h.once
  unspent u j hu := by
    by_cases hut : u = t
    · subst hut
      rw [Function.update_self] at hu
      cases hu
      exact hspent
    · rw [Function.update_of_ne hut] at hu
      exact h.unspent u j hu
  sole u v j hu hv := by
    by_cases hut : u = t
    · by_cases hvt : v = t
      · rw [hut, hvt]
      · rw [hut, Function.update_self] at hu
        rw [Function.update_of_ne hvt] at hv
        cases hu
        exact absurd hv (hfree v)
    · rw [Function.update_of_ne hut] at hu
      by_cases hvt : v = t
      · rw [hvt, Function.update_self] at hv
        cases hv
        exact absurd hu (hfree u)
      · rw [Function.update_of_ne hvt] at hv
        exact h.sole u v j hu hv

/-- A thread spends its ticket. -/
theorem spend {t : Thread} {i : I} (h : Tickets who spent) (ht : who t = some i) :
    Tickets (Function.update who t none) (i :: spent) where
  once := List.nodup_cons.mpr ⟨h.unspent t i ht, h.once⟩
  unspent u j hu := by
    have hut : u ≠ t := by
      rintro rfl
      rw [Function.update_self] at hu
      cases hu
    rw [Function.update_of_ne hut] at hu
    rintro hmem
    rcases List.mem_cons.mp hmem with rfl | hold
    · exact hut (h.sole u t j hu ht)
    · exact h.unspent u j hu hold
  sole u v j hu hv := by
    have hut : u ≠ t := by
      rintro rfl
      rw [Function.update_self] at hu
      cases hu
    have hvt : v ≠ t := by
      rintro rfl
      rw [Function.update_self] at hv
      cases hv
    rw [Function.update_of_ne hut] at hu
    rw [Function.update_of_ne hvt] at hv
    exact h.sole u v j hu hv

end Tickets

section Moves

variable {K : Type*} [DecidableEq Thread] {pc : Thread → K} {t : Thread} {k : K}

/-- What holds of the tickets of all threads and of the one at the new place of a thread
holds of all tickets behind its move. -/
theorem forall_of_move {who : K → Option I} {p : I → Prop} (hnew : ∀ i, who k = some i → p i)
    (hold : ∀ u i, who (pc u) = some i → p i) {u : Thread} {i : I}
    (hu : who (Function.update pc t k u) = some i) : p i := by
  by_cases hut : u = t
  · subst hut
    rw [Function.update_self] at hu
    exact hnew i hu
  · rw [Function.update_of_ne hut] at hu
    exact hold u i hu

/-- A move to a place with the same ticket moves no ticket. -/
theorem comp_move_of_eq {who : K → Option I} (hsame : who k = who (pc t)) :
    who ∘ Function.update pc t k = who ∘ pc := by
  rw [Function.comp_update, hsame]
  exact Function.update_eq_self t (who ∘ pc)

end Moves

end Base
end Cyan
