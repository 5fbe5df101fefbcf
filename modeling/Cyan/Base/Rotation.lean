import Mathlib.Data.Int.CardIntervalMod
import Mathlib.Data.List.Count

/-!
# Going round in turn

`rotation n b k` are the `k` places behind `b` that one meets when going round
`n` places, newest first.  Each place is met as often as any other, up to one.
-/

namespace Cyan
namespace Base

/-- The first `k` places behind `b`, newest first. -/
def rotation (n b : ℕ) : ℕ → List ℕ
  | 0 => []
  | k + 1 => (b + k + 1) % n :: rotation n b k

theorem rotation_succ (n b k : ℕ) :
    rotation n b (k + 1) = (b + k + 1) % n :: rotation n b k := rfl

/-- The turns of place `i` are those in one residue class. -/
theorem turn_iff {n b i j : ℕ} (hi : i < n) :
    (b + j + 1) % n = i ↔ j ≡ i + (n - (b + 1) % n) [MOD n] := by
  have hn : 0 < n := by omega
  have hlt : (b + 1) % n < n := Nat.mod_lt _ hn
  have hfull : i + (n - (b + 1) % n) + (b + 1) ≡ i [MOD n] := by
    have hback : (n - (b + 1) % n) + (b + 1) ≡ 0 [MOD n] := by
      calc (n - (b + 1) % n) + (b + 1)
          ≡ (n - (b + 1) % n) + (b + 1) % n [MOD n] :=
            Nat.ModEq.add_left _ (Nat.mod_modEq _ _).symm
        _ = n := by omega
        _ ≡ 0 [MOD n] := by simp [Nat.ModEq]
    calc i + (n - (b + 1) % n) + (b + 1)
        = i + ((n - (b + 1) % n) + (b + 1)) := by omega
      _ ≡ i + 0 [MOD n] := Nat.ModEq.add_left _ hback
  constructor
  · intro hturn
    have hj : j + (b + 1) ≡ i [MOD n] := by
      rw [Nat.ModEq, Nat.mod_eq_of_lt hi, ← hturn]
      congr 1
      omega
    exact Nat.ModEq.add_right_cancel' (b + 1) (hj.trans hfull.symm)
  · intro hj
    have hsum : b + j + 1 ≡ i [MOD n] := by
      calc b + j + 1 = j + (b + 1) := by omega
        _ ≡ i + (n - (b + 1) % n) + (b + 1) [MOD n] := Nat.ModEq.add_right _ hj
        _ ≡ i [MOD n] := hfull
    rw [Nat.ModEq, Nat.mod_eq_of_lt hi] at hsum
    exact hsum

/-- How often place `i` is met, as a count over the turns. -/
theorem count_rotation_eq (n b k i : ℕ) (hi : i < n) :
    (rotation n b k).count i =
      k.count (· ≡ i + (n - (b + 1) % n) [MOD n]) := by
  induction k with
  | zero => rfl
  | succ k ih =>
      rw [rotation_succ, List.count_cons, Nat.count_succ, ih]
      congr 1
      simp only [beq_iff_eq, turn_iff hi]

/-- Going round is fair: `k` turns meet each of `n` places `k / n` times, rounded
down or up. -/
theorem count_rotation (n b k i : ℕ) (hi : i < n) :
    (rotation n b k).count i = k / n ∨
      (rotation n b k).count i = (k + n - 1) / n := by
  have hn : 0 < n := by omega
  rw [count_rotation_eq n b k i hi, Nat.count_modEq_card k hn]
  split
  · rename_i hrest
    right
    -- a turn is left over, so rounding up adds one
    have hmod : 1 ≤ k % n := by omega
    have hlt : k % n < n := Nat.mod_lt _ hn
    have hk : k + n - 1 = k % n - 1 + n * (k / n + 1) := by
      have hdiv := Nat.div_add_mod k n
      rw [Nat.mul_add, Nat.mul_one]
      omega
    have hsmall : (k % n - 1) / n = 0 := Nat.div_eq_of_lt (by omega)
    rw [hk, Nat.add_mul_div_left _ _ hn, hsmall, Nat.zero_add]
  · exact .inl rfl

end Base
end Cyan
