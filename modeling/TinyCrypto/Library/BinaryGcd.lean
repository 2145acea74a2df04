import Mathlib.Data.Nat.GCD.Basic
import Mathlib.Data.Nat.Prime.Basic
import Mathlib.Logic.Function.Iterate
import Mathlib.Tactic.Ring

/-! # Binary greatest common divisor

A pair whose second number is odd. Each step halves the first number, taking the
smaller odd number from the larger one before.
-/

namespace Library.BinaryGcd

def step (pair : Nat × Nat) : Nat × Nat := if pair.1 % 2 = 0 then (pair.1 / 2, pair.2)
  else if pair.2 ≤ pair.1 then ((pair.1 - pair.2) / 2, pair.2)
  else ((pair.2 - pair.1) / 2, pair.1)

variable {pair : Nat × Nat}

theorem step_odd (odd : pair.2 % 2 = 1) : (step pair).2 % 2 = 1 := by
  unfold step
  split
  · exact odd
  · split
    · exact odd
    · dsimp only
      omega

theorem step_le {bound : Nat} (first : pair.1 ≤ bound) (second : pair.2 ≤ bound) :
    (step pair).1 ≤ bound ∧ (step pair).2 ≤ bound := by
  unfold step
  split
  · exact ⟨by dsimp only; omega, second⟩
  · split
    · exact ⟨by dsimp only; omega, second⟩
    · exact ⟨by dsimp only; omega, first⟩

private theorem gcd_half {a b : Nat} (even : a % 2 = 0) (odd : b % 2 = 1) :
    Nat.gcd (a / 2) b = Nat.gcd a b := by
  obtain ⟨half, rfl⟩ := Nat.dvd_of_mod_eq_zero even
  have coprime : Nat.Coprime 2 b := (Nat.coprime_two_left).mpr (Nat.odd_iff.mpr odd)
  rw [Nat.mul_div_cancel_left _ (by omega), Nat.Coprime.gcd_mul_left_cancel half coprime]

theorem step_gcd (odd : pair.2 % 2 = 1) :
    Nat.gcd (step pair).1 (step pair).2 = Nat.gcd pair.1 pair.2 := by
  unfold step
  split
  · rename_i even
    exact gcd_half even odd
  · split
    · rename_i le
      rw [gcd_half (by omega) odd, Nat.gcd_sub_self_left le]
    · rw [gcd_half (by omega) (by omega), Nat.gcd_sub_self_left (by omega), Nat.gcd_comm]

theorem step_product (pair : Nat × Nat) :
    2 * ((step pair).1 * (step pair).2) ≤ pair.1 * pair.2 := by
  have halves : ∀ {a c b : Nat}, c ≤ a → 2 * (c / 2 * b) ≤ a * b := by
    intro a c b le
    rw [← Nat.mul_assoc]
    exact Nat.mul_le_mul_right b (by omega)
  unfold step
  split
  · exact halves (le_refl _)
  · split
    · exact halves (Nat.sub_le _ _)
    · rw [Nat.mul_comm pair.1]
      exact halves (Nat.sub_le _ _)

theorem run_odd {pair : Nat × Nat} (odd : pair.2 % 2 = 1) (count : Nat) :
    (step^[count] pair).2 % 2 = 1 := by
  induction count with
  | zero => exact odd
  | succ count ih =>
    rw [Function.iterate_succ_apply']
    exact step_odd ih

theorem run_le {pair : Nat × Nat} {bound : Nat} (first : pair.1 ≤ bound) (second : pair.2 ≤ bound)
    (count : Nat) : (step^[count] pair).1 ≤ bound ∧ (step^[count] pair).2 ≤ bound := by
  induction count with
  | zero => exact ⟨first, second⟩
  | succ count ih =>
    rw [Function.iterate_succ_apply']
    exact step_le ih.1 ih.2

theorem run_gcd (odd : pair.2 % 2 = 1) (count : Nat) :
    Nat.gcd (step^[count] pair).1 (step^[count] pair).2 = Nat.gcd pair.1 pair.2 := by
  induction count with
  | zero => rfl
  | succ count ih => rw [Function.iterate_succ_apply', step_gcd (run_odd odd count), ih]

theorem run_product (pair : Nat × Nat) (count : Nat) :
    2 ^ count * ((step^[count] pair).1 * (step^[count] pair).2) ≤ pair.1 * pair.2 := by
  induction count with
  | zero => simp
  | succ count ih =>
    rw [Function.iterate_succ_apply', Nat.pow_succ, Nat.mul_assoc]
    exact Nat.le_trans (Nat.mul_le_mul_left _ (step_product _)) ih

theorem run_eq (odd : pair.2 % 2 = 1) {count : Nat} (enough : pair.1 * pair.2 < 2 ^ count) :
    step^[count] pair = (0, Nat.gcd pair.1 pair.2) := by
  have product := run_product pair count
  have last := run_odd odd count
  have same := run_gcd odd count
  generalize step^[count] pair = final at *
  have zero : final.1 = 0 := by
    by_contra nonzero
    have pos : 0 < final.1 * final.2 := Nat.mul_pos (by omega) (by omega)
    have := Nat.le_mul_of_pos_right (2 ^ count) pos
    omega
  rw [zero, Nat.gcd_zero_left] at same
  exact Prod.ext zero same

end Library.BinaryGcd
