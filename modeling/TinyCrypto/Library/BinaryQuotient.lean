import Mathlib.Algebra.CharP.Two
import Mathlib.Algebra.Field.ZMod
import Mathlib.Data.List.GetD
import Mathlib.RingTheory.AdjoinRoot
import Mathlib.Tactic.LinearCombination

/-! # Binary polynomials modulo a polynomial

Bit lists as the coefficients of elements of `(ZMod 2)[X] / P`, the constant one first.
-/

namespace Library.BinaryQuotient

open Polynomial

noncomputable def polynomial : List Bool → (ZMod 2)[X]
  | [] => 0
  | bit :: bits => (if bit then 1 else 0) + X * polynomial bits

noncomputable def residue (P : (ZMod 2)[X]) (bits : List Bool) : AdjoinRoot P :=
  AdjoinRoot.mk P (polynomial bits)

def xorBits (first second : List Bool) : List Bool := List.zipWith (· ^^ ·) first second

theorem polynomial_coeff (bits : List Bool) (i : Nat) :
    (polynomial bits).coeff i = if bits.getD i false then 1 else 0 := by
  induction bits generalizing i with
  | nil => simp [polynomial]
  | cons bit bits ih =>
    cases i with
    | zero => cases bit <;> simp [polynomial]
    | succ i =>
      have constant : (if bit then 1 else 0 : (ZMod 2)[X]).coeff (i + 1) = 0 := by
        cases bit
        · simp
        · simp [coeff_one]
      rw [polynomial, coeff_add, constant, zero_add, coeff_X_mul, ih]
      simp

theorem polynomial_degree_lt (bits : List Bool) : (polynomial bits).degree < bits.length := by
  rw [degree_lt_iff_coeff_zero]
  intro i past
  rw [polynomial_coeff, List.getD_eq_default _ _ (by exact_mod_cast past)]
  simp

variable {first second : List Bool}

theorem polynomial_injective (length : first.length = second.length)
    (same : polynomial first = polynomial second) : first = second := by
  refine List.ext_getElem length fun i inside inside' => ?_
  have here := congrArg (coeff · i) same
  simp only [polynomial_coeff, List.getD_eq_getElem _ _ inside,
    List.getD_eq_getElem _ _ inside'] at here
  cases value : first[i] <;> cases value' : second[i] <;> simp [value, value'] at here ⊢

theorem polynomial_append (first second : List Bool) :
    polynomial (first ++ second) = polynomial first + X ^ first.length * polynomial second := by
  induction first with
  | nil => simp [polynomial]
  | cons bit bits ih =>
    rw [List.cons_append, polynomial, ih, polynomial, List.length_cons]
    ring

theorem polynomial_xor (length : first.length = second.length) :
    polynomial (xorBits first second) = polynomial first + polynomial second := by
  induction first generalizing second with
  | nil =>
    obtain rfl := List.length_eq_zero_iff.mp length.symm
    simp [polynomial, xorBits]
  | cons bit bits ih =>
    cases second with
    | nil => cases length
    | cons bit' bits' =>
      have digits : (if bit ^^ bit' then 1 else 0 : (ZMod 2)[X]) =
          (if bit then 1 else 0) + if bit' then 1 else 0 := by
        cases bit <;> cases bit' <;> simp
        exact (CharTwo.add_self_eq_zero (1 : (ZMod 2)[X])).symm
      have rest := ih (Nat.succ_inj.mp length)
      rw [xorBits] at rest
      rw [xorBits, List.zipWith_cons_cons, polynomial, rest, polynomial, polynomial, digits]
      ring

variable {P : (ZMod 2)[X]}

theorem residue_nil : residue P [] = 0 := by simp [residue, polynomial]

theorem residue_cons (bit : Bool) (bits : List Bool) :
    residue P (bit :: bits) = (if bit then 1 else 0) + AdjoinRoot.root P * residue P bits := by
  rw [residue, polynomial, map_add, map_mul, AdjoinRoot.mk_X, residue]
  cases bit <;> simp

theorem residue_append (first second : List Bool) : residue P (first ++ second) =
      residue P first + AdjoinRoot.root P ^ first.length * residue P second := by
  rw [residue, polynomial_append, map_add, map_mul, map_pow, AdjoinRoot.mk_X, residue, residue]

theorem residue_replicate (count : Nat) : residue P (List.replicate count false) = 0 := by
  induction count with
  | zero => exact residue_nil
  | succ count ih => simp [List.replicate_succ, residue_cons, ih]

theorem residue_xor (length : first.length = second.length) :
    residue P (xorBits first second) = residue P first + residue P second := by
  rw [residue, polynomial_xor length, map_add, residue, residue]

theorem residue_injective (monic : P.Monic) (length : first.length = P.natDegree)
    (length' : second.length = P.natDegree) (same : residue P first = residue P second) :
    first = second := by
  refine polynomial_injective (length.trans length'.symm) ?_
  have divides := AdjoinRoot.mk_eq_mk.mp same
  have small : (polynomial first - polynomial second).degree < P.degree := by
    refine lt_of_le_of_lt (degree_sub_le _ _) ?_
    rw [degree_eq_natDegree monic.ne_zero]
    refine max_lt ?_ ?_
    · rw [← length]
      exact polynomial_degree_lt first
    · rw [← length']
      exact polynomial_degree_lt second
  exact sub_eq_zero.mp (eq_zero_of_dvd_of_degree_lt divides small)

theorem two_eq_zero : (2 : AdjoinRoot P) = 0 := by
  have two := congrArg (AdjoinRoot.of P) (show (2 : ZMod 2) = 0 by decide)
  rwa [map_ofNat, map_zero] at two

theorem add_self (a : AdjoinRoot P) : a + a = 0 := by
  rw [← two_mul, two_eq_zero, zero_mul]

theorem add_pow_two_pow (a b : AdjoinRoot P) (n : Nat) :
    (a + b) ^ 2 ^ n = a ^ 2 ^ n + b ^ 2 ^ n := by
  induction n with
  | zero => simp
  | succ n ih =>
    rw [pow_succ, pow_mul, ih, pow_mul, pow_mul]
    linear_combination add_self (a ^ 2 ^ n * b ^ 2 ^ n)

theorem add_eq_iff {a b c : AdjoinRoot P} : a + b = c ↔ a = c + b := by
  constructor
  · rintro rfl
    rw [add_assoc, add_self, add_zero]
  · rintro rfl
    rw [add_assoc, add_self, add_zero]

theorem root_pow {rest : (ZMod 2)[X]} {degree : Nat} (parts : P = X ^ degree + rest) :
    AdjoinRoot.root P ^ degree = AdjoinRoot.mk P rest := by
  have whole : AdjoinRoot.mk P (X ^ degree + rest) = 0 := by
    rw [← parts]
    exact AdjoinRoot.mk_self
  rw [map_add, map_pow, AdjoinRoot.mk_X, add_eq_iff, zero_add] at whole
  exact whole

end Library.BinaryQuotient
