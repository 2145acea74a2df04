import TinyCrypto.Mp.LimbsEuclid

/-! # Long division of limbs

`tc_mp_divide_words` and `tc_mp_divide_u32` on arrays of words. Both take the bits of the
input from the top, and differ in how they keep the remainder.
-/

namespace TinyCrypto.Mp.Limbs

open Library.Words

variable {w : Nat} {ρ : Type}

/-- The bits of one word: `bit` of them are left. A step takes a remainder and a bit to the
    next remainder and the bit of the quotient. -/
def bitLoop (step : ρ → Bool → ρ × Bool) (word : BitVec w) : (bit : Nat) → BitVec w × ρ →
    BitVec w × ρ
  | 0, out => out
  | bit + 1, (quotient, remainder) =>
    let (next, take) := step remainder (word.getLsbD bit)
    bitLoop step word bit (quotient ||| flag w take <<< bit, next)

def wordLoop (step : ρ → Bool → ρ × Bool) (start : ρ) : List (BitVec w) → List (BitVec w) × ρ
  | [] => ([], start)
  | word :: rest =>
    let (high, remainder) := wordLoop step start rest
    let (quotient, remainder) := bitLoop step word w (0, remainder)
    (quotient :: high, remainder)

/-- One bit of `tc_mp_divide_words`, on the remainder and what the double words before were to
    hold. -/
def divideStep (p : List (BitVec w)) (state : List (BitVec w) × List Nat) (bit : Bool) :
    (List (BitVec w) × List Nat) × Bool :=
  let shifted := doubleLoop state.1 ((BitVec.ofBool bit).setWidth (2 * w))
  let (scratch, borrow) := subtract shifted.words p
  let take := (shifted.carry.setWidth w ||| (borrow ^^^ 1)) &&& 1
  ((select scratch shifted.words (0 - take), state.2 ++ shifted.sums), take ≠ 0)

/-- `tc_mp_divide_words`: the quotient, and the remainder with what the double words were to
    hold. -/
def divideWords (input p : List (BitVec w)) : List (BitVec w) × List (BitVec w) × List Nat :=
  wordLoop (divideStep p) (List.replicate p.length 0, []) input

/-- `tc_mp_divide_u32`. -/
def divideU32 (input : List (BitVec w)) (divisor : Nat) : List (BitVec w) × Nat :=
  wordLoop (modU32Step divisor) 0 input

section

variable {step : ρ → Bool → ρ × Bool} {Stands : ρ → Nat → Prop} {d : Nat}

def Steps (step : ρ → Bool → ρ × Bool) (Stands : ρ → Nat → Prop) (d : Nat) : Prop :=
  ∀ remainder v, Stands remainder (v % d) → ∀ bit : Bool,
    Stands (step remainder bit).1 ((2 * v + bit.toNat) % d) ∧
      (2 * v + bit.toNat) / d = 2 * (v / d) + (step remainder bit).2.toNat

theorem place_bit (pos : 0 < w) {quotient : BitVec w} {bit : Nat} (inside : bit < w)
    (aligned : 2 ^ (bit + 1) ∣ quotient.toNat) (take : Bool) :
    (quotient ||| flag w take <<< bit).toNat = quotient.toNat + 2 ^ bit * take.toNat := by
  obtain ⟨high, whole⟩ := aligned
  have one : take.toNat < 2 := Nat.lt_succ_of_le (Bool.toNat_le take)
  have low : 2 ^ bit * take.toNat < 2 ^ (bit + 1) := by
    rw [Nat.pow_succ]
    exact Nat.mul_lt_mul_of_pos_left one (Nat.two_pow_pos bit)
  have room : 2 ^ (bit + 1) ≤ 2 ^ w := Nat.pow_le_pow_right (by decide) inside
  have shifted : (flag w take <<< bit).toNat = 2 ^ bit * take.toNat := by
    rw [BitVec.toNat_shiftLeft, flag_toNat pos, Nat.shiftLeft_eq, Nat.mul_comm]
    exact Nat.mod_eq_of_lt (Nat.lt_of_lt_of_le low room)
  rw [BitVec.toNat_or, shifted, whole, Nat.two_pow_add_eq_or_of_lt low]

theorem bitLoop_spec (pos : 0 < w) (steps : Steps step Stands d) (word : BitVec w)
    (quotient : BitVec w) (above : Nat) {bit v : Nat} (inside : bit ≤ w) {remainder : ρ}
    (before : Stands remainder (v % d))
    (written : quotient.toNat + 2 ^ w * above = 2 ^ bit * (v / d)) :
    let out := bitLoop step word bit (quotient, remainder)
    Stands out.2 ((2 ^ bit * v + word.toNat % 2 ^ bit) % d) ∧
      out.1.toNat + 2 ^ w * above = (2 ^ bit * v + word.toNat % 2 ^ bit) / d := by
  induction bit generalizing v quotient remainder with
  | zero => simpa [bitLoop, Nat.mod_one] using And.intro before written
  | succ bit ih =>
    obtain ⟨after, digit⟩ := steps _ _ before (word.getLsbD bit)
    have aligned : 2 ^ (bit + 1) ∣ quotient.toNat := by
      have above' : 2 ^ (bit + 1) ∣ 2 ^ w * above := Dvd.dvd.mul_right (pow_dvd_pow 2 inside) above
      refine (Nat.dvd_add_left above').mp ?_
      rw [written]
      exact dvd_mul_right _ _
    have placed := place_bit pos inside aligned (step remainder (word.getLsbD bit)).2
    have total : 2 ^ (bit + 1) * v + word.toNat % 2 ^ (bit + 1) =
        2 ^ bit * (2 * v + (word.getLsbD bit).toNat) + word.toNat % 2 ^ bit := by
      rw [← BitVec.testBit_toNat, Nat.toNat_testBit, Nat.pow_succ, Nat.mod_mul]
      ring
    rw [total]
    refine ih _ (Nat.le_of_lt inside) after ?_
    rw [placed, digit]
    rw [Nat.pow_succ] at written
    linear_combination written

theorem wordLoop_spec (pos : 0 < w) (steps : Steps step Stands d) (start : ρ)
    (begun : Stands start 0) (input : List (BitVec w)) :
    (wordLoop step start input).1.length = input.length ∧
      number (wordLoop step start input).1 = number input / d ∧
      Stands (wordLoop step start input).2 (number input % d) := by
  induction input with
  | nil => simpa [wordLoop] using begun
  | cons word rest ih =>
    obtain ⟨length, high, remainder⟩ := ih
    obtain ⟨after, quotient⟩ := bitLoop_spec pos steps word 0 (number rest / d)
      (Nat.le_refl w) remainder (by simp)
    have total : 2 ^ w * number rest + word.toNat % 2 ^ w = number (word :: rest) := by
      rw [number_cons, Nat.mod_eq_of_lt word.isLt, Nat.add_comm]
    rw [total] at after quotient
    refine ⟨congrArg (· + 1) length, ?_, after⟩
    rw [← quotient, ← high]
    exact number_cons _ _

end

theorem flag_ne_zero (pos : 0 < w) (c : Bool) : decide (flag w c ≠ 0) = c := by
  have number := flag_toNat pos c
  cases c with
  | false => simp [flag]
  | true =>
    have nonzero : flag w true ≠ 0 := by
      intro zero
      rw [zero] at number
      simp at number
    exact decide_eq_true nonzero

variable {p : List (BitVec w)} {d : Nat}

def Remains (p : List (BitVec w)) (state : List (BitVec w) × List Nat) (v : Nat) : Prop :=
  state.1.length = p.length ∧ number state.1 = v ∧ ∀ sum ∈ state.2, sum < 2 ^ (2 * w)

theorem divideStep_steps (pos : 0 < w) (nonzero : 0 < number p) :
    Steps (divideStep p) (Remains p) (number p) := by
  rintro ⟨remainder, sums⟩ v ⟨size, same, bounded⟩ bit
  dsimp only at size same bounded
  have one : bit.toNat ≤ 1 := Bool.toNat_le bit
  have carried : ((BitVec.ofBool bit).setWidth (2 * w)).toNat = bit.toNat :=
    flag_toNat (by omega) bit
  have word : 1 < 2 ^ w := Nat.one_lt_two_pow (by omega)
  have below : ((BitVec.ofBool bit).setWidth (2 * w)).toNat < 2 ^ w := by omega
  obtain ⟨length, value, -, fits⟩ :=
    addLoop_carried pos (rfl : remainder.length = remainder.length) below
  rw [← doubleLoop_eq, carried, same, size] at value
  rw [← doubleLoop_eq] at length fits
  have pass := dividePass_eq nonzero (number_span p) bit (v := v)
  generalize shifts : doubleLoop remainder ((BitVec.ofBool bit).setWidth (2 * w)) = shifted at *
  have low := number_span shifted.words
  rw [length, size] at low
  have total : 2 * (v % number p) + bit.toNat =
      number shifted.words + span w p.length * shifted.carry.toNat := by
    rw [span]
    omega
  have lowEq : (2 * (v % number p) + bit.toNat) % span w p.length = number shifted.words := by
    rw [total, Nat.add_mul_mod_self_left, Nat.mod_eq_of_lt low]
  have highEq : (2 * (v % number p) + bit.toNat) / span w p.length = shifted.carry.toNat := by
    rw [total, Nat.add_mul_div_left _ _ span_pos, Nat.div_eq_of_lt low, Nat.zero_add]
  have below : v % number p < number p := Nat.mod_lt _ nonzero
  have bound := number_span p
  have small : shifted.carry.toNat ≤ 1 := by
    rw [← highEq]
    refine Nat.le_of_lt_succ (Nat.div_lt_of_lt_mul ?_)
    omega
  have top : shifted.carry.setWidth w = flag w (decide (shifted.carry.toNat ≠ 0)) := by
    apply BitVec.eq_of_toNat_eq
    rw [flag_toNat pos, BitVec.toNat_setWidth, Nat.mod_eq_of_lt (by omega)]
    rcases Nat.le_one_iff_eq_zero_or_eq_one.mp small with zero | one
    · simp [zero]
    · simp [one]
  obtain ⟨length', difference, -⟩ := subtract_spec pos (length.trans size)
  have borrow := borrow_flag pos (length.trans size)
  rw [length, size] at difference borrow
  have mask : ((shifted.carry.setWidth w ||| ((subtract shifted.words p).2 ^^^ 1)) &&& 1) =
      flag w (decide (shifted.carry.toNat ≠ 0) ||
        !(Mp.subtract w p.length (number shifted.words) (number p)).2) := by
    rw [top, borrow, flag_true, flag_xor, flag_or, flag_and, Bool.and_true, Bool.xor_true]
  simp only [dividePass, lowEq, highEq, Prod.mk.injEq] at pass
  simp only [divideStep, shifts, mask, select_flag pos length', flag_ne_zero pos]
  refine ⟨⟨?_, ?_, ?_⟩, pass.1.symm⟩
  · split
    · exact length'.trans (length.trans size)
    · exact length.trans size
  · rw [← pass.2, apply_ite number, difference]
  · intro sum member
    rcases List.mem_append.mp member with earlier | later
    · exact bounded sum earlier
    · exact fits sum later

theorem modU32Step_steps (pos : 0 < d) (small : d < 2 ^ 31) :
    Steps (modU32Step d) (fun remainder v => remainder = v) d := by
  rintro _ v rfl bit
  have pass := divideU32Pass_eq pos small bit (v := v)
  simp only [divideU32Pass, Prod.mk.injEq] at pass
  exact ⟨pass.2, pass.1.symm⟩

/-- Division with remainder, without an overflow of a double word. A divisor below 2^31 has the
    same quotient and remainder, bit by bit, in both functions. -/
def Divided (input p : List (BitVec w)) : Prop :=
  let (quotient, remainder, sums) := divideWords input p
  quotient.length = input.length ∧ remainder.length = p.length ∧
    number input = number quotient * number p + number remainder ∧
    number remainder < number p ∧ (∀ sum ∈ sums, sum < 2 ^ (2 * w)) ∧
    (number p < 2 ^ 31 → divideU32 input (number p) = (quotient, number remainder) ∧
      ∀ (r : List (BitVec w)) (bit : Bool), r.length = p.length → number r < number p →
        modU32Step (number p) (number r) bit =
          (number (divideStep p (r, []) bit).1.1, (divideStep p (r, []) bit).2))

/-- Division by every array but those of zero. -/
theorem division_exact (pos : 0 < w) (nonzero : 0 < number p) (input : List (BitVec w)) :
    Divided input p := by
  obtain ⟨size, quotient, length, remainder, fits⟩ :=
    wordLoop_spec pos (divideStep_steps pos nonzero) (List.replicate p.length 0, [])
      ⟨List.length_replicate, number_replicate_zero _, nofun⟩ input
  refine ⟨size, length, ?_, ?_, fits, fun small => ⟨?_, fun r bit same below => ?_⟩⟩
  · rw [remainder, quotient, Nat.mul_comm]
    exact (Nat.div_add_mod _ _).symm
  · rw [remainder]
    exact Nat.mod_lt _ nonzero
  · obtain ⟨size', quotient', remainder'⟩ :=
      wordLoop_spec pos (modU32Step_steps nonzero small) 0 rfl input
    exact Prod.ext (number_injective (size'.trans size.symm) (quotient'.trans quotient.symm))
      (remainder'.trans remainder.symm)
  · have reduced := Nat.mod_eq_of_lt below
    obtain ⟨⟨-, value, -⟩, digit⟩ :=
      divideStep_steps pos nonzero (r, []) (number r) ⟨same, reduced.symm, nofun⟩ bit
    obtain ⟨value', digit'⟩ := modU32Step_steps nonzero small _ _ reduced.symm bit
    refine Prod.ext (value'.trans value.symm) ?_
    have same := Nat.add_left_cancel (digit'.symm.trans digit)
    revert same
    cases (modU32Step (number p) (number r) bit).2 <;> cases (divideStep p (r, []) bit).2 <;> decide

theorem division_exact_byte : Divided [0x34, 0x12] [(0x07 : BitVec 8), 0x01] :=
  division_exact (by decide) (by simp) _

end TinyCrypto.Mp.Limbs
