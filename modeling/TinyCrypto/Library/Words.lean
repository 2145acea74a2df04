import Mathlib.Data.Nat.Digits.Defs
import Mathlib.Data.Nat.Digits.Lemmas
import Mathlib.Tactic.LinearCombination

/-! # Numbers in words

A number is a list of words of one width, least significant first. Sums and products
run along the list in a double word, whose high half is the carry.
-/

namespace Library.Words

variable {w : Nat}

def number (words : List (BitVec w)) : Nat := Nat.ofDigits (2 ^ w) (words.map BitVec.toNat)

@[simp] theorem number_nil : number ([] : List (BitVec w)) = 0 := rfl

@[simp] theorem number_cons (x : BitVec w) (rest : List (BitVec w)) :
    number (x :: rest) = x.toNat + 2 ^ w * number rest := by
  simp [number, Nat.ofDigits_cons]

theorem number_append (low high : List (BitVec w)) :
    number (low ++ high) = number low + 2 ^ (w * low.length) * number high := by
  simp [number, Nat.ofDigits_append, Nat.pow_mul]

theorem number_lt (words : List (BitVec w)) : number words < 2 ^ (w * words.length) := by
  induction words with
  | nil => simp
  | cons x rest ih =>
    have low := x.isLt
    rw [number_cons, List.length_cons, Nat.mul_succ, Nat.pow_add, Nat.mul_comm (2 ^ (w * _))]
    have room : 2 ^ w * (number rest + 1) ≤ 2 ^ w * 2 ^ (w * rest.length) :=
      Nat.mul_le_mul_left _ ih
    rw [Nat.mul_succ] at room
    omega

theorem number_replicate_zero (count : Nat) : number (List.replicate count 0#w) = 0 := by
  induction count with
  | zero => rfl
  | succ count ih => rw [List.replicate_succ, number_cons, ih, BitVec.toNat_zero, Nat.mul_zero]

theorem number_injective {left right : List (BitVec w)} (size : left.length = right.length)
    (same : number left = number right) : left = right := by
  induction left generalizing right with
  | nil => exact (List.length_eq_zero_iff.mp size.symm).symm
  | cons x left ih =>
    cases right with
    | nil => cases size
    | cons y right =>
      have pos : 0 < 2 ^ w := Nat.two_pow_pos w
      rw [number_cons, number_cons] at same
      have low := congrArg (· % 2 ^ w) same
      have high := congrArg (· / 2 ^ w) same
      simp only [Nat.add_mul_mod_self_left, Nat.mod_eq_of_lt x.isLt, Nat.mod_eq_of_lt y.isLt]
        at low
      simp only [Nat.add_mul_div_left _ _ pos, Nat.div_eq_of_lt x.isLt,
        Nat.div_eq_of_lt y.isLt, Nat.zero_add] at high
      rw [BitVec.eq_of_toNat_eq low, ih (Nat.succ.inj size) high]

theorem number_split (words : List (BitVec w)) {count : Nat} (inside : count ≤ words.length) :
    number words = number (words.take count) + 2 ^ (w * count) * number (words.drop count) := by
  have whole := number_append (words.take count) (words.drop count)
  rwa [List.take_append_drop, List.length_take, Nat.min_eq_left inside] at whole

theorem number_drop (words : List (BitVec w)) {count : Nat} (inside : count ≤ words.length) :
    number (words.drop count) = number words / 2 ^ (w * count) := by
  have low := number_lt (words.take count)
  rw [List.length_take, Nat.min_eq_left inside] at low
  rw [number_split words inside, Nat.add_mul_div_left _ _ (Nat.two_pow_pos _),
    Nat.div_eq_of_lt low, Nat.zero_add]

theorem number_take (words : List (BitVec w)) {count : Nat} (inside : count ≤ words.length) :
    number (words.take count) = number words % 2 ^ (w * count) := by
  have low := number_lt (words.take count)
  rw [List.length_take, Nat.min_eq_left inside] at low
  rw [number_split words inside, Nat.add_mul_mod_self_left, Nat.mod_eq_of_lt low]

theorem number_around (words : List (BitVec w)) {i count : Nat} (inside : i + count ≤ words.length) :
    number words = number (words.take i) + 2 ^ (w * i) * number ((words.drop i).take count) +
      2 ^ (w * (i + count)) * number (words.drop (i + count)) := by
  have size : count ≤ (words.drop i).length := by
    rw [List.length_drop]
    omega
  rw [number_split words (Nat.le_of_add_right_le inside), number_split (words.drop i) size,
    List.drop_drop, Nat.mul_add, Nat.mul_add w, Nat.pow_add]
  ring

theorem number_drop_zero {words : List (BitVec w)} {count : Nat} (inside : count ≤ words.length)
    (small : number words < 2 ^ (w * count)) : number (words.drop count) = 0 := by
  rw [number_drop words inside, Nat.div_eq_of_lt small]

theorem getD_toNat (words : List (BitVec w)) {i : Nat} (inside : i < words.length) :
    (words.getD i 0).toNat = number words / 2 ^ (w * i) % 2 ^ w := by
  have low := (words.getD i 0).isLt
  rw [← number_drop words (Nat.le_of_lt inside), List.drop_eq_getElem_cons inside, number_cons,
    Nat.add_mul_mod_self_left, List.getD_eq_getElem?_getD, List.getElem?_eq_getElem inside,
    Option.getD_some, Nat.mod_eq_of_lt (BitVec.isLt _)]

/-- The words that a loop wrote, its carry, and what its double word was to hold at each
    step. -/
structure Inner (w : Nat) where
  words : List (BitVec w)
  carry : BitVec (2 * w)
  sums : List Nat

/-- A loop whose double word never overflows keeps the total. -/
structure Carried (inner : Inner w) (count total : Nat) : Prop where
  length : inner.words.length = count
  value : number inner.words + 2 ^ (w * count) * inner.carry.toNat = total
  carry : inner.carry.toNat < 2 ^ w
  fits : ∀ sum ∈ inner.sums, sum < 2 ^ (2 * w)

theorem halves {value : BitVec (2 * w)} {sum : Nat} (exact : value.toNat = sum % 2 ^ (2 * w))
    (fits : sum < 2 ^ (2 * w)) :
    (value.setWidth w).toNat = sum % 2 ^ w ∧ (value >>> w).toNat = sum / 2 ^ w ∧
      (value >>> w).toNat < 2 ^ w := by
  rw [Nat.mod_eq_of_lt fits] at exact
  have high : (value >>> w).toNat = sum / 2 ^ w := by
    rw [BitVec.toNat_ushiftRight, Nat.shiftRight_eq_div_pow, exact]
  refine ⟨by rw [BitVec.toNat_setWidth, exact], high, ?_⟩
  rw [high]
  rw [Nat.two_mul, Nat.pow_add] at fits
  exact Nat.div_lt_of_lt_mul fits

theorem Carried.step {value : BitVec (2 * w)} {sum count total : Nat} {rest : Inner w}
    (exact : value.toNat = sum % 2 ^ (2 * w)) (fits : sum < 2 ^ (2 * w))
    (carried : (value >>> w).toNat < 2 ^ w → Carried rest count ((value >>> w).toNat + total)) :
    Carried ⟨value.setWidth w :: rest.words, rest.carry, sum :: rest.sums⟩ (count + 1)
      (sum + 2 ^ w * total) := by
  obtain ⟨low, high, small⟩ := halves exact fits
  obtain ⟨length, same, carry, below⟩ := carried small
  refine ⟨congrArg (· + 1) length, ?_, carry, ?_⟩
  · have parts := Nat.mod_add_div sum (2 ^ w)
    rw [number_cons, low, Nat.mul_succ, Nat.pow_add]
    rw [high] at same
    dsimp only
    linear_combination (2 : Nat) ^ w * same + parts
  · intro sum' member
    rcases List.mem_cons.mp member with rfl | later
    · exact fits
    · exact below sum' later

end Library.Words
