import Mathlib.Algebra.CharP.Reduced
import Mathlib.Tactic.ComputeDegree
import TinyCrypto.Aes.Block
import TinyCrypto.Library.BinaryQuotient
import TinyCrypto.Library.BitString

/-! # Bytes as elements of GF(2^8)

The polynomials modulo x^8 + x^4 + x^3 + x + 1 of FIPS 197 section 4, and the byte arithmetic
of `aes.c` in them.
-/

namespace TinyCrypto.Aes

open Polynomial
open Library
open Library.BinaryQuotient

/-- The modulus of FIPS 197 section 4.2. -/
noncomputable def modulus : (ZMod 2)[X] := X ^ 8 + X ^ 4 + X ^ 3 + X + 1

theorem modulus_monic : modulus.Monic := by
  unfold modulus
  monicity!

theorem modulus_natDegree : modulus.natDegree = 8 := by
  unfold modulus
  compute_degree!

def bits (byte : UInt8) : List Bool := BitString.lowBits 8 byte.toNat

noncomputable def element (byte : UInt8) : AdjoinRoot modulus :=
  residue modulus (bits byte)

noncomputable abbrev x : AdjoinRoot modulus := AdjoinRoot.root modulus

theorem bits_injective {a b : UInt8} (same : bits a = bits b) : a = b := by
  have value := congrArg BitString.value same
  rw [bits, bits, BitString.value_lowBits, BitString.value_lowBits,
    Nat.mod_eq_of_lt a.toNat_lt, Nat.mod_eq_of_lt b.toNat_lt] at value
  exact UInt8.toNat_inj.mp value

theorem element_injective : Function.Injective element := by
  intro a b same
  refine bits_injective (residue_injective modulus_monic ?_ ?_ same)
  · rw [modulus_natDegree, bits, BitString.lowBits_length]
  · rw [modulus_natDegree, bits, BitString.lowBits_length]

theorem bits_xor (a b : UInt8) : bits (a ^^^ b) = xorBits (bits a) (bits b) := by
  refine List.ext_getElem (by simp [bits, xorBits]) fun i _ _ => ?_
  simp [bits, xorBits, BitString.lowBits]

theorem element_xor (a b : UInt8) : element (a ^^^ b) = element a + element b := by
  rw [element, bits_xor, residue_xor (by simp [bits]), element, element]

theorem element_zero : element 0 = 0 := residue_replicate 8

theorem element_one : element 1 = 1 := by
  have one : bits 1 = true :: List.replicate 7 false := by decide
  rw [element, one, residue_cons, residue_replicate]
  simp

theorem x_pow_eight : x ^ 8 = x ^ 4 + x ^ 3 + x + 1 := by
  have parts : modulus = X ^ 8 + (X ^ 4 + X ^ 3 + X + 1) := by
    rw [modulus, add_assoc, add_assoc, add_assoc, add_assoc, add_assoc]
  rw [root_pow parts]
  simp only [map_add, map_pow, AdjoinRoot.mk_X, map_one]

def overflow (carry : Bool) : List Bool :=
  if carry then [true, true, false, true, true, false, false, false]
  else List.replicate 8 false

theorem bits_shiftLeft (a : UInt8) : bits (a <<< 1) = false :: (bits a).take 7 := by
  have number : (a <<< 1).toNat = a.toNat <<< 1 % 2 ^ 8 := rfl
  refine List.ext_getElem (by simp [bits]) fun i inside _ => ?_
  cases i with
  | zero => simp [bits, number, BitString.lowBits]
  | succ i =>
    have before : i + 1 < 8 := by simpa [bits] using inside
    simp only [bits, BitString.lowBits, number, List.getElem_map, List.getElem_range,
      List.getElem_cons_succ, List.getElem_take, Nat.testBit_mod_two_pow, Nat.testBit_shiftLeft]
    simp [before]

theorem shiftRight_seven (a : UInt8) : a >>> 7 = if a.toNat.testBit 7 then 1 else 0 := by
  have number : (a >>> 7).toNat = a.toNat / 2 ^ 7 := by
    rw [UInt8.toNat_shiftRight, Nat.shiftRight_eq_div_pow]
    rfl
  have small := a.toNat_lt
  refine UInt8.toNat_inj.mp ?_
  rw [number, Nat.testBit_eq_decide_div_mod_eq]
  rcases Nat.lt_or_ge a.toNat 128 with low | high
  · rw [show a.toNat / 2 ^ 7 = 0 by omega]
    rfl
  · rw [show a.toNat / 2 ^ 7 = 1 by omega]
    rfl

theorem bits_overflow (a : UInt8) :
    bits (((a >>> 7) &&& 1) * 0x1b) = overflow ((bits a).getD 7 false) := by
  have top : (bits a).getD 7 false = a.toNat.testBit 7 := by simp [bits, BitString.lowBits]
  rw [top, shiftRight_seven]
  cases a.toNat.testBit 7
  · decide
  · decide

theorem bits_xtime (a : UInt8) :
    bits (xtime a) = xorBits (false :: (bits a).take 7) (overflow ((bits a).getD 7 false)) := by
  rw [xtime, bits_xor, bits_shiftLeft, bits_overflow]

theorem element_xtime (a : UInt8) : element (xtime a) = x * element a := by
  have split : bits a = (bits a).take 7 ++ [(bits a).getD 7 false] := by
    have inside : 7 < (bits a).length := by simp [bits]
    rw [List.getD_eq_getElem _ _ inside, ← List.take_succ_eq_append_getElem inside,
      List.take_of_length_le (by simp [bits])]
  have size : ((bits a).take 7).length = 7 := by simp [bits]
  have whole : element a = residue modulus ((bits a).take 7) +
      x ^ 7 * residue modulus [(bits a).getD 7 false] := by
    conv_lhs => rw [element, split, residue_append, size]
  rw [element, bits_xtime, residue_xor (by simp [bits, overflow]; split <;> rfl),
    residue_cons, whole]
  cases (bits a).getD 7 false
  · simp [overflow, residue_cons, residue_nil]
  · simp only [overflow, residue_cons, residue_nil, if_true,
      Bool.false_eq_true, if_false]
    linear_combination -x_pow_eight

theorem lowBits_succ (count n : Nat) :
    BitString.lowBits (count + 1) n = n.testBit 0 :: BitString.lowBits count (n / 2) := by
  simp only [BitString.lowBits, List.range_succ_eq_map, List.map_cons, List.map_map]
  congr 1
  refine List.map_congr_left fun i _ => ?_
  simp [Nat.testBit_succ]

theorem element_selected (a b : UInt8) :
    element ((0 - (b &&& 1)) &&& a) = if b.toNat.testBit 0 then element a else 0 := by
  rw [and_one]
  split
  · rw [show (0 : UInt8) - 1 = -1 from rfl, UInt8.neg_one_and]
  · rw [show (0 : UInt8) - 0 = 0 from rfl, UInt8.zero_and, element_zero]

theorem element_sboxMultiplyLoop (passes : Nat) (result a b : UInt8) :
    element (sboxMultiplyLoop passes result a b) = element result +
        element a * residue modulus (BitString.lowBits passes b.toNat) := by
  have doubled : ∀ a : UInt8, (a <<< 1) ^^^ ((0x1b : UInt8) &&& ((0 : UInt8) - (a >>> 7))) =
      xtime a := by
    intro a
    rw [xtime, shiftRight_seven]
    cases a.toNat.testBit 7
    · rfl
    · rfl
  induction passes generalizing result a b with
  | zero => simp [sboxMultiplyLoop, BitString.lowBits, residue_nil]
  | succ passes ih =>
    have half : (b >>> 1).toNat = b.toNat / 2 := by
      rw [UInt8.toNat_shiftRight, Nat.shiftRight_eq_div_pow]
      rfl
    rw [sboxMultiplyLoop, ih, doubled, element_xtime, element_xor, element_selected, half,
      lowBits_succ, residue_cons]
    cases b.toNat.testBit 0
    · simp
      ring
    · simp
      ring

theorem element_sboxMultiply (a b : UInt8) :
    element (sboxMultiply a b) = element a * element b := by
  rw [sboxMultiply, element_sboxMultiplyLoop, element_zero, zero_add, element, element, bits, bits]

theorem element_sboxInverseLoop (passes exponent : Nat) (result factor : UInt8)
    (fits : exponent < 2 ^ passes) : element (sboxInverseLoop passes exponent result factor) =
      element result * element factor ^ exponent := by
  induction passes generalizing exponent result factor with
  | zero =>
    obtain rfl : exponent = 0 := by simpa using fits
    simp [sboxInverseLoop]
  | succ passes ih =>
    rw [sboxInverseLoop]
    split
    · rename_i zero
      simp [zero]
    · rw [Nat.pow_succ] at fits
      rw [ih _ _ _ (by omega), element_sboxMultiply, ← pow_two, ← pow_mul]
      split
      · rename_i odd
        rw [element_sboxMultiply]
        conv_rhs => rw [← Nat.div_add_mod exponent 2, odd, pow_succ]
        ring
      · rename_i even
        conv_rhs => rw [← Nat.div_add_mod exponent 2, (Nat.mod_two_not_eq_one.mp even)]
        rw [Nat.add_zero]

theorem element_sboxInverse (value : UInt8) : element (sboxInverse value) = element value ^ 254 := by
  rw [sboxInverse, element_sboxInverseLoop _ _ _ _ (by decide), element_one, one_mul]

theorem element_pow_card (value : UInt8) : element value ^ 256 = element value := by
  have two : element 2 = x := by
    have shifted : (2 : UInt8) = xtime 1 := by decide
    rw [shifted, element_xtime, element_one, mul_one]
  have squared : ∀ value : UInt8, element (sboxMultiply value value) = element value ^ 2 :=
    fun value => by rw [element_sboxMultiply, pow_two]
  have root : x ^ 256 = x := by
    have cycle : (fun value => sboxMultiply value value)^[8] 2 = 2 := by decide +kernel
    have powers : ∀ n, element ((fun value => sboxMultiply value value)^[n] 2) = x ^ 2 ^ n := by
      intro n
      induction n with
      | zero => rw [Function.iterate_zero, id, two, pow_zero, pow_one]
      | succ n ih => rw [Function.iterate_succ_apply', squared, ih, ← pow_mul, ← pow_succ]
    have eighth := powers 8
    rw [cycle, two] at eighth
    exact eighth.symm
  have all : ∀ list : List Bool, residue modulus list ^ 256 =
      residue modulus list := by
    intro list
    induction list with
    | nil => rw [residue_nil, zero_pow (by decide)]
    | cons bit rest ih =>
      have digit : (if bit then 1 else 0 : AdjoinRoot modulus) ^ 256 = if bit then 1 else 0 := by
        cases bit <;> simp
      rw [residue_cons, show 256 = 2 ^ 8 from rfl, add_pow_two_pow,
        ← show 256 = 2 ^ 8 from rfl, mul_pow, root, ih, digit]
  exact all (bits value)

theorem sboxInverse_unique {value inverse : UInt8} (one : element value * element inverse = 1) :
    sboxInverse value = inverse := by
  refine element_injective ?_
  have fixed := element_pow_card value
  rw [element_sboxInverse]
  calc element value ^ 254
      = element value ^ 254 * (element value * element inverse) := by rw [one, mul_one]
    _ = element value ^ 254 * (element value * element inverse) ^ 2 := by rw [one, one_pow]
    _ = element value ^ 256 * element inverse * element inverse := by ring
    _ = element inverse := by rw [fixed, one, one_mul]

def affine (inverse : UInt8) : UInt8 :=
  inverse ^^^ sboxRotateLeft inverse 1 ^^^ sboxRotateLeft inverse 2 ^^^ sboxRotateLeft inverse 3 ^^^
    sboxRotateLeft inverse 4 ^^^ 0x63

def affineInverse (num : UInt8) : UInt8 :=
  sboxRotateLeft num 1 ^^^ sboxRotateLeft num 3 ^^^ sboxRotateLeft num 6 ^^^ 0x05

theorem affineInverse_affine : ∀ byte, affineInverse (affine byte) = byte :=
  forall_byte (by decide +kernel)

theorem affine_affineInverse (byte : UInt8) : affine (affineInverse byte) = byte := by
  have finite : Finite UInt8 := Finite.of_injective UInt8.toFin fun _ _ => UInt8.toFin_inj.mp
  have onto : Function.Surjective affineInverse := Function.LeftInverse.surjective affineInverse_affine
  exact Finite.injective_iff_surjective.mpr onto (affineInverse_affine (affineInverse byte))

theorem forall_entry {table : List UInt8} (size : table.length = 256) {p : UInt8 → UInt8 → Prop}
    [∀ byte entry, Decidable (p byte entry)] (all : ((List.range 256).zip table).all
      (fun pair => decide (p (UInt8.ofNat pair.1) pair.2)) = true)
    (byte : UInt8) : p byte (table.getD byte.toNat 0) := by
  have inside : byte.toNat < 256 := byte.toNat_lt
  have member : (byte.toNat, table.getD byte.toNat 0) ∈ (List.range 256).zip table := by
    refine List.mem_iff_getElem?.mpr ⟨byte.toNat, ?_⟩
    rw [List.getElem?_zip_eq_some]
    simp [inside, size]
  have here := of_decide_eq_true (List.all_eq_true.mp all _ member)
  rwa [UInt8.ofNat_toNat] at here

set_option maxRecDepth 4000 in
theorem fastSbox_length : fastSbox.length = 256 := rfl

set_option maxRecDepth 4000 in
theorem fastRsbox_length : fastRsbox.length = 256 := rfl

theorem fastSbox_inverse (value : UInt8) : value = 0 ∨
    sboxMultiply (affineInverse (fastSbox.getD value.toNat 0)) value = 1 :=
  forall_entry fastSbox_length (p := fun value entry =>
    value = 0 ∨ sboxMultiply (affineInverse entry) value = 1) (by decide +kernel) value

theorem fastRsbox_inverse (num : UInt8) : affineInverse num = 0 ∧ fastRsbox.getD num.toNat 0 = 0 ∨
    sboxMultiply (affineInverse num) (fastRsbox.getD num.toNat 0) = 1 :=
  forall_entry fastRsbox_length (p := fun num entry =>
    affineInverse num = 0 ∧ entry = 0 ∨ sboxMultiply (affineInverse num) entry = 1)
    (by decide +kernel) num

theorem sboxInverse_zero : sboxInverse 0 = 0 := by
  refine element_injective ?_
  rw [element_sboxInverse, element_zero, zero_pow (by decide)]

theorem sboxInverse_of_product {value inverse : UInt8} (one : sboxMultiply value inverse = 1) :
    sboxInverse value = inverse ∧ sboxInverse inverse = value := by
  have product := congrArg element one
  rw [element_sboxMultiply, element_one] at product
  exact ⟨sboxInverse_unique product, sboxInverse_unique (by rw [mul_comm]; exact product)⟩

theorem sboxInverse_mul {value : UInt8} (nonzero : value ≠ 0) :
    element value * element (sboxInverse value) = 1 := by
  have one := (fastSbox_inverse value).resolve_left nonzero
  rw [(sboxInverse_of_product one).2, mul_comm, ← element_sboxMultiply, one, element_one]

theorem sboxInverse_sboxInverse (value : UInt8) : sboxInverse (sboxInverse value) = value := by
  by_cases zero : value = 0
  · rw [zero, sboxInverse_zero, sboxInverse_zero]
  · refine sboxInverse_unique ?_
    rw [mul_comm]
    exact sboxInverse_mul zero

theorem fastSbox_eq (num : UInt8) : fastSbox.getD num.toNat 0 = computedSbox num := by
  change _ = affine (sboxInverse num)
  by_cases zero : num = 0
  · rw [zero, sboxInverse_zero]
    decide
  · have one := (fastSbox_inverse num).resolve_left zero
    rw [(sboxInverse_of_product one).2, affine_affineInverse]

theorem computedInverseSbox_computedSbox (num : UInt8) :
    computedInverseSbox (computedSbox num) = num := by
  change sboxInverse (affineInverse (affine (sboxInverse num))) = num
  rw [affineInverse_affine, sboxInverse_sboxInverse]

theorem computedSbox_computedInverseSbox (num : UInt8) :
    computedSbox (computedInverseSbox num) = num := by
  change affine (sboxInverse (sboxInverse (affineInverse num))) = num
  rw [sboxInverse_sboxInverse, affine_affineInverse]

theorem fastRsbox_eq (num : UInt8) : fastRsbox.getD num.toNat 0 = computedInverseSbox num := by
  change _ = sboxInverse (affineInverse num)
  rcases fastRsbox_inverse num with ⟨zero, entry⟩ | one
  · rw [zero, entry, sboxInverse_zero]
  · exact (sboxInverse_of_product one).1.symm

theorem generatedSbox_getD (num : UInt8) : generatedSbox.getD num.toNat 0 = computedSbox num := by
  have inside := num.toNat_lt
  simp [generatedSbox, List.getD, inside]

/-- The second loop of `TC_AES_init_sbox` inverts the table of the first one. -/
theorem generatedRsbox_getD (num : UInt8) :
    generatedRsbox.getD num.toNat 0 = computedInverseSbox num := by
  have filled : ∀ count ≤ 256, ∀ table : List UInt8, table.length = 256 →
      ((List.range count).foldl (fun rsbox i =>
          rsbox.set (generatedSbox.getD i 0).toNat (UInt8.ofNat i)) table).length = 256 ∧
        ∀ byte : UInt8, byte.toNat < count → ((List.range count).foldl (fun rsbox i =>
            rsbox.set (generatedSbox.getD i 0).toNat (UInt8.ofNat i)) table).getD
              (computedSbox byte).toNat 0 = byte := by
    intro count
    induction count with
    | zero =>
      intro _ table size
      exact ⟨size, fun byte inside => absurd inside (Nat.not_lt_zero _)⟩
    | succ count ih =>
      intro inside table size
      obtain ⟨length, entries⟩ := ih (by omega) table size
      have entry : generatedSbox.getD count 0 = computedSbox (UInt8.ofNat count) := by
        have small : (UInt8.ofNat count).toNat = count := by
          rw [UInt8.toNat_ofNat', Nat.mod_eq_of_lt (by omega)]
        rw [← generatedSbox_getD, small]
      rw [List.range_succ, List.foldl_append, List.foldl_cons, List.foldl_nil, entry]
      refine ⟨by rw [List.length_set, length], ?_⟩
      intro byte before
      have bound := (computedSbox byte).toNat_lt
      rw [List.getD_eq_getElem?_getD, List.getElem?_set]
      by_cases own : byte = UInt8.ofNat count
      · subst own
        rw [if_pos rfl, if_pos (by rw [length]; exact bound)]
        rfl
      · have other : (computedSbox (UInt8.ofNat count)).toNat ≠ (computedSbox byte).toNat := by
          intro same
          have equal := congrArg computedInverseSbox (UInt8.toNat_inj.mp same)
          rw [computedInverseSbox_computedSbox, computedInverseSbox_computedSbox] at equal
          exact own equal.symm
        rw [if_neg other, ← List.getD_eq_getElem?_getD]
        refine entries byte ?_
        rcases Nat.lt_or_eq_of_le (Nat.lt_succ_iff.mp before) with less | same
        · exact less
        · refine absurd ?_ own
          rw [← same, UInt8.ofNat_toNat]
  have all := (filled 256 le_rfl (List.replicate 256 0) List.length_replicate).2 (computedInverseSbox num)
    (UInt8.toNat_lt _)
  rwa [computedSbox_computedInverseSbox] at all

theorem sboxValue_eq (mode : SboxMode) (num : UInt8) : sboxValue mode num = computedSbox num := by
  cases mode with
  | runtime => rw [sboxValue, tableScan_eq, generatedSbox_getD]
  | fast => exact fastSbox_eq num
  | constantTime => rfl

theorem inverseSboxValue_eq (mode : SboxMode) (num : UInt8) :
    inverseSboxValue mode num = computedInverseSbox num := by
  cases mode with
  | runtime => rw [inverseSboxValue, tableScan_eq, generatedRsbox_getD]
  | fast => exact fastRsbox_eq num
  | constantTime => rfl

theorem inverseSboxValue_sboxValue (mode : SboxMode) (num : UInt8) :
    inverseSboxValue mode (sboxValue mode num) = num := by
  rw [inverseSboxValue_eq, sboxValue_eq, computedInverseSbox_computedSbox]

end TinyCrypto.Aes
