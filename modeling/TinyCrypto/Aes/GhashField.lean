import Mathlib.Tactic.ComputeDegree
import TinyCrypto.Aes.Gcm
import TinyCrypto.Library.BinaryQuotient
import TinyCrypto.Library.BitString

/-! # GHASH in GF(2^128)

Every multiplier of `aes_ghash.c` is the product of SP 800-38D section 6.3, whose first bit is
the constant coefficient.
-/

namespace TinyCrypto.Aes

open Polynomial
open Library
open Library.BinaryQuotient Library.BitString

/-- The modulus of GHASH, `R` without its degree. -/
noncomputable def gcmModulus : (ZMod 2)[X] := X ^ 128 + X ^ 7 + X ^ 2 + X + 1

theorem gcmModulus_monic : gcmModulus.Monic := by
  unfold gcmModulus
  monicity!

theorem gcmModulus_natDegree : gcmModulus.natDegree = 128 := by
  unfold gcmModulus
  compute_degree!

def gcmBits (bytes : Bytes) : List Bool := bytes.flatMap fun byte => highBits 8 byte.toNat

noncomputable def Block.element (b : Block) : AdjoinRoot gcmModulus :=
  residue gcmModulus (gcmBits b.bytes)

noncomputable abbrev gcmX : AdjoinRoot gcmModulus := AdjoinRoot.root gcmModulus

theorem gcmBits_cons (byte : UInt8) (bytes : Bytes) :
    gcmBits (byte :: bytes) = highBits 8 byte.toNat ++ gcmBits bytes := rfl

theorem gcmBits_length (bytes : Bytes) : (gcmBits bytes).length = 8 * bytes.length :=
  ofOctets_length bytes

theorem Block.bits_length (b : Block) : (gcmBits b.bytes).length = 128 := by
  rw [gcmBits_length, b.size]
  rfl

theorem gcmBits_append (first second : Bytes) :
    gcmBits (first ++ second) = gcmBits first ++ gcmBits second := List.flatMap_append

theorem gcmBits_replicate (count : Nat) :
    gcmBits (List.replicate count 0) = List.replicate (8 * count) false := by
  induction count with
  | zero => rfl
  | succ count ih =>
    have zero : highBits 8 0 = List.replicate 8 false := by decide
    rw [List.replicate_succ, gcmBits_cons, ih, show (0 : UInt8).toNat = 0 from rfl, zero,
      List.replicate_append_replicate, Nat.mul_succ, Nat.add_comm]

theorem gcmBits_getD (bytes : Bytes) (i : Nat) :
    (gcmBits bytes).getD i false = (bytes.getD (i / 8) 0).toNat.testBit (7 - i % 8) :=
  ofOctets_getD bytes i

theorem gcmBits_injective {first second : Bytes} (length : first.length = second.length)
    (same : gcmBits first = gcmBits second) : first = second :=
  ofOctets_injective length same

theorem gcmBits_xor {first second : Bytes} (length : first.length = second.length) :
    gcmBits (List.zipWith (· ^^^ ·) first second) = xorBits (gcmBits first) (gcmBits second) :=
  ofOctets_xor length

theorem Block.element_injective {a b : Block} (same : a.element = b.element) : a = b := by
  refine Octets.ext (gcmBits_injective (a.size.trans b.size.symm) ?_)
  refine residue_injective gcmModulus_monic ?_ ?_ same
  · rw [gcmModulus_natDegree, a.bits_length]
  · rw [gcmModulus_natDegree, b.bits_length]

theorem Block.element_xor (a b : Block) : Block.element (a.xor b) = a.element + b.element := by
  have length := a.size.trans b.size.symm
  rw [Block.element, Octets.xor, gcmBits_xor length,
    residue_xor (by rw [a.bits_length, b.bits_length]), Block.element, Block.element]

theorem Block.element_zero : Block.zero.element = 0 := by
  simp only [Block.element, Octets.zero, gcmBits_replicate, residue_replicate]

theorem gcmX_pow : gcmX ^ 128 = gcmX ^ 7 + gcmX ^ 2 + gcmX + 1 := by
  have parts : gcmModulus = X ^ 128 + (X ^ 7 + X ^ 2 + X + 1) := by
    unfold gcmModulus
    simp only [add_assoc]
  rw [root_pow parts]
  simp only [map_add, map_pow, AdjoinRoot.mk_X, map_one]

/-- The bits of `R` if a bit fell off. -/
def reduction (last : Bool) : List Bool :=
  if last then [true, true, true, false, false, false, false, true] ++ List.replicate 120 false
  else List.replicate 128 false

theorem element_reduction (last : Bool) : residue gcmModulus (reduction last) =
      gcmX ^ 128 * residue gcmModulus [last] := by
  cases last
  · rw [reduction, if_neg Bool.false_ne_true, residue_replicate]
    simp [residue_cons, residue_nil]
  · rw [reduction, if_pos rfl, residue_append, residue_replicate, gcmX_pow]
    simp only [residue_cons, residue_nil, if_true, Bool.false_eq_true, if_false]
    ring

theorem element_shifted {out value : List Bool} {last : Bool} (size : out.length = 128)
    (shifted : out ++ [last] = false :: value) : residue gcmModulus (xorBits out (reduction last)) =
      gcmX * residue gcmModulus value := by
  have whole := congrArg (residue gcmModulus) shifted
  rw [residue_append, size, residue_cons false value, if_neg Bool.false_ne_true, zero_add] at whole
  rw [residue_xor (by rw [size]; cases last <;> rfl), ← whole, element_reduction]

theorem bits_multiplyXLoop (carry : UInt8) (value : Bytes) :
    gcmBits (multiplyXLoop carry value).1 ++ [(multiplyXLoop carry value).2.toNat.testBit 0] =
      carry.toNat.testBit 0 :: gcmBits value := by
  induction value generalizing carry with
  | nil => rfl
  | cons byte value ih =>
    have shifted : ((byte >>> 1) ||| (carry <<< 7)).toNat =
        byte.toNat >>> 1 ||| carry.toNat <<< 7 % 2 ^ (7 + 1) := rfl
    have low : (byte &&& 1).toNat.testBit 0 = byte.toNat.testBit 0 := by
      rw [and_one]
      cases byte.toNat.testBit 0
      · rfl
      · rfl
    have rest := ih (byte &&& 1)
    rw [multiplyXLoop, gcmBits_cons, shifted, highBits_shift _ byte.toNat_lt,
      List.append_assoc, rest, low, gcmBits_cons, ← highBits_take 7 byte.toNat]
    simp

theorem multiplyXLoop_last (carry : UInt8) (bit : carry = 0 ∨ carry = 1) (value : Bytes) :
    (multiplyXLoop carry value).2 = 0 ∨ (multiplyXLoop carry value).2 = 1 := by
  have low : ∀ byte : UInt8, byte &&& 1 = 0 ∨ byte &&& 1 = 1 := by
    intro byte
    rw [and_one]
    cases byte.toNat.testBit 0
    · exact .inl rfl
    · exact .inr rfl
  induction value generalizing carry with
  | nil => exact bit
  | cons byte value ih => exact ih (byte &&& 1) (low byte)

theorem bits_reduced {out : Bytes} {carry : UInt8} (size : out.length = blockLen)
    (bit : carry = 0 ∨ carry = 1) :
    gcmBits (out.modifyHead (· ^^^ ((0xe1 : UInt8) &&& ((0 : UInt8) - carry)))) =
      xorBits (gcmBits out) (reduction (carry.toNat.testBit 0)) := by
  have mask : gcmBits ((((0xe1 : UInt8) &&& ((0 : UInt8) - carry))) :: List.replicate 15 0) =
      reduction (carry.toNat.testBit 0) := by
    rcases bit with rfl | rfl
    · decide
    · decide
  rw [← mask, ← gcmBits_xor (by simpa [blockLen] using size)]
  cases out with
  | nil => cases size
  | cons byte out =>
    have rest : List.zipWith (· ^^^ ·) out (List.replicate 15 (0 : UInt8)) = out := by
      refine List.ext_getElem ?_ fun i _ _ => ?_
      · rw [List.length_zipWith, List.length_replicate, ← Nat.succ_inj.mp size, Nat.min_self]
      · rw [List.getElem_zipWith, List.getElem_replicate, UInt8.xor_zero]
    rw [List.zipWith_cons_cons, rest]
    rfl

theorem Block.element_multiplyX (v : Block) : (multiplyX v).element = gcmX * v.element := by
  have length := (multiplyXLoop_length 0 v.bytes).trans v.size
  have size : (gcmBits (multiplyXLoop 0 v.bytes).1).length = 128 := by
    rw [gcmBits_length, length]
    rfl
  have reduced := bits_reduced length (multiplyXLoop_last 0 (.inl rfl) v.bytes)
  rw [Block.element, multiplyX, reduced, element_shifted size (bits_multiplyXLoop 0 v.bytes),
    Block.element]

theorem Block.element_masked (v : Block) (bit : Bool) :
    (v.masked (if bit then 0xff else 0)).element = if bit then v.element else 0 := by
  cases bit
  · have zeros : v.masked 0 = .zero := by
      refine Octets.ext ?_
      simp only [Block.masked, UInt8.and_zero, List.map_const', v.size]
      rfl
    rw [if_neg Bool.false_ne_true, if_neg Bool.false_ne_true, zeros, Block.element_zero]
  · have ones : ∀ byte : UInt8, byte &&& 0xff = byte := fun _ => UInt8.and_neg_one
    have same : v.masked 0xff = v := by
      refine Octets.ext ?_
      simp [Block.masked, ones]
    rw [if_pos rfl, if_pos rfl, same]

theorem bitMask_eq (left : Block) (bit : Nat) :
    bitMask left bit = if (gcmBits left.bytes).getD bit false then 0xff else 0 := by
  have masks : ∀ k < 8, ∀ byte : UInt8,
      (0 : UInt8) - ((byte >>> UInt8.ofNat k) &&& 1) = if byte.toNat.testBit k then 0xff else 0 := by
    intro k small byte
    have place : (byte >>> UInt8.ofNat k).toNat.testBit 0 = byte.toNat.testBit k := by
      rw [UInt8.toNat_shiftRight, Nat.testBit_shiftRight,
        UInt8.toNat_ofNat_of_lt' (Nat.lt_trans small (by decide)), Nat.mod_eq_of_lt small,
        Nat.add_zero]
    rw [and_one, place]
    cases byte.toNat.testBit k
    · rfl
    · rfl
  rw [bitMask, masks _ (by omega), gcmBits_getD]

theorem element_bitwiseLoop (left : Block) (passes bit : Nat) (inside : bit + passes ≤ 128)
    (z v : Block) : (bitwiseLoop left passes bit z v).element = z.element + v.element *
        residue gcmModulus (((gcmBits left.bytes).drop bit).take passes) := by
  induction passes generalizing bit z v with
  | zero => simp [bitwiseLoop, residue_nil]
  | succ passes ih =>
    have here : bit < (gcmBits left.bytes).length := by
      rw [left.bits_length]
      omega
    rw [bitwiseLoop, ih (bit + 1) (by omega), Block.element_xor, bitMask_eq,
      Block.element_masked, Block.element_multiplyX, List.drop_eq_getElem_cons here,
      List.take_succ_cons, residue_cons, List.getD_eq_getElem _ _ here]
    cases (gcmBits left.bytes)[bit]
    · simp only [Bool.false_eq_true, if_false]
      ring
    · simp only [if_true]
      ring

theorem element_multiplyBitwise (left right : Block) :
    (multiplyBitwise left right).element = left.element * right.element := by
  rw [multiplyBitwise, element_bitwiseLoop left 128 0 le_rfl, Block.element_zero, zero_add,
    List.drop_zero, List.take_of_length_le (by rw [left.bits_length]), mul_comm]
  rfl

def wideBits (high low : UInt64) : List Bool :=
  highBits 64 high.toNat ++ highBits 64 low.toNat

theorem wideBits_length (high low : UInt64) : (wideBits high low).length = 128 := by
  simp [wideBits]

theorem wideBits_xor (a b c d : UInt64) :
    wideBits (a ^^^ c) (b ^^^ d) = xorBits (wideBits a b) (wideBits c d) := by
  rw [wideBits, UInt64.toNat_xor, UInt64.toNat_xor, highBits_xor, highBits_xor,
    xorBits, wideBits, wideBits, List.zipWith_append (by simp)]

theorem bits_shiftedIn {count : Nat} (value : UInt64) (byte : UInt8) (fits : count + 8 ≤ 64) :
    highBits (count + 8) ((value <<< 8) ||| byte.toUInt64).toNat =
      highBits count value.toNat ++ highBits 8 byte.toNat := by
  have number : ((value <<< 8) ||| byte.toUInt64).toNat =
      value.toNat <<< 8 % 2 ^ 64 ||| byte.toNat := rfl
  rw [number, highBits_add]
  congr 1
  · refine (highBits_ext (by simp) fun i inside => ?_).symm
    have none : byte.toNat.testBit (count - 1 - i + 8) = false :=
      Nat.testBit_lt_two_pow (Nat.lt_of_lt_of_le byte.toNat_lt
        (Nat.pow_le_pow_right (by decide) (by omega)))
    rw [highBits_getD _ inside, Nat.testBit_div_two_pow, Nat.testBit_or,
      Nat.testBit_mod_two_pow, Nat.testBit_shiftLeft, none, Bool.or_false, Nat.add_sub_cancel]
    simp only [show count - 1 - i + 8 < 64 by omega, show count - 1 - i + 8 ≥ 8 by omega,
      decide_true, Bool.true_and]
  · refine (highBits_ext (by simp) fun i inside => ?_).symm
    rw [highBits_getD _ inside, Nat.testBit_or, Nat.testBit_mod_two_pow,
      Nat.testBit_shiftLeft]
    simp only [show ¬ 8 - 1 - i ≥ 8 by omega, decide_false, Bool.false_and, Bool.and_false,
      Bool.false_or]

theorem bits_loaded (bytes : Bytes) (count : Nat) (value : UInt64)
    (fits : count + 8 * bytes.length ≤ 64) : highBits (count + 8 * bytes.length)
        (bytes.foldl (fun (value : UInt64) (byte : UInt8) => (value <<< 8) ||| byte.toUInt64)
          value).toNat = highBits count value.toNat ++ gcmBits bytes := by
  induction bytes generalizing count value with
  | nil => simp [gcmBits]
  | cons byte bytes ih =>
    rw [List.length_cons] at fits
    rw [List.length_cons, List.foldl_cons, Nat.mul_succ, Nat.add_comm _ 8, ← Nat.add_assoc,
      ih (count + 8) _ (by omega), bits_shiftedIn _ _ (by omega), gcmBits_cons, List.append_assoc]

theorem bits_loadBe64 {src : Bytes} (size : 8 ≤ src.length) :
    highBits 64 (loadBe64 src).toNat = gcmBits (src.take 8) := by
  have length : (src.take 8).length = 8 := by
    rw [List.length_take]
    omega
  have whole := bits_loaded (src.take 8) 0 0 (by omega)
  rw [length] at whole
  exact whole

theorem bits_storeBe64 (value : UInt64) :
    gcmBits (storeBe64 value) = highBits 64 value.toNat := by
  have stored : ∀ n ≤ 8, gcmBits ((List.range n).map fun i =>
      (value >>> UInt64.ofNat (56 - 8 * i)).toUInt8) =
        highBits (8 * n) (value.toNat / 2 ^ (64 - 8 * n)) := by
    intro n small
    induction n with
    | zero => rfl
    | succ n ih =>
      have shift : (UInt64.ofNat (56 - 8 * n)).toNat % 64 = 56 - 8 * n := by
        rw [UInt64.toNat_ofNat_of_lt' (Nat.lt_of_le_of_lt (Nat.sub_le _ _) (by decide))]
        omega
      have byte : (value >>> UInt64.ofNat (56 - 8 * n)).toUInt8.toNat =
          value.toNat / 2 ^ (56 - 8 * n) % 2 ^ 8 := by
        rw [UInt64.toNat_toUInt8, UInt64.toNat_shiftRight, shift, Nat.shiftRight_eq_div_pow]
      rw [List.range_succ, List.map_append, gcmBits_append, ih (by omega), Nat.mul_succ,
        highBits_add, Nat.div_div_eq_div_mul, ← Nat.pow_add,
        show 64 - (8 * n + 8) + 8 = 64 - 8 * n by omega,
        show 64 - (8 * n + 8) = 56 - 8 * n by omega]
      congr 1
      rw [List.map_singleton, gcmBits_cons, byte, highBits_mod]
      simp [gcmBits]
  exact (stored 8 le_rfl).trans (by rw [Nat.sub_self, Nat.pow_zero, Nat.div_one])

theorem ones64 {bit : UInt64} (single : bit.toNat < 2) :
    (0 : UInt64) - bit = if bit.toNat.testBit 0 then -1 else 0 := by
  have cases : bit = 0 ∨ bit = 1 := by
    rcases Nat.lt_succ_iff_lt_or_eq.mp single with none | one
    · exact .inl (UInt64.toNat_inj.mp (Nat.lt_one_iff.mp none))
    · exact .inr (UInt64.toNat_inj.mp one)
  rcases cases with rfl | rfl
  · rfl
  · rfl

theorem Wide.element_pass (s : Wide) :
    wideBits s.pass.xh s.pass.xl = (wideBits s.xh s.xl).tail ++ [false] ∧
      residue gcmModulus (wideBits s.pass.zh s.pass.zl) = residue gcmModulus (wideBits s.zh s.zl) +
          (if (wideBits s.xh s.xl).getD 0 false then
            residue gcmModulus (wideBits s.vh s.vl) else 0) ∧
      residue gcmModulus (wideBits s.pass.vh s.pass.vl) =
        gcmX * residue gcmModulus (wideBits s.vh s.vl) := by
  have top : ∀ word : UInt64, (word >>> 63).toNat < 2 := by
    intro word
    have small := word.toNat_lt
    rw [UInt64.toNat_shiftRight, Nat.shiftRight_eq_div_pow]
    exact Nat.div_lt_of_lt_mul small
  refine ⟨?_, ?_, ?_⟩
  · have high : s.pass.xh.toNat = s.xh.toNat <<< 1 % 2 ^ (63 + 1) ||| (s.xl >>> 63).toNat := rfl
    have low : s.pass.xl.toNat = s.xl.toNat <<< 1 % 2 ^ (63 + 1) ||| 0 := (Nat.or_zero _).symm
    have bit : (s.xl >>> 63).toNat.testBit 0 = s.xl.toNat.testBit 63 := by
      rw [UInt64.toNat_shiftRight, Nat.testBit_shiftRight]
      rfl
    rw [wideBits, high, low, highBits_shiftLeft _ (top _),
      highBits_shiftLeft _ (by decide), bit, wideBits, highBits_succ 63,
      highBits_succ 63 s.xl.toNat]
    simp
  · have bit : (wideBits s.xh s.xl).getD 0 false = (s.xh >>> 63).toNat.testBit 0 := by
      rw [wideBits, highBits_succ 63, UInt64.toNat_shiftRight, Nat.testBit_shiftRight]
      rfl
    have sum := ones64 (top s.xh)
    rw [← bit] at sum
    rw [Wide.pass]
    dsimp only
    rw [wideBits_xor, sum, residue_xor (by rw [wideBits_length, wideBits_length])]
    cases (wideBits s.xh s.xl).getD 0 false
    · have none : wideBits 0 0 = List.replicate 128 false := by decide
      simp only [Bool.false_eq_true, if_false, UInt64.and_zero, none, residue_replicate]
    · simp only [if_true, UInt64.and_neg_one]
  · have single : (s.vl &&& 1).toNat < 2 := by
      rw [UInt64.toNat_and]
      exact Nat.lt_succ_of_le Nat.and_le_right
    have bit : (s.vl &&& 1).toNat.testBit 0 = s.vl.toNat.testBit 0 := by
      rw [UInt64.toNat_and, Nat.testBit_and]
      exact Bool.and_true _
    have high : (s.vh >>> 1).toNat = s.vh.toNat >>> 1 ||| 0 <<< 63 % 2 ^ (63 + 1) :=
      (Nat.or_zero _).symm
    have low : ((s.vl >>> 1) ||| (s.vh <<< 63)).toNat =
        s.vl.toNat >>> 1 ||| s.vh.toNat <<< 63 % 2 ^ (63 + 1) := rfl
    have shifted : wideBits (s.vh >>> 1) ((s.vl >>> 1) ||| (s.vh <<< 63)) ++
        [s.vl.toNat.testBit 0] = false :: wideBits s.vh s.vl := by
      rw [wideBits, high, low, highBits_shift _ s.vh.toNat_lt,
        highBits_shift _ s.vl.toNat_lt, wideBits, ← highBits_take 63 s.vh.toNat,
        ← highBits_take 63 s.vl.toNat]
      simp
    have reduced : wideBits ((0xe100000000000000 : UInt64) &&& ((0 : UInt64) - (s.vl &&& 1))) 0 =
        reduction (s.vl.toNat.testBit 0) := by
      rw [ones64 single, bit]
      cases s.vl.toNat.testBit 0
      · decide
      · decide
    have parts : wideBits s.pass.vh s.pass.vl =
        xorBits (wideBits (s.vh >>> 1) ((s.vl >>> 1) ||| (s.vh <<< 63)))
          (reduction (s.vl.toNat.testBit 0)) := by
      rw [← reduced, ← wideBits_xor, UInt64.xor_zero]
      rfl
    rw [parts, element_shifted (wideBits_length _ _) shifted]

theorem Wide.element_iterate (passes : Nat) (few : passes ≤ 128) (s : Wide) :
    residue gcmModulus (wideBits (Wide.pass^[passes] s).zh (Wide.pass^[passes] s).zl) =
      residue gcmModulus (wideBits s.zh s.zl) + residue gcmModulus (wideBits s.vh s.vl) *
          residue gcmModulus ((wideBits s.xh s.xl).take passes) := by
  induction passes generalizing s with
  | zero => simp [residue_nil]
  | succ passes ih =>
    obtain ⟨factor, sum, multiple⟩ := s.element_pass
    have size := wideBits_length s.xh s.xl
    cases bits : wideBits s.xh s.xl with
    | nil => rw [bits] at size; cases size
    | cons bit rest =>
      rw [bits, List.length_cons] at size
      rw [bits, List.tail_cons] at factor
      rw [bits, List.getD_cons_zero] at sum
      rw [Function.iterate_succ_apply, ih (by omega), factor, sum, multiple,
        List.take_append_of_le_length (by omega), List.take_succ_cons,
        residue_cons]
      cases bit
      · simp only [Bool.false_eq_true, if_false]
        ring
      · simp only [if_true]
        ring

theorem element_multiplyWide (left right : Block) :
    (multiplyWide left right).element = left.element * right.element := by
  have loaded : ∀ b : Block, wideBits (loadBe64 b.bytes) (loadBe64 (b.bytes.drop 8)) =
      gcmBits b.bytes := by
    intro b
    have size : b.bytes.length = 16 := b.size
    have size' : (b.bytes.drop 8).length = 8 := by
      rw [List.length_drop]
      omega
    rw [wideBits, bits_loadBe64 (by omega), bits_loadBe64 (by omega), ← gcmBits_append,
      List.take_of_length_le size'.le, List.take_append_drop]
  have none : residue gcmModulus (wideBits 0 0) = 0 := by
    rw [show wideBits 0 0 = List.replicate 128 false by decide, residue_replicate]
  simp only [Block.element, multiplyWide]
  rw [gcmBits_append, bits_storeBe64, bits_storeBe64]
  refine (Wide.element_iterate 128 le_rfl _).trans ?_
  dsimp only
  rw [loaded, loaded, none, zero_add, List.take_of_length_le (by rw [left.bits_length]), mul_comm]

theorem bits_nibbleAt (left : Block) {position : Nat} (inside : position < 32) :
    highBits 4 (nibbleAt left position).toNat =
      ((gcmBits left.bytes).drop (4 * position)).take 4 := by
  have size := left.bits_length
  refine (highBits_ext (by simp; omega) fun i small => ?_).symm
  have here := gcmBits_getD left.bytes (4 * position + i)
  rw [List.getD_eq_getElem?_getD, List.getElem?_take_of_lt small, List.getElem?_drop,
    ← List.getD_eq_getElem?_getD, here, nibbleAt]
  rcases Nat.even_or_odd' position with ⟨q, rfl | rfl⟩
  · have high : ∀ byte : UInt8, ∀ i < 4, (byte >>> 4).toNat.testBit (4 - 1 - i) =
        byte.toNat.testBit (7 - i) := by
      intro byte i small
      rw [UInt8.toNat_shiftRight, Nat.testBit_shiftRight]
      congr 1
      show 4 + (4 - 1 - i) = 7 - i
      omega
    rw [if_pos (by omega), show (4 * (2 * q) + i) / 8 = q by omega,
      show (4 * (2 * q) + i) % 8 = i by omega, show 2 * q / 2 = q by omega, high _ i small]
  · have low : ∀ byte : UInt8, ∀ i < 4, (byte &&& 0x0f).toNat.testBit (4 - 1 - i) =
        byte.toNat.testBit (7 - (4 + i)) := by
      intro byte i small
      have mask : (byte &&& 0x0f).toNat = byte.toNat % 2 ^ 4 := by
        rw [UInt8.toNat_and]
        exact Nat.and_two_pow_sub_one_eq_mod _ 4
      rw [mask, Nat.testBit_mod_two_pow, show 4 - 1 - i = 7 - (4 + i) by omega]
      simp
      omega
    rw [if_neg (by omega), show (4 * (2 * q + 1) + i) / 8 = q by omega,
      show (4 * (2 * q + 1) + i) % 8 = 4 + i by omega, show (2 * q + 1) / 2 = q by omega,
      low _ i small]

theorem element_tableEntry (h : Block) (entry : UInt8) : (tableEntry h entry).element =
      residue gcmModulus (highBits 4 entry.toNat) * h.element := by
  have bits : ∀ entry : UInt8, gcmBits [entry <<< 4] =
      highBits 4 entry.toNat ++ List.replicate 4 false := by
    intro entry
    have shifted : (entry <<< 4).toNat = entry.toNat <<< 4 % 2 ^ 8 := UInt8.toNat_shiftLeft _ _
    rw [gcmBits_cons, shifted]
    refine (List.append_nil _).trans (highBits_ext (by simp) fun i inside => ?_).symm
    by_cases first : i < 4
    · rw [List.getD_append _ _ _ _ (by simpa using first), highBits_getD _ first]
      simp only [Nat.testBit_mod_two_pow, Nat.testBit_shiftLeft, show 7 - i < 8 by omega,
        show 8 - 1 - i ≥ 4 by omega, decide_true, Bool.true_and]
      congr 1
      omega
    · have low : ¬ 8 - 1 - i ≥ 4 := by omega
      rw [List.getD_append_right _ _ _ _ (by simpa using first), Nat.testBit_mod_two_pow,
        Nat.testBit_shiftLeft, decide_eq_false low, Bool.false_and, Bool.and_false]
      exact List.getD_replicate _ (by rw [highBits_length]; omega)
  have whole : gcmBits ((entry <<< 4) :: List.replicate 15 0) =
      highBits 4 entry.toNat ++ List.replicate 124 false := by
    rw [← List.singleton_append, gcmBits_append, bits, gcmBits_replicate, List.append_assoc,
      List.replicate_append_replicate]
  rw [tableEntry, element_multiplyBitwise]
  refine congrArg (· * h.element) ?_
  rw [Block.element, whole, residue_append, residue_replicate, mul_zero, add_zero]

theorem element_initTable (h : Block) {nibble : UInt8} (small : nibble.toNat < 16) :
    ((initTable h).getD nibble.toNat .zero).element =
      residue gcmModulus (highBits 4 nibble.toNat) * h.element := by
  rw [initTable, List.getD_eq_getElem _ _ (by simpa using small), List.getElem_map,
    List.getElem_range, UInt8.ofNat_toNat, element_tableEntry]

theorem nibbleAt_lt (left : Block) (position : Nat) : (nibbleAt left position).toNat < 16 := by
  have high : ∀ byte : UInt8, (byte >>> 4).toNat < 16 := by
    intro byte
    have small := byte.toNat_lt
    have number : (byte >>> 4).toNat = byte.toNat / 2 ^ 4 := by
      rw [UInt8.toNat_shiftRight, Nat.shiftRight_eq_div_pow]
      rfl
    omega
  have low : ∀ byte : UInt8, (byte &&& 0x0f).toNat < 16 := by
    intro byte
    rw [UInt8.toNat_and]
    exact Nat.lt_succ_of_le Nat.and_le_right
  rw [nibbleAt]
  split
  · exact high _
  · exact low _

theorem element_fastTableLoop (left h : Block) (position : Nat) (inside : position ≤ 32)
    (value : Block) : (fastTableLoop left (initTable h) position value).element =
      gcmX ^ (4 * position) * value.element +
        residue gcmModulus ((gcmBits left.bytes).take (4 * position)) * h.element := by
  induction position generalizing value with
  | zero => simp [fastTableLoop, residue_nil]
  | succ position ih =>
    have size := left.bits_length
    have parts : (gcmBits left.bytes).take (4 * (position + 1)) =
        (gcmBits left.bytes).take (4 * position) ++
          highBits 4 (nibbleAt left position).toNat := by
      rw [bits_nibbleAt left (by omega), Nat.mul_succ, List.take_add]
    have length : ((gcmBits left.bytes).take (4 * position)).length = 4 * position := by
      rw [List.length_take]
      omega
    rw [fastTableLoop, ih (by omega), parts, residue_append, length, Block.element_xor,
      element_initTable h (nibbleAt_lt left position)]
    simp only [Block.element_multiplyX]
    ring

theorem element_multiplyFastTable (left h : Block) :
    (multiplyFastTable left (initTable h)).element = left.element * h.element := by
  rw [multiplyFastTable, element_fastTableLoop left h 32 le_rfl, Block.element_zero, mul_zero,
    zero_add, List.take_of_length_le (by rw [left.bits_length])]
  rfl

instance : Nonempty Block := ⟨.zero⟩

/-- `•` of SP 800-38D section 6.3. -/
noncomputable def Sp80038d.times (a b : Block) : Block :=
  Function.invFun Block.element (a.element * b.element)

theorem element_gcmMultiply (mode : GhashMode) (left h : Block) :
    (gcmMultiply mode left h).element = left.element * h.element := by
  cases mode with
  | bitwise => exact element_multiplyBitwise left h
  | wide => exact element_multiplyWide left h
  | fastTable => exact element_multiplyFastTable left h

theorem gcmMultiply_eq (mode : GhashMode) : gcmMultiply mode = Sp80038d.times := by
  funext left h
  rw [Sp80038d.times, ← element_gcmMultiply mode]
  exact (Function.leftInverse_invFun (fun _ _ => Block.element_injective) _).symm

theorem Gcm.Hashed.absorbAll {multiply : Block → Block → Block} {ctx : Gcm} {x : Bytes}
    (hashed : Hashed multiply ctx x) (calls : List Bytes) :
    Hashed multiply (calls.foldl (Gcm.absorb multiply) ctx) (x ++ calls.flatten) ∧
      (calls.foldl (Gcm.absorb multiply) ctx).h = ctx.h := by
  induction calls generalizing ctx x with
  | nil => exact ⟨by simpa using hashed, rfl⟩
  | cons data calls ih =>
    have kept : (ctx.absorb multiply data).h = ctx.h := by
      rw [Gcm.absorb, absorbLoop_fold _ _ le_rfl hashed.short]
      rfl
    obtain ⟨later, key⟩ := ih (hashed.absorb data)
    rw [List.foldl_cons, List.flatten_cons, ← List.append_assoc, ← kept]
    exact ⟨later, key⟩

/-- In every mode the multiplication is the product of the field, and a context that absorbed the
    bytes of any calls holds their GHASH. -/
theorem ghash_implementations_agree (mode : GhashMode) :
    (∀ left h : Block, (gcmMultiply mode left h).element = left.element * h.element) ∧
      gcmMultiply mode = Sp80038d.times ∧ ∀ (ctx : Gcm) (calls : List Bytes),
        ((calls.foldl (Gcm.absorb (gcmMultiply mode)) (ctx.withHash (.zero, []))).padGhash
            (gcmMultiply mode)).s =
          Sp80038d.ghash Sp80038d.times ctx.h (Sp80038d.pad calls.flatten) := by
  refine ⟨element_gcmMultiply mode, gcmMultiply_eq mode, ?_⟩
  intro ctx calls
  rw [gcmMultiply_eq mode]
  have start : Gcm.Hashed Sp80038d.times (ctx.withHash (.zero, [])) [] :=
    (@Blocks.fold_short Block UInt8 blockLen _ [] blockLen_pos Block.zero).symm
  obtain ⟨hashed, key⟩ := start.absorbAll calls
  have padded := hashed.pad.1.ghash
  have same : ((calls.foldl (Gcm.absorb Sp80038d.times) (ctx.withHash (.zero, []))).padGhash
      Sp80038d.times).h = ctx.h := by
    refine Eq.trans ?_ key
    rw [Gcm.padGhash]
    split
    · rfl
    · rfl
  rw [padded, same, List.nil_append]

end TinyCrypto.Aes
