import Mathlib.Algebra.Order.Ring.Nat
import Mathlib.Data.List.GetD
import Mathlib.Data.List.Induction
import Mathlib.Data.List.Rotate
import Mathlib.Data.Nat.Bitwise
import Mathlib.Tactic.Linarith
import Mathlib.Tactic.Ring

/-! # Bit strings

Bits packed into bytes from the least significant bit on, and the two numbers that a bit
string stands for.
-/

namespace Library.BitString

/-- The lowest `count` bits of a number, least significant first. -/
def lowBits (count x : Nat) : List Bool := (List.range count).map x.testBit

def ofBytes (bytes : List UInt8) : List Bool := bytes.flatMap fun byte => lowBits 8 byte.toNat

/-- The lowest `count` bits of a number, most significant first. -/
def highBits (count x : Nat) : List Bool := (List.range count).map fun i => x.testBit (count - 1 - i)

def value (bits : List Bool) : Nat := bits.foldr (fun bit rest => bit.toNat + 2 * rest) 0

def code (bits : List Bool) : Nat := bits.foldl (fun high bit => 2 * high + bit.toNat) 0

@[simp] theorem lowBits_length (count x : Nat) : (lowBits count x).length = count := by
  simp [lowBits]

@[simp] theorem ofBytes_length (bytes : List UInt8) : (ofBytes bytes).length = 8 * bytes.length := by
  induction bytes with
  | nil => rfl
  | cons byte rest ih =>
    have parts : ofBytes (byte :: rest) = lowBits 8 byte.toNat ++ ofBytes rest := rfl
    rw [parts, List.length_append, lowBits_length, ih, List.length_cons]
    ring

@[simp] theorem ofBytes_append (first second : List UInt8) :
    ofBytes (first ++ second) = ofBytes first ++ ofBytes second := List.flatMap_append

@[simp] theorem value_nil : value [] = 0 := rfl

@[simp] theorem value_cons (bit : Bool) (rest : List Bool) :
    value (bit :: rest) = bit.toNat + 2 * value rest := rfl

theorem value_append (first second : List Bool) :
    value (first ++ second) = value first + 2 ^ first.length * value second := by
  induction first with
  | nil => simp
  | cons bit rest ih =>
    rw [List.cons_append, value_cons, value_cons, ih, List.length_cons, Nat.pow_succ]
    ring

theorem value_lt (bits : List Bool) : value bits < 2 ^ bits.length := by
  induction bits with
  | nil => simp
  | cons bit rest ih =>
    rw [value_cons, List.length_cons, Nat.pow_succ]
    have := Bool.toNat_le bit
    omega

theorem value_lowBits (count x : Nat) : value (lowBits count x) = x % 2 ^ count := by
  induction count generalizing x with
  | zero => simp [lowBits, Nat.mod_one]
  | succ count ih =>
    have split : lowBits (count + 1) x = x.testBit 0 :: lowBits count (x / 2) := by
      simp only [lowBits, List.range_succ_eq_map, List.map_cons, List.map_map]
      congr 1
      refine List.map_congr_left fun i _ => ?_
      simp [Nat.testBit_succ]
    have low : (x.testBit 0).toNat = x % 2 := by
      rw [Nat.testBit_zero]
      rcases Nat.mod_two_eq_zero_or_one x with even | odd
      · simp [even]
      · simp [odd]
    rw [split, value_cons, ih, low, Nat.pow_succ', Nat.mod_mul]

theorem lowBits_slice {total skip count : Nat} (x : Nat) (fits : skip + count ≤ total) :
    ((lowBits total x).drop skip).take count = lowBits count (x / 2 ^ skip) := by
  refine List.ext_getElem (by simp; omega) fun i _ _ => ?_
  simp [lowBits, Nat.testBit_div_two_pow, Nat.add_comm]

theorem ofBytes_drop (bytes : List UInt8) (skip : Nat) :
    (ofBytes bytes).drop (8 * skip) = ofBytes (bytes.drop skip) := by
  rcases Nat.lt_or_ge bytes.length skip with past | inside
  · rw [List.drop_eq_nil_of_le (by rw [ofBytes_length]; omega), List.drop_eq_nil_of_le past.le]
    rfl
  · have skipped : (ofBytes (bytes.take skip)).length = 8 * skip := by
      rw [ofBytes_length, List.length_take_of_le inside]
    conv_lhs => rw [← List.take_append_drop skip bytes]
    rw [ofBytes_append, ← skipped, List.drop_left]

theorem ofBytes_injective {first second : List UInt8} (same : ofBytes first = ofBytes second) :
    first = second := by
  have length : first.length = second.length := by
    have := congrArg List.length same
    rw [ofBytes_length, ofBytes_length] at this
    omega
  induction first generalizing second with
  | nil => exact (List.length_eq_zero_iff.mp length.symm).symm
  | cons byte rest ih =>
    cases second with
    | nil => cases length
    | cons byte' rest' =>
      obtain ⟨head, tail⟩ := List.append_inj same (by rw [lowBits_length, lowBits_length])
      have numbers := congrArg value head
      rw [value_lowBits, value_lowBits, Nat.mod_eq_of_lt byte.toNat_lt,
        Nat.mod_eq_of_lt byte'.toNat_lt] at numbers
      rw [UInt8.toNat_inj.mp numbers, ih tail (Nat.succ_inj.mp length)]

@[simp] theorem code_nil : code [] = 0 := rfl

theorem code_append_singleton (bits : List Bool) (bit : Bool) :
    code (bits ++ [bit]) = 2 * code bits + bit.toNat := by
  simp [code]

theorem code_append (first second : List Bool) :
    code (first ++ second) = code first * 2 ^ second.length + code second := by
  induction second using List.reverseRecOn with
  | nil => simp
  | append_singleton second bit ih =>
    rw [← List.append_assoc, code_append_singleton, ih, code_append_singleton,
      List.length_append, List.length_singleton, Nat.pow_succ]
    ring

theorem code_lt (bits : List Bool) : code bits < 2 ^ bits.length := by
  induction bits using List.reverseRecOn with
  | nil => simp
  | append_singleton bits bit ih =>
    rw [code_append_singleton, List.length_append, List.length_singleton, Nat.pow_succ]
    have := Bool.toNat_le bit
    omega

theorem code_take (bits : List Bool) (count : Nat) :
    code (bits.take count) = code bits / 2 ^ (bits.length - count) := by
  have whole := code_append (bits.take count) (bits.drop count)
  have low := code_lt (bits.drop count)
  rw [List.take_append_drop, List.length_drop] at whole
  rw [List.length_drop] at low
  rw [whole, Nat.mul_comm, Nat.mul_add_div (Nat.two_pow_pos _), Nat.div_eq_of_lt low, Nat.add_zero]

theorem exists_code {length n : Nat} (fits : n < 2 ^ length) :
    ∃ bits : List Bool, bits.length = length ∧ code bits = n := by
  induction length generalizing n with
  | zero => exact ⟨[], rfl, by simp at fits; simp [fits]⟩
  | succ length ih =>
    rw [Nat.pow_succ] at fits
    obtain ⟨bits, size, high⟩ := @ih (n / 2) (by omega)
    refine ⟨bits ++ [decide (n % 2 = 1)], by simp [size], ?_⟩
    rw [code_append_singleton, high]
    rcases Nat.mod_two_eq_zero_or_one n with even | odd
    · simp [even]
      omega
    · simp [odd]
      omega

@[simp] theorem highBits_length (count x : Nat) : (highBits count x).length = count := by
  simp [highBits]

theorem highBits_getD {count i : Nat} (x : Nat) (inside : i < count) :
    (highBits count x).getD i false = x.testBit (count - 1 - i) := by
  rw [List.getD_eq_getElem _ _ (by simpa using inside)]
  simp [highBits]

theorem highBits_ext {count x : Nat} {bits : List Bool} (length : bits.length = count)
    (same : ∀ i < count, bits.getD i false = x.testBit (count - 1 - i)) :
    bits = highBits count x := by
  refine List.ext_getElem (by rw [length, highBits_length]) fun i inside _ => ?_
  have place := same i (by omega)
  rw [List.getD_eq_getElem _ _ inside] at place
  rw [place]
  simp [highBits]

theorem highBits_add (count count' x : Nat) :
    highBits (count + count') x = highBits count (x / 2 ^ count') ++ highBits count' x := by
  refine (highBits_ext (by simp) fun i inside => ?_).symm
  by_cases first : i < count
  · rw [List.getD_append _ _ _ _ (by simpa using first), highBits_getD _ first,
      Nat.testBit_div_two_pow]
    congr 1
    omega
  · rw [List.getD_append_right _ _ _ _ (by simpa using first), highBits_length,
      highBits_getD _ (by omega)]
    congr 1
    omega

theorem highBits_injective {count x y : Nat} (small : x < 2 ^ count) (small' : y < 2 ^ count)
    (same : highBits count x = highBits count y) : x = y := by
  refine Nat.eq_of_testBit_eq fun place => ?_
  by_cases inside : place < count
  · have bit := congrArg (·.getD (count - 1 - place) false) same
    simp only [highBits_getD _ (show count - 1 - place < count by omega)] at bit
    rwa [show count - 1 - (count - 1 - place) = place by omega] at bit
  · have high : 2 ^ count ≤ 2 ^ place := Nat.pow_le_pow_right (by decide) (by omega)
    rw [Nat.testBit_lt_two_pow (by omega), Nat.testBit_lt_two_pow (by omega)]

theorem highBits_xor (count x y : Nat) :
    highBits count (x ^^^ y) = List.zipWith (· ^^ ·) (highBits count x) (highBits count y) := by
  refine List.ext_getElem (by simp) fun i _ _ => ?_
  simp [highBits]

theorem highBits_shift {count x : Nat} (carry : Nat) (small : x < 2 ^ (count + 1)) :
    highBits (count + 1) (x >>> 1 ||| carry <<< count % 2 ^ (count + 1)) =
      carry.testBit 0 :: (highBits (count + 1) x).take count := by
  refine (highBits_ext (by simp) fun i inside => ?_).symm
  cases i with
  | zero =>
    have top : x.testBit (1 + count) = false := Nat.testBit_lt_two_pow (by rwa [Nat.add_comm])
    simp [Nat.testBit_mod_two_pow, top]
  | succ i =>
    have before : i < count := by omega
    rw [List.getD_cons_succ, List.getD_eq_getElem _ _ (by simpa using before), List.getElem_take]
    have low : decide (count ≤ count - (i + 1)) = false := by
      simp
      omega
    simp only [highBits, List.getElem_map, List.getElem_range, Nat.add_sub_cancel,
      Nat.testBit_or, Nat.testBit_shiftRight, Nat.testBit_mod_two_pow, Nat.testBit_shiftLeft, low]
    rw [show 1 + (count - (i + 1)) = count - i by omega]
    simp

theorem highBits_succ (count x : Nat) :
    highBits (count + 1) x = x.testBit count :: highBits count x := by
  refine (highBits_ext (by simp) fun i inside => ?_).symm
  cases i with
  | zero => rfl
  | succ i =>
    rw [List.getD_cons_succ, highBits_getD _ (by omega)]
    congr 1
    omega

theorem highBits_shiftLeft {count low : Nat} (x : Nat) (small : low < 2) :
    highBits (count + 1) (x <<< 1 % 2 ^ (count + 1) ||| low) =
      highBits count x ++ [low.testBit 0] := by
  refine (highBits_ext (by simp) fun i inside => ?_).symm
  by_cases last : i = count
  · rw [List.getD_append_right _ _ _ _ (by simp [last])]
    simp [last]
  · have before : i < count := by omega
    have place : low.testBit (count - i) = false :=
      Nat.testBit_lt_two_pow (Nat.lt_of_lt_of_le small (Nat.le_self_pow (by omega) 2))
    rw [List.getD_append _ _ _ _ (by simpa using before), highBits_getD _ before,
      Nat.add_sub_cancel, Nat.testBit_or, Nat.testBit_mod_two_pow, Nat.testBit_shiftLeft, place,
      Bool.or_false, Nat.sub_right_comm]
    simp only [show count - i < count + 1 by omega, show count - i ≥ 1 by omega, decide_true,
      Bool.true_and]

theorem highBits_take (count x : Nat) :
    (highBits (count + 1) x).take count ++ [x.testBit 0] = highBits (count + 1) x := by
  have last : highBits 1 x = [x.testBit 0] := rfl
  rw [highBits_add count 1, last, List.take_left' (highBits_length _ _)]

theorem highBits_mod (count x : Nat) : highBits count (x % 2 ^ count) = highBits count x := by
  refine highBits_ext (by simp) fun i inside => ?_
  rw [highBits_getD _ inside, Nat.testBit_mod_two_pow]
  simp
  omega

end Library.BitString

namespace Library

namespace BitString

theorem highBits_code (bits : List Bool) : highBits bits.length (code bits) = bits := by
  induction bits using List.reverseRecOn with
  | nil => rfl
  | append_singleton bits bit ih =>
    have last : highBits 1 (2 * code bits + bit.toNat) = [bit] := by
      cases bit
      · simp [highBits]
      · simp [highBits]
    have high : (2 * code bits + bit.toNat) / 2 = code bits := by
      cases bit
      · simp
      · simp only [Bool.toNat_true]
        omega
    rw [code_append_singleton, List.length_append, List.length_singleton, highBits_add, last,
      Nat.pow_one, high, ih]

theorem code_testBit {bits : List Bool} {place : Nat} (inside : place < bits.length) :
    (code bits).testBit place = bits.getD (bits.length - 1 - place) false := by
  conv_rhs => rw [← highBits_code bits]
  rw [highBits_length, highBits_getD _ (by omega)]
  congr 1
  omega

def ofOctets (bytes : List UInt8) : List Bool := bytes.flatMap fun byte => highBits 8 byte.toNat

@[simp] theorem ofOctets_nil : ofOctets [] = [] := rfl

theorem ofOctets_cons (byte : UInt8) (bytes : List UInt8) :
    ofOctets (byte :: bytes) = highBits 8 byte.toNat ++ ofOctets bytes := rfl

@[simp] theorem ofOctets_length (bytes : List UInt8) :
    (ofOctets bytes).length = 8 * bytes.length := by
  induction bytes with
  | nil => rfl
  | cons byte bytes ih =>
    rw [ofOctets_cons, List.length_append, highBits_length, ih, List.length_cons]
    omega

theorem ofOctets_append (first second : List UInt8) :
    ofOctets (first ++ second) = ofOctets first ++ ofOctets second := List.flatMap_append

theorem ofOctets_getD (bytes : List UInt8) (i : Nat) :
    (ofOctets bytes).getD i false = (bytes.getD (i / 8) 0).toNat.testBit (7 - i % 8) := by
  induction bytes generalizing i with
  | nil => simp [ofOctets]
  | cons byte bytes ih =>
    rw [ofOctets_cons]
    by_cases first : i < 8
    · rw [List.getD_append _ _ _ _ (by simpa using first), highBits_getD _ first,
        Nat.div_eq_of_lt first, Nat.mod_eq_of_lt first]
      rfl
    · obtain ⟨j, rfl⟩ := Nat.exists_eq_add_of_le (Nat.le_of_not_lt first)
      rw [List.getD_append_right _ _ _ _ (by simp), highBits_length, Nat.add_sub_cancel_left, ih,
        Nat.add_mod_left, Nat.add_div_left j (by decide)]
      rfl

theorem ofOctets_injective {first second : List UInt8} (length : first.length = second.length)
    (same : ofOctets first = ofOctets second) : first = second := by
  induction first generalizing second with
  | nil => exact (List.length_eq_zero_iff.mp length.symm).symm
  | cons byte first ih =>
    cases second with
    | nil => cases length
    | cons byte' second =>
      rw [ofOctets_cons, ofOctets_cons] at same
      obtain ⟨head, tail⟩ := List.append_inj same (by simp)
      rw [ih (Nat.succ_inj.mp length) tail,
        UInt8.toNat_inj.mp (highBits_injective byte.toNat_lt byte'.toNat_lt head)]

theorem ofOctets_xor {first second : List UInt8} (length : first.length = second.length) :
    ofOctets (List.zipWith (· ^^^ ·) first second) =
      List.zipWith (· ^^ ·) (ofOctets first) (ofOctets second) := by
  induction first generalizing second with
  | nil => rfl
  | cons byte first ih =>
    cases second with
    | nil => cases length
    | cons byte' second =>
      rw [List.zipWith_cons_cons, ofOctets_cons, ih (Nat.succ_inj.mp length), ofOctets_cons,
        ofOctets_cons, UInt8.toNat_xor, highBits_xor, List.zipWith_append (by simp)]

theorem flatMap_getD {A : Type} {size count : Nat} {parts : Nat → List A}
    (length : ∀ n < count, (parts n).length = size) (rest : A) {j : Nat}
    (inside : j < size * count) :
    ((List.range count).flatMap parts).getD j rest = (parts (j / size)).getD (j % size) rest := by
  induction count with
  | zero => exact absurd inside (by simp)
  | succ count ih =>
    have before : ((List.range count).flatMap parts).length = size * count := by
      rw [List.length_flatMap, List.map_congr_left fun n member =>
        length n (Nat.lt_succ_of_lt (List.mem_range.mp member))]
      simp [Nat.mul_comm]
    rw [List.range_succ, List.flatMap_append]
    by_cases first : j < size * count
    · rw [List.getD_append _ _ _ _ (by rwa [before]),
        ih (fun n small => length n (Nat.lt_succ_of_lt small)) first]
    · obtain ⟨k, rfl⟩ := Nat.exists_eq_add_of_le (Nat.le_of_not_lt first)
      have small : k < size := by
        rw [Nat.mul_succ] at inside
        omega
      rw [List.getD_append_right _ _ _ _ (by omega), before, Nat.add_sub_cancel_left,
        Nat.mul_add_div (by omega), Nat.div_eq_of_lt small, Nat.mul_add_mod, Nat.mod_eq_of_lt small]
      simp

end BitString

namespace BitWords

open BitString

variable {w : Nat}

def bits (x : BitVec w) : List Bool := highBits w x.toNat

@[simp] theorem bits_length (x : BitVec w) : (bits x).length = w := highBits_length _ _

theorem bits_getD (x : BitVec w) {i : Nat} (inside : i < w) :
    (bits x).getD i false = x.getLsbD (w - 1 - i) := by
  rw [bits, highBits_getD _ inside, BitVec.testBit_toNat]

theorem bits_ext {x : BitVec w} {list : List Bool} (length : list.length = w)
    (same : ∀ i < w, x.getLsbD (w - 1 - i) = list.getD i false) : bits x = list := by
  symm
  apply highBits_ext length
  intro i inside
  rw [← same i inside, BitVec.testBit_toNat]

theorem bits_injective {x y : BitVec w} (same : bits x = bits y) : x = y :=
  BitVec.eq_of_toNat_eq (highBits_injective x.isLt y.isLt same)

theorem bits_xor (x y : BitVec w) : bits (x ^^^ y) = List.zipWith (· ^^ ·) (bits x) (bits y) := by
  rw [bits, BitVec.toNat_xor, highBits_xor]
  rfl

theorem eq_of_low_bits {x y count : Nat} (small : x < 2 ^ count) (small' : y < 2 ^ count)
    (same : ∀ v < count, x.testBit v = y.testBit v) : x = y := by
  apply Nat.eq_of_testBit_eq
  intro v
  by_cases inside : v < count
  · exact same v inside
  · have high : 2 ^ count ≤ 2 ^ v := Nat.pow_le_pow_right (by decide) (by omega)
    rw [Nat.testBit_lt_two_pow (by omega), Nat.testBit_lt_two_pow (by omega)]

variable {I : Type}

theorem foldl_or_bit (word : I → BitVec w) (list : List I) (start : BitVec w) (j : Nat) :
    (list.foldl (fun x i => x ||| word i) start).getLsbD j =
      (start.getLsbD j || list.any fun i => (word i).getLsbD j) := by
  induction list generalizing start with
  | nil => simp
  | cons i rest ih => simp [ih, Bool.or_assoc]

theorem foldl_xor_bit (word : I → BitVec w) (list : List I) (start : BitVec w) (j : Nat) :
    (list.foldl (fun x i => x ^^^ word i) start).getLsbD j =
      list.foldl (fun b i => b ^^ (word i).getLsbD j) (start.getLsbD j) := by
  induction list generalizing start with
  | nil => rfl
  | cons i rest ih => simp [ih]

theorem shiftIn_bit {word : I → BitVec w} {flag : I → Bool} {list : List I}
    (single : ∀ i ∈ list, ∀ j, (word i).getLsbD j = (decide (j = 0) && flag i)) {j : Nat}
    (inside : j < w) : (list.foldl (fun (x : BitVec w) i => x <<< 1 ||| word i) 0).getLsbD j =
      (list.map flag).reverse.getD j false := by
  induction list using List.reverseRecOn generalizing j with
  | nil => simp
  | append_singleton list i ih =>
    have here := single i (by simp)
    have before := @ih fun i' member => single i' (by simp [member])
    rw [List.foldl_append, List.map_append, List.reverse_append]
    simp only [List.foldl_cons, List.foldl_nil, List.map_cons, List.map_nil,
      List.reverse_singleton, List.singleton_append, BitVec.getLsbD_or, here,
      BitVec.getLsbD_shiftLeft]
    cases j with
    | zero => simp
    | succ j => simpa [inside] using before (Nat.lt_of_succ_lt inside)

theorem oneBit_bit (set : Bool) {place j : Nat} (inside : j < w) :
    (if set then (1 : BitVec w) <<< place else 0).getLsbD j = (set && decide (place = j)) := by
  have pos : 0 < w := by omega
  have one : ∀ k, (1 : BitVec w).getLsbD k = decide (k = 0) := by
    intro k
    cases k with
    | zero => simp [pos]
    | succ k => simp [BitVec.getLsbD_one]
  cases set with
  | false => simp
  | true =>
    rw [if_pos rfl, BitVec.getLsbD_shiftLeft, one]
    by_cases less : j < place
    · have other : place ≠ j := by omega
      simp [less, other]
    · have same : j - place = 0 ↔ place = j := by omega
      simp [less, inside, same]

theorem getD_modify (row : List (BitVec w)) (k : Nat) (change : BitVec w → BitVec w) (m : Nat)
    (inside : m < row.length) :
    (row.modify k change).getD m 0 = if k = m then change (row.getD m 0) else row.getD m 0 := by
  simp only [List.getD_eq_getElem?_getD, List.getElem?_modify, List.getElem?_eq_getElem inside]
  by_cases same : k = m
  · simp [same]
  · simp [same]

theorem modify_bit {width : Nat} (word shift : I → Nat) (value : I → BitVec width) (list : List I)
    {row : List (BitVec width)} {m j : Nat} (inside : m < row.length) :
    ((list.foldl (fun row i => row.modify (word i) (· ||| value i <<< shift i)) row).getD m 0).getLsbD
        j = ((row.getD m 0).getLsbD j ||
        list.any fun i => decide (word i = m) && (value i <<< shift i).getLsbD j) := by
  induction list generalizing row with
  | nil => simp
  | cons i rest ih =>
    have size : m < (row.modify (word i) (· ||| value i <<< shift i)).length := by
      rwa [List.length_modify]
    rw [List.foldl_cons, ih size, getD_modify _ _ _ _ inside]
    by_cases here : word i = m
    · simp [here, Bool.or_assoc]
    · simp [here]

theorem rotate_bit (x : BitVec w) {k j : Nat} (inside : j < w) (turn : k ≤ w) :
    (x <<< k ||| x >>> (w - k)).getLsbD j = x.getLsbD ((j + (w - k)) % w) := by
  simp only [BitVec.getLsbD_or, BitVec.getLsbD_shiftLeft, BitVec.getLsbD_ushiftRight, inside,
    decide_true, Bool.true_and]
  by_cases low : j < k
  · rw [Nat.mod_eq_of_lt (by omega), Nat.add_comm j]
    simp [low]
  · have wrapped : (j + (w - k)) % w = j - k := by
      rw [show j + (w - k) = j - k + w by omega, Nat.add_mod_right, Nat.mod_eq_of_lt (by omega)]
    rw [wrapped, BitVec.getLsbD_of_ge x (w - k + j) (by omega)]
    simp [low]

end BitWords
end Library
