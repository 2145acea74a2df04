import TinyCrypto.Des.Cipher
import TinyCrypto.Library.BitString
import TinyCrypto.Library.Feistel

/-! # The data encryption standard

FIPS 46-3 on strings of bits. The bits of a string are numbered from one, from the left.
-/

namespace TinyCrypto.Des

open Library

namespace Fips46

def permute (table : List Nat) (bits : List Bool) : List Bool :=
  table.map fun place => bits.getD (place - 1) false

/-- IP. -/
def initial : List Nat := [58, 50, 42, 34, 26, 18, 10, 2, 60, 52, 44, 36, 28, 20, 12, 4,
    62, 54, 46, 38, 30, 22, 14, 6, 64, 56, 48, 40, 32, 24, 16, 8,
    57, 49, 41, 33, 25, 17, 9, 1, 59, 51, 43, 35, 27, 19, 11, 3,
    61, 53, 45, 37, 29, 21, 13, 5, 63, 55, 47, 39, 31, 23, 15, 7]

def final : List Nat := [40, 8, 48, 16, 56, 24, 64, 32, 39, 7, 47, 15, 55, 23, 63, 31,
    38, 6, 46, 14, 54, 22, 62, 30, 37, 5, 45, 13, 53, 21, 61, 29,
    36, 4, 44, 12, 52, 20, 60, 28, 35, 3, 43, 11, 51, 19, 59, 27,
    34, 2, 42, 10, 50, 18, 58, 26, 33, 1, 41, 9, 49, 17, 57, 25]

/-- E. -/
def expansion : List Nat := [32, 1, 2, 3, 4, 5, 4, 5, 6, 7, 8, 9,
    8, 9, 10, 11, 12, 13, 12, 13, 14, 15, 16, 17,
    16, 17, 18, 19, 20, 21, 20, 21, 22, 23, 24, 25,
    24, 25, 26, 27, 28, 29, 28, 29, 30, 31, 32, 1]

/-- P. -/
def roundPermutation : List Nat := [16, 7, 20, 21, 29, 12, 28, 17, 1, 15, 23, 26, 5, 18, 31, 10,
    2, 8, 24, 14, 32, 27, 3, 9, 19, 13, 30, 6, 22, 11, 4, 25]

/-- PC-1 for the halves `C` and `D`. -/
def choice1C : List Nat := [57, 49, 41, 33, 25, 17, 9, 1, 58, 50, 42, 34, 26, 18,
    10, 2, 59, 51, 43, 35, 27, 19, 11, 3, 60, 52, 44, 36]

def choice1D : List Nat := [63, 55, 47, 39, 31, 23, 15, 7, 62, 54, 46, 38, 30, 22,
    14, 6, 61, 53, 45, 37, 29, 21, 13, 5, 28, 20, 12, 4]

/-- PC-2. -/
def choice2 : List Nat := [14, 17, 11, 24, 1, 5, 3, 28, 15, 6, 21, 10,
    23, 19, 12, 4, 26, 8, 16, 7, 27, 20, 13, 2,
    41, 52, 31, 37, 47, 55, 30, 40, 51, 45, 33, 48,
    44, 49, 39, 56, 34, 53, 46, 42, 50, 36, 29, 32]

def leftShifts : List Nat := [1, 1, 2, 2, 2, 2, 2, 2, 1, 2, 2, 2, 2, 2, 2, 1]

def selectionTables : List (List (List Nat)) :=
  [[[14, 4, 13, 1, 2, 15, 11, 8, 3, 10, 6, 12, 5, 9, 0, 7],
      [0, 15, 7, 4, 14, 2, 13, 1, 10, 6, 12, 11, 9, 5, 3, 8],
      [4, 1, 14, 8, 13, 6, 2, 11, 15, 12, 9, 7, 3, 10, 5, 0],
      [15, 12, 8, 2, 4, 9, 1, 7, 5, 11, 3, 14, 10, 0, 6, 13]],
    [[15, 1, 8, 14, 6, 11, 3, 4, 9, 7, 2, 13, 12, 0, 5, 10],
      [3, 13, 4, 7, 15, 2, 8, 14, 12, 0, 1, 10, 6, 9, 11, 5],
      [0, 14, 7, 11, 10, 4, 13, 1, 5, 8, 12, 6, 9, 3, 2, 15],
      [13, 8, 10, 1, 3, 15, 4, 2, 11, 6, 7, 12, 0, 5, 14, 9]],
    [[10, 0, 9, 14, 6, 3, 15, 5, 1, 13, 12, 7, 11, 4, 2, 8],
      [13, 7, 0, 9, 3, 4, 6, 10, 2, 8, 5, 14, 12, 11, 15, 1],
      [13, 6, 4, 9, 8, 15, 3, 0, 11, 1, 2, 12, 5, 10, 14, 7],
      [1, 10, 13, 0, 6, 9, 8, 7, 4, 15, 14, 3, 11, 5, 2, 12]],
    [[7, 13, 14, 3, 0, 6, 9, 10, 1, 2, 8, 5, 11, 12, 4, 15],
      [13, 8, 11, 5, 6, 15, 0, 3, 4, 7, 2, 12, 1, 10, 14, 9],
      [10, 6, 9, 0, 12, 11, 7, 13, 15, 1, 3, 14, 5, 2, 8, 4],
      [3, 15, 0, 6, 10, 1, 13, 8, 9, 4, 5, 11, 12, 7, 2, 14]],
    [[2, 12, 4, 1, 7, 10, 11, 6, 8, 5, 3, 15, 13, 0, 14, 9],
      [14, 11, 2, 12, 4, 7, 13, 1, 5, 0, 15, 10, 3, 9, 8, 6],
      [4, 2, 1, 11, 10, 13, 7, 8, 15, 9, 12, 5, 6, 3, 0, 14],
      [11, 8, 12, 7, 1, 14, 2, 13, 6, 15, 0, 9, 10, 4, 5, 3]],
    [[12, 1, 10, 15, 9, 2, 6, 8, 0, 13, 3, 4, 14, 7, 5, 11],
      [10, 15, 4, 2, 7, 12, 9, 5, 6, 1, 13, 14, 0, 11, 3, 8],
      [9, 14, 15, 5, 2, 8, 12, 3, 7, 0, 4, 10, 1, 13, 11, 6],
      [4, 3, 2, 12, 9, 5, 15, 10, 11, 14, 1, 7, 6, 0, 8, 13]],
    [[4, 11, 2, 14, 15, 0, 8, 13, 3, 12, 9, 7, 5, 10, 6, 1],
      [13, 0, 11, 7, 4, 9, 1, 10, 14, 3, 5, 12, 2, 15, 8, 6],
      [1, 4, 11, 13, 12, 3, 7, 14, 10, 15, 6, 8, 0, 5, 9, 2],
      [6, 11, 13, 8, 1, 4, 10, 7, 9, 5, 0, 15, 14, 2, 3, 12]],
    [[13, 2, 8, 4, 6, 15, 11, 1, 10, 9, 3, 14, 5, 0, 12, 7],
      [1, 15, 13, 8, 10, 3, 7, 4, 12, 5, 6, 11, 0, 14, 9, 2],
      [7, 11, 4, 1, 9, 12, 14, 2, 0, 6, 10, 13, 15, 3, 5, 8],
      [2, 1, 14, 7, 4, 10, 8, 13, 15, 12, 9, 0, 3, 5, 6, 11]]]

/-- One selection function: the outer bits choose the row, the inner ones the column. -/
def select (box : Nat) (six : List Bool) : List Bool :=
  let row := BitString.code [six.getD 0 false, six.getD 5 false]
  let column := BitString.code ((six.drop 1).take 4)
  BitString.highBits 4 (((selectionTables.getD box []).getD row []).getD column 0)

def substitute (bits : List Bool) : List Bool :=
  (List.range 8).flatMap fun box => select box ((bits.drop (6 * box)).take 6)

def addBits (first second : List Bool) : List Bool := List.zipWith (· ^^ ·) first second

def f (key half : List Bool) : List Bool :=
  permute roundPermutation (substitute (addBits (permute expansion half) key))

/-- The round keys of the halves `C` and `D`. -/
def roundKeys : (shifts : List Nat) → (c d : List Bool) → List (List Bool)
  | [], _, _ => []
  | shift :: rest, c, d =>
    permute choice2 (c.rotate shift ++ d.rotate shift) ::
      roundKeys rest (c.rotate shift) (d.rotate shift)

/-- KS. -/
def keySchedule (key : List Bool) : List (List Bool) :=
  roundKeys leftShifts (permute choice1C key) (permute choice1D key)

def block (keys : List (List Bool)) (input : List Bool) : List Bool :=
  let permuted := permute initial input
  let halves := Feistel.run addBits f keys (permuted.take 32, permuted.drop 32)
  permute final (halves.2 ++ halves.1)

def encipher (key input : List Bool) : List Bool := block (keySchedule key) input

def decipher (key input : List Bool) : List Bool := block (keySchedule key).reverse input

end Fips46

open BitString

structure Holds28 (word : BitVec 32) (bits : List Bool) : Prop where
  length : bits.length = 28
  bit : ∀ i < 28, word.getLsbD (27 - i) = bits.getD i false
  high : ∀ j, 28 ≤ j → word.getLsbD j = false

theorem single_bit (x : BitVec 8) (shift j : Nat) :
    (x >>> shift &&& 1).getLsbD j = (decide (j = 0) && x.getLsbD shift) := by
  cases j with
  | zero => simp
  | succ j => simp [BitVec.getLsbD_one]

theorem getKeyBit_bit (key : Bytes) {place : Nat} (pos : 0 < place) (inside : place ≤ 64)
    (j : Nat) : ((getKeyBit key place).setWidth 32).getLsbD j =
      (decide (j = 0) && (ofOctets (key.take keyLen)).getD (place - 1) false) := by
  have byte : (key.take keyLen).getD ((place - 1) / 8) 0 = key.getD ((place - 1) / 8) 0 := by
    have before : (place - 1) / 8 < keyLen := by
      simp only [keyLen]
      omega
    simp only [List.getD_eq_getElem?_getD, List.getElem?_take_of_lt before]
  rw [ofOctets_getD, byte, getKeyBit, BitVec.getLsbD_setWidth, single_bit]
  cases j with
  | zero => rfl
  | succ j => simp

/-- One half of `permuteKey`. -/
def shiftKeyBit (key : Bytes) (table : List Nat) (half : BitVec 32) (i : Nat) : BitVec 32 :=
  half <<< 1 ||| (getKeyBit key (table.getD i 0)).setWidth 32

theorem permuteKey_parts (key : Bytes) (list : List Nat) (halves : BitVec 32 × BitVec 32) :
    list.foldl (permuteKey key) halves =
      (list.foldl (shiftKeyBit key pc1C) halves.1, list.foldl (shiftKeyBit key pc1D) halves.2) := by
  induction list generalizing halves with
  | nil => rfl
  | cons i rest ih =>
    rw [List.foldl_cons, ih]
    rfl

theorem choice_holds (key : Bytes) {table : List Nat} (size : table.length = 28)
    (range : ∀ i < 28, 0 < table.getD i 0 ∧ table.getD i 0 ≤ 64) :
    Holds28 ((List.range 28).foldl (shiftKeyBit key table) 0)
      (Fips46.permute table (ofOctets (key.take keyLen))) := by
  let flag (i : Nat) := (ofOctets (key.take keyLen)).getD (table.getD i 0 - 1) false
  have shifted : ∀ j < 32, ((List.range 28).foldl (shiftKeyBit key table) 0).getLsbD j =
      ((List.range 28).map flag).reverse.getD j false := by
    intro j inside
    apply BitWords.shiftIn_bit _ inside
    intro i member k
    obtain ⟨pos, small⟩ := range i (List.mem_range.mp member)
    exact getKeyBit_bit key pos small k
  have chosen : ∀ i < 28, (Fips46.permute table (ofOctets (key.take keyLen))).getD i false = flag i := by
    intro i inside
    simp [Fips46.permute, flag, List.getD_eq_getElem?_getD, size, inside]
  refine ⟨by simp [Fips46.permute, size], ?_, ?_⟩
  · intro i inside
    rw [shifted _ (by omega), chosen i inside, List.getD_eq_getElem _ _ (by simp; omega)]
    simp only [List.getElem_reverse, List.getElem_map, List.getElem_range, List.length_map,
      List.length_range]
    congr 1
    omega
  · intro j high
    by_cases inside : j < 32
    · rw [shifted j inside, List.getD_eq_default _ _ (by simpa using high)]
    · exact BitVec.getLsbD_of_ge _ _ (by omega)

theorem rotateHalf_holds {half : BitVec 32} {bits : List Bool} (holds : Holds28 half bits)
    {shift : Nat} (small : shift ≤ 28) : Holds28 (rotateHalf half shift) (bits.rotate shift) := by
  have mask : ∀ j < 32, (0x0FFFFFFF : BitVec 32).getLsbD j = decide (j < 28) := by decide
  have size := holds.length
  refine ⟨by rw [List.length_rotate, size], ?_, ?_⟩
  · intro i inside
    have turned : (bits.rotate shift).getD i false = bits.getD ((i + shift) % 28) false := by
      rw [List.getD_eq_getElem _ _ (by simpa [size] using inside), List.getElem_rotate,
        List.getD_eq_getElem _ _ (by rw [size]; exact Nat.mod_lt _ (by decide))]
      simp only [size]
    have low : 27 - i < 28 := by omega
    have word : 27 - i < 32 := by omega
    rw [turned, rotateHalf, BitVec.getLsbD_and, mask _ word]
    simp only [BitVec.getLsbD_or, BitVec.getLsbD_shiftLeft, BitVec.getLsbD_ushiftRight, low, word,
      decide_true, Bool.and_true, Bool.true_and]
    by_cases first : i + shift < 28
    · have bit := holds.bit (i + shift) first
      have above := holds.high (28 - shift + (27 - i)) (by omega)
      rw [Nat.mod_eq_of_lt first, ← bit, above, show 27 - i - shift = 27 - (i + shift) by omega]
      have enough : ¬ 27 - i < shift := by omega
      simp [enough]
    · have bit := holds.bit (i + shift - 28) (by omega)
      rw [Nat.mod_eq_sub_mod (by omega), Nat.mod_eq_of_lt (by omega), ← bit,
        show 28 - shift + (27 - i) = 27 - (i + shift - 28) by omega]
      have few : 27 - i < shift := by omega
      simp [few]
  · intro j high
    by_cases inside : j < 32
    · rw [rotateHalf, BitVec.getLsbD_and, mask j inside]
      simp [Nat.not_lt.mpr high]
    · exact BitVec.getLsbD_of_ge _ _ (by omega)

def Packed (mode : SboxMode) (row : RoundKey mode) (bits : List Bool) : Prop :=
  ∀ i < 48, (row.getD (mode.word i) 0).getLsbD (mode.shiftInWord i) = bits.getD i false

variable {first second : List Bool} {c d : BitVec 32}

theorem bitVal_bit (left : Holds28 c first) (right : Holds28 d second) {i : Nat} (inside : i < 48)
    (j : Nat) : (bitVal c d i).getLsbD j =
      (decide (j = 0) && (Fips46.permute Fips46.choice2 (first ++ second)).getD i false) := by
  have same : pc2 = Fips46.choice2 := rfl
  have range : ∀ i < 48, 0 < pc2.getD i 0 ∧ pc2.getD i 0 ≤ 56 := by decide
  obtain ⟨pos, small⟩ := range i inside
  have chosen : (Fips46.permute Fips46.choice2 (first ++ second)).getD i false =
      (first ++ second).getD (pc2.getD i 0 - 1) false := by
    have size : i < pc2.length := inside
    simp [Fips46.permute, ← same, List.getD_eq_getElem?_getD, size]
  have one : ∀ (x : BitVec 32) (shift : Nat), ((x >>> shift &&& 1).setWidth 8).getLsbD j =
      (decide (j = 0) && x.getLsbD shift) := by
    intro x shift
    cases j with
    | zero => simp
    | succ j => simp [BitVec.getLsbD_one]
  rw [chosen, bitVal]
  by_cases low : pc2.getD i 0 ≤ 28
  · have bit := left.bit (pc2.getD i 0 - 1) (by omega)
    rw [if_pos low, one, List.getD_append _ _ _ _ (by rw [left.length]; omega), ← bit]
    congr 2
    omega
  · have bit := right.bit (pc2.getD i 0 - 29) (by omega)
    rw [if_neg low, one, List.getD_append_right _ _ _ _ (by rw [left.length]; omega), left.length,
      show pc2.getD i 0 - 1 - 28 = pc2.getD i 0 - 29 by omega, ← bit]
    congr 2
    omega

def SboxMode.source : SboxMode → Nat → Nat → Nat
  | .fast, word, shift => 6 * (2 * (3 - shift / 8) + (1 - word)) + 5 - shift % 8
  | .constantTime, word, shift => 8 * word + 7 - shift

theorem SboxMode.places (mode : SboxMode) : ∀ i < 48, mode.word i < mode.words ∧
    mode.shiftInWord i < mode.width ∧ mode.source (mode.word i) (mode.shiftInWord i) = i := by
  cases mode with
  | constantTime => decide
  | fast => decide

theorem packRound_packed (mode : SboxMode) (left : Holds28 c first) (right : Holds28 d second) :
    Packed mode (packRound mode c d) (Fips46.permute Fips46.choice2 (first ++ second)) := by
  intro i inside
  obtain ⟨word, shift, source⟩ := mode.places i inside
  have stored := @BitWords.modify_bit Nat mode.width mode.word mode.shiftInWord
    (fun i => (bitVal c d i).setWidth mode.width) (List.range 48) (List.replicate mode.words 0)
    (mode.word i) (mode.shiftInWord i) (by simpa using word)
  have wide : 0 < mode.width := by omega
  have single : ∀ k < 48, (decide (mode.word k = mode.word i) &&
      ((bitVal c d k).setWidth mode.width <<< mode.shiftInWord k).getLsbD (mode.shiftInWord i)) =
      (decide (k = i) && (Fips46.permute Fips46.choice2 (first ++ second)).getD i false) := by
    intro k small
    obtain ⟨-, -, source'⟩ := mode.places k small
    rw [BitVec.getLsbD_shiftLeft, BitVec.getLsbD_setWidth, bitVal_bit left right small]
    by_cases same : k = i
    · simp [same, shift, wide]
    · by_cases here : mode.word k = mode.word i
      · have apart : mode.shiftInWord k ≠ mode.shiftInWord i := by
          intro equal
          rw [here, equal, source] at source'
          exact same source'.symm
        by_cases below : mode.shiftInWord i < mode.shiftInWord k
        · simp [same, below]
        · have more : ¬ mode.shiftInWord i - mode.shiftInWord k = 0 := by omega
          simp [same, more]
      · simp [same, here]
  have any : (List.range 48).any (fun k => decide (mode.word k = mode.word i) &&
      ((bitVal c d k).setWidth mode.width <<< mode.shiftInWord k).getLsbD (mode.shiftInWord i)) =
      (Fips46.permute Fips46.choice2 (first ++ second)).getD i false := by
    rw [Bool.eq_iff_iff, List.any_eq_true]
    constructor
    · rintro ⟨k, member, holds⟩
      rw [single k (List.mem_range.mp member)] at holds
      simp_all
    · intro holds
      refine ⟨i, List.mem_range.mpr inside, ?_⟩
      rw [single i inside, holds]
      simp
  rw [any] at stored
  rw [packRound, stored]
  simp

variable {shifts : List Nat}

theorem scheduleRounds_packed (mode : SboxMode) (small : ∀ shift ∈ shifts, shift ≤ 28)
    (left : Holds28 c first) (right : Holds28 d second) :
    List.Forall₂ (Packed mode) (scheduleRounds mode shifts c d)
      (Fips46.roundKeys shifts first second) := by
  induction shifts generalizing c d first second with
  | nil => exact .nil
  | cons shift rest ih =>
    have fits := small shift (List.mem_cons_self ..)
    have left' := rotateHalf_holds left fits
    have right' := rotateHalf_holds right fits
    exact .cons (packRound_packed mode left' right')
      (ih (fun shift member => small shift (List.mem_cons_of_mem _ member)) left' right')

theorem keySchedule_packed (mode : SboxMode) (key : Bytes) :
    List.Forall₂ (Packed mode) (keySchedule mode key)
      (Fips46.keySchedule (ofOctets (key.take keyLen))) := by
  have parts := permuteKey_parts key (List.range 28) (0, 0)
  have left := @choice_holds key pc1C rfl (by decide)
  have right := @choice_holds key pc1D rfl (by decide)
  rw [keySchedule, parts]
  exact scheduleRounds_packed mode (by decide) left right

theorem roundKeys_length : (Fips46.roundKeys shifts first second).length = shifts.length := by
  induction shifts generalizing first second with
  | nil => rfl
  | cons shift rest ih => simp [Fips46.roundKeys, ih]

theorem roundKeys_width : ∀ bits ∈ Fips46.roundKeys shifts first second, bits.length = 48 := by
  induction shifts generalizing first second with
  | nil => simp [Fips46.roundKeys]
  | cons shift rest ih =>
    intro bits member
    rcases List.mem_cons.mp member with rfl | later
    · rw [Fips46.permute, List.length_map]
      rfl
    · exact ih bits later

end TinyCrypto.Des
