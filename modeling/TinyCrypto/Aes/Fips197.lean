import TinyCrypto.Aes.Rounds

/-! # FIPS 197

The cipher of the standard over the field of its section 4, and the cipher of `aes.c` as an
implementation of it.
-/

namespace TinyCrypto.Aes

open Library

namespace Fips197

noncomputable def ofElement : AdjoinRoot modulus → UInt8 := Function.invFun element

/-- `•` of section 4.2. -/
noncomputable def times (a b : UInt8) : UInt8 := ofElement (element a * element b)

/-- `s[r, c]`. -/
abbrev Grid := Fin 4 → Fin 4 → UInt8

abbrev Word := Fin 4 → UInt8

/-- `s[r, c] = in[r + 4c]`. -/
def input (block : Block) : Grid := fun r c => block.bytes.getD (r + 4 * c) 0

/-- The affine transformation of section 5.1.1. -/
def affineTransformation (b : UInt8) : UInt8 :=
  let bit := fun i => b.toNat.testBit (i % 8)
  UInt8.ofNat (BitString.value ((List.range 8).map fun i =>
    bit i ^^ bit (i + 4) ^^ bit (i + 5) ^^ bit (i + 6) ^^ bit (i + 7) ^^ (0x63).testBit i))

/-- The multiplicative inverse, which is zero for zero, and the affine transformation. -/
noncomputable def sbox (b : UInt8) : UInt8 :=
  affineTransformation (ofElement (Ring.inverse (element b)))

noncomputable def subBytes (s : Grid) : Grid := fun r c => sbox (s r c)

def shiftRows (s : Grid) : Grid := fun r c => s r (c + r)

/-- The first row of the matrix of section 5.1.3; every other one is the row before it, rotated. -/
def coefficient : Fin 4 → UInt8 := ![2, 3, 1, 1]

local instance fourNeZero : NeZero 4 := ⟨by decide⟩

noncomputable def mixColumns (s : Grid) : Grid := fun r c =>
  times (coefficient (0 - r)) (s 0 c) ^^^ times (coefficient (1 - r)) (s 1 c) ^^^
    times (coefficient (2 - r)) (s 2 c) ^^^ times (coefficient (3 - r)) (s 3 c)

def addRoundKey (s : Grid) (w : Nat → Word) (round : Nat) : Grid :=
  fun r c => s r c ^^^ w (4 * round + c) r

def rotWord (w : Word) : Word := fun i => w (i + 1)

noncomputable def subWord (w : Word) : Word := fun i => sbox (w i)

noncomputable def rcon (j : Nat) : Word := ![ofElement (x ^ (j - 1)), 0, 0, 0]

/-- `KEYEXPANSION`; the standard has `nk` four, six or eight. -/
noncomputable def keyExpansion (key : Bytes) (nk i : Nat) : Word :=
  if i < nk ∨ nk = 0 then fun r => key.getD (4 * i + r) 0
  else
    let temp := keyExpansion key nk (i - 1)
    let temp := if i % nk = 0 then fun r => subWord (rotWord temp) r ^^^ rcon (i / nk) r
      else if 6 < nk ∧ i % nk = 4 then subWord temp
      else temp
    fun r => keyExpansion key nk (i - nk) r ^^^ temp r
termination_by i

/-- The state after so many rounds of `CIPHER`. -/
noncomputable def rounds (w : Nat → Word) (s : Grid) : Nat → Grid
  | 0 => addRoundKey s w 0
  | round + 1 => addRoundKey (mixColumns (shiftRows (subBytes (rounds w s round)))) w (round + 1)

/-- `CIPHER`. -/
noncomputable def cipher (s : Grid) (nr : Nat) (w : Nat → Word) : Grid :=
  addRoundKey (shiftRows (subBytes (rounds w s (nr - 1)))) w nr

/-- `AES-128`, `AES-192` and `AES-256`. -/
noncomputable def aes (key : Bytes) (s : Grid) : Grid :=
  cipher s (key.length / 4 + 6) (keyExpansion key (key.length / 4))

end Fips197

open Fips197 (Grid Word ofElement times)

theorem ofElement_element (b : UInt8) : ofElement (element b) = b :=
  Function.leftInverse_invFun element_injective b

theorem ofElement_inverse (b : UInt8) : ofElement (Ring.inverse (element b)) = sboxInverse b := by
  by_cases zero : b = 0
  · rw [zero, element_zero, Ring.inverse_zero, ← element_zero, ofElement_element, sboxInverse_zero]
  · have one := sboxInverse_mul zero
    have unit : Ring.inverse (element b) = element (sboxInverse b) :=
      Ring.inverse_unit ⟨element b, element (sboxInverse b), one, by rw [mul_comm]; exact one⟩
    rw [unit, ofElement_element]

theorem sboxValue_fips (mode : SboxMode) (b : UInt8) : sboxValue mode b = Fips197.sbox b := by
  have transformations : ∀ b, affine b = Fips197.affineTransformation b :=
    forall_byte (by decide +kernel)
  rw [sboxValue_eq, Fips197.sbox, ofElement_inverse]
  exact transformations (sboxInverse b)

def State.grid (s : State) : Grid := fun r c => s.get c r

theorem grid_ofBlock (block : Block) : (State.ofBlock block).grid = Fips197.input block := by
  funext r c
  rw [State.grid, State.get_ofBlock, Fips197.input, Nat.add_comm]

theorem grid_subBytes (mode : SboxMode) (s : State) :
    (subBytes mode s).grid = Fips197.subBytes s.grid := by
  funext r c
  rw [State.grid, get_subBytes, sboxValue_fips]
  rfl

theorem grid_shiftRows (s : State) : (shiftRows s).grid = Fips197.shiftRows s.grid := by
  funext r c
  rw [State.grid, get_shiftRows]
  rfl

theorem times_small (b : UInt8) :
    times 1 b = b ∧ times 2 b = xtime b ∧ times 3 b = xtime b ^^^ b := by
  have two : element 2 = x := by
    rw [show (2 : UInt8) = xtime 1 by decide, element_xtime, element_one, mul_one]
  have three : element 3 = x + 1 := by
    rw [show (3 : UInt8) = 2 ^^^ 1 by decide, element_xor, two, element_one]
  refine ⟨?_, ?_, ?_⟩
  · rw [times, element_one, one_mul, ofElement_element]
  · rw [times, two, ← element_xtime, ofElement_element]
  · rw [times, three, add_mul, one_mul, ← element_xtime, ← element_xor, ofElement_element]

theorem grid_mixColumns (s : State) : (mixColumns s).grid = Fips197.mixColumns s.grid := by
  funext r c
  rw [State.grid, get_mixColumns]
  refine element_injective ?_
  have two : (2 : AdjoinRoot modulus) = 0 := BinaryQuotient.two_eq_zero
  rw [element_mixed]
  fin_cases r
  · simp [Fips197.mixColumns, Fips197.coefficient, State.grid, times_small, element_xor,
      element_xtime]
    linear_combination element (s.get c 0) * two
  · simp [Fips197.mixColumns, Fips197.coefficient, State.grid, times_small, element_xor,
      element_xtime]
    linear_combination element (s.get c 1) * two
  · simp [Fips197.mixColumns, Fips197.coefficient, State.grid, times_small, element_xor,
      element_xtime]
    linear_combination element (s.get c 2) * two
  · simp [Fips197.mixColumns, Fips197.coefficient, State.grid, times_small, element_xor,
      element_xtime]
    linear_combination element (s.get c 3) * two

structure Holds (key : Bytes) (words i : Nat) (roundKey : Bytes) : Prop where
  size : roundKey.length = 4 * i
  word : ∀ k < i, ∀ r : Fin 4, roundKey.getD (4 * k + r) 0 = Fips197.keyExpansion key words k r

variable {key : Bytes} {words i : Nat}

theorem expansionTemp_eq (mode : SboxMode) (size : words = 4 ∨ words = 6 ∨ words = 8)
    (later : words ≤ i) {rcon : UInt8} (constant : element rcon = x ^ ((i - 1) / words))
    (temp : Vector UInt8 4) {word : Word} (same : ∀ r : Fin 4, temp[r] = word r) :
    (∀ r : Fin 4, (expansionTemp mode words i rcon temp).1[r] =
      (if i % words = 0 then fun r => Fips197.subWord (Fips197.rotWord word) r ^^^
          Fips197.rcon (i / words) r
        else if 6 < words ∧ i % words = 4 then Fips197.subWord word else word) r) ∧
      element (expansionTemp mode words i rcon temp).2 = x ^ (i / words) := by
  have pos : 0 < words := by omega
  by_cases turn : i % words = 0
  · have next : i / words = (i - 1) / words + 1 := by
      obtain ⟨q, rfl⟩ := Nat.dvd_of_mod_eq_zero turn
      obtain ⟨q, rfl⟩ : ∃ p, q = p + 1 := ⟨q - 1, by
        rcases q with - | q
        · omega
        · rfl⟩
      rw [Nat.mul_div_cancel_left _ pos, Nat.mul_succ,
        show words * q + words - 1 = (words - 1) + words * q by omega,
        Nat.add_mul_div_left _ _ pos, Nat.div_eq_of_lt (by omega), Nat.zero_add]
    have first : Fips197.rcon (i / words) = ![rcon, 0, 0, 0] := by
      rw [Fips197.rcon, next, Nat.add_sub_cancel, ← constant, ofElement_element]
    have none : ¬ (words = 8 ∧ 0 = 4) := by omega
    rw [expansionTemp]
    simp only [turn, if_true, none, if_false, first]
    refine ⟨?_, by rw [element_xtime, constant, next, pow_succ, mul_comm]⟩
    intro r
    have entries : temp[0] = word 0 ∧ temp[1] = word 1 ∧ temp[2] = word 2 ∧ temp[3] = word 3 :=
      ⟨same 0, same 1, same 2, same 3⟩
    fin_cases r <;>
      simp [Fips197.subWord, Fips197.rotWord, ← sboxValue_fips mode, entries]
  · have next : i / words = (i - 1) / words := by
      have parts := Nat.div_add_mod i words
      have small := Nat.mod_lt i pos
      have low : (i % words - 1) / words = 0 := Nat.div_eq_of_lt (by omega)
      rw [show i - 1 = (i % words - 1) + words * (i / words) by omega,
        Nat.add_mul_div_left _ _ pos, low, Nat.zero_add]
    have wide : (words = 8 ∧ i % words = 4) ↔ (6 < words ∧ i % words = 4) := by omega
    rw [expansionTemp]
    simp only [turn, if_false, wide]
    refine ⟨?_, by rw [constant, next]⟩
    intro r
    split
    · have entry := same r
      simp only [Fin.getElem_fin] at entry
      simp [Fips197.subWord, ← sboxValue_fips mode, entry]
    · exact same r

variable {roundKey : Bytes}

theorem Holds.getD (holds : Holds key words i roundKey) {k : Nat} (before : k < i) {n : Nat}
    {r : Fin 4} (place : n = 4 * k + r) :
    roundKey.getD n 0 = Fips197.keyExpansion key words k r := by
  rw [place]
  exact holds.word k before r

theorem expansionLoop_holds (mode : SboxMode) (size : words = 4 ∨ words = 6 ∨ words = 8)
    (passes : Nat) {rcon : UInt8} (later : words ≤ i)
    (constant : element rcon = x ^ ((i - 1) / words)) (holds : Holds key words i roundKey) :
    Holds key words (i + passes) (expansionLoop mode words passes i rcon roundKey) := by
  induction passes generalizing i rcon roundKey with
  | zero => exact holds
  | succ passes ih =>
    have pos : 0 < words := by omega
    rw [expansionLoop]
    generalize last : (#v[roundKey.getD ((i - 1) * 4) 0, roundKey.getD ((i - 1) * 4 + 1) 0,
      roundKey.getD ((i - 1) * 4 + 2) 0, roundKey.getD ((i - 1) * 4 + 3) 0] : Vector UInt8 4) = temp
    have same : ∀ r : Fin 4, temp[r] = Fips197.keyExpansion key words (i - 1) r := by
      intro r
      rw [← last]
      fin_cases r
      · exact holds.getD (by omega) (r := 0) (by simp; omega)
      · exact holds.getD (by omega) (r := 1) (by simp; omega)
      · exact holds.getD (by omega) (r := 2) (by simp; omega)
      · exact holds.getD (by omega) (r := 3) (by simp; omega)
    obtain ⟨entries, constant'⟩ := expansionTemp_eq mode size later constant temp same
    generalize expansionTemp mode words i rcon temp = pair at entries constant'
    obtain ⟨temp', rcon'⟩ := pair
    have unfolded : Fips197.keyExpansion key words i = fun r =>
        Fips197.keyExpansion key words (i - words) r ^^^ temp'[r] := by
      rw [Fips197.keyExpansion, if_neg (by omega)]
      funext r
      rw [entries r]
    have grown : Holds key words (i + 1) (roundKey ++
        [roundKey.getD ((i - words) * 4) 0 ^^^ temp'[0],
          roundKey.getD ((i - words) * 4 + 1) 0 ^^^ temp'[1],
          roundKey.getD ((i - words) * 4 + 2) 0 ^^^ temp'[2],
          roundKey.getD ((i - words) * 4 + 3) 0 ^^^ temp'[3]]) := by
      have size' := holds.size
      refine ⟨by rw [List.length_append, size']; rfl, ?_⟩
      intro k inside r
      rcases Nat.lt_or_eq_of_le (Nat.lt_succ_iff.mp inside) with before | rfl
      · rw [List.getD_append _ _ _ _ (by omega)]
        exact holds.word k before r
      · rw [List.getD_append_right _ _ _ _ (by omega), size', Nat.add_sub_cancel_left, unfolded]
        have older : ∀ r : Fin 4, roundKey.getD ((k - words) * 4 + r) 0 =
            Fips197.keyExpansion key words (k - words) r :=
          fun r => holds.getD (by omega) (by rw [Nat.mul_comm])
        change _ = Fips197.keyExpansion key words (k - words) r ^^^ temp'[r]
        rw [← older r]
        fin_cases r <;> rfl
    have more := ih (by omega) (by rw [Nat.add_sub_cancel]; exact constant') grown
    rwa [Nat.add_right_comm] at more

theorem keyExpansion_holds (mode : SboxMode) (size : words = 4 ∨ words = 6 ∨ words = 8)
    (length : key.length = 4 * words) :
    Holds key words (4 * (words + 6 + 1)) (keyExpansion mode key words) := by
  have pos : 0 < words := by omega
  have start : Holds key words words (key.take (words * 4)) := by
    refine ⟨by rw [List.length_take]; omega, ?_⟩
    intro k inside r
    rw [Fips197.keyExpansion, if_pos (.inl inside), List.take_of_length_le (by omega)]
  have constant : element 0x01 = x ^ ((words - 1) / words) := by
    rw [element_one, Nat.div_eq_of_lt (by omega), pow_zero]
  have whole := expansionLoop_holds mode size (4 * (words + 6 + 1) - words) le_rfl constant start
  rwa [show words + (4 * (words + 6 + 1) - words) = 4 * (words + 6 + 1) by omega] at whole

theorem grid_addRoundKey (holds : Holds key words i roundKey) (s : State) {round : Nat}
    (inside : 4 * round + 3 < i) : (addRoundKey round s roundKey).grid =
      Fips197.addRoundKey s.grid (Fips197.keyExpansion key words) round := by
  funext r c
  have entry := holds.getD (show 4 * round + c.val < i by omega)
    (show round * 4 * 4 + c * 4 + r = 4 * (4 * round + c) + r by omega)
  rw [State.grid, get_addRoundKey, entry]
  rfl

theorem grid_middle (mode : SboxMode) (s : State) (holds : Holds key words i roundKey) {round : Nat}
    (inside : 4 * round + 3 < i) : (middle mode roundKey s round).grid =
      Fips197.rounds (Fips197.keyExpansion key words) s.grid round := by
  induction round with
  | zero => exact grid_addRoundKey holds s inside
  | succ round ih =>
    rw [middle, grid_addRoundKey holds _ inside, grid_mixColumns, grid_shiftRows, grid_subBytes,
      ih (by omega), Fips197.rounds]

/-- For every key of 16, 24 or 32 bytes and in every S-box mode, the rounds are the cipher of
    FIPS 197, and the inverse rounds lead back to the block. -/
theorem inverse_undoes_cipher (mode : SboxMode) (key : Bytes)
    (size : key.length = 16 ∨ key.length = 24 ∨ key.length = 32) (block : Block) :
    let words := key.length / 4
    let roundKey := keyExpansion mode key words
    let cipherText := cipherRounds mode roundKey (State.ofBlock block) (words + 6)
    (inverseRounds mode roundKey cipherText (words + 6)).toBlock = block ∧
      cipherText.grid = Fips197.aes key (Fips197.input block) := by
  intro words roundKey cipherText
  have counted : words = 4 ∨ words = 6 ∨ words = 8 := by omega
  have holds := @keyExpansion_holds key words mode counted (by omega)
  refine ⟨?_, ?_⟩
  · exact (congrArg State.toBlock (inverseRounds_cipherRounds mode roundKey _ (words + 5))).trans
      (State.toBlock_ofBlock block)
  · have rounds := cipherRounds_eq mode roundKey (State.ofBlock block) (words + 5)
    rw [show cipherText = _ from rounds, grid_addRoundKey holds _ (by omega), grid_shiftRows,
      grid_subBytes, grid_middle mode _ holds (by omega), grid_ofBlock]
    rfl

/-- The example vector of the standard for 128 bits. -/
theorem inverse_undoes_cipher_example :
    let key : Bytes := [0x00, 0x01, 0x02, 0x03, 0x04, 0x05, 0x06, 0x07, 0x08, 0x09, 0x0a, 0x0b,
      0x0c, 0x0d, 0x0e, 0x0f]
    (inverseRounds .fast (keyExpansion .fast key 4)
      (cipherRounds .fast (keyExpansion .fast key 4) (State.ofBlock .zero) 10) 10).toBlock =
        Block.zero :=
  (inverse_undoes_cipher .fast [0x00, 0x01, 0x02, 0x03, 0x04, 0x05, 0x06, 0x07, 0x08, 0x09, 0x0a,
    0x0b, 0x0c, 0x0d, 0x0e, 0x0f] (.inl rfl) .zero).1

end TinyCrypto.Aes
