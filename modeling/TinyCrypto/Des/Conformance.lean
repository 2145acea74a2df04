import TinyCrypto.Des.Rounds

/-! # DES and TDEA compute the standard's permutation

The networks of swaps are IP and its inverse, so that a block under a key schedule is the
standard's, in both builds. Decryption runs the rounds in the opposite order.
-/

namespace TinyCrypto.Des

open Library BitString
open BitWords (bits bits_getD bits_ext bits_length bits_xor bits_injective)

def deltaSwap (shift : Nat) (mask : BitVec 32) (halves : BitVec 32 × BitVec 32) :
    BitVec 32 × BitVec 32 :=
  let t := (halves.1 >>> shift ^^^ halves.2) &&& mask
  (halves.1 ^^^ t <<< shift, halves.2 ^^^ t)

/-- The bits under a mask stay inside a half when they are shifted. -/
def Inside (shift : Nat) (mask : BitVec 32) : Prop :=
  ∀ i < 32, mask.getLsbD i = true → i + shift < 32

instance (shift : Nat) (mask : BitVec 32) : Decidable (Inside shift mask) :=
  inferInstanceAs (Decidable (∀ i < 32, mask.getLsbD i = true → i + shift < 32))

def halfBit (halves : BitVec 32 × BitVec 32) (j : Nat) : Bool :=
  if j < 32 then halves.2.getLsbD j else halves.1.getLsbD (j - 32)

def swapIndex (shift : Nat) (mask : BitVec 32) (j : Nat) : Nat :=
  if j < 32 then if mask.getLsbD j then 32 + j + shift else j
  else if shift ≤ j - 32 ∧ mask.getLsbD (j - 32 - shift) = true then j - 32 - shift else j

def turnIndex (j : Nat) : Nat := (j + 32) % 64

theorem halfBit_ext {first second : BitVec 32 × BitVec 32}
    (same : ∀ j < 64, halfBit first j = halfBit second j) : first = second := by
  have low : first.2 = second.2 := by
    apply BitVec.eq_of_getLsbD_eq
    intro j inside
    simpa [halfBit, inside] using same j (by omega)
  have high : first.1 = second.1 := by
    apply BitVec.eq_of_getLsbD_eq
    intro j inside
    simpa [halfBit] using same (32 + j) (by omega)
  exact Prod.ext high low

theorem halfBit_swap (halves : BitVec 32 × BitVec 32) {j : Nat} (inside : j < 64) :
    halfBit halves.swap j = halfBit halves (turnIndex j) := by
  by_cases low : j < 32
  · have high : ¬ (j + 32) % 64 < 32 := by omega
    rw [halfBit, if_pos low, halfBit, turnIndex, if_neg high, Prod.snd_swap]
    congr 1
    omega
  · have small : (j + 32) % 64 < 32 := by omega
    rw [halfBit, if_neg low, halfBit, turnIndex, if_pos small, Prod.fst_swap]
    congr 1
    omega

section

variable {shift : Nat} {mask : BitVec 32}

theorem halfBit_deltaSwap (halves : BitVec 32 × BitVec 32) {j : Nat} (inside : j < 64) :
    halfBit (deltaSwap shift mask halves) j = halfBit halves (swapIndex shift mask j) := by
  by_cases low : j < 32
  · rw [halfBit, if_pos low, swapIndex, if_pos low]
    simp only [deltaSwap, BitVec.getLsbD_xor, BitVec.getLsbD_and, BitVec.getLsbD_ushiftRight]
    cases set : mask.getLsbD j with
    | false => simp [halfBit, low]
    | true =>
      have high : ¬ 32 + j + shift < 32 := by omega
      rw [if_pos rfl, halfBit, if_neg high, show 32 + j + shift - 32 = shift + j by omega]
      cases halves.2.getLsbD j <;> simp
  · rw [halfBit, if_neg low, swapIndex, if_neg low]
    simp only [deltaSwap, BitVec.getLsbD_xor, BitVec.getLsbD_shiftLeft, BitVec.getLsbD_and,
      BitVec.getLsbD_ushiftRight]
    by_cases moved : shift ≤ j - 32 ∧ mask.getLsbD (j - 32 - shift) = true
    · have small : j - 32 - shift < 32 := by omega
      have enough : ¬ j - 32 < shift := by omega
      rw [if_pos moved, halfBit, if_pos small, moved.2, show shift + (j - 32 - shift) = j - 32 by omega]
      simp only [show j - 32 < 32 by omega, enough, decide_true, decide_false]
      cases halves.1.getLsbD (j - 32) <;> simp
    · rw [if_neg moved, halfBit, if_neg low]
      by_cases less : j - 32 < shift
      · simp [less]
      · have unset : mask.getLsbD (j - 32 - shift) = false := by
          rw [← Bool.not_eq_true]
          exact fun set => moved ⟨by omega, set⟩
        simp [unset]

theorem swapIndex_lt (fits : Inside shift mask) {j : Nat} (inside : j < 64) :
    swapIndex shift mask j < 64 := by
  unfold swapIndex
  split
  · split
    · rename_i low set
      have := fits j low set
      omega
    · exact inside
  · split <;> omega

theorem swapIndex_swapIndex {j : Nat} (inside : j < 64) :
    swapIndex shift mask (swapIndex shift mask j) = j := by
  unfold swapIndex
  by_cases low : j < 32
  · cases set : mask.getLsbD j with
    | false => simp only [if_pos low, set, Bool.false_eq_true, if_false]
    | true =>
      have back : 32 + j + shift - 32 - shift = j := by omega
      have enough : shift ≤ 32 + j + shift - 32 := by omega
      have high : ¬ 32 + j + shift < 32 := by omega
      simp [low, high, back, enough, set]
  · by_cases moved : shift ≤ j - 32 ∧ mask.getLsbD (j - 32 - shift) = true
    · have small : j - 32 - shift < 32 := by omega
      have back : 32 + (j - 32 - shift) + shift = j := by omega
      simp [low, moved, small, back]
    · simp [low, moved]

theorem deltaSwap_deltaSwap (fits : Inside shift mask) (halves : BitVec 32 × BitVec 32) :
    deltaSwap shift mask (deltaSwap shift mask halves) = halves := by
  apply halfBit_ext
  intro j inside
  rw [halfBit_deltaSwap _ inside, halfBit_deltaSwap _ (swapIndex_lt fits inside),
    swapIndex_swapIndex inside]

end

theorem inside_masks : Inside 4 0x0F0F0F0F ∧ Inside 16 0x0000FFFF ∧ Inside 2 0x33333333 ∧
    Inside 8 0x00FF00FF ∧ Inside 1 0x55555555 := by decide

theorem initialPermutation_swaps (L R : BitVec 32) :
    initialPermutation L R = deltaSwap 1 0x55555555 (deltaSwap 8 0x00FF00FF (deltaSwap 2 0x33333333
      (deltaSwap 16 0x0000FFFF (deltaSwap 4 0x0F0F0F0F (L, R))).swap)).swap := rfl

theorem finalPermutation_swaps (L R : BitVec 32) :
    (finalPermutation L R).swap = deltaSwap 4 0x0F0F0F0F (deltaSwap 16 0x0000FFFF
      (deltaSwap 2 0x33333333 (deltaSwap 8 0x00FF00FF (deltaSwap 1 0x55555555 (R, L)).swap)).swap) :=
  rfl

theorem initial_final (L R : BitVec 32) :
    initialPermutation (finalPermutation L R).2 (finalPermutation L R).1 = (R, L) := by
  obtain ⟨m4, m16, m2, m8, m1⟩ := inside_masks
  have swapped := finalPermutation_swaps L R
  change ((finalPermutation L R).2, (finalPermutation L R).1) = _ at swapped
  rw [initialPermutation_swaps, swapped, deltaSwap_deltaSwap m4, deltaSwap_deltaSwap m16,
    Prod.swap_swap, deltaSwap_deltaSwap m2, deltaSwap_deltaSwap m8, Prod.swap_swap,
    deltaSwap_deltaSwap m1]

theorem final_initial (L R : BitVec 32) :
    (finalPermutation (initialPermutation L R).2 (initialPermutation L R).1).swap = (L, R) := by
  obtain ⟨m4, m16, m2, m8, m1⟩ := inside_masks
  rw [finalPermutation_swaps]
  change deltaSwap _ _ (deltaSwap _ _ (deltaSwap _ _ (deltaSwap _ _
    (deltaSwap _ _ (initialPermutation L R)).swap)).swap) = _
  rw [initialPermutation_swaps, deltaSwap_deltaSwap m1, Prod.swap_swap, deltaSwap_deltaSwap m8,
    deltaSwap_deltaSwap m2, Prod.swap_swap, deltaSwap_deltaSwap m16, deltaSwap_deltaSwap m4]

def joined (halves : BitVec 32 × BitVec 32) : List Bool := bits halves.1 ++ bits halves.2

@[simp] theorem joined_length (halves : BitVec 32 × BitVec 32) : (joined halves).length = 64 := by
  simp [joined]

theorem joined_getD (halves : BitVec 32 × BitVec 32) {i : Nat} (inside : i < 64) :
    (joined halves).getD i false = halfBit halves (63 - i) := by
  rw [joined, halfBit]
  by_cases first : i < 32
  · have high : ¬ 63 - i < 32 := by omega
    rw [List.getD_append _ _ _ _ (by simpa using first), bits_getD _ first, if_neg high]
    congr 1
    omega
  · have low : 63 - i < 32 := by omega
    rw [List.getD_append_right _ _ _ _ (by simpa using first), bits_length,
      bits_getD _ (by omega), if_pos low]
    congr 1
    omega

theorem joined_permute {table : List Nat} {index : Nat → Nat} (size : table.length = 64)
    (places : ∀ i < 64, table.getD i 0 - 1 = 63 - index (63 - i) ∧ index (63 - i) < 64)
    {after before : BitVec 32 × BitVec 32}
    (moved : ∀ j < 64, halfBit after j = halfBit before (index j)) :
    joined after = Fips46.permute table (joined before) := by
  refine List.ext_getElem (by simp [Fips46.permute, size]) fun i inside later => ?_
  rw [joined_length] at inside
  obtain ⟨place, below⟩ := places i inside
  have source := @joined_getD before (table.getD i 0 - 1) (by omega)
  rw [← List.getD_eq_getElem _ false, joined_getD _ inside, moved _ (by omega)]
  simp only [Fips46.permute, List.getElem_map]
  rw [← List.getD_eq_getElem _ 0, source, place]
  congr 1
  omega

theorem joined_initial (L R : BitVec 32) :
    joined (initialPermutation L R) = Fips46.permute Fips46.initial (joined (L, R)) := by
  obtain ⟨m4, m16, m2, m8, m1⟩ := inside_masks
  let index (j : Nat) := swapIndex 4 0x0F0F0F0F (swapIndex 16 0x0000FFFF (turnIndex
    (swapIndex 2 0x33333333 (swapIndex 8 0x00FF00FF (turnIndex (swapIndex 1 0x55555555 j))))))
  apply @joined_permute _ index rfl (by decide +kernel)
  intro j inside
  have turned : ∀ j, turnIndex j < 64 := fun j => Nat.mod_lt _ (by decide)
  have s1 := swapIndex_lt m1 inside
  have s8 := swapIndex_lt m8 (turned (swapIndex 1 0x55555555 j))
  have s2 := swapIndex_lt m2 s8
  have s16 := swapIndex_lt m16 (turned
    (swapIndex 2 0x33333333 (swapIndex 8 0x00FF00FF (turnIndex (swapIndex 1 0x55555555 j)))))
  rw [initialPermutation_swaps, halfBit_deltaSwap _ inside, halfBit_swap _ s1,
    halfBit_deltaSwap _ (turned _), halfBit_deltaSwap _ s8, halfBit_swap _ s2,
    halfBit_deltaSwap _ (turned _), halfBit_deltaSwap _ s16]

theorem joined_final (L R : BitVec 32) :
    joined (finalPermutation L R).swap = Fips46.permute Fips46.final (joined (R, L)) := by
  obtain ⟨m4, m16, m2, m8, m1⟩ := inside_masks
  let index (j : Nat) := swapIndex 1 0x55555555 (turnIndex (swapIndex 8 0x00FF00FF
    (swapIndex 2 0x33333333 (turnIndex (swapIndex 16 0x0000FFFF (swapIndex 4 0x0F0F0F0F j))))))
  apply @joined_permute _ index rfl (by decide +kernel)
  intro j inside
  have turned : ∀ j, turnIndex j < 64 := fun j => Nat.mod_lt _ (by decide)
  have s4 := swapIndex_lt m4 inside
  have s16 := swapIndex_lt m16 s4
  have s2 := swapIndex_lt m2 (turned (swapIndex 16 0x0000FFFF (swapIndex 4 0x0F0F0F0F j)))
  have s8 := swapIndex_lt m8 s2
  rw [finalPermutation_swaps, halfBit_deltaSwap _ inside, halfBit_deltaSwap _ s4,
    halfBit_swap _ s16, halfBit_deltaSwap _ (turned _), halfBit_deltaSwap _ s2,
    halfBit_swap _ s8, halfBit_deltaSwap _ (turned _)]

theorem highBits_value (bytes : Bytes) :
    highBits (8 * bytes.length) (ByteCounter.value bytes) = ofOctets bytes := by
  induction bytes with
  | nil => rfl
  | cons byte rest ih =>
    have small := ByteCounter.value_lt rest
    have base : 256 ^ rest.length = 2 ^ (8 * rest.length) := by rw [Nat.pow_mul]
    rw [base] at small
    have low : (byte.toNat * 2 ^ (8 * rest.length) + ByteCounter.value rest) %
        2 ^ (8 * rest.length) = ByteCounter.value rest := by
      rw [Nat.mul_add_mod', Nat.mod_eq_of_lt small]
    have high : (byte.toNat * 2 ^ (8 * rest.length) + ByteCounter.value rest) /
        2 ^ (8 * rest.length) = byte.toNat := by
      rw [Nat.mul_comm, Nat.mul_add_div (Nat.two_pow_pos _), Nat.div_eq_of_lt small, Nat.add_zero]
    rw [List.length_cons, Nat.mul_succ, Nat.add_comm, highBits_add, ByteCounter.value_cons, base,
      high, ← highBits_mod (8 * rest.length), low, ih, ofOctets_cons]

theorem loadBe32_bits {src : Bytes} (full : 4 ≤ src.length) :
    bits (loadBe32 src) = ofOctets (src.take 4) := by
  have size : (src.take 4).length = 4 := List.length_take_of_le full
  have small := ByteCounter.value_lt (src.take 4)
  have read := highBits_value (src.take 4)
  rw [size] at small read
  rw [bits, loadBe32, BitVec.toNat_ofNat, Nat.mod_eq_of_lt (by simpa using small), ← read]

theorem storeBe32_length (word : BitVec 32) : (storeBe32 word).length = 4 := rfl

theorem storeBe32_bits (word : BitVec 32) : ofOctets (storeBe32 word) = bits word := by
  symm
  apply bits_ext (by simp [storeBe32_length])
  intro i inside
  have byte : ∀ k < 4, (storeBe32 word).getD k 0 =
      UInt8.ofBitVec ((word >>> (24 - 8 * k)).setWidth 8) := by
    intro k few
    interval_cases k <;> rfl
  have octet : ∀ x : BitVec 8, (UInt8.ofBitVec x).toNat = x.toNat := fun _ => rfl
  rw [ofOctets_getD, byte _ (by omega), octet, BitVec.testBit_toNat, BitVec.getLsbD_setWidth,
    BitVec.getLsbD_ushiftRight, decide_eq_true (by omega), Bool.true_and]
  congr 1
  omega

theorem loadBe32_storeBe32 (word : BitVec 32) (rest : Bytes) :
    loadBe32 (storeBe32 word ++ rest) = word := by
  apply bits_injective
  rw [loadBe32_bits (by simp [storeBe32_length]), ← storeBe32_bits,
    List.take_left' (storeBe32_length word)]

theorem storeBe32_loadBe32 {src : Bytes} (full : 4 ≤ src.length) :
    storeBe32 (loadBe32 src) = src.take 4 := by
  apply ofOctets_injective (by rw [storeBe32_length, List.length_take_of_le full])
  rw [storeBe32_bits, loadBe32_bits full]

def halves (buf : Octets blockLen) : BitVec 32 × BitVec 32 :=
  (loadBe32 buf.bytes, loadBe32 (buf.bytes.drop 4))

def ofHalves (pair : BitVec 32 × BitVec 32) : Octets blockLen :=
  ⟨storeBe32 pair.1 ++ storeBe32 pair.2, rfl⟩

@[simp] theorem halves_ofHalves (pair : BitVec 32 × BitVec 32) : halves (ofHalves pair) = pair := by
  have second : (storeBe32 pair.1 ++ storeBe32 pair.2).drop 4 = storeBe32 pair.2 ++ [] := by
    rw [List.append_nil, List.drop_left' (storeBe32_length pair.1)]
  apply Prod.ext
  · exact loadBe32_storeBe32 pair.1 _
  · rw [halves, ofHalves, second]
    exact loadBe32_storeBe32 pair.2 []

@[simp] theorem ofHalves_halves (buf : Octets blockLen) : ofHalves (halves buf) = buf := by
  have size : buf.bytes.length = 8 := buf.size
  have later : (buf.bytes.drop 4).length = 4 := by rw [List.length_drop, size]
  have first : storeBe32 (loadBe32 buf.bytes) = buf.bytes.take 4 := storeBe32_loadBe32 (by omega)
  have second : storeBe32 (loadBe32 (buf.bytes.drop 4)) = buf.bytes.drop 4 := by
    rw [storeBe32_loadBe32 (by omega), List.take_of_length_le (Nat.le_of_eq later)]
  apply Octets.ext
  change storeBe32 (loadBe32 buf.bytes) ++ storeBe32 (loadBe32 (buf.bytes.drop 4)) = _
  rw [first, second, List.take_append_drop]

theorem joined_halves (buf : Octets blockLen) : joined (halves buf) = ofOctets buf.bytes := by
  have bytes := congrArg Octets.bytes (ofHalves_halves buf)
  rw [← bytes, ofHalves, ofOctets_append, storeBe32_bits, storeBe32_bits, joined]

def rows {mode : SboxMode} (sk : List (RoundKey mode)) (decrypt : Bool) : List (RoundKey mode) :=
  (List.range 16).map fun i => sk.getD (if decrypt then 15 - i else i) []

theorem rounds_run (mode : SboxMode) (sk : List (RoundKey mode)) (decrypt : Bool)
    (pair : BitVec 32 × BitVec 32) : rounds mode sk decrypt pair =
      Feistel.run (· ^^^ ·) (roundFunction mode) (rows sk decrypt) pair := by
  rw [rounds, Feistel.run, rows, List.foldl_map]
  rfl

theorem rows_take {mode : SboxMode} {sk row : List (RoundKey mode)} (first : sk.take 16 = row)
    (size : row.length = 16) (decrypt : Bool) :
    rows sk decrypt = if decrypt then row.reverse else row := by
  have entry : ∀ i < 16, sk.getD i [] = row.getD i [] := by
    intro i inside
    simp [List.getD_eq_getElem?_getD, ← first, List.getElem?_take_of_lt inside]
  cases decrypt with
  | false =>
    refine List.ext_getElem (by simp [rows, size]) fun i inside _ => ?_
    have small : i < 16 := by simpa [rows] using inside
    have other : i < row.length := by omega
    simp only [rows, List.getElem_map, List.getElem_range, Bool.false_eq_true, if_false,
      entry i small, List.getD_eq_getElem _ _ other]
  | true =>
    refine List.ext_getElem (by simp [rows, size]) fun i inside _ => ?_
    have small : i < 16 := by simpa [rows] using inside
    have other : 15 - i < row.length := by omega
    simp only [rows, List.getElem_map, List.getElem_range, if_true, entry (15 - i) (by omega),
      List.getElem_reverse, size, List.getD_eq_getElem _ _ other]

theorem cipherBlock_run (mode : SboxMode) (sk : List (RoundKey mode)) (buf : Octets blockLen)
    (decrypt : Bool) :
    let start := initialPermutation (halves buf).1 (halves buf).2
    let after := Feistel.run (· ^^^ ·) (roundFunction mode) (rows sk decrypt) start
    cipherBlock mode sk buf decrypt = ofHalves (finalPermutation after.1 after.2).swap := by
  intro start after
  have run := rounds_run mode sk decrypt start
  change ofHalves (finalPermutation (rounds mode sk decrypt start).1
    (rounds mode sk decrypt start).2).swap = _
  rw [run]

theorem xor_cancels (a b : BitVec 32) : a ^^^ b ^^^ b = a := by
  rw [BitVec.xor_assoc, BitVec.xor_self, BitVec.xor_zero]

theorem cipherBlock_cipherBlock {mode : SboxMode} {sk row : List (RoundKey mode)}
    (first : sk.take 16 = row) (size : row.length = 16) (buf : Octets blockLen) (decrypt : Bool) :
    cipherBlock mode sk (cipherBlock mode sk buf decrypt) (!decrypt) = buf := by
  have back : rows sk (!decrypt) = (rows sk decrypt).reverse := by
    rw [rows_take first size, rows_take first size]
    cases decrypt <;> simp
  have there := cipherBlock_run mode sk buf decrypt
  have again := cipherBlock_run mode sk (cipherBlock mode sk buf decrypt) (!decrypt)
  simp only at there again
  rw [again, there, halves_ofHalves]
  simp only [Prod.fst_swap, Prod.snd_swap]
  rw [initial_final, back]
  have undone := @Feistel.run_reverse _ _ _ (roundFunction mode) xor_cancels (rows sk decrypt)
    (initialPermutation (halves buf).1 (halves buf).2)
  have restored := final_initial (halves buf).1 (halves buf).2
  rw [Prod.swap_prod_mk] at undone
  rw [undone, Prod.fst_swap, Prod.snd_swap, restored]
  exact ofHalves_halves buf

theorem cipherBlock_block {mode : SboxMode} {sk row : List (RoundKey mode)}
    (first : sk.take 16 = row) {keys : List (List Bool)} (packed : List.Forall₂ (Packed mode) row keys)
    (count : keys.length = 16) (wide : ∀ key ∈ keys, key.length = 48) (buf : Octets blockLen)
    (decrypt : Bool) : ofOctets (cipherBlock mode sk buf decrypt).bytes =
      Fips46.block (if decrypt then keys.reverse else keys) (ofOctets buf.bytes) := by
  have size : row.length = 16 := packed.length_eq.trans count
  have used : List.Forall₂ (fun k k' => ∀ half, bits (roundFunction mode k half) = Fips46.f k' (bits half))
      (rows sk decrypt) (if decrypt then keys.reverse else keys) := by
    have rounds : List.Forall₂
        (fun k k' => ∀ half, bits (roundFunction mode k half) = Fips46.f k' (bits half)) row keys := by
      apply List.forall₂_iff_get.mpr
      refine ⟨packed.length_eq, fun i inside inside' half => ?_⟩
      exact roundFunction_f ((List.forall₂_iff_get.mp packed).2 i inside inside')
        (wide _ (List.get_mem _ _)) half
    rw [rows_take first size]
    cases decrypt with
    | false => exact rounds
    | true => exact List.forall₂_reverse_iff.mpr rounds
  have mixed : ∀ a b : BitVec 32, bits (a ^^^ b) = Fips46.addBits (bits a) (bits b) := bits_xor
  have run := Feistel.run_map bits mixed used
    (initialPermutation (halves buf).1 (halves buf).2)
  have start := joined_initial (halves buf).1 (halves buf).2
  rw [Prod.mk.eta, joined_halves] at start
  have code := cipherBlock_run mode sk buf decrypt
  simp only at code
  rw [← joined_halves, code, halves_ofHalves, joined_final, Fips46.block]
  generalize Feistel.run _ _ (rows sk decrypt) _ = after at run ⊢
  have parts : (initialPermutation (halves buf).1 (halves buf).2).map bits bits =
      ((Fips46.permute Fips46.initial (ofOctets buf.bytes)).take 32,
        (Fips46.permute Fips46.initial (ofOctets buf.bytes)).drop 32) := by
    rw [← start, joined, List.take_left' (bits_length _), List.drop_left' (bits_length _)]
    rfl
  rw [parts] at run
  rw [← run]
  rfl

theorem schedule_length (mode : SboxMode) (key : Bytes) : (keySchedule mode key).length = 16 := by
  rw [(keySchedule_packed mode key).length_eq, Fips46.keySchedule, roundKeys_length]
  rfl

/-- A schedule that starts with the round keys of `key`. -/
def Starts {mode : SboxMode} (sk : List (RoundKey mode)) (key : Bytes) : Prop :=
  sk.take 16 = keySchedule mode key

section

variable {mode : SboxMode} {sk : List (RoundKey mode)} {key : Bytes} (starts : Starts sk key)

include starts

theorem Starts.enciphers (buf : Octets blockLen) : ofOctets (cipherBlock mode sk buf false).bytes =
      Fips46.encipher (ofOctets (key.take keyLen)) (ofOctets buf.bytes) :=
  cipherBlock_block starts (keySchedule_packed mode key) roundKeys_length roundKeys_width buf false

theorem Starts.deciphers (buf : Octets blockLen) : ofOctets (cipherBlock mode sk buf true).bytes =
      Fips46.decipher (ofOctets (key.take keyLen)) (ofOctets buf.bytes) :=
  cipherBlock_block starts (keySchedule_packed mode key) roundKeys_length roundKeys_width buf true

theorem Starts.inverts (buf : Octets blockLen) (decrypt : Bool) :
    cipherBlock mode sk (cipherBlock mode sk buf decrypt) (!decrypt) = buf :=
  cipherBlock_cipherBlock starts (schedule_length mode key) buf decrypt

end

theorem keySchedule_starts (mode : SboxMode) (key : Bytes) : Starts (keySchedule mode key) key :=
  List.take_of_length_le (Nat.le_of_eq (schedule_length mode key))

theorem scheduleKey_starts (mode : SboxMode) (key : Bytes) : Starts (scheduleKey mode key) key ∧
      (key.length ≠ keyLen → Starts ((scheduleKey mode key).drop 16) (key.drop keyLen)) ∧
      (key.length = keyLen2Key → Starts ((scheduleKey mode key).drop 32) key) ∧
      (key.length = keyLen3Key → Starts ((scheduleKey mode key).drop 32) (key.drop keyLen2Key)) := by
  have first := schedule_length mode key
  have second := schedule_length mode (key.drop keyLen)
  have third := schedule_length mode (key.drop keyLen2Key)
  unfold Starts scheduleKey
  refine ⟨?_, fun more => ?_, fun two => ?_, fun three => ?_⟩
  · split
    · exact keySchedule_starts mode key
    · split
      · rw [List.append_assoc, List.take_left' first]
      · rw [List.append_assoc, List.take_left' first]
  · rw [if_neg more]
    split
    · rw [List.append_assoc, List.drop_left' first, List.take_left' second]
    · rw [List.append_assoc, List.drop_left' first, List.take_left' second]
  · have before : (keySchedule mode key ++ keySchedule mode (key.drop keyLen)).length = 32 := by
      rw [List.length_append, first, second]
    rw [if_neg (by rw [two]; decide), if_pos two, List.drop_left' before]
    exact keySchedule_starts mode key
  · have before : (keySchedule mode key ++ keySchedule mode (key.drop keyLen)).length = 32 := by
      rw [List.length_append, first, second]
    rw [if_neg (by rw [three]; decide), if_neg (by rw [three]; decide), List.drop_left' before]
    exact keySchedule_starts mode (key.drop keyLen2Key)

namespace Fips46

def tdeaEncipher (k1 k2 k3 input : List Bool) : List Bool :=
  encipher k3 (decipher k2 (encipher k1 input))

def tdeaDecipher (k1 k2 k3 input : List Bool) : List Bool :=
  decipher k1 (encipher k2 (decipher k3 input))

end Fips46

/-- The keys of a bundle: a single key, or three of which the third may be the first again. -/
structure Bundle where
  key : Bytes
  size : key.length = keyLen ∨ key.length = keyLen2Key ∨ key.length = keyLen3Key

namespace Bundle

variable (bundle : Bundle)

def triple : Bool := bundle.key.length ≠ keyLen

def k1 : List Bool := ofOctets (bundle.key.take keyLen)

def k2 : List Bool := ofOctets ((bundle.key.drop keyLen).take keyLen)

def k3 : List Bool := if bundle.key.length = keyLen2Key then bundle.k1
  else ofOctets ((bundle.key.drop keyLen2Key).take keyLen)

def encipher (input : List Bool) : List Bool :=
  if bundle.triple then Fips46.tdeaEncipher bundle.k1 bundle.k2 bundle.k3 input
  else Fips46.encipher bundle.k1 input

def decipher (input : List Bool) : List Bool :=
  if bundle.triple then Fips46.tdeaDecipher bundle.k1 bundle.k2 bundle.k3 input
  else Fips46.decipher bundle.k1 input

end Bundle

section

variable (mode : SboxMode) (bundle : Bundle) (block : Octets blockLen)

theorem third_starts (triple : bundle.triple = true) :
    ∃ key, Starts ((scheduleKey mode bundle.key).drop 32) key ∧
      ofOctets (key.take keyLen) = bundle.k3 := by
  obtain ⟨-, -, two, three⟩ := scheduleKey_starts mode bundle.key
  by_cases pair : bundle.key.length = keyLen2Key
  · exact ⟨bundle.key, two pair, by rw [Bundle.k3, if_pos pair, Bundle.k1]⟩
  · have all : bundle.key.length = keyLen3Key := by
      rcases bundle.size with single | two | three
      · simp [Bundle.triple, single] at triple
      · exact absurd two pair
      · exact three
    exact ⟨bundle.key.drop keyLen2Key, three all, by rw [Bundle.k3, if_neg pair]⟩

theorem second_starts (triple : bundle.triple = true) :
    Starts ((scheduleKey mode bundle.key).drop 16) (bundle.key.drop keyLen) :=
  (scheduleKey_starts mode bundle.key).2.1 (by simpa [Bundle.triple] using triple)

theorem encryptScheduled_bits :
    ofOctets (encryptScheduled mode (scheduleKey mode bundle.key) block bundle.triple).bytes =
      bundle.encipher (ofOctets block.bytes) := by
  have first := (scheduleKey_starts mode bundle.key).1
  cases triple : bundle.triple with
  | false =>
    simp only [encryptScheduled, Bundle.encipher, triple, Bool.false_eq_true, if_false]
    exact first.enciphers block
  | true =>
    have second := second_starts mode bundle triple
    obtain ⟨key, third, same⟩ := third_starts mode bundle triple
    simp only [encryptScheduled, Bundle.encipher, triple, if_true]
    rw [third.enciphers, second.deciphers, first.enciphers, same]
    rfl

theorem decryptScheduled_bits :
    ofOctets (decryptScheduled mode (scheduleKey mode bundle.key) block bundle.triple).bytes =
      bundle.decipher (ofOctets block.bytes) := by
  have first := (scheduleKey_starts mode bundle.key).1
  cases triple : bundle.triple with
  | false =>
    simp only [decryptScheduled, Bundle.decipher, triple, Bool.not_false, if_true,
      Bool.false_eq_true, if_false]
    exact first.deciphers block
  | true =>
    have second := second_starts mode bundle triple
    obtain ⟨key, third, same⟩ := third_starts mode bundle triple
    simp only [decryptScheduled, Bundle.decipher, triple, Bool.not_true, Bool.false_eq_true,
      if_false, if_true]
    rw [first.deciphers, second.enciphers, third.deciphers, same]
    rfl

theorem Starts.decrypted {sk : List (RoundKey mode)} {key : Bytes} (starts : Starts sk key) :
    cipherBlock mode sk (cipherBlock mode sk block false) true = block := starts.inverts block false

theorem Starts.encrypted {sk : List (RoundKey mode)} {key : Bytes} (starts : Starts sk key) :
    cipherBlock mode sk (cipherBlock mode sk block true) false = block := starts.inverts block true

theorem scheduled_inverts : decryptScheduled mode (scheduleKey mode bundle.key)
        (encryptScheduled mode (scheduleKey mode bundle.key) block bundle.triple) bundle.triple =
      block ∧ encryptScheduled mode (scheduleKey mode bundle.key)
        (decryptScheduled mode (scheduleKey mode bundle.key) block bundle.triple) bundle.triple =
      block := by
  have first := (scheduleKey_starts mode bundle.key).1
  cases triple : bundle.triple with
  | false => exact ⟨first.decrypted mode block, first.encrypted mode block⟩
  | true =>
    have second := second_starts mode bundle triple
    obtain ⟨key, third, -⟩ := third_starts mode bundle triple
    constructor
    · simp only [decryptScheduled, encryptScheduled, Bool.not_true, Bool.false_eq_true, if_false,
        if_true]
      rw [third.decrypted, second.encrypted, first.decrypted]
    · simp only [decryptScheduled, encryptScheduled, Bool.not_true, Bool.false_eq_true, if_false,
        if_true]
      rw [first.encrypted, second.decrypted, third.encrypted]

end

/-- Both builds compute the permutation of FIPS 46-3 in both directions, which undo each other,
    and so do the bundles of one, two and three keys. -/
theorem des_builds (mode : SboxMode) (key block : Octets blockLen) (bundle : Bundle) :
    let ks := keySchedule mode key.bytes
    let sk := scheduleKey mode bundle.key
    (∀ decrypt, cipherBlock mode ks block decrypt =
      cipherBlock .fast (keySchedule .fast key.bytes) block decrypt) ∧
    ofOctets (cipherBlock mode ks block false).bytes =
      Fips46.encipher (ofOctets key.bytes) (ofOctets block.bytes) ∧
    ofOctets (cipherBlock mode ks block true).bytes =
      Fips46.decipher (ofOctets key.bytes) (ofOctets block.bytes) ∧
    (∀ decrypt, cipherBlock mode ks (cipherBlock mode ks block decrypt) (!decrypt) = block) ∧
    ofOctets (encryptScheduled mode sk block bundle.triple).bytes =
      bundle.encipher (ofOctets block.bytes) ∧
    ofOctets (decryptScheduled mode sk block bundle.triple).bytes =
      bundle.decipher (ofOctets block.bytes) ∧
    decryptScheduled mode sk (encryptScheduled mode sk block bundle.triple) bundle.triple = block ∧
    encryptScheduled mode sk (decryptScheduled mode sk block bundle.triple) bundle.triple =
      block := by
  intro ks sk
  have whole : key.bytes.take keyLen = key.bytes := List.take_of_length_le (Nat.le_of_eq key.size)
  have starts := keySchedule_starts mode key.bytes
  have starts' := keySchedule_starts .fast key.bytes
  have enciphers := starts.enciphers block
  have deciphers := starts.deciphers block
  obtain ⟨undone, redone⟩ := scheduled_inverts mode bundle block
  refine ⟨?_, whole ▸ enciphers, whole ▸ deciphers, starts.inverts block,
    encryptScheduled_bits mode bundle block, decryptScheduled_bits mode bundle block, undone, redone⟩
  intro decrypt
  apply Octets.ext
  apply ofOctets_injective
  · rw [Octets.size, Octets.size]
  · cases decrypt with
    | false => rw [starts.enciphers, starts'.enciphers]
    | true => rw [starts.deciphers, starts'.deciphers]

end TinyCrypto.Des
