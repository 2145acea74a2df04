import TinyCrypto.Des.Schedule

/-! # The cipher function of DES

The combined tables and the algebraic normal form both give the selection functions followed
by the permutation P. An output bit depends on the six input bits of one selection function.
-/

namespace TinyCrypto.Des

open Library BitString

def sboxValue (box x : Nat) : Nat :=
  ((Fips46.selectionTables.getD box []).getD (2 * (x / 32) + x % 2) []).getD (x / 2 % 16) 0

theorem select_code {six : List Bool} (size : six.length = 6) (box : Nat) :
    Fips46.select box six = highBits 4 (sboxValue box (code six)) := by
  have halves : ∀ x < 64,
      code [(highBits 6 x).getD 0 false, (highBits 6 x).getD 5 false] = 2 * (x / 32) + x % 2 ∧
        code (((highBits 6 x).drop 1).take 4) = x / 2 % 16 := by decide +kernel
  have bits := highBits_code six
  have small := code_lt six
  rw [size] at bits small
  obtain ⟨row, column⟩ := halves (code six) small
  rw [bits] at row column
  rw [Fips46.select, row, column, sboxValue]

/-- The place in the output of the selection functions that P takes bit `i` from. -/
def sourceBit (i : Nat) : Nat := Fips46.roundPermutation.getD i 0 - 1

def targetBits : List Nat := [8, 16, 22, 30, 12, 27, 1, 17, 23, 15, 29, 5, 25, 19, 9, 0,
    7, 13, 24, 2, 3, 28, 10, 18, 31, 11, 21, 6, 4, 26, 14, 20]

/-- Four bits of selection function `box` at their places after P. -/
def spread (box nibble : Nat) : BitVec 32 := (List.range 4).foldl
    (fun word k => word |||
      (if nibble.testBit (3 - k) then (1 : BitVec 32) <<< (31 - targetBits.getD (4 * box + k) 0)
        else 0))
    0

def combined (box x : Nat) : BitVec 32 := spread box (sboxValue box x)

def combinedTables (input : Nat → Nat) : BitVec 32 :=
  sp1.getD (input 0) 0 ^^^ sp2.getD (input 1) 0 ^^^ sp3.getD (input 2) 0 ^^^
    sp4.getD (input 3) 0 ^^^ sp5.getD (input 4) 0 ^^^ sp6.getD (input 5) 0 ^^^
    sp7.getD (input 6) 0 ^^^ sp8.getD (input 7) 0

/-- The normal form where all selection functions read the same bits. -/
def anfWord (x : Nat) : BitVec 32 := (List.range' 1 63).foldl
    (fun result monomial => result ^^^ (if monomial &&& x = monomial then sboxAnf.getD monomial 0 else 0))
    (sboxAnf.getD 0 0)

theorem tables : ([sp1, sp2, sp3, sp4, sp5, sp6, sp7, sp8] =
      (List.range 8).map fun box => (List.range 64).map (combined box)) ∧
    ((List.range 64).map anfWord =
      [sp2, sp3, sp4, sp5, sp6, sp7, sp8].foldl (List.zipWith (· ^^^ ·)) sp1) ∧
    (∀ box < 8, ∀ i < 32, (sboxOutputMasks.getD box 0).getLsbD (31 - i) =
      decide (sourceBit i / 4 = box)) ∧
    (∀ i < 32, sourceBit i < 32 ∧ targetBits.getD (sourceBit i) 0 = i) ∧
    ∀ place < 32, targetBits.getD place 0 < 32 ∧ sourceBit (targetBits.getD place 0) = place := by
  decide +kernel

variable {i box x v : Nat}

theorem sourceBit_lt (inside : i < 32) : sourceBit i / 4 < 8 := by
  have := (tables.2.2.2.1 i inside).1
  omega

theorem spread_bit {nibble : Nat} (small : box < 8) (inside : i < 32) :
    (spread box nibble).getLsbD (31 - i) =
      (decide (sourceBit i / 4 = box) && nibble.testBit (3 - sourceBit i % 4)) := by
  obtain ⟨below, back⟩ := tables.2.2.2.1 i inside
  have start : (0 : BitVec 32).getLsbD (31 - i) = false := BitVec.getLsbD_zero
  rw [spread, BitWords.foldl_or_bit, start, Bool.false_or, Bool.eq_iff_iff]
  simp only [BitWords.oneBit_bit _ (show 31 - i < 32 by omega), List.any_eq_true, List.mem_range,
    Bool.and_eq_true, decide_eq_true_eq]
  constructor
  · rintro ⟨k, few, set, place⟩
    obtain ⟨target, forth⟩ := tables.2.2.2.2 (4 * box + k) (by omega)
    have same : targetBits.getD (4 * box + k) 0 = i := by omega
    rw [same] at forth
    rw [forth]
    refine ⟨by omega, ?_⟩
    rwa [show (4 * box + k) % 4 = k by omega]
  · rintro ⟨rfl, set⟩
    refine ⟨sourceBit i % 4, Nat.mod_lt _ (by decide), set, ?_⟩
    rw [Nat.div_add_mod, back]

theorem combined_bit (small : box < 8) (inside : i < 32) : (combined box x).getLsbD (31 - i) =
      (decide (sourceBit i / 4 = box) && (sboxValue box x).testBit (3 - sourceBit i % 4)) :=
  spread_bit small inside

theorem table_getD {box x : Nat} {sp : List (BitVec 32)}
    (same : [sp1, sp2, sp3, sp4, sp5, sp6, sp7, sp8].getD box [] = sp) (small : box < 8)
    (inside : x < 64) : sp.getD x 0 = combined box x := by
  rw [← same, tables.1]
  simp [List.getD_eq_getElem?_getD, small, inside]

theorem combinedTables_bit {input : Nat → Nat} (small : ∀ box < 8, input box < 64) {i : Nat}
    (inside : i < 32) : (combinedTables input).getLsbD (31 - i) =
      (sboxValue (sourceBit i / 4) (input (sourceBit i / 4))).testBit (3 - sourceBit i % 4) := by
  rw [combinedTables, @table_getD 0 _ sp1 rfl (by decide) (small 0 (by decide)),
    @table_getD 1 _ sp2 rfl (by decide) (small 1 (by decide)),
    @table_getD 2 _ sp3 rfl (by decide) (small 2 (by decide)),
    @table_getD 3 _ sp4 rfl (by decide) (small 3 (by decide)),
    @table_getD 4 _ sp5 rfl (by decide) (small 4 (by decide)),
    @table_getD 5 _ sp6 rfl (by decide) (small 5 (by decide)),
    @table_getD 6 _ sp7 rfl (by decide) (small 6 (by decide)),
    @table_getD 7 _ sp8 rfl (by decide) (small 7 (by decide))]
  have owner := sourceBit_lt inside
  simp only [BitVec.getLsbD_xor, combined_bit (show 0 < 8 by decide) inside,
    combined_bit (show 1 < 8 by decide) inside, combined_bit (show 2 < 8 by decide) inside,
    combined_bit (show 3 < 8 by decide) inside, combined_bit (show 4 < 8 by decide) inside,
    combined_bit (show 5 < 8 by decide) inside, combined_bit (show 6 < 8 by decide) inside,
    combined_bit (show 7 < 8 by decide) inside]
  generalize sourceBit i / 4 = box at *
  interval_cases box <;> simp

theorem selected_bit (x : BitVec 8) (bit : Nat) {j : Nat} (inside : j < 32) :
    (0 - ((x >>> bit) &&& 1).setWidth 32 : BitVec 32).getLsbD j = x.getLsbD bit := by
  have single : ((x >>> bit) &&& 1).setWidth 32 = if x.getLsbD bit then 1#32 else 0#32 := by
    apply BitVec.eq_of_getLsbD_eq
    intro k _
    rw [BitVec.getLsbD_setWidth, single_bit]
    cases x.getLsbD bit with
    | false => simp
    | true =>
      cases k with
      | zero => simp
      | succ k => simp [BitVec.getLsbD_one]
  rw [single]
  cases x.getLsbD bit with
  | false => simp
  | true =>
    have ones : (0 - 1#32 : BitVec 32) = BitVec.allOnes 32 := by decide
    simp only [if_true, ones, BitVec.getLsbD_allOnes, inside, decide_true]

theorem inputPlane_bit (inputs : List (BitVec 8)) (bit : Nat) (inside : i < 32) :
    (inputPlane inputs bit).getLsbD (31 - i) = (inputs.getD (sourceBit i / 4) 0).getLsbD bit := by
  have start : (0 : BitVec 32).getLsbD (31 - i) = false := BitVec.getLsbD_zero
  have owner := sourceBit_lt inside
  have masks := tables.2.2.1
  rw [inputPlane, BitWords.foldl_or_bit, start, Bool.false_or, Bool.eq_iff_iff]
  simp only [List.any_eq_true, List.mem_range, BitVec.getLsbD_and, Bool.and_eq_true,
    selected_bit _ _ (show 31 - i < 32 by omega)]
  constructor
  · rintro ⟨box, few, set, mask⟩
    rw [masks box few i inside, decide_eq_true_eq] at mask
    rwa [mask]
  · intro set
    refine ⟨sourceBit i / 4, owner, set, ?_⟩
    rw [masks _ owner i inside, decide_eq_true_eq]

theorem variable_selected (monomial bit : Nat) :
    monomial &&& (1 <<< bit) ≠ 0 ↔ monomial.testBit bit = true := by
  rw [Nat.one_shiftLeft, Nat.and_two_pow]
  cases monomial.testBit bit with
  | false => simp
  | true => simp

theorem monomialTerm_bit (planes : List (BitVec 32)) (monomial : Nat) {j : Nat} (inside : j < 32) :
    (monomialTerm planes monomial).getLsbD j = true ↔
      ∀ bit < 6, monomial.testBit bit = true → (planes.getD bit 0).getLsbD j = true := by
  have run : ∀ (list : List Nat) (start : BitVec 32), (list.foldl (fun term bit =>
        if monomial &&& (1 <<< bit) ≠ 0 then term &&& planes.getD bit 0 else term)
        start).getLsbD j = true ↔ start.getLsbD j = true ∧
          ∀ bit ∈ list, monomial.testBit bit = true → (planes.getD bit 0).getLsbD j = true := by
    intro list
    induction list with
    | nil => simp
    | cons bit rest ih =>
      intro start
      rw [List.foldl_cons, ih]
      by_cases set : monomial &&& (1 <<< bit) ≠ 0
      · have selected := (variable_selected monomial bit).mp set
        simp [set, selected, and_assoc]
      · have skipped : monomial.testBit bit = false := by
          rw [← Bool.not_eq_true]
          exact mt (variable_selected monomial bit).mpr set
        rw [if_neg set]
        simp [skipped]
  have all := run (List.range 6) (BitVec.allOnes 32)
  rw [BitVec.getLsbD_allOnes, decide_eq_true inside] at all
  simpa [monomialTerm] using all

theorem monomial_subset {monomial : Nat} (small : monomial < 64) (x : Nat) :
    (∀ bit < 6, monomial.testBit bit = true → x.testBit bit = true) ↔ monomial &&& x = monomial := by
  constructor
  · intro covers
    apply Nat.eq_of_testBit_eq
    intro bit
    rw [Nat.testBit_and]
    by_cases low : bit < 6
    · cases set : monomial.testBit bit with
      | false => rfl
      | true => rw [covers bit low set, Bool.and_self]
    · have high : 2 ^ 6 ≤ 2 ^ bit := Nat.pow_le_pow_right (by decide) (by omega)
      rw [Nat.testBit_lt_two_pow (by omega), Bool.false_and]
  · intro same bit _ set
    rw [← same, Nat.testBit_and, Bool.and_eq_true] at set
    exact set.2

theorem anfRound_bit (inputs : List (BitVec 8)) {i : Nat} (inside : i < 32) :
    (anfRound inputs).getLsbD (31 - i) =
      (anfWord (inputs.getD (sourceBit i / 4) 0).toNat).getLsbD (31 - i) := by
  rw [anfRound, anfWord, BitWords.foldl_xor_bit, BitWords.foldl_xor_bit]
  apply List.foldl_ext
  intro before monomial member
  have small : monomial < 64 := by
    have := List.mem_range'_1.mp member
    omega
  congr 1
  have term := @monomialTerm_bit ((List.range 6).map (inputPlane inputs)) monomial (31 - i) (by omega)
  have planes : (∀ bit < 6, monomial.testBit bit = true →
      (((List.range 6).map (inputPlane inputs)).getD bit 0).getLsbD (31 - i) = true) ↔
      ∀ bit < 6, monomial.testBit bit = true →
        (inputs.getD (sourceBit i / 4) 0).toNat.testBit bit = true := by
    refine forall₂_congr fun bit low => ?_
    have plane : ((List.range 6).map (inputPlane inputs)).getD bit 0 = inputPlane inputs bit := by
      simp [List.getD_eq_getElem?_getD, low]
    rw [plane, inputPlane_bit _ _ inside, BitVec.testBit_toNat]
  rw [planes, monomial_subset small] at term
  rw [BitVec.getLsbD_and]
  by_cases covered : monomial &&& (inputs.getD (sourceBit i / 4) 0).toNat = monomial
  · rw [if_pos covered, term.mpr covered, Bool.true_and]
  · rw [if_neg covered, Bool.eq_false_iff.mpr (mt term.mp covered), Bool.false_and]
    exact BitVec.getLsbD_zero.symm

theorem zipWith_xor_getD {first second : List (BitVec 32)} (same : first.length = second.length)
    (x : Nat) : (List.zipWith (· ^^^ ·) first second).getD x 0 = first.getD x 0 ^^^ second.getD x 0 := by
  by_cases inside : x < first.length
  · simp [List.getD_eq_getElem?_getD, inside, same ▸ inside]
  · simp [List.getD_eq_getElem?_getD, inside, same ▸ inside]

theorem sum_getD {lists : List (List (BitVec 32))} {start : List (BitVec 32)}
    (same : ∀ list ∈ lists, start.length = list.length) (x : Nat) :
    (lists.foldl (List.zipWith (· ^^^ ·)) start).getD x 0 =
      lists.foldl (fun word list => word ^^^ list.getD x 0) (start.getD x 0) := by
  induction lists generalizing start with
  | nil => rfl
  | cons list rest ih =>
    have size := same list (List.mem_cons_self ..)
    have later := @ih (List.zipWith (· ^^^ ·) start list) (by
      intro other member
      rw [List.length_zipWith, ← size, Nat.min_self]
      exact same other (List.mem_cons_of_mem _ member))
    rw [List.foldl_cons, later, zipWith_xor_getD size]
    rfl

theorem anfWord_combined (small : x < 64) : anfWord x = combinedTables fun _ => x := by
  have entry := congrArg (·.getD x 0) tables.2.1
  have here : ((List.range 64).map anfWord).getD x 0 = anfWord x := by
    simp [List.getD_eq_getElem?_getD, small]
  simp only [here] at entry
  rw [entry, sum_getD (by decide)]
  rfl

theorem anfRound_combined {inputs : List (BitVec 8)} (small : ∀ box < 8, (inputs.getD box 0).toNat < 64) :
    anfRound inputs = combinedTables fun box => (inputs.getD box 0).toNat := by
  apply BitVec.eq_of_getLsbD_eq
  intro j inside
  have bit := @anfRound_bit inputs (31 - j) (by omega)
  have owner := sourceBit_lt (show 31 - j < 32 by omega)
  have value := small _ owner
  rw [show 31 - (31 - j) = j by omega] at bit
  rw [bit, anfWord_combined value]
  have left := @combinedTables_bit (fun _ => (inputs.getD (sourceBit (31 - j) / 4) 0).toNat)
    (fun _ _ => value) (31 - j) (by omega)
  have right := @combinedTables_bit (fun box => (inputs.getD box 0).toNat) small (31 - j) (by omega)
  rw [show 31 - (31 - j) = j by omega] at left right
  rw [left, right]

open BitWords (bits bits_getD bits_ext bits_length rotate_bit eq_of_low_bits)

def boxInput (key : List Bool) (half : BitVec 32) (box : Nat) : Nat :=
  code (((Fips46.addBits (Fips46.permute Fips46.expansion (bits half)) key).drop (6 * box)).take 6)

section

variable {key : List Bool} (half : BitVec 32)

section

variable (size : key.length = 48)

include size

theorem added_length :
    (Fips46.addBits (Fips46.permute Fips46.expansion (bits half)) key).length = 48 := by
  rw [Fips46.addBits, List.length_zipWith, size, Fips46.permute, List.length_map]
  rfl

theorem group_length {box : Nat} (small : box < 8) :
    (((Fips46.addBits (Fips46.permute Fips46.expansion (bits half)) key).drop (6 * box)).take
      6).length = 6 := by
  rw [List.length_take, List.length_drop, added_length half size]
  omega

theorem boxInput_lt {box : Nat} (small : box < 8) : boxInput key half box < 64 := by
  have below := code_lt
    (((Fips46.addBits (Fips46.permute Fips46.expansion (bits half)) key).drop (6 * box)).take 6)
  rwa [group_length half size small] at below

theorem boxInput_bit {box v : Nat} (small : box < 8) (low : v < 6) :
    (boxInput key half box).testBit v =
      (half.getLsbD ((59 - 4 * box + v) % 32) ^^ key.getD (6 * box + 5 - v) false) := by
  have expanded : ∀ box < 8, ∀ v < 6,
      32 - Fips46.expansion.getD (6 * box + 5 - v) 0 = (59 - 4 * box + v) % 32 ∧
        0 < Fips46.expansion.getD (6 * box + 5 - v) 0 ∧
        Fips46.expansion.getD (6 * box + 5 - v) 0 ≤ 32 := by decide
  obtain ⟨place, pos, most⟩ := expanded box small v low
  have inside : 6 * box + 5 - v < 48 := by omega
  have group := group_length half size small
  have expansion : (Fips46.permute Fips46.expansion (bits half)).getD (6 * box + 5 - v) false =
      half.getLsbD ((59 - 4 * box + v) % 32) := by
    have many : 6 * box + 5 - v < Fips46.expansion.length := inside
    rw [Fips46.permute, List.getD_eq_getElem _ _ (by rwa [List.length_map]), List.getElem_map,
      ← List.getD_eq_getElem _ 0 many, bits_getD half (by omega), ← place]
    congr 1
    omega
  rw [boxInput, code_testBit (by rw [group]; exact low), group, ← expansion,
    List.getD_eq_getElem _ _ (by rw [group]; omega), List.getElem_take, List.getElem_drop]
  have wide : 6 * box + 5 - v < (Fips46.permute Fips46.expansion (bits half)).length := by
    rw [Fips46.permute, List.length_map]
    exact inside
  simp only [Fips46.addBits, List.getElem_zipWith, List.getD_eq_getElem?_getD,
    List.getElem?_eq_getElem wide, List.getElem?_eq_getElem (size ▸ inside), Option.getD_some,
    show 6 * box + (6 - 1 - v) = 6 * box + 5 - v by omega]

theorem combinedTables_f :
    bits (combinedTables (boxInput key half)) = Fips46.f key (bits half) := by
  apply bits_ext
  · rw [Fips46.f, Fips46.permute, List.length_map]
    rfl
  · intro i inside
    have below := (tables.2.2.2.1 i inside).1
    have owner := sourceBit_lt inside
    have selected : ∀ box < 8, (Fips46.select box
        (((Fips46.addBits (Fips46.permute Fips46.expansion (bits half)) key).drop (6 * box)).take
          6)) = highBits 4 (sboxValue box (boxInput key half box)) :=
      fun box small => select_code (group_length half size small) box
    have many : i < Fips46.roundPermutation.length := inside
    rw [combinedTables_bit (fun box small => boxInput_lt half size small) inside, Fips46.f,
      Fips46.permute, List.getD_eq_getElem _ _ (by rwa [List.length_map]), List.getElem_map,
      ← List.getD_eq_getElem _ 0 many, ← sourceBit, Fips46.substitute,
      flatMap_getD (fun box small => by rw [selected box small, highBits_length]) false
        (show sourceBit i < 4 * 8 by omega), selected _ owner,
      highBits_getD _ (Nat.mod_lt _ (by decide))]

end

end

theorem sixBits_eq {t : BitVec 32} {shift : Nat} (small : x < 64)
    (same : ∀ v < 6, t.getLsbD (shift + v) = x.testBit v) : sixBits t shift = x := by
  have mask : ∀ v < 6, (0x3f : BitVec 32).getLsbD v = true := by decide
  have below : sixBits t shift < 64 := by
    rw [sixBits, BitVec.toNat_and]
    exact Nat.lt_of_le_of_lt Nat.and_le_right (by decide)
  apply eq_of_low_bits (show sixBits t shift < 2 ^ 6 from below) small
  intro v low
  rw [sixBits, BitVec.testBit_toNat, BitVec.getLsbD_and, mask v low, Bool.and_true,
    BitVec.getLsbD_ushiftRight, same v low]

def fastWord (word : Nat → BitVec 32) (half : BitVec 32) (box : Nat) : BitVec 32 :=
  if box % 2 = 0 then (half >>> 3 ||| half <<< 29) ^^^ word 1
  else (half <<< 1 ||| half >>> 31) ^^^ word 0

theorem fast_input {word : Nat → BitVec 32} {key : List Bool}
    (packed : ∀ i < 48, (word (SboxMode.fast.word i)).getLsbD (SboxMode.fast.shiftInWord i) =
      key.getD i false) (size : key.length = 48) (half : BitVec 32) {box : Nat} (small : box < 8) :
    sixBits (fastWord word half box) (8 * (3 - box / 2)) = boxInput key half box := by
  have places : ∀ box < 8, ∀ v < 6, SboxMode.fast.word (6 * box + 5 - v) = 1 - box % 2 ∧
        SboxMode.fast.shiftInWord (6 * box + 5 - v) = 8 * (3 - box / 2) + v := by decide
  apply sixBits_eq (boxInput_lt half size small)
  intro v low
  obtain ⟨place, shift⟩ := places box small v low
  have stored := packed (6 * box + 5 - v) (by omega)
  rw [place, shift] at stored
  rw [boxInput_bit half size small low, ← stored]
  rcases Nat.mod_two_eq_zero_or_one box with even | odd
  · have turned := @rotate_bit 32 half 29 (8 * (3 - box / 2) + v) (by omega) (by decide)
    rw [fastWord, if_pos even, even, BitVec.getLsbD_xor, BitVec.or_comm, turned]
    congr 2
    omega
  · have turned := @rotate_bit 32 half 1 (8 * (3 - box / 2) + v) (by omega) (by decide)
    rw [fastWord, if_neg (by omega), odd, BitVec.getLsbD_xor, turned]
    congr 2
    omega

theorem window_bit (half : BitVec 32) (shift : Nat) (low : v < 8) :
    ((half >>> shift &&& 0x3F).setWidth 8).getLsbD v =
      (decide (v < 6) && half.getLsbD (shift + v)) := by
  have mask : ∀ v < 8, (0x3F : BitVec 32).getLsbD v = decide (v < 6) := by decide
  rw [BitVec.getLsbD_setWidth, BitVec.getLsbD_and, mask v low, BitVec.getLsbD_ushiftRight,
    decide_eq_true low, Bool.true_and, Bool.and_comm]

theorem expandHalf_bit (half : BitVec 32) (small : box < 8) (low : v < 8) :
    ((expandHalf half).getD box 0).getLsbD v =
      (decide (v < 6) && half.getLsbD ((59 - 4 * box + v) % 32)) := by
  have first : (((half &&& 1) <<< 5 ||| (half >>> 27 &&& 0x1F)).setWidth 8).getLsbD v =
      (decide (v < 6) && half.getLsbD ((59 + v) % 32)) := by
    interval_cases v <;> simp
  have last : (((half &&& 0x1F) <<< 1 ||| (half >>> 31 &&& 1)).setWidth 8).getLsbD v =
      (decide (v < 6) && half.getLsbD ((31 + v) % 32)) := by
    interval_cases v <;> simp
  by_cases middle : 0 < box ∧ box < 7
  · have window := window_bit half (27 - 4 * box) low
    rw [show (59 - 4 * box + v) % 32 = 27 - 4 * box + v by omega, ← window]
    have inner : ∀ box, 0 < box ∧ box < 7 → (expandHalf half).getD box 0 =
        (half >>> (27 - 4 * box) &&& 0x3F).setWidth 8 := by
      intro box middle
      obtain ⟨pos, below⟩ := middle
      interval_cases box <;> rfl
    rw [inner box middle]
  · rcases show box = 0 ∨ box = 7 by omega with rfl | rfl
    · exact first
    · exact last

theorem split_bit (a b c : BitVec 8) (small : box < 4) (low : v < 8) :
    ([a >>> 2, (a &&& 0x03) <<< 4 ||| b >>> 4, (b &&& 0x0f) <<< 2 ||| c >>> 6, c &&& 0x3f].getD box
        0).getLsbD v = (decide (v < 6) &&
        ([a, b, c].getD ((6 * box + 5 - v) / 8) 0).getLsbD (7 - (6 * box + 5 - v) % 8)) := by
  interval_cases box <;> interval_cases v <;> simp

theorem splitKey_bit {row : RoundKey .constantTime} {key : List Bool}
    (packed : Packed .constantTime row key) (small : box < 8) (low : v < 8) :
    ((splitKey row).getD box 0).getLsbD v =
      (decide (v < 6) && key.getD (6 * box + 5 - v) false) := by
  let byte (i : Nat) : BitVec 8 := row.getD i 0
  have stored : ∀ i < 48, (byte (i / 8)).getLsbD (7 - i % 8) = key.getD i false := packed
  have halves : splitKey row = [byte 0 >>> 2, (byte 0 &&& 0x03) <<< 4 ||| byte 1 >>> 4,
        (byte 1 &&& 0x0f) <<< 2 ||| byte 2 >>> 6, byte 2 &&& 0x3f] ++
      [byte 3 >>> 2, (byte 3 &&& 0x03) <<< 4 ||| byte 4 >>> 4,
        (byte 4 &&& 0x0f) <<< 2 ||| byte 5 >>> 6, byte 5 &&& 0x3f] := rfl
  have three : ∀ (first i : Nat), i < 3 →
      [byte first, byte (first + 1), byte (first + 2)].getD i 0 = byte (first + i) := by
    intro first i few
    interval_cases i <;> rfl
  by_cases six : v < 6
  · rw [← stored _ (by omega)]
    by_cases before : box < 4
    · rw [halves, List.getD_append _ _ _ _ (by simpa using before), split_bit _ _ _ before low,
        three 0 _ (by omega), Nat.zero_add]
    · have late : box - 4 < 4 := by omega
      rw [halves, List.getD_append_right _ _ _ _ (by simpa using before)]
      simp only [List.length_cons, List.length_nil]
      rw [split_bit _ _ _ late low, three 3 _ (by omega)]
      congr 3
      · omega
      · omega
  · by_cases before : box < 4
    · rw [halves, List.getD_append _ _ _ _ (by simpa using before), split_bit _ _ _ before low,
        decide_eq_false six, Bool.false_and, Bool.false_and]
    · have late : box - 4 < 4 := by omega
      rw [halves, List.getD_append_right _ _ _ _ (by simpa using before)]
      simp only [List.length_cons, List.length_nil]
      rw [split_bit _ _ _ late low, decide_eq_false six, Bool.false_and, Bool.false_and]

theorem anf_input {row : RoundKey .constantTime} {key : List Bool}
    (packed : Packed .constantTime row key) (size : key.length = 48) (half : BitVec 32) {box : Nat}
    (small : box < 8) :
    ((List.zipWith (· ^^^ ·) (expandHalf half) (splitKey row)).getD box 0).toNat =
      boxInput key half box := by
  have sum : (List.zipWith (· ^^^ ·) (expandHalf half) (splitKey row)).getD box 0 =
      (expandHalf half).getD box 0 ^^^ (splitKey row).getD box 0 := by
    interval_cases box <;> rfl
  have wide : boxInput key half box < 2 ^ 8 :=
    Nat.lt_trans (boxInput_lt half size small) (by decide)
  apply eq_of_low_bits (BitVec.isLt _) wide
  intro v low
  rw [BitVec.testBit_toNat, sum, BitVec.getLsbD_xor, expandHalf_bit half small low,
    splitKey_bit packed small low]
  by_cases six : v < 6
  · rw [boxInput_bit half size small six, decide_eq_true six, Bool.true_and, Bool.true_and]
  · have high : 2 ^ 6 ≤ 2 ^ v := Nat.pow_le_pow_right (by decide) (by omega)
    have none := boxInput_lt half size small
    rw [decide_eq_false six, Bool.false_and, Bool.false_and, Bool.xor_false,
      Nat.testBit_lt_two_pow (by omega)]

theorem roundFunction_f {mode : SboxMode} {row : RoundKey mode} {key : List Bool}
    (packed : Packed mode row key) (size : key.length = 48) (half : BitVec 32) :
    bits (roundFunction mode row half) = Fips46.f key (bits half) := by
  rw [← combinedTables_f half size]
  cases mode with
  | constantTime =>
    have inputs := fun box small => @anf_input row key packed size half box small
    have small : ∀ box < 8,
        ((List.zipWith (· ^^^ ·) (expandHalf half) (splitKey row)).getD box 0).toNat < 64 := by
      intro box few
      rw [inputs box few]
      exact boxInput_lt half size few
    rw [roundFunction, anfRound_combined small]
    simp only [combinedTables, inputs 0 (by decide), inputs 1 (by decide), inputs 2 (by decide),
      inputs 3 (by decide), inputs 4 (by decide), inputs 5 (by decide), inputs 6 (by decide),
      inputs 7 (by decide)]
  | fast =>
    let word (i : Nat) : BitVec 32 := row.getD i 0
    have inputs := fun box small => @fast_input word key packed size half box small
    rw [combinedTables, ← inputs 0 (by decide), ← inputs 1 (by decide), ← inputs 2 (by decide),
      ← inputs 3 (by decide), ← inputs 4 (by decide), ← inputs 5 (by decide),
      ← inputs 6 (by decide), ← inputs 7 (by decide)]
    have code : roundFunction .fast row half = sp8.getD (sixBits (fastWord word half 7) 0) 0 ^^^
        sp6.getD (sixBits (fastWord word half 5) 8) 0 ^^^
        sp4.getD (sixBits (fastWord word half 3) 16) 0 ^^^
        sp2.getD (sixBits (fastWord word half 1) 24) 0 ^^^
        (sp7.getD (sixBits (fastWord word half 6) 0) 0 ^^^
        sp5.getD (sixBits (fastWord word half 4) 8) 0 ^^^
        sp3.getD (sixBits (fastWord word half 2) 16) 0 ^^^
        sp1.getD (sixBits (fastWord word half 0) 24) 0) := rfl
    rw [code]
    congr 1
    ac_rfl

end TinyCrypto.Des
