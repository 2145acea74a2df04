import TinyCrypto.Mp.LimbsEuclid
import TinyCrypto.Mp.LimbsPowers

/-! # Strong probable primes on limbs

`mp_prime_internal.h` on arrays of words of whole bytes.
-/

namespace TinyCrypto.Mp.Limbs

open Library.ByteCounter (value ofValue)
open Library.Primality (StrongProbablePrime)
open Library.Words

section

variable {w : Nat}

/-- `--p[0]`, for odd `p`. -/
def decrementLow (p : List (BitVec w)) : List (BitVec w) := p.modify 0 (· - 1)

/-- `tc_mp_equal`. -/
def equal (a b : List (BitVec w)) : Bool := (List.zipWith (· ^^^ ·) a b).foldl (· ||| ·) 0 = 0

def wordBits (words : List (BitVec w)) : List Bool :=
  words.flatMap fun word => (List.range w).map word.getLsbD

/-- The counting loops of `tc_mp_miller_rabin_prepare`. -/
def trailingZeros (odd : List (BitVec w)) : Nat :=
  ((wordBits odd).foldl (fun (state : Bool × Nat) bit =>
    let counting := state.1 && !bit
    (counting, state.2 + counting.toNat)) (true, 0)).2

def oddPart (odd : List (BitVec w)) (bits twos : Nat) : List (BitVec w) :=
  (List.range bits).foldl (fun odd step =>
    select (shiftRight odd 0).1 odd (0 - (BitVec.ofBool (step < twos)).setWidth w)) odd

end

variable {s : Nat}

structure Prepared (s : Nat) where
  r2 : List (BitVec (8 * s))
  exponent : Bytes
  one : List (BitVec (8 * s))
  minusOne : List (BitVec (8 * s))

/-- `tc_mp_miller_rabin_prepare`. -/
def millerRabinPrepare (p : List (BitVec (8 * s))) : Nat × Prepared s :=
  let odd := decrementLow p
  let twos := trailingZeros odd
  let odd := oddPart odd (p.length * (8 * s)) twos
  let r2 := montgomeryR2 p
  let one := (montgomery (modulusOf p) (one p.length) r2).words
  (twos, ⟨r2, toBe s odd, one, (subtract p one).1⟩)

/-- `tc_mp_miller_rabin_round`. -/
def millerRabinRound (p base : List (BitVec (8 * s))) (twos : Nat) (prepared : Prepared s) : Bool :=
  let field := modulusOf p
  let encoded := (montgomery field base prepared.r2).words
  let start := power field encoded prepared.exponent prepared.one
  let passed := equal start prepared.one || equal start prepared.minusOne
  ((List.range' 1 (p.length * (8 * s) - 1)).foldl
    (fun (state : List (BitVec (8 * s)) × Bool) step =>
      let squared := (montgomery field state.1 state.1).words
      (squared, state.2 || (step < twos && equal squared prepared.minusOne)))
    (start, passed)).2

section

variable {w : Nat}

theorem decrementLow_spec (positive : 0 < w) {p : List (BitVec w)} (odd : number p % 2 = 1) :
    (decrementLow p).length = p.length ∧ number (decrementLow p) = number p - 1 := by
  have parity := first_parity positive p
  cases p with
  | nil => simp at odd
  | cons x rest =>
    rw [odd, List.getD_cons_zero] at parity
    have one : (1 : BitVec w).toNat = 1 := by
      rw [flag_true, flag_toNat positive, Bool.toNat_true]
    have low : (x - 1).toNat = x.toNat - 1 := by
      have bound := x.isLt
      have total : 2 ^ w - 1 + x.toNat = x.toNat - 1 + 2 ^ w := by omega
      rw [BitVec.toNat_sub, one, total, Nat.add_mod_right, Nat.mod_eq_of_lt (by omega)]
    refine ⟨by simp [decrementLow], ?_⟩
    rw [decrementLow, List.modify_zero_cons, number_cons, number_cons, low]
    omega

theorem equal_iff {a b : List (BitVec w)} (size : a.length = b.length) :
    equal a b = true ↔ a = b := by
  rw [equal, decide_eq_true_eq]
  have each : ∀ start : BitVec w, (List.zipWith (· ^^^ ·) a b).foldl (· ||| ·) start = 0 ↔
      start = 0 ∧ a = b := by
    induction a generalizing b with
    | nil =>
      cases b with
      | nil => simp
      | cons y b => cases size
    | cons x a ih =>
      cases b with
      | nil => cases size
      | cons y b =>
        intro start
        rw [List.zipWith_cons_cons, List.foldl_cons, ih (Nat.succ.inj size), List.cons.injEq,
          zero_iff, BitVec.toNat_or, Nat.or_eq_zero_iff, ← zero_iff, ← zero_iff, and_assoc]
        exact and_congr_right fun _ => and_congr_left fun _ => BitVec.xor_eq_zero_iff
  rw [each 0]
  exact and_iff_right rfl

theorem equal_number {a b : List (BitVec w)} (size : a.length = b.length) :
    equal a b = decide (number a = number b) := by
  rw [Bool.eq_iff_iff, equal_iff size, decide_eq_true_eq]
  exact ⟨congrArg number, number_injective size⟩

theorem wordBits_eq (words : List (BitVec w)) :
    wordBits words = (List.range (words.length * w)).map (number words).testBit := by
  induction words with
  | nil => simp [wordBits]
  | cons x rest ih =>
    have width : (rest.length + 1) * w = w + rest.length * w := by ring
    rw [wordBits, List.flatMap_cons, List.length_cons, width, List.range_add, List.map_append,
      List.map_map]
    rw [wordBits] at ih
    rw [ih]
    congr 1
    · apply List.map_congr_left
      intro i member
      rw [List.mem_range] at member
      rw [number_cons, Nat.add_comm, Nat.testBit_two_pow_mul_add _ x.isLt, if_pos member]
      rfl
    · apply List.map_congr_left
      intro i _
      rw [Function.comp_apply, number_cons, Nat.add_comm x.toNat,
        Nat.testBit_two_pow_mul_add _ x.isLt, if_neg (by omega), Nat.add_sub_cancel_left]

theorem trailingZeros_eq (odd : List (BitVec w)) :
    trailingZeros odd = Mp.trailingZeros (odd.length * w) (number odd) := by
  rw [trailingZeros, wordBits_eq, List.foldl_map]
  rfl

theorem oddPart_spec (positive : 0 < w) (odd : List (BitVec w)) (bits twos : Nat) :
    (oddPart odd bits twos).length = odd.length ∧ number (oddPart odd bits twos) =
        (List.range bits).foldl (fun x step => if step < twos then x / 2 else x) (number odd) := by
  rw [oddPart]
  induction bits with
  | zero => exact ⟨rfl, rfl⟩
  | succ bits ih =>
    obtain ⟨length, halved⟩ := ih
    rw [List.range_succ, List.foldl_append, List.foldl_append, List.foldl_cons, List.foldl_nil,
      List.foldl_cons, List.foldl_nil, ← halved]
    generalize (List.range bits).foldl (fun odd step => select (shiftRight odd 0).1 odd
      (0 - (BitVec.ofBool (step < twos)).setWidth w)) odd = words at *
    obtain ⟨size, half⟩ := shiftRight_zero positive words
    rw [select_eq positive size]
    by_cases more : bits < twos
    case neg =>
        simp only [more, decide_false, Bool.false_eq_true, if_false]
        exact ⟨length, trivial⟩
    case pos =>
        simp only [more, decide_true, if_true]
        exact ⟨size.trans length, half⟩

end

variable {p base : List (BitVec (8 * s))}

def Prepared.numbers (prepared : Prepared s) : Mp.Prepared :=
  ⟨number prepared.r2, value prepared.exponent, number prepared.one, number prepared.minusOne⟩

structure Prepared.Rows (prepared : Prepared s) (count : Nat) : Prop where
  r2 : prepared.r2.length = count
  exponent : prepared.exponent.length = s * count
  one : prepared.one.length = count
  minusOne : prepared.minusOne.length = count

theorem millerRabinPrepare_computes (candidate : Odd p) : (millerRabinPrepare p).2.Rows p.length ∧
      ((millerRabinPrepare p).1, (millerRabinPrepare p).2.numbers) =
        Mp.millerRabinPrepare (8 * s) p.length (number p) := by
  have positive := candidate.width
  have nonempty := candidate.nonempty
  obtain ⟨length, less⟩ := decrementLow_spec positive candidate.odd
  obtain ⟨size, part⟩ := oddPart_spec positive (decrementLow p) (p.length * (8 * s))
    (trailingZeros (decrementLow p))
  obtain ⟨r2, square⟩ := montgomeryR2_spec positive nonempty
  obtain ⟨unit, plain⟩ := one_spec positive nonempty
  obtain ⟨one, encoded, _⟩ := @montgomery_computes (8 * s) positive (modulusOf p) _ _ unit r2
  rw [modulusOf_toModulus positive nonempty, plain, square] at encoded
  obtain ⟨minus, difference, _⟩ := @subtract_spec (8 * s) positive p _ one.symm
  refine ⟨⟨r2, ?_, one, minus.trans rfl⟩, ?_⟩
  · rw [millerRabinPrepare, toBe_eq, Library.ByteCounter.ofValue_length, size, length]
  · rw [millerRabinPrepare, Prepared.numbers, Mp.millerRabinPrepare]
    dsimp only
    rw [(value_toBe _).1, part, square, encoded, difference, encoded, trailingZeros_eq, length, less]

theorem powerFold_computes (positive : 0 < s) (nonempty : p.length ≠ 0)
    {one : List (BitVec (8 * s))} (size : base.length = p.length)
    (size' : one.length = p.length) (bits : List Bool) :
    (bits.foldl (powerPass (modulusOf p) base) one).length = p.length ∧
      number (bits.foldl (powerPass (modulusOf p) base) one) =
        bits.foldl (Mp.powerPass (8 * s) (Mp.modulusOf (8 * s) (number p) p.length) (number base))
          (number one) := by
  have width : 0 < 8 * s := by omega
  induction bits generalizing one with
  | nil => exact ⟨size', rfl⟩
  | cons bit bits ih =>
    obtain ⟨length, squared, _⟩ :=
      @montgomery_computes (8 * s) width (modulusOf p) one one size' size'
    obtain ⟨length', multiplied, _⟩ :=
      @montgomery_computes (8 * s) width (modulusOf p) _ base length size
    rw [modulusOf_toModulus width nonempty] at squared multiplied
    rw [squared] at multiplied
    have pass : (powerPass (modulusOf p) base one bit).length = p.length ∧
        number (powerPass (modulusOf p) base one bit) =
          Mp.powerPass (8 * s) (Mp.modulusOf (8 * s) (number p) p.length) (number base)
            (number one) bit := by
      rw [powerPass, select_eq width (length'.trans length.symm)]
      cases bit with
      | false => exact ⟨length, squared⟩
      | true => exact ⟨length', multiplied⟩
    rw [List.foldl_cons, List.foldl_cons, ← pass.2]
    exact ih pass.1

theorem squares_compute (positive : 0 < s) (nonempty : p.length ≠ 0)
    {minusOne : List (BitVec (8 * s))} (size : minusOne.length = p.length) (twos : Nat)
    (steps : List Nat) {start : List (BitVec (8 * s))} (size' : start.length = p.length)
    (passed : Bool) : (steps.foldl (fun (state : List (BitVec (8 * s)) × Bool) step =>
        let squared := (montgomery (modulusOf p) state.1 state.1).words
        (squared, state.2 || (step < twos && equal squared minusOne))) (start, passed)).2 =
      (steps.foldl (fun (state : Nat × Bool) step =>
        let squared := Mp.montgomery (8 * s) (Mp.modulusOf (8 * s) (number p) p.length) state.1 state.1
        (squared, state.2 || (step < twos && squared = number minusOne)))
        (number start, passed)).2 := by
  have width : 0 < 8 * s := by omega
  induction steps generalizing start passed with
  | nil => rfl
  | cons step steps ih =>
    obtain ⟨length, squared, _⟩ :=
      @montgomery_computes (8 * s) width (modulusOf p) start start size' size'
    rw [modulusOf_toModulus width nonempty] at squared
    rw [List.foldl_cons, List.foldl_cons]
    dsimp only
    rw [ih length, equal_number (length.trans size.symm), squared]

theorem millerRabinRound_computes (candidate : Odd p) (size : base.length = p.length)
    {twos : Nat} {prepared : Prepared s} (rows : prepared.Rows p.length) :
    millerRabinRound p base twos prepared =
      Mp.millerRabinRound (8 * s) p.length (number p) (number base) twos prepared.numbers := by
  have width := candidate.width
  have nonempty := candidate.nonempty
  have positive : 0 < s := by omega
  obtain ⟨length, encoded, _⟩ :=
    @montgomery_computes (8 * s) width (modulusOf p) base _ size rows.r2
  rw [modulusOf_toModulus width nonempty] at encoded
  obtain ⟨length', powered⟩ := powerFold_computes positive nonempty length rows.one
    (byteBits prepared.exponent)
  have start : power (modulusOf p) (montgomery (modulusOf p) base prepared.r2).words
      prepared.exponent prepared.one = (byteBits prepared.exponent).foldl
        (powerPass (modulusOf p) (montgomery (modulusOf p) base prepared.r2).words)
          prepared.one := by
    rw [power, powerPadded, Nat.sub_self, List.replicate_zero, List.nil_append]
  have bytes : p.length * (8 * s) / 8 = s * p.length := by
    rw [Nat.mul_left_comm, Nat.mul_div_cancel_left _ (by omega), Nat.mul_comm]
  rw [encoded, byteBits_eq, rows.exponent] at powered
  rw [byteBits_eq, rows.exponent] at start
  rw [byteBits_eq, rows.exponent] at length'
  rw [millerRabinRound, Mp.millerRabinRound]
  dsimp only
  rw [start, squares_compute positive nonempty rows.minusOne _ _ length', powered,
    equal_number (length'.trans rows.one.symm), equal_number (length'.trans rows.minusOne.symm),
    powered, Mp.powerPadded, bytes]
  rfl

theorem millerRabinRound_decides (candidate : Odd p) (size : base.length = p.length)
    (below : number base < number p) :
    millerRabinRound p base (millerRabinPrepare p).1 (millerRabinPrepare p).2 = true ↔
      StrongProbablePrime (number p) (number base) := by
  obtain ⟨rows, computed⟩ := millerRabinPrepare_computes candidate
  have twos := congrArg Prod.fst computed
  have prepared := congrArg Prod.snd computed
  dsimp only at twos prepared
  rw [millerRabinRound_computes candidate size rows, twos, prepared]
  refine millerRabinRound_iff candidate.width candidate.odd candidate.large (number_span p) ?_ below
  exact Dvd.dvd.mul_left (Nat.dvd_mul_right 8 s) _

end TinyCrypto.Mp.Limbs
