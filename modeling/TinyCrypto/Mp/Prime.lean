import TinyCrypto.Library.Primality
import TinyCrypto.Mp.Arithmetic

/-! # Montgomery residues

A residue of a modulus stands for an element of its ring; multiplication and powers of
residues are those of the elements.
-/

namespace TinyCrypto.Mp

section

variable {w : Nat} {m : Modulus}

theorem Ready.pos (ready : Ready w m) : 0 < m.p := by
  have := ready.odd
  omega

theorem Ready.coprime (ready : Ready w m) : Nat.Coprime (span w m.n) m.p := by
  refine Nat.Coprime.pow_left _ ?_
  rw [Nat.coprime_two_left]
  exact Nat.odd_iff.mpr ready.odd

def element (w : Nat) (m : Modulus) (x : Nat) : ZMod m.p := x * (span w m.n : ZMod m.p)⁻¹

theorem Ready.span_inv (ready : Ready w m) :
    (span w m.n : ZMod m.p) * (span w m.n : ZMod m.p)⁻¹ = 1 :=
  ZMod.coe_mul_inv_eq_one _ ready.coprime

theorem Ready.eq_element (ready : Ready w m) (x : Nat) :
    (x : ZMod m.p) = element w m x * span w m.n := by
  have unit := ready.span_inv
  rw [element]
  linear_combination (-(x : ZMod m.p)) * unit

variable {x a b base : Nat}

theorem Ready.element_inj (ready : Ready w m) {y : Nat} (first : x < m.p) (second : y < m.p)
    (same : element w m x = element w m y) : x = y := by
  have values : (x : ZMod m.p) = y := by
    rw [ready.eq_element x, ready.eq_element y, same]
  have residues := (ZMod.natCast_eq_natCast_iff' x y m.p).mp values
  rwa [Nat.mod_eq_of_lt first, Nat.mod_eq_of_lt second] at residues

theorem product_lt (first : a < span w m.n) (second : b < m.p) : a * b < span w m.n * m.p :=
  Nat.mul_lt_mul'' first second

theorem Ready.montgomery_lt (ready : Ready w m) (first : a < span w m.n) (second : b < m.p) :
    montgomery w m a b < m.p :=
  (montgomery_spec ready (product_lt first second)).1

theorem Ready.element_montgomery (ready : Ready w m) (first : a < span w m.n) (second : b < m.p) :
    element w m (montgomery w m a b) = element w m a * element w m b := by
  have spec := (montgomery_spec ready (product_lt first second)).2
  have product := (ZMod.natCast_eq_natCast_iff _ _ m.p).mpr spec
  push_cast at product
  have unit := ready.span_inv
  simp only [element]
  generalize ((span w m.n : Nat) : ZMod m.p)⁻¹ = r at *
  linear_combination r * r * product - (montgomery w m a b : ZMod m.p) * r * unit

theorem Ready.decode (ready : Ready w m) (large : 1 < m.p) (small : x < m.p) :
    montgomery w m x 1 < m.p ∧ ((montgomery w m x 1 : Nat) : ZMod m.p) = element w m x := by
  have lt : x < span w m.n := Nat.lt_trans small ready.fits
  refine ⟨ready.montgomery_lt lt large, ?_⟩
  have unit := ready.span_inv
  have one : element w m 1 = (span w m.n : ZMod m.p)⁻¹ := by rw [element, Nat.cast_one, one_mul]
  rw [ready.eq_element, ready.element_montgomery lt large, one]
  linear_combination (element w m x) * unit

theorem montgomeryR2_eq {p n : Nat} (large : 1 < p) (fits : p < span w n) :
    montgomeryR2 w n p = span w n * span w n % p := by
  have doubled : ∀ count, (fun x => addMod w n x x p)^[count] 1 = 2 ^ count % p := by
    intro count
    induction count with
    | zero => exact (Nat.mod_eq_of_lt large).symm
    | succ count ih =>
      have below : 2 ^ count % p < p := Nat.mod_lt _ (by omega)
      rw [Function.iterate_succ_apply', ih, addMod_eq fits below below, ← Nat.add_mod,
        Nat.pow_succ, Nat.mul_two]
  rw [montgomeryR2, doubled, span, ← Nat.pow_add]
  congr 2
  ring

theorem Ready.r2_lt (ready : Ready w m) (large : 1 < m.p) : montgomeryR2 w m.n m.p < m.p := by
  rw [montgomeryR2_eq large ready.fits]
  exact Nat.mod_lt _ ready.pos

theorem Ready.element_encode (ready : Ready w m) (large : 1 < m.p) (small : x < span w m.n) :
    element w m (montgomery w m x (montgomeryR2 w m.n m.p)) = x := by
  have unit := ready.span_inv
  rw [ready.element_montgomery small (ready.r2_lt large), montgomeryR2_eq large ready.fits]
  simp only [element, ZMod.natCast_mod, Nat.cast_mul]
  generalize ((span w m.n : Nat) : ZMod m.p)⁻¹ = r at *
  linear_combination (x : ZMod m.p) * ((span w m.n : ZMod m.p) * r + 1) * unit

theorem powerPass_spec (ready : Ready w m) {out : Nat} (bit : Bool) (first : base < m.p)
    (second : out < m.p) : powerPass w m base out bit < m.p ∧
      element w m (powerPass w m base out bit) =
        element w m out ^ 2 * element w m base ^ bit.toNat := by
  have wide : ∀ {x}, x < m.p → x < span w m.n := fun small => Nat.lt_trans small ready.fits
  have squared := ready.montgomery_lt (wide second) second
  have square := ready.element_montgomery (wide second) second
  cases bit with
  | false =>
    refine ⟨squared, ?_⟩
    simp only [powerPass, Bool.false_eq_true, if_false, square, Bool.toNat_false]
    ring
  | true =>
    refine ⟨ready.montgomery_lt (wide squared) first, ?_⟩
    simp only [powerPass, if_true, ready.element_montgomery (wide squared) first, square,
      Bool.toNat_true]
    ring

theorem powerFold_spec (ready : Ready w m) (first : base < m.p) (count v : Nat) {out : Nat}
    (second : out < m.p) : (bitsBe count v).foldl (powerPass w m base) out < m.p ∧
      element w m ((bitsBe count v).foldl (powerPass w m base) out) =
        element w m out ^ 2 ^ count * element w m base ^ (v % 2 ^ count) := by
  induction count generalizing v with
  | zero => simpa [bitsBe, Nat.mod_one] using second
  | succ count ih =>
    obtain ⟨below, value⟩ := ih (v / 2)
    rw [bitsBe_succ, List.foldl_append, List.foldl_cons, List.foldl_nil]
    obtain ⟨less, pass⟩ := powerPass_spec ready (v.testBit 0) first below
    refine ⟨less, ?_⟩
    rw [pass, value, toNat_testBit_zero, Nat.pow_succ', Nat.mod_mul]
    ring

/-- `tc_mp_power_padded` of an exponent that fits its width. -/
theorem power_spec (ready : Ready w m) {exponent width one : Nat} (first : base < m.p)
    (second : one < m.p) (unit : element w m one = 1) (fits : exponent < 256 ^ width) :
    powerPadded w m base exponent width one < m.p ∧
      element w m (powerPadded w m base exponent width one) = element w m base ^ exponent := by
  obtain ⟨below, value⟩ := powerFold_spec ready first (8 * width) exponent second
  refine ⟨below, ?_⟩
  rw [powerPadded, value, unit, one_pow, one_mul]
  congr 1
  refine Nat.mod_eq_of_lt ?_
  rw [Nat.pow_mul]
  exact fits

end

/-! # Strong probable primes

`mp_prime_internal.h`: what a round of the Miller-Rabin test decides.
-/

open Library.Primality (StrongProbablePrime)

/-- The rows of `tc_mp_miller_rabin_prepare` that the rounds read. -/
structure Prepared where
  r2 : Nat
  exponent : Nat
  one : Nat
  minusOne : Nat
  deriving DecidableEq

/-- The counting loops of `tc_mp_miller_rabin_prepare`. -/
def trailingZeros (bits odd : Nat) : Nat := ((List.range bits).foldl (fun (state : Bool × Nat) i =>
    let counting := state.1 && !odd.testBit i
    (counting, state.2 + counting.toNat)) (true, 0)).2

/-- `tc_mp_miller_rabin_prepare` for odd `p`: the trailing zeros of `p - 1` and the rows. -/
def millerRabinPrepare (w n p : Nat) : Nat × Prepared :=
  let bits := n * w
  let twos := trailingZeros bits (p - 1)
  let exponent := (List.range bits).foldl (fun x step => if step < twos then x / 2 else x) (p - 1)
  let r2 := montgomeryR2 w n p
  let one := montgomery w (modulusOf w p n) 1 r2
  (twos, ⟨r2, exponent, one, (subtract w n p one).1⟩)

/-- `tc_mp_miller_rabin_round`. -/
def millerRabinRound (w n p base twos : Nat) (prepared : Prepared) : Bool :=
  let bits := n * w
  let field := modulusOf w p n
  let encoded := montgomery w field base prepared.r2
  let value := powerPadded w field encoded prepared.exponent (bits / 8) prepared.one
  let passed := value = prepared.one || value = prepared.minusOne
  ((List.range' 1 (bits - 1)).foldl (fun (state : Nat × Bool) step =>
    let squared := montgomery w field state.1 state.1
    (squared, state.2 || (step < twos && squared = prepared.minusOne))) (value, passed)).2

variable {w n p : Nat}

theorem trailingZeros_run (odd count : Nat) :
    (List.range count).foldl (fun (state : Bool × Nat) i =>
      let counting := state.1 && !odd.testBit i
      (counting, state.2 + counting.toNat)) (true, 0) = (true, count) ∧ 2 ^ count ∣ odd ∨
    ∃ twos < count, (List.range count).foldl (fun (state : Bool × Nat) i =>
      let counting := state.1 && !odd.testBit i
      (counting, state.2 + counting.toNat)) (true, 0) = (false, twos) ∧ 2 ^ twos ∣ odd ∧
        odd / 2 ^ twos % 2 = 1 := by
  induction count with
  | zero => exact .inl ⟨rfl, by simp⟩
  | succ count ih =>
    rw [List.range_succ, List.foldl_append, List.foldl_cons, List.foldl_nil]
    obtain ⟨run, divides⟩ | ⟨twos, less, run, divides, last⟩ := ih
    · rw [run]
      rcases Nat.mod_two_eq_zero_or_one (odd / 2 ^ count) with even | one
      · refine .inl ⟨by simp [Nat.testBit_eq_decide_div_mod_eq, even], ?_⟩
        rw [Nat.pow_succ]
        exact Nat.mul_dvd_of_dvd_div divides (Nat.dvd_of_mod_eq_zero even)
      · exact .inr ⟨count, Nat.lt_succ_self _, by simp [Nat.testBit_eq_decide_div_mod_eq, one],
          divides, one⟩
    · rw [run]
      exact .inr ⟨twos, Nat.lt_succ_of_lt less, by simp, divides, last⟩

theorem trailingZeros_spec {bits odd : Nat} (pos : 0 < odd) (fits : odd < 2 ^ bits) :
    trailingZeros bits odd < bits ∧ 2 ^ trailingZeros bits odd ∣ odd ∧
      odd / 2 ^ trailingZeros bits odd % 2 = 1 := by
  obtain ⟨_, divides⟩ | ⟨twos, less, run, divides, last⟩ := trailingZeros_run odd bits
  · exact absurd (Nat.le_of_dvd pos divides) (by omega)
  · rw [trailingZeros, run]
    exact ⟨less, divides, last⟩

theorem halvings_eq (x twos : Nat) {count : Nat} (enough : twos ≤ count) :
    (List.range count).foldl (fun x step => if step < twos then x / 2 else x) x = x / 2 ^ twos := by
  have partly : ∀ count, (List.range count).foldl
      (fun x step => if step < twos then x / 2 else x) x = x / 2 ^ min count twos := by
    intro count
    induction count with
    | zero => simp
    | succ count ih =>
      rw [List.range_succ, List.foldl_append, List.foldl_cons, List.foldl_nil, ih]
      split
      · rename_i less
        rw [Nat.min_eq_left (Nat.le_of_lt less), Nat.min_eq_left (Nat.succ_le_of_lt less),
          Nat.div_div_eq_div_mul, Nat.pow_succ]
      · rename_i past
        rw [Nat.min_eq_right (Nat.not_lt.mp past), Nat.min_eq_right (by omega)]
  rw [partly, Nat.min_eq_right enough]

theorem oddPart_unique {a b x y : Nat} (same : 2 ^ a * x = 2 ^ b * y) (first : x % 2 = 1)
    (second : y % 2 = 1) : a = b ∧ x = y := by
  have smaller : ∀ {a b x y : Nat}, 2 ^ a * x = 2 ^ b * y → x % 2 = 1 → a ≤ b → a = b ∧ x = y := by
    intro a b x y same first le
    obtain ⟨more, rfl⟩ := Nat.exists_eq_add_of_le le
    rw [Nat.pow_add, Nat.mul_assoc] at same
    have left := Nat.eq_of_mul_eq_mul_left (Nat.two_pow_pos a) same
    cases more with
    | zero => exact ⟨rfl, by rwa [Nat.pow_zero, Nat.one_mul] at left⟩
    | succ more =>
      rw [Nat.pow_succ', Nat.mul_assoc] at left
      omega
  rcases Nat.le_total a b with le | ge
  · exact smaller same first le
  · obtain ⟨equal, equal'⟩ := smaller same.symm second ge
    exact ⟨equal.symm, equal'.symm⟩

theorem squares_run {m : Modulus} {value minusOne twos : Nat} {passed : Bool} (ready : Ready w m)
    (below : value < m.p) (less : minusOne < m.p) (negative : element w m minusOne = -1)
    (count : Nat) : ∃ last result, (List.range' 1 count).foldl (fun (state : Nat × Bool) step =>
        let squared := montgomery w m state.1 state.1
        (squared, state.2 || (step < twos && squared = minusOne))) (value, passed) =
          (last, result) ∧
      last < m.p ∧ element w m last = element w m value ^ 2 ^ count ∧
      (result = true ↔ passed = true ∨
        ∃ i, 0 < i ∧ i ≤ count ∧ i < twos ∧ element w m value ^ 2 ^ i = -1) := by
  induction count with
  | zero =>
    refine ⟨value, passed, rfl, below, by simp, ?_⟩
    refine ⟨.inl, fun given => given.resolve_right ?_⟩
    rintro ⟨i, pos, none, _⟩
    omega
  | succ count ih =>
    obtain ⟨last, result, run, lower, power, seen⟩ := ih
    have wide := Nat.lt_trans lower ready.fits
    have lower' := ready.montgomery_lt wide lower
    have square := ready.element_montgomery wide lower
    rw [power, ← pow_two, ← pow_mul, ← Nat.pow_succ] at square
    have hit : montgomery w m last last = minusOne ↔ element w m value ^ 2 ^ (count + 1) = -1 := by
      rw [← square, ← negative]
      exact ⟨congrArg _, ready.element_inj lower' less⟩
    rw [List.range'_1_concat, List.foldl_append, run, List.foldl_cons, List.foldl_nil]
    refine ⟨_, _, rfl, lower', square, ?_⟩
    simp only [Bool.or_eq_true, Bool.and_eq_true, decide_eq_true_eq, seen, hit]
    constructor
    · rintro ((passed | ⟨i, pos, le, less, minus⟩) | ⟨less, minus⟩)
      · exact .inl passed
      · exact .inr ⟨i, pos, by omega, less, minus⟩
      · exact .inr ⟨count + 1, by omega, le_rfl, by omega, minus⟩
    · rintro (passed | ⟨i, pos, le, less, minus⟩)
      · exact .inl (.inl passed)
      · rcases Nat.lt_or_ge i (count + 1) with earlier | latest
        · exact .inl (.inr ⟨i, pos, by omega, less, minus⟩)
        · obtain rfl : i = count + 1 := by omega
          exact .inr ⟨by omega, minus⟩

theorem round_iff {m : Modulus} {base : Nat} (field : modulusOf w m.p m.n = m) (ready : Ready w m)
    (large : 1 < m.p) (bytes : 8 ∣ m.n * w) (below : base < m.p) :
    millerRabinRound w m.n m.p base (millerRabinPrepare w m.n m.p).1
      (millerRabinPrepare w m.n m.p).2 = true ↔ StrongProbablePrime m.p base := by
  have odd := ready.odd
  have fits := ready.fits
  have wide : ∀ {x}, x < m.p → x < span w m.n := fun small => Nat.lt_trans small fits
  have bits : span w m.n = 2 ^ (m.n * w) := by rw [span, Nat.mul_comm]
  obtain ⟨few, divides, last⟩ := trailingZeros_spec (show 0 < m.p - 1 by omega)
    (show m.p - 1 < 2 ^ (m.n * w) by omega)
  have exponent := halvings_eq (m.p - 1) _ (Nat.le_of_lt few)
  have parts := Nat.mul_div_cancel' divides
  simp only [millerRabinPrepare, millerRabinRound, exponent, field]
  generalize trailingZeros (m.n * w) (m.p - 1) = twos at *
  generalize (m.p - 1) / 2 ^ twos = d at *
  have some : 0 < twos := by
    by_contra none
    obtain rfl : twos = 0 := by omega
    omega
  have r2_lt := ready.r2_lt large
  have one_lt := ready.montgomery_lt (wide large) r2_lt
  have unit := ready.element_encode large (wide large)
  rw [Nat.cast_one] at unit
  have encoded_lt := ready.montgomery_lt (wide below) r2_lt
  have encoded := ready.element_encode large (wide below)
  generalize montgomery w m 1 (montgomeryR2 w m.n m.p) = one at *
  generalize montgomery w m base (montgomeryR2 w m.n m.p) = start at *
  have nonzero : one ≠ 0 := by
    rintro rfl
    have zero : element w m 0 = 0 := by simp [element]
    have : Fact (1 < m.p) := ⟨large⟩
    exact absurd (zero.symm.trans unit) zero_ne_one
  have minus : (subtract w m.n m.p one).1 = m.p - one := by
    rw [subtract_of_le (Nat.le_of_lt one_lt) fits]
  have minus_lt : m.p - one < m.p := by omega
  have negative : element w m (m.p - one) = -1 := by
    rw [← unit, element, element, Nat.cast_sub (Nat.le_of_lt one_lt), ZMod.natCast_self, zero_sub,
      neg_mul]
  have capacity : d < 256 ^ (m.n * w / 8) := by
    have small : d ≤ m.p - 1 := Nat.le_of_dvd (by omega) (Dvd.intro_left _ parts)
    have width : 256 ^ (m.n * w / 8) = 2 ^ (m.n * w) := by
      rw [show (256 : Nat) = 2 ^ 8 from rfl, ← Nat.pow_mul, Nat.mul_div_cancel' bytes]
    rw [width, ← bits]
    omega
  obtain ⟨value_lt, value⟩ := power_spec ready encoded_lt one_lt unit capacity
  rw [encoded] at value
  generalize powerPadded w m start d (m.n * w / 8) one = power at *
  have isOne : power = one ↔ (base : ZMod m.p) ^ d = 1 := by
    rw [← value, ← unit]
    exact ⟨congrArg _, ready.element_inj value_lt one_lt⟩
  have isMinus : power = m.p - one ↔ (base : ZMod m.p) ^ d = -1 := by
    rw [← value, ← negative]
    exact ⟨congrArg _, ready.element_inj value_lt minus_lt⟩
  obtain ⟨final, result, run, _, _, seen⟩ := @squares_run w m power (m.p - one) twos
    (decide (power = one) || decide (power = m.p - one)) ready value_lt minus_lt negative
    (m.n * w - 1)
  rw [minus, run]
  simp only [seen, Bool.or_eq_true, decide_eq_true_eq, isOne, isMinus, value, ← pow_mul]
  constructor
  · rintro ((isOne | isMinus) | ⟨i, _, _, less, isMinus⟩)
    · exact ⟨twos, d, parts.symm, last, .inl isOne⟩
    · exact ⟨twos, d, parts.symm, last, .inr ⟨0, some, by rwa [Nat.pow_zero, Nat.one_mul]⟩⟩
    · exact ⟨twos, d, parts.symm, last, .inr ⟨i, less, by rwa [Nat.mul_comm]⟩⟩
  · rintro ⟨twos', d', parts', last', holds⟩
    obtain ⟨rfl, rfl⟩ := oddPart_unique (parts.trans parts') last last'
    obtain isOne | ⟨i, less, isMinus⟩ := holds
    · exact .inl (.inl isOne)
    · cases i with
      | zero =>
        rw [Nat.pow_zero, Nat.one_mul] at isMinus
        exact .inl (.inr isMinus)
      | succ i =>
        rw [Nat.mul_comm] at isMinus
        exact .inr ⟨i + 1, Nat.succ_pos i, by omega, less, isMinus⟩

theorem millerRabinRound_iff {base : Nat} (pos : 0 < w) (odd : p % 2 = 1) (large : 1 < p)
    (fits : p < span w n) (bytes : 8 ∣ n * w) (below : base < p) :
    millerRabinRound w n p base (millerRabinPrepare w n p).1 (millerRabinPrepare w n p).2 = true ↔
      StrongProbablePrime p base :=
  @round_iff w (modulusOf w p n) base rfl (modulusOf_ready pos odd fits) large bytes below

end TinyCrypto.Mp
