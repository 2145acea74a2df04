import TinyCrypto.Rsa.FaultSafe

/-! # Consistency of private keys

`tc_rsa_private_magnitudes_consistent` and `tc_rsa_crt_consistent`, and the equations
that they decide.
-/

namespace TinyCrypto.Rsa

open Library.ByteCounter (value value_lt value_cons)
open Mp

variable {build : Build}

/-- `TC_RSA_exponent_policy`. -/
inductive ExponentPolicy where
  | fips
  | anyOdd
  deriving DecidableEq

def stripZeros (bytes : Bytes) : Bytes := bytes.dropWhile (· = 0)

/-- `tc_rsa_exponent_fips`. -/
def exponentFips (exponent : Bytes) : Bool :=
  let significant := stripZeros exponent
  3 ≤ significant.length && significant.length ≤ 32 && lastOdd significant

/-- `tc_rsa_factor_has_half_bits`. -/
def factorHasHalfBits (factor : Bytes) (modulusBytes : Nat) : Bool :=
  let significant := stripZeros factor
  significant.length ≠ 0 && significant.length = modulusBytes / 2 &&
    (significant.headD 0 &&& 0x80) ≠ 0

/-- `tc_rsa_factors_far_apart`. -/
def factorsFarApart (build : Build) (h p q : Nat) : Bool :=
  let w := build.wordBits
  let (below, borrow) := subtract w h p q
  let difference := if borrow then (subtract w h q p).1 else below
  !(subtract w h difference (2 ^ (h * w - 100) + 1)).2

/-- `--p[0]` on the lowest word of an array. -/
def decrementWord (build : Build) (x : Nat) : Nat :=
  if x % 2 ^ build.wordBits = 0 then x + (2 ^ build.wordBits - 1) else x - 1

/-- The criteria that `tc_rsa_private_magnitudes_consistent` accumulates. -/
def criteriaHold (key : CheckedKey build) (d p q : Nat) : Bool :=
  let w := build.wordBits
  let n := key.words
  let h := key.half
  let p1 := p - 1
  let q1 := q - 1
  let lambda := (divideWords w n n (p1 * q1) (gcd w h p1 q1)).1
  (p * p).testBit (w * n - 1) && (q * q).testBit (w * n - 1) && factorsFarApart build h p q &&
    !(subtract w n d (2 ^ (w * h) + 1)).2 && (subtract w n d lambda).2 &&
    reduceWords w n (2 * n) (d * value key.exponent) lambda = 1

/-- `tc_rsa_private_magnitudes_consistent`: its status and the work left. -/
def magnitudesConsistent (key : CheckedKey build) (d : Exponent key) (p q : HalfField key)
    (policy : ExponentPolicy) (capacity work : Nat) : Result × Nat :=
  if policy = .fips && !exponentFips key.exponent then (.invalid, work)
  else if capacity < 12 * key.words || work < 48 * key.length + 2 then (.limit, work)
  else
    let left := work - (48 * key.length + 2)
    if !factorHasHalfBits p.bytes key.length || !factorHasHalfBits q.bytes key.length then
      (.invalid, left)
    else if !privateExponentCheck build key.words (value d.bytes) key.modulusValue then
      (.invalid, left)
    else if !(value p.bytes % 2 = 1 && value q.bytes % 2 = 1 && 1 < value p.bytes &&
        1 < value q.bytes && value p.bytes ≠ value q.bytes) then
      (.invalid, left)
    else if value p.bytes * value q.bytes ≠ key.modulusValue then (.invalid, left)
    else if criteriaHold key (value d.bytes) (value p.bytes) (value q.bytes) then (.ok, left)
    else (.invalid, left)

/-- `tc_rsa_crt_consistent`: its status and the work left. -/
def crtConsistent (key : CheckedKey build) (d : Exponent key) (p q : HalfField key)
    (crt : CrtView key) (capacity work : Nat) : Result × Nat :=
  let w := build.wordBits
  let n := key.words
  if capacity < 8 * (key.length * 8 / w) || work < 32 * key.length + 1 then (.limit, work)
  else
    let matched := value crt.dp.bytes =
          reduceWords w n n (value d.bytes) (decrementWord build (value p.bytes)) &&
        value crt.dq.bytes =
          reduceWords w n n (value d.bytes) (decrementWord build (value q.bytes)) &&
        (subtract w n (value crt.qInverse.bytes) (value p.bytes)).2 &&
        reduceWords w n (2 * n) (value q.bytes * value crt.qInverse.bytes) (value p.bytes) = 1
    (if matched then .ok else .invalid, work - (32 * key.length + 1))

structure Components (key : CheckedKey build) (d p q : Nat) : Prop where
  p_top : 2 ^ (4 * key.length - 1) ≤ p
  q_top : 2 ^ (4 * key.length - 1) ≤ q
  p_odd : p % 2 = 1
  q_odd : q % 2 = 1
  product : p * q = key.modulusValue
  p_root : 2 ^ (8 * key.length - 1) ≤ p * p
  q_root : 2 ^ (8 * key.length - 1) ≤ q * q
  apart : 2 ^ (4 * key.length - 100) < p - q ∨ 2 ^ (4 * key.length - 100) < q - p
  d_odd : d % 2 = 1
  d_large : 2 ^ (4 * key.length) < d
  d_below : d < Nat.lcm (p - 1) (q - 1)
  inverts : d * value key.exponent % Nat.lcm (p - 1) (q - 1) = 1

theorem CheckedKey.wordBits_mul_half (key : CheckedKey build) :
    build.wordBits * key.half = 4 * key.length := by
  have even := key.words_even
  have whole := key.wordBits_mul_words
  rw [← even, Nat.mul_left_comm] at whole
  omega

theorem CheckedKey.half_length (key : CheckedKey build) : 8 * (key.length / 2) = 4 * key.length := by
  have := key.length_cases
  omega

theorem CheckedKey.span_half (key : CheckedKey build) :
    span build.wordBits key.half = 256 ^ (key.length / 2) := by
  rw [span, key.wordBits_mul_half, ← key.half_length, Nat.pow_mul]

variable {key : CheckedKey build}

theorem HalfField.value_lt (field : HalfField key) :
    value field.bytes < span build.wordBits key.half := by
  rw [key.span_half]
  exact Nat.lt_of_lt_of_le (Library.ByteCounter.value_lt _)
    (Nat.pow_le_pow_right (by omega) field.fits)

theorem Exponent.value_lt (d : Exponent key) : value d.bytes < span build.wordBits key.words := by
  rw [key.span_words]
  exact Nat.lt_of_lt_of_le (Library.ByteCounter.value_lt _)
    (Nat.pow_le_pow_right (by omega) d.fits)

theorem value_stripZeros (bytes : Bytes) : value (stripZeros bytes) = value bytes := by
  induction bytes with
  | nil => rfl
  | cons b rest ih =>
    rw [stripZeros, List.dropWhile_cons]
    split
    · rename_i zero
      rw [decide_eq_true_eq] at zero
      rw [value_cons, zero, UInt8.toNat_zero, Nat.zero_mul, Nat.zero_add]
      exact ih
    · rfl

theorem stripZeros_length_le (bytes : Bytes) : (stripZeros bytes).length ≤ bytes.length :=
  (List.dropWhile_suffix _).length_le

theorem two_pow_bytes {length : Nat} (pos : 0 < length) :
    2 ^ (8 * length - 1) = 128 * 256 ^ (length - 1) := by
  have width : 8 * length - 1 = 7 + 8 * (length - 1) := by omega
  have byte : (2 ^ 8 : Nat) = 256 := rfl
  rw [width, Nat.pow_add, Nat.pow_mul, byte]

theorem factorHasHalfBits_iff (field : HalfField key) :
    factorHasHalfBits field.bytes key.length = true ↔
      2 ^ (4 * key.length - 1) ≤ value field.bytes := by
  have lengths := key.length_cases
  have short : (stripZeros field.bytes).length ≤ key.length / 2 :=
    Nat.le_trans (stripZeros_length_le _) field.fits
  have bound := Library.ByteCounter.value_lt (stripZeros field.bytes)
  rw [← key.half_length, two_pow_bytes (by omega), factorHasHalfBits, ← value_stripZeros]
  generalize stripZeros field.bytes = bytes at *
  cases bytes with
  | nil =>
    simp only [List.length_nil, Nat.pow_zero, Nat.lt_one_iff] at bound
    have : 0 < 128 * 256 ^ (key.length / 2 - 1) := by positivity
    simp [bound]
  | cons b rest =>
    have low := Library.ByteCounter.value_lt rest
    simp only [Bool.and_eq_true, decide_eq_true_eq, List.headD_cons, top_iff, List.length_cons]
    rw [List.length_cons] at short
    rw [value_cons]
    constructor
    · rintro ⟨⟨_, full⟩, top⟩
      have width : key.length / 2 - 1 = rest.length := by omega
      rw [width]
      have := Nat.mul_le_mul_right (256 ^ rest.length) top
      omega
    · intro large
      have byte := b.toNat_lt
      have full : rest.length + 1 = key.length / 2 := by
        by_contra less
        have power : 256 ^ (rest.length + 1) ≤ 256 ^ (key.length / 2 - 1) :=
          Nat.pow_le_pow_right (by omega) (by omega)
        rw [Nat.pow_succ] at power
        have := Nat.mul_le_mul_right (256 ^ rest.length) (Nat.le_of_lt_succ byte)
        omega
      refine ⟨⟨by omega, full⟩, ?_⟩
      have width : key.length / 2 - 1 = rest.length := by omega
      rw [width] at large
      by_contra small
      have := Nat.mul_le_mul_right (256 ^ rest.length) (Nat.le_of_lt_succ (Nat.not_le.mp small))
      omega

theorem testBit_top_iff {x k : Nat} (bound : x < 2 ^ (k + 1)) : x.testBit k = true ↔ 2 ^ k ≤ x :=
  ⟨Nat.ge_two_pow_of_testBit,
    fun large => Nat.testBit_of_two_pow_le_and_two_pow_add_one_gt large bound⟩

theorem CheckedKey.span_half_sq (key : CheckedKey build) :
    span build.wordBits key.half * span build.wordBits key.half =
      span build.wordBits key.words := by
  rw [span, span, ← Nat.pow_add, ← key.words_even]
  congr 1
  ring

theorem product_wide {a b : Nat} (first : a < span build.wordBits key.half)
    (second : b < span build.wordBits key.half) : a * b < span build.wordBits key.words := by
  rw [← key.span_half_sq]
  exact Nat.mul_lt_mul'' first second

theorem square_testBit {p : Nat} (small : p < span build.wordBits key.half) :
    (p * p).testBit (build.wordBits * key.words - 1) = true ↔ 2 ^ (8 * key.length - 1) ≤ p * p := by
  have wide := product_wide small small
  have lengths := key.length_cases
  rw [span, key.wordBits_mul_words] at wide
  rw [key.wordBits_mul_words]
  refine testBit_top_iff ?_
  have whole : 8 * key.length - 1 + 1 = 8 * key.length := by omega
  rwa [whole]

theorem factorsFarApart_iff {p q : Nat} (first : p < span build.wordBits key.half)
    (second : q < span build.wordBits key.half) : factorsFarApart build key.half p q = true ↔
      2 ^ (4 * key.length - 100) < p - q ∨ 2 ^ (4 * key.length - 100) < q - p := by
  have bits : key.half * build.wordBits = 4 * key.length := by
    rw [Nat.mul_comm]
    exact key.wordBits_mul_half
  simp only [factorsFarApart, bits]
  by_cases less : p < q
  · simp only [subtract_of_lt less (Nat.le_of_lt second), subtract_of_le (Nat.le_of_lt less) second,
      if_true, subtract_borrow, Bool.not_eq_true', decide_eq_false_iff_not]
    omega
  · simp only [subtract_of_le (Nat.not_lt.mp less) first, Bool.false_eq_true, if_false,
      subtract_borrow, Bool.not_eq_true', decide_eq_false_iff_not]
    omega

theorem lambda_eq {p q : Nat} (first : p < span build.wordBits key.half)
    (second : q < span build.wordBits key.half) (large : 1 < p) :
    (divideWords build.wordBits key.words key.words ((p - 1) * (q - 1))
      (gcd build.wordBits key.half (p - 1) (q - 1))).1 = Nat.lcm (p - 1) (q - 1) := by
  have first' : p - 1 < span build.wordBits key.half := by omega
  have second' : q - 1 < span build.wordBits key.half := by omega
  have pos : 0 < p - 1 := by omega
  have common := Nat.gcd_pos_of_pos_left (q - 1) pos
  have below : Nat.gcd (p - 1) (q - 1) < span build.wordBits key.words := by
    have le := Nat.gcd_le_left (q - 1) pos
    have more : span build.wordBits key.half ≤ span build.wordBits key.words := by
      rw [← key.span_half_sq]
      exact Nat.le_mul_of_pos_right _ span_pos
    omega
  rw [gcd_eq first' second' pos, divideWords_eq common below (product_wide first' second'),
    Nat.lcm_eq_mul_div]

theorem exponent_wide (key : CheckedKey build) :
    value key.exponent < span build.wordBits key.words := by
  have valid := key.shape.2.2.2
  simp only [publicShapeValid, Bool.and_eq_true, decide_eq_true_eq] at valid
  rw [key.span_words]
  exact Nat.lt_of_lt_of_le (value_lt _) (Nat.pow_le_pow_right (by omega) valid.1.1.1.1.2)

theorem criteriaHold_iff {d p q : Nat} (small : d < span build.wordBits key.words)
    (first : p < span build.wordBits key.half) (second : q < span build.wordBits key.half)
    (large : 1 < p) (large' : 1 < q) : criteriaHold key d p q = true ↔
      2 ^ (8 * key.length - 1) ≤ p * p ∧ 2 ^ (8 * key.length - 1) ≤ q * q ∧
        (2 ^ (4 * key.length - 100) < p - q ∨ 2 ^ (4 * key.length - 100) < q - p) ∧
        2 ^ (4 * key.length) < d ∧ d < Nat.lcm (p - 1) (q - 1) ∧
        d * value key.exponent % Nat.lcm (p - 1) (q - 1) = 1 := by
  have first' : p - 1 < span build.wordBits key.half := by omega
  have second' : q - 1 < span build.wordBits key.half := by omega
  have pos : 0 < Nat.lcm (p - 1) (q - 1) := Nat.lcm_pos (by omega) (by omega)
  have below : Nat.lcm (p - 1) (q - 1) < span build.wordBits key.words :=
    Nat.lt_of_le_of_lt (Nat.lcm_le_mul (by omega) (by omega)) (product_wide first' second')
  have double : d * value key.exponent < span build.wordBits (2 * key.words) := by
    have whole : span build.wordBits (2 * key.words) =
        span build.wordBits key.words * span build.wordBits key.words := by
      rw [span, span, ← Nat.pow_add]
      congr 1
      ring
    rw [whole]
    exact Nat.mul_lt_mul'' small (exponent_wide key)
  simp only [criteriaHold, lambda_eq first second large, key.wordBits_mul_half,
    reduceWords_eq pos below double, subtract_borrow, Bool.and_eq_true, Bool.not_eq_true',
    decide_eq_false_iff_not, decide_eq_true_eq, square_testBit first, square_testBit second,
    factorsFarApart_iff first second]
  omega

/-- What `tc_rsa_private_magnitudes_consistent` accepts. -/
theorem magnitudesConsistent_iff (d : Exponent key) (p q : HalfField key) (policy : ExponentPolicy)
    (capacity work : Nat) : (magnitudesConsistent key d p q policy capacity work).1 = .ok ↔
      (policy = .fips → exponentFips key.exponent = true) ∧ 12 * key.words ≤ capacity ∧
        48 * key.length + 2 ≤ work ∧
        Components key (value d.bytes) (value p.bytes) (value q.bytes) := by
  have lengths := key.length_cases
  have halves : (2 : Nat) ^ 1 ≤ 2 ^ (4 * key.length - 1) :=
    Nat.pow_le_pow_right (by omega) (by omega)
  constructor
  · intro ok
    unfold magnitudesConsistent at ok
    split at ok
    · cases ok
    · rename_i exponent
      split at ok
      · cases ok
      · rename_i enough
        dsimp only at ok
        split at ok
        · cases ok
        · rename_i bits
          split at ok
          · cases ok
          · rename_i range
            split at ok
            · cases ok
            · rename_i shape
              split at ok
              · cases ok
              · rename_i product
                split at ok
                · rename_i criteria
                  simp only [Bool.or_eq_true, not_or, Bool.not_eq_true', Bool.not_eq_false,
                    factorHasHalfBits_iff] at bits
                  simp only [Bool.and_eq_true, Bool.not_eq_true', Bool.not_eq_false,
                    decide_eq_true_eq] at shape
                  simp only [privateExponentCheck, Bool.and_eq_true, Bool.not_eq_true',
                    Bool.not_eq_false, decide_eq_true_eq] at range
                  rw [criteriaHold_iff d.value_lt p.value_lt q.value_lt (by omega) (by omega)]
                    at criteria
                  obtain ⟨p_root, q_root, apart, d_large, d_below, inverts⟩ := criteria
                  refine ⟨?_, ?_, ?_, ?_⟩
                  · intro fips
                    by_contra refused
                    exact exponent (by simp [fips, refused])
                  · simp only [Bool.or_eq_true, decide_eq_true_eq] at enough
                    omega
                  · simp only [Bool.or_eq_true, decide_eq_true_eq] at enough
                    omega
                  · exact
                      { p_top := bits.1, q_top := bits.2, p_odd := shape.1.1.1.1
                        q_odd := shape.1.1.1.2, product := not_not.mp product
                        p_root, q_root, apart, d_odd := range.1.2, d_large, d_below, inverts }
                · cases ok
  · rintro ⟨exponent, capacious, funded, parts⟩
    have p_top := parts.p_top
    have q_top := parts.q_top
    have distinct : value p.bytes ≠ value q.bytes := by
      have := parts.apart
      have pos : 0 < 2 ^ (4 * key.length - 100) := Nat.two_pow_pos _
      omega
    have criteria := (criteriaHold_iff d.value_lt p.value_lt q.value_lt (by omega)
      (by omega)).mpr ⟨parts.p_root, parts.q_root, parts.apart, parts.d_large, parts.d_below,
        parts.inverts⟩
    have below : value d.bytes < key.modulusValue := by
      rw [← parts.product]
      have lcm := Nat.lcm_le_mul (m := value p.bytes - 1) (n := value q.bytes - 1) (by omega)
        (by omega)
      have product := Nat.mul_le_mul (Nat.sub_le (value p.bytes) 1) (Nat.sub_le (value q.bytes) 1)
      have := parts.d_below
      omega
    have range : privateExponentCheck build key.words (value d.bytes) key.modulusValue = true := by
      have odd := parts.d_odd
      simp only [privateExponentCheck, subtract_borrow, Bool.and_eq_true, decide_eq_true_eq]
      omega
    unfold magnitudesConsistent
    rw [if_neg, if_neg]
    · simp only [(factorHasHalfBits_iff p).mpr p_top, (factorHasHalfBits_iff q).mpr q_top, range,
        parts.p_odd, parts.q_odd, parts.product, criteria]
      simp [distinct, show 1 < value p.bytes by omega, show 1 < value q.bytes by omega]
    · simp only [Bool.or_eq_true, decide_eq_true_eq]
      omega
    · intro refused
      simp only [Bool.and_eq_true, decide_eq_true_eq, Bool.not_eq_true'] at refused
      rw [exponent refused.1] at refused
      cases refused.2

structure CrtComponents (d p q dp dq qInverse : Nat) : Prop where
  dp_eq : dp = d % (p - 1)
  dq_eq : dq = d % (q - 1)
  below : qInverse < p
  inverts : q * qInverse % p = 1

theorem decrementWord_odd {x : Nat} (odd : x % 2 = 1) : decrementWord build x = x - 1 := by
  have even : 2 ∣ 2 ^ build.wordBits := dvd_pow_self 2 (Nat.pos_iff_ne_zero.mp build.wordBits_pos)
  rw [decrementWord, if_neg]
  intro zero
  have := Nat.mod_mod_of_dvd x even
  rw [zero] at this
  omega

/-- What `tc_rsa_crt_consistent` accepts, for a key with odd factors. -/
theorem crtConsistent_iff (d : Exponent key) (p q : HalfField key) (crt : CrtView key)
    (capacity work : Nat) (p_odd : value p.bytes % 2 = 1) (q_odd : value q.bytes % 2 = 1)
    (large : 1 < value p.bytes) (large' : 1 < value q.bytes) :
    (crtConsistent key d p q crt capacity work).1 = .ok ↔
      8 * (key.length * 8 / build.wordBits) ≤ capacity ∧ 32 * key.length + 1 ≤ work ∧
        CrtComponents (value d.bytes) (value p.bytes) (value q.bytes) (value crt.dp.bytes)
          (value crt.dq.bytes) (value crt.qInverse.bytes) := by
  have more : span build.wordBits key.half ≤ span build.wordBits key.words := by
    rw [← key.span_half_sq]
    exact Nat.le_mul_of_pos_right _ span_pos
  have first := p.value_lt
  have second := q.value_lt
  have double : value q.bytes * value crt.qInverse.bytes < span build.wordBits (2 * key.words) := by
    refine Nat.lt_of_lt_of_le (product_wide second crt.qInverse.value_lt) ?_
    exact Nat.pow_le_pow_right (by omega) (Nat.mul_le_mul_left _ (by omega))
  simp only [crtConsistent, decrementWord_odd p_odd, decrementWord_odd q_odd,
    @reduceWords_eq _ key.words (value p.bytes - 1) _ _ (by omega) (by omega) d.value_lt,
    @reduceWords_eq _ key.words (value q.bytes - 1) _ _ (by omega) (by omega) d.value_lt,
    reduceWords_eq (by omega) (Nat.lt_of_lt_of_le first more) double, subtract_borrow]
  split
  · rename_i short
    simp only [Bool.or_eq_true, decide_eq_true_eq] at short
    refine ⟨fun ok => (nomatch ok), fun ⟨capacious, funded, _⟩ => ?_⟩
    omega
  · rename_i enough
    simp only [Bool.or_eq_true, decide_eq_true_eq] at enough
    split
    · rename_i matched
      simp only [Bool.and_eq_true, decide_eq_true_eq] at matched
      exact ⟨fun _ => ⟨by omega, by omega, matched.1.1.1, matched.1.1.2, matched.1.2, matched.2⟩,
        fun _ => rfl⟩
    · rename_i differs
      simp only [Bool.and_eq_true, decide_eq_true_eq] at differs
      exact ⟨fun ok => (nomatch ok), fun ⟨_, _, parts⟩ =>
          absurd ⟨⟨⟨parts.dp_eq, parts.dq_eq⟩, parts.below⟩, parts.inverts⟩ differs⟩

end TinyCrypto.Rsa
