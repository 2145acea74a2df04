import TinyCrypto.Rsa.Agreement

/-! # Deriving the CRT values of a key

`tc_rsa_crt_derive`, what the component checks decide, and for which consistent keys the
derived values pass `tc_rsa_crt_consistent`.
-/

namespace TinyCrypto.Rsa

open Library.ByteCounter (value ofValue value_lt value_cons value_ofValue ofValue_length)
open Mp

variable {build : Build}

/-- `tc_rsa_crt_derive`: the values of `dp`, `dq` and `inverse`, and the work left. -/
def crtDerive (key : CheckedKey build) (d : Exponent key) (p q : HalfField key)
    (capacity work : Nat) : Except Result (Nat × Nat × Nat) × Nat :=
  let w := build.wordBits
  let n := key.words
  let h := key.half
  if capacity < 8 * (key.length * 8 / w) || work < 48 * key.length + 3 then (.error .limit, work)
  else
    let left := work - (48 * key.length + 3)
    let p := value p.bytes
    let q := value q.bytes
    if !(p % 2 = 1 && q % 2 = 1) then (.error .invalid, left)
    else
      let dp := reduceWords w h n (value d.bytes) (decrementWord build p)
      let dq := reduceWords w h n (value d.bytes) (decrementWord build q)
      match inverse w h (reduceWords w h h q p) p with
      | none => (.error .invalid, left)
      | some inverse => (.ok (dp, dq, inverse), left)

def halfField (key : CheckedKey build) (v : Nat) : HalfField key where
  bytes := ofValue (key.length / 2) v
  nonempty := by
    have := key.length_cases
    rw [ofValue_length]
    omega
  fits := Nat.le_of_eq (ofValue_length _ _)

/-- What `TC_RSA_derive_crt` writes for derived values. -/
def publishCrt (key : CheckedKey build) (values : Nat × Nat × Nat) : CrtView key :=
  ⟨halfField key values.1, halfField key values.2.1, halfField key values.2.2⟩

theorem stripZeros_first (bytes : Bytes) :
    stripZeros bytes = [] ∨ ∃ b rest, stripZeros bytes = b :: rest ∧ 0 < b.toNat := by
  induction bytes with
  | nil => exact .inl rfl
  | cons b rest ih =>
    rw [stripZeros, List.dropWhile_cons]
    split
    · exact ih
    · rename_i nonzero
      rw [decide_eq_true_eq] at nonzero
      exact .inr ⟨b, rest, rfl, Nat.pos_of_ne_zero fun zero => nonzero (UInt8.toNat_inj.mp zero)⟩

theorem lastOdd_stripZeros (bytes : Bytes) : lastOdd (stripZeros bytes) = lastOdd bytes := by
  rw [Bool.eq_iff_iff, lastOdd_iff, lastOdd_iff, value_stripZeros]

/-- The lengths that `tc_rsa_exponent_fips` compares are bounds on the number. -/
theorem exponentFips_iff (exponent : Bytes) : exponentFips exponent = true ↔
      value exponent % 2 = 1 ∧ 2 ^ 16 < value exponent ∧ value exponent < 2 ^ 256 := by
  have bound := value_lt (stripZeros exponent)
  simp only [exponentFips, Bool.and_eq_true, decide_eq_true_eq, lastOdd_stripZeros, lastOdd_iff]
  rcases stripZeros_first exponent with empty | ⟨b, rest, parts, pos⟩
  · rw [value_stripZeros, empty, List.length_nil, Nat.pow_zero] at bound
    rw [empty, List.length_nil]
    omega
  · have low := Nat.le_mul_of_pos_left (256 ^ rest.length) pos
    have first : 256 ^ rest.length ≤ value exponent := by
      rw [← value_stripZeros, parts, value_cons]
      omega
    rw [value_stripZeros, parts, List.length_cons] at bound
    rw [parts, List.length_cons]
    constructor
    · rintro ⟨⟨long, short⟩, odd⟩
      have lower : 256 ^ 2 ≤ 256 ^ rest.length := Nat.pow_le_pow_right (by omega) (by omega)
      have upper : 256 ^ (rest.length + 1) ≤ 256 ^ 32 := Nat.pow_le_pow_right (by omega) short
      omega
    · rintro ⟨odd, large, small⟩
      refine ⟨⟨?_, ?_⟩, odd⟩
      · by_contra short
        have upper : 256 ^ (rest.length + 1) ≤ 256 ^ 2 := Nat.pow_le_pow_right (by omega) (by omega)
        omega
      · by_contra long
        have lower : 256 ^ 32 ≤ 256 ^ rest.length := Nat.pow_le_pow_right (by omega) (by omega)
        omega

theorem Components.coprime {key : CheckedKey build} {d p q : Nat} (parts : Components key d p q)
    {m : Nat} (divides : m ∣ Nat.lcm (p - 1) (q - 1)) : Nat.Coprime (value key.exponent) m := by
  have common := Nat.gcd_dvd_left (value key.exponent) m
  have factor := Nat.dvd_trans (Nat.gcd_dvd_right (value key.exponent) m) divides
  have whole : Nat.gcd (value key.exponent) m ∣ d * value key.exponent :=
    Nat.dvd_mul_left_of_dvd common d
  rw [Nat.Coprime, ← Nat.dvd_one, ← parts.inverts]
  exact (Nat.dvd_mod_iff factor).mpr whole

theorem Components.large {key : CheckedKey build} {d p q : Nat} (parts : Components key d p q) :
    1 < p ∧ 1 < q := by
  have lengths := key.length_cases
  have halves : (2 : Nat) ^ 1 ≤ 2 ^ (4 * key.length - 1) :=
    Nat.pow_le_pow_right (by omega) (by omega)
  have p_top := parts.p_top
  have q_top := parts.q_top
  omega

section

variable {key : CheckedKey build} {d : Exponent key} {p q : HalfField key} {capacity work : Nat}

theorem value_halfField {v : Nat} (small : v < span build.wordBits key.half) :
    value (halfField key v).bytes = v := by
  rw [halfField, value_ofValue, ← key.span_half, Nat.mod_eq_of_lt small]

section

variable (parts : Components key (value d.bytes) (value p.bytes) (value q.bytes))

include parts

/-- The values of `tc_rsa_crt_derive` for odd factors. -/
theorem crtDerive_eq (capacious : 8 * (key.length * 8 / build.wordBits) ≤ capacity)
    (funded : 48 * key.length + 3 ≤ work) :
    crtDerive key d p q capacity work =
      (match inverse build.wordBits key.half (value q.bytes % value p.bytes) (value p.bytes) with
        | none => .error .invalid
        | some out =>
          .ok (value d.bytes % (value p.bytes - 1), value d.bytes % (value q.bytes - 1), out),
        work - (48 * key.length + 3)) := by
  have first := p.value_lt
  have second := q.value_lt
  have large := parts.large
  have enough : ¬ (decide (capacity < 8 * (key.length * 8 / build.wordBits)) ||
      decide (work < 48 * key.length + 3)) = true := by
    simp only [Bool.or_eq_true, decide_eq_true_eq]
    omega
  simp only [crtDerive, if_neg enough, parts.p_odd, parts.q_odd, decide_true, Bool.and_self,
    Bool.not_true, Bool.false_eq_true, if_false, decrementWord_odd parts.p_odd,
    decrementWord_odd parts.q_odd,
    @reduceWords_eq _ key.half (value p.bytes - 1) _ _ (by omega) (by omega) d.value_lt,
    @reduceWords_eq _ key.half (value q.bytes - 1) _ _ (by omega) (by omega) d.value_lt,
    @reduceWords_eq _ key.half (value p.bytes) _ _ (by omega) first second]
  split <;> rfl

theorem crtDerive_coprime (coprime : Nat.Coprime (value p.bytes) (value q.bytes))
    (capacious : 8 * (key.length * 8 / build.wordBits) ≤ capacity)
    (funded : 48 * key.length + 3 ≤ work) :
    ∃ values, crtDerive key d p q capacity work = (.ok values, work - (48 * key.length + 3)) ∧
      CrtComponents (value d.bytes) (value p.bytes) (value q.bytes)
        (value (publishCrt key values).dp.bytes) (value (publishCrt key values).dq.bytes)
        (value (publishCrt key values).qInverse.bytes) := by
  have first := p.value_lt
  have second := q.value_lt
  have large := parts.large
  have reduced : Nat.gcd (value q.bytes % value p.bytes) (value p.bytes) = 1 := by
    rw [← Nat.gcd_rec]
    exact coprime
  obtain ⟨out, found, below, inverts⟩ := (inverse_spec parts.p_odd large.1 first
    (Nat.mod_lt _ (by omega))).1 reduced
  refine ⟨_, by rw [crtDerive_eq parts capacious funded, found], ?_⟩
  have dp_small : value d.bytes % (value p.bytes - 1) < value p.bytes - 1 := Nat.mod_lt _ (by omega)
  have dq_small : value d.bytes % (value q.bytes - 1) < value q.bytes - 1 := Nat.mod_lt _ (by omega)
  have product : value q.bytes * out ≡ 1 [MOD value p.bytes] := by
    refine Nat.ModEq.trans ?_ inverts
    rw [Nat.mul_comm]
    exact (Nat.mod_modEq _ _).symm.mul_left out
  have out_value : value (halfField key out).bytes = out :=
    value_halfField (Nat.lt_trans below first)
  have dp_value := @value_halfField _ key (value d.bytes % (value p.bytes - 1)) (by omega)
  have dq_value := @value_halfField _ key (value d.bytes % (value q.bytes - 1)) (by omega)
  exact
    { dp_eq := dp_value
      dq_eq := dq_value
      below := lt_of_eq_of_lt out_value below
      inverts := by
        rw [publishCrt, out_value]
        exact Eq.trans product (Nat.mod_eq_of_lt large.1) }

theorem crtDerive_common (common : ¬ Nat.Coprime (value p.bytes) (value q.bytes))
    (capacious : 8 * (key.length * 8 / build.wordBits) ≤ capacity)
    (funded : 48 * key.length + 3 ≤ work) :
    crtDerive key d p q capacity work = (.error .invalid, work - (48 * key.length + 3)) := by
  have large := parts.large
  have reduced : Nat.gcd (value q.bytes % value p.bytes) (value p.bytes) ≠ 1 := by
    rw [← Nat.gcd_rec]
    exact common
  rw [crtDerive_eq parts capacious funded,
    (inverse_spec parts.p_odd large.1 p.value_lt (Nat.mod_lt _ (by omega))).2 reduced]

end

end

/-- The component checks accept exactly the two-prime components in their ranges. For a key that
    they accept, the derivation yields values that the CRT check accepts when the factors have
    no common divisor, and refuses the key when they have one. -/
theorem validation_exact (key : CheckedKey build) (d : Exponent key) (p q : HalfField key)
    (policy : ExponentPolicy) (capacity work : Nat) :
    ((magnitudesConsistent key d p q policy capacity work).1 = .ok ↔
      (policy = .fips → value key.exponent % 2 = 1 ∧ 2 ^ 16 < value key.exponent ∧
        value key.exponent < 2 ^ 256) ∧ 12 * key.words ≤ capacity ∧ 48 * key.length + 2 ≤ work ∧
      Components key (value d.bytes) (value p.bytes) (value q.bytes) ∧
      Nat.Coprime (value key.exponent) (value p.bytes - 1) ∧
      Nat.Coprime (value key.exponent) (value q.bytes - 1)) ∧
    ((magnitudesConsistent key d p q policy capacity work).1 = .ok →
      ∀ deriveCapacity deriveWork, 8 * (key.length * 8 / build.wordBits) ≤ deriveCapacity →
        48 * key.length + 3 ≤ deriveWork → (Nat.Coprime (value p.bytes) (value q.bytes) →
          ∃ values, (crtDerive key d p q deriveCapacity deriveWork).1 = .ok values ∧
            ∀ checkCapacity checkWork, 8 * (key.length * 8 / build.wordBits) ≤ checkCapacity →
              32 * key.length + 1 ≤ checkWork →
              (crtConsistent key d p q (publishCrt key values) checkCapacity checkWork).1 = .ok) ∧
        (¬ Nat.Coprime (value p.bytes) (value q.bytes) →
          (crtDerive key d p q deriveCapacity deriveWork).1 = .error .invalid)) := by
  have accepts := magnitudesConsistent_iff d p q policy capacity work
  simp only [exponentFips_iff] at accepts
  constructor
  · rw [accepts]
    constructor
    · rintro ⟨range, capacious, funded, parts⟩
      exact ⟨range, capacious, funded, parts, parts.coprime (Nat.dvd_lcm_left _ _),
        parts.coprime (Nat.dvd_lcm_right _ _)⟩
    · rintro ⟨range, capacious, funded, parts, _, _⟩
      exact ⟨range, capacious, funded, parts⟩
  · intro ok deriveCapacity deriveWork capacious funded
    obtain ⟨_, _, _, parts⟩ := accepts.mp ok
    constructor
    · intro coprime
      obtain ⟨values, derived, fields⟩ := crtDerive_coprime parts coprime capacious funded
      refine ⟨values, congrArg Prod.fst derived, ?_⟩
      intro checkCapacity checkWork room affordable
      exact (crtConsistent_iff d p q _ _ _ parts.p_odd parts.q_odd parts.large.1
        parts.large.2).mpr ⟨room, affordable, fields⟩
    · intro common
      exact congrArg Prod.fst (crtDerive_common parts common capacious funded)

theorem validation_exact_scaled :
    ∃ values, (crtDerive primeScaled.key primeScaled.d primeScaled.p primeScaled.q 256 6147).1 =
        .ok values ∧ (crtConsistent primeScaled.key primeScaled.d primeScaled.p primeScaled.q
        (publishCrt primeScaled.key values) 256 4097).1 = .ok := by
  have room : 8 * (primeScaled.key.length * 8 / sampleBuild.wordBits) ≤ 256 := by
    rw [Scaled.length_eq]
    decide
  have coprime : Nat.Coprime (value primeScaled.p.bytes) (value primeScaled.q.bytes) := by
    rw [Scaled.value_p, Scaled.value_q]
    decide +kernel
  obtain ⟨values, derived, accepted⟩ := ((validation_exact primeScaled.key primeScaled.d
    primeScaled.p primeScaled.q .fips 384 6146).2 Scaled.consistent 256 6147 room
    (by rw [Scaled.length_eq])).1 coprime
  exact ⟨values, derived, accepted 256 4097 room (by rw [Scaled.length_eq])⟩

/-- The factors are `11 * commonT + 1` and `8 * commonT + 1`, two multiples of three. -/
def commonT : Nat := 185 * 2 ^ 501

def commonKey : CheckedKey sampleBuild where
  modulus := ofValue 128 ((11 * commonT + 1) * (8 * commonT + 1))
  exponent := [1, 0, 1]
  checked := by decide +kernel

theorem commonKey_length : commonKey.length = 128 := ofValue_length _ _

def commonP : HalfField commonKey where
  bytes := ofValue 64 (11 * commonT + 1)
  nonempty := by simp
  fits := by simp [commonKey_length]

def commonQ : HalfField commonKey where
  bytes := ofValue 64 (8 * commonT + 1)
  nonempty := by simp
  fits := by simp [commonKey_length]

def commonD : Exponent commonKey where
  bytes := ofValue 128 ((42768 * (88 * commonT) + 1) / 65537)
  nonempty := by simp
  fits := by simp [commonKey_length]

theorem common_components :
    Components commonKey (value commonD.bytes) (value commonP.bytes) (value commonQ.bytes) := by
  have p_value : value commonP.bytes = 11 * commonT + 1 := by decide +kernel
  have q_value : value commonQ.bytes = 8 * commonT + 1 := by decide +kernel
  have d_value : value commonD.bytes = (42768 * (88 * commonT) + 1) / 65537 := by decide +kernel
  rw [p_value, q_value, d_value]
  exact
    { p_top := by decide +kernel
      q_top := by decide +kernel
      p_odd := by decide +kernel
      q_odd := by decide +kernel
      product := by decide +kernel
      p_root := by decide +kernel
      q_root := by decide +kernel
      apart := by decide +kernel
      d_odd := by decide +kernel
      d_large := by decide +kernel
      d_below := by decide +kernel
      inverts := by decide +kernel }

/-- A consistent key whose factors share a divisor: the derivation refuses it. -/
theorem common_divisor_refused :
    (magnitudesConsistent commonKey commonD commonP commonQ .fips 384 6146).1 = .ok ∧
      (crtDerive commonKey commonD commonP commonQ 256 6147).1 = .error .invalid := by
  have exponent : exponentFips commonKey.exponent = true := by decide +kernel
  have common : ¬ Nat.Coprime (value commonP.bytes) (value commonQ.bytes) := by decide +kernel
  constructor
  · exact (magnitudesConsistent_iff _ _ _ _ _ _).mpr
      ⟨fun _ => exponent, by decide +kernel, by decide +kernel, common_components⟩
  · exact congrArg Prod.fst
      (crtDerive_common common_components common (by decide +kernel) (by decide +kernel))

end TinyCrypto.Rsa
