import TinyCrypto.Rsa.Consistent

/-! # Agreement of the two private operations

For prime factors the full-width and the CRT operation both compute the private power.
-/

namespace TinyCrypto.Rsa

open Library.ByteCounter (value ofValue value_lt value_ofValue ofValue_length)
open Mp

variable {E : Type} {build : Build}

theorem pow_modEq {p : Nat} (prime : p.Prime) {i j : Nat} (same : i ≡ j [MOD p - 1]) (first : 0 < i)
    (second : 0 < j) (x : Nat) : x ^ i ≡ x ^ j [MOD p] := by
  have : Fact p.Prime := ⟨prime⟩
  rw [← ZMod.natCast_eq_natCast_iff, Nat.cast_pow, Nat.cast_pow]
  by_cases zero : (x : ZMod p) = 0
  · rw [zero, zero_pow first.ne', zero_pow second.ne']
  · have unit := ZMod.pow_card_sub_one_eq_one zero
    rw [pow_eq_pow_mod i unit, pow_eq_pow_mod j unit, same]

theorem pow_inverse {p q d e : Nat} (first : p.Prime) (second : q.Prime) (distinct : p ≠ q)
    (inverts : d * e % Nat.lcm (p - 1) (q - 1) = 1) (x : Nat) : x ^ (d * e) ≡ x [MOD p * q] := by
  have one : d * e ≡ 1 [MOD Nat.lcm (p - 1) (q - 1)] := by
    calc d * e ≡ d * e % Nat.lcm (p - 1) (q - 1) [MOD Nat.lcm (p - 1) (q - 1)] :=
          (Nat.mod_modEq _ _).symm
      _ = 1 := inverts
  have pos : 0 < d * e := by
    apply Nat.pos_of_ne_zero
    intro zero
    rw [zero, Nat.zero_mod] at inverts
    cases inverts
  refine (Nat.modEq_and_modEq_iff_modEq_mul ((Nat.coprime_primes first second).mpr distinct)).mp
    ⟨?_, ?_⟩
  · have power := pow_modEq first (one.of_dvd (Nat.dvd_lcm_left _ _)) pos Nat.one_pos x
    rwa [pow_one] at power
  · have power := pow_modEq second (one.of_dvd (Nat.dvd_lcm_right _ _)) pos Nat.one_pos x
    rwa [pow_one] at power

theorem halfPower_eq {h primeLength p base exponent : Nat} (odd : p % 2 = 1) (large : 1 < p)
    (fits : p < span build.wordBits h) (small : base < span build.wordBits h)
    (short : exponent < 256 ^ primeLength) :
    halfPower build h primeLength p base exponent = base ^ exponent % p := by
  have ready : Ready build.wordBits (modulusOf build.wordBits p h) :=
    modulusOf_ready build.wordBits_pos odd fits
  have unit : element build.wordBits (modulusOf build.wordBits p h)
      (montgomery build.wordBits (modulusOf build.wordBits p h) 1
        (montgomeryR2 build.wordBits h p)) = 1 := by
    have encoded := ready.element_encode large (Nat.lt_trans large fits)
    exact encoded.trans Nat.cast_one
  have one_lt := ready.montgomery_lt (Nat.lt_trans large fits) (ready.r2_lt large)
  have base_lt := ready.montgomery_lt small (ready.r2_lt large)
  obtain ⟨below, power⟩ := power_spec ready base_lt one_lt unit short
  obtain ⟨less, decoded⟩ := ready.decode large below
  have encoded := ready.element_encode large small
  refine (Nat.mod_eq_of_lt less).symm.trans ?_
  refine (ZMod.natCast_eq_natCast_iff' _ _ p).mp ?_
  refine decoded.trans (power.trans ?_)
  rw [Nat.cast_pow]
  exact congrArg (· ^ exponent) encoded

theorem garner_spec {h p q qInverse m1 m2 : Nat} (first : p < span build.wordBits h)
    (second : q < span build.wordBits h) (pos : 0 < p) (below : qInverse < p)
    (inverts : q * qInverse % p = 1) (m1_lt : m1 < p) (m2_lt : m2 < q) :
    garner build h p q qInverse m1 m2 < p * q ∧ garner build h p q qInverse m1 m2 ≡ m1 [MOD p] ∧
      garner build h p q qInverse m1 m2 ≡ m2 [MOD q] := by
  have double : span build.wordBits (2 * h) = span build.wordBits h * span build.wordBits h := by
    rw [span, span, ← Nat.pow_add]
    congr 1
    ring
  have residue_lt : m2 % p < p := Nat.mod_lt _ pos
  have delta_eq := subMod_eq (Nat.le_of_lt first) m1_lt residue_lt
  have delta_lt : (m1 + p - m2 % p) % p < p := Nat.mod_lt _ pos
  have wide : (m1 + p - m2 % p) % p * qInverse < span build.wordBits (2 * h) := by
    rw [double]
    exact Nat.mul_lt_mul'' (Nat.lt_trans delta_lt first) (Nat.lt_trans below first)
  have factor_lt : (m1 + p - m2 % p) % p * qInverse % p < p := Nat.mod_lt _ pos
  have total : q * ((m1 + p - m2 % p) % p * qInverse % p) + m2 < p * q := by
    have := Nat.mul_le_mul_left q (Nat.succ_le_of_lt factor_lt)
    rw [Nat.mul_succ, Nat.mul_comm q p] at this
    omega
  have fits : p * q < span build.wordBits (2 * h) := by
    rw [double]
    exact Nat.mul_lt_mul'' first second
  rw [garner, reduceWords_eq pos first (Nat.lt_trans m2_lt second), delta_eq,
    reduceWords_eq pos first wide, Nat.mod_eq_of_lt (Nat.lt_trans total fits)]
  refine ⟨total, ?_, ?_⟩
  · have unit : q * qInverse ≡ 1 [MOD p] := by
      calc q * qInverse ≡ q * qInverse % p [MOD p] := (Nat.mod_modEq _ _).symm
        _ = 1 := inverts
    have whole : m1 + p - m2 % p + m2 % p = m1 + p := by omega
    calc q * ((m1 + p - m2 % p) % p * qInverse % p) + m2
        ≡ q * ((m1 + p - m2 % p) * qInverse) + m2 % p [MOD p] :=
          Nat.ModEq.add (((Nat.mod_modEq _ _).trans ((Nat.mod_modEq _ _).mul_right _)).mul_left q)
            (Nat.mod_modEq _ _).symm
      _ = q * qInverse * (m1 + p - m2 % p) + m2 % p := by ring
      _ ≡ 1 * (m1 + p - m2 % p) + m2 % p [MOD p] := (unit.mul_right _).add_right _
      _ = m1 + p := by rw [one_mul, whole]
      _ ≡ m1 [MOD p] := Nat.add_modEq_right
  · exact Nat.ModEq.symm (by simp [Nat.ModEq])

section

variable {key : CheckedKey build} {input blind inverse : Nat}

theorem blindInput_spec (small : input < key.modulusValue) (drawn : Drawn key blind inverse) :
    blindInput key (encode key input) (encode key blind) (encode key 1) < key.modulusValue ∧
      residue key (blindInput key (encode key input) (encode key blind) (encode key 1)) =
        input * blind ^ value key.exponent := by
  obtain ⟨below, power⟩ := residue_power (encode_lt (wide drawn.blind_lt)) (value_lt key.exponent)
  obtain ⟨less, product⟩ := residue_montgomery (wide (encode_lt (wide small))) below
  refine ⟨less, ?_⟩
  rw [blindInput, product, power, residue_encode (wide small), residue_encode (wide drawn.blind_lt)]

theorem unblindVerify_power {masked d : Nat} (small : input < key.modulusValue)
    (drawn : Drawn key blind inverse)
    (undo : ∀ x : ZMod key.modulusValue, x ^ (d * value key.exponent) = x)
    (first : masked < key.modulusValue)
    (power : residue key masked = ((input : ZMod key.modulusValue) *
      (blind : ZMod key.modulusValue) ^ value key.exponent) ^ d) :
    unblindVerify key masked (encode key inverse) (encode key input) (encode key 1) =
      some (input ^ d % key.modulusValue) := by
  have cancel : (inverse : ZMod key.modulusValue) * blind = 1 := by
    have inverts := (ZMod.natCast_eq_natCast_iff _ _ _).mpr drawn.inverts
    push_cast at inverts
    exact inverts
  obtain ⟨below, product⟩ := residue_montgomery (wide first) (encode_lt (wide drawn.inverse_lt))
  have unblinded : residue key (montgomery build.wordBits key.field masked (encode key inverse)) =
      (input : ZMod key.modulusValue) ^ d := by
    rw [product, power, residue_encode (wide drawn.inverse_lt), mul_pow, ← pow_mul,
      Nat.mul_comm (value key.exponent) d, undo, mul_assoc,
      mul_comm (blind : ZMod key.modulusValue), cancel, mul_one]
  obtain ⟨check_lt, check⟩ := residue_power below (value_lt key.exponent)
  have equal := residue_inj check_lt (encode_lt (wide small)) (by
    rw [check, unblinded, ← pow_mul, undo, residue_encode (wide small)])
  obtain ⟨less, decoded⟩ := residue_decode below
  rw [unblindVerify, if_pos equal]
  congr 1
  refine (Nat.mod_eq_of_lt less).symm.trans ?_
  refine (ZMod.natCast_eq_natCast_iff' _ _ key.modulusValue).mp ?_
  rw [decoded, unblinded, Nat.cast_pow]

theorem Components.undo {d p q : Nat} (parts : Components key d p q) (first : p.Prime)
    (second : q.Prime) (x : ZMod key.modulusValue) : x ^ (d * value key.exponent) = x := by
  have distinct : p ≠ q := by
    have := parts.apart
    have pos : 0 < 2 ^ (4 * key.length - 100) := Nat.two_pow_pos _
    omega
  have : NeZero key.modulusValue := ⟨by have := key.large; omega⟩
  have power := pow_inverse first second distinct parts.inverts x.val
  rw [parts.product, ← ZMod.natCast_eq_natCast_iff, Nat.cast_pow, ZMod.natCast_val,
    ZMod.cast_id] at power
  exact power

theorem magnitudeResult_eq {d : Exponent key} {p q : Nat}
    (parts : Components key (value d.bytes) p q) (first : p.Prime) (second : q.Prime)
    (small : input < key.modulusValue) (drawn : Drawn key blind inverse) :
    magnitudeResult key d input blind inverse =
      some (input ^ value d.bytes % key.modulusValue) := by
  have fits : value d.bytes < 256 ^ key.length :=
    Nat.lt_of_lt_of_le (value_lt _) (Nat.pow_le_pow_right (by omega) d.fits)
  obtain ⟨below, masked⟩ := blindInput_spec small drawn
  obtain ⟨less, power⟩ := residue_power below fits
  rw [masked] at power
  exact unblindVerify_power small drawn (parts.undo first second) less power

theorem halfPower_modEq {f : HalfField key} {exponent : HalfField key} {d y : Nat}
    (prime : (value f.bytes).Prime) (odd : value f.bytes % 2 = 1) (d_odd : d % 2 = 1)
    (y_lt : y < span build.wordBits key.words)
    (reduced : value exponent.bytes = d % (value f.bytes - 1)) :
    halfPower build key.half (key.length / 2) (value f.bytes)
        (reduceWords build.wordBits key.half key.words y (value f.bytes)) (value exponent.bytes) <
        value f.bytes ∧ halfPower build key.half (key.length / 2) (value f.bytes)
        (reduceWords build.wordBits key.half key.words y (value f.bytes)) (value exponent.bytes) ≡
        y ^ d [MOD value f.bytes] := by
  have large := prime.one_lt
  have fits := f.value_lt
  have short : value exponent.bytes < 256 ^ (key.length / 2) := by
    rw [← key.span_half]
    exact exponent.value_lt
  have residue_lt := Nat.mod_lt y (Nat.lt_trans Nat.one_pos large)
  rw [reduceWords_eq (Nat.lt_trans Nat.one_pos large) fits y_lt,
    halfPower_eq odd large fits (Nat.lt_trans residue_lt fits) short]
  refine ⟨Nat.mod_lt _ (Nat.lt_trans Nat.one_pos large), ?_⟩
  have even : 2 ∣ value f.bytes - 1 := by omega
  have low := Nat.mod_mod_of_dvd d even
  rw [← reduced] at low
  have same : value exponent.bytes ≡ d [MOD value f.bytes - 1] := by
    rw [reduced]
    exact Nat.mod_modEq _ _
  calc (y % value f.bytes) ^ value exponent.bytes % value f.bytes
      ≡ (y % value f.bytes) ^ value exponent.bytes [MOD value f.bytes] := Nat.mod_modEq _ _
    _ ≡ y ^ value exponent.bytes [MOD value f.bytes] := (Nat.mod_modEq _ _).pow _
    _ ≡ y ^ d [MOD value f.bytes] := pow_modEq prime same (by omega) (by omega) y

theorem crtResult_eq {d : Exponent key} {p q : HalfField key} {crt : CrtView key}
    (parts : Components key (value d.bytes) (value p.bytes) (value q.bytes))
    (fields : CrtComponents (value d.bytes) (value p.bytes) (value q.bytes) (value crt.dp.bytes)
      (value crt.dq.bytes) (value crt.qInverse.bytes))
    (first : (value p.bytes).Prime) (second : (value q.bytes).Prime)
    (small : input < key.modulusValue) (drawn : Drawn key blind inverse) :
    crtResult key p q crt input blind inverse =
      some (input ^ value d.bytes % key.modulusValue) := by
  have distinct : value p.bytes ≠ value q.bytes := by
    have := parts.apart
    have pos : 0 < 2 ^ (4 * key.length - 100) := Nat.two_pow_pos _
    omega
  obtain ⟨below, masked⟩ := blindInput_spec small drawn
  obtain ⟨y_lt, decoded⟩ := residue_decode below
  rw [masked] at decoded
  generalize number : montgomery build.wordBits key.field
    (blindInput key (encode key input) (encode key blind) (encode key 1)) 1 = y at y_lt decoded
  obtain ⟨m1_lt, m1⟩ := halfPower_modEq first parts.p_odd parts.d_odd (wide y_lt) fields.dp_eq
  obtain ⟨m2_lt, m2⟩ := halfPower_modEq second parts.q_odd parts.d_odd (wide y_lt) fields.dq_eq
  obtain ⟨less, left, right⟩ := @garner_spec build _ _ _ _ _ _ p.value_lt q.value_lt first.pos
    fields.below fields.inverts m1_lt m2_lt
  have both := (Nat.modEq_and_modEq_iff_modEq_mul ((Nat.coprime_primes first second).mpr
    distinct)).mp ⟨left.trans m1, right.trans m2⟩
  rw [parts.product] at less both
  rw [← ZMod.natCast_eq_natCast_iff, Nat.cast_pow, decoded] at both
  subst number
  refine unblindVerify_power small drawn (parts.undo first second) (encode_lt (wide less)) ?_
  exact (residue_encode (wide less)).trans both

end

def Draws (key : CheckedKey build) (crt : Bool) (random : Random E) (capacity work : Nat) (env : E) :
    Prop :=
  random.attempts ≠ 0 ∧ rawPrivateWorkspaceWords build (key.length * 8) ≤ capacity ∧
    privateBaseCost key.length key.exponent.length crt ≤ work ∧
    ∃ blind inverse left after,
      sampleBlinding key random (work - privateBaseCost key.length key.exponent.length crt) env =
        (.ok (blind, inverse), left, after)

variable {work : Nat} {env : E}

theorem limits_pass {attempts capacity required operations : Nat} (some : attempts ≠ 0)
    (capacious : required ≤ capacity) (funded : operations ≤ work) :
    (attempts = 0 || capacity < required || work < operations) = false := by
  simp [some, capacious, funded]

theorem published_value {length number bound : Nat} {output : Octets length}
    (below : number < bound) (fits : bound ≤ 256 ^ length) :
    (publish output work env (some number)).status = .ok ∧
      value (publish output work env (some number)).output.1 = number := by
  refine ⟨rfl, ?_⟩
  simp only [publish]
  rw [value_ofValue, Nat.mod_eq_of_lt (Nat.lt_of_lt_of_le below fits)]

theorem privatePower_published (key : CheckedKey build) (x : Nat) {output : Octets key.length} :
    (publish output work env (some (x % key.modulusValue))).status = .ok ∧
      value (publish output work env (some (x % key.modulusValue))).output.1 =
        x % key.modulusValue := by
  have large := key.large
  refine published_value (Nat.mod_lt _ (by omega)) ?_
  rw [← key.span_words]
  exact Nat.le_of_lt key.fits

theorem privateOperationMagnitude_ok {key : CheckedKey build} {d : Exponent key} {p q : Nat}
    (parts : Components key (value d.bytes) p q) (first : p.Prime) (second : q.Prime)
    {input output : Octets key.length} (below : value input.1 < key.modulusValue)
    {random : Random E} {capacity : Nat} (draws : Draws key false random capacity work env) :
    (privateOperationMagnitude key d input output random capacity work env).status = .ok ∧
      value (privateOperationMagnitude key d input output random capacity work env).output.1 =
        value input.1 ^ value d.bytes % key.modulusValue := by
  obtain ⟨attempts, capacious, funded, blind, inverse, left, after, sampled⟩ := draws
  have exponent_ok : privateExponentCheck build key.words (value d.bytes) key.modulusValue =
      true := by
    have odd := parts.d_odd
    have less := parts.d_below
    have lcm := Nat.lcm_le_mul (m := p - 1) (n := q - 1) (Nat.sub_pos_of_lt first.one_lt)
      (Nat.sub_pos_of_lt second.one_lt)
    have product := Nat.mul_le_mul (Nat.sub_le p 1) (Nat.sub_le q 1)
    have whole := parts.product
    simp only [privateExponentCheck, subtract_borrow, Bool.and_eq_true, decide_eq_true_eq]
    omega
  have drawn := sampleAttempts_drawn key random sampled
  simp only [privateOperationMagnitude, limits_pass attempts capacious funded, exponent_ok,
    subtract_borrow, below, decide_true, Bool.not_true, Bool.or_false, Bool.false_eq_true, if_false,
    sampled, magnitudeResult_eq parts first second below drawn]
  exact privatePower_published key _

theorem crtPrivateOperation_ok {key : CheckedKey build} {d : Exponent key} {p q : HalfField key}
    {crt : CrtView key} (parts : Components key (value d.bytes) (value p.bytes) (value q.bytes))
    (fields : CrtComponents (value d.bytes) (value p.bytes) (value q.bytes) (value crt.dp.bytes)
      (value crt.dq.bytes) (value crt.qInverse.bytes))
    (first : (value p.bytes).Prime) (second : (value q.bytes).Prime)
    {input output : Octets key.length} (below : value input.1 < key.modulusValue)
    {random : Random E} {capacity : Nat} (draws : Draws key true random capacity work env) :
    (crtPrivateOperation key p q crt input output random capacity work env).status = .ok ∧
      value (crtPrivateOperation key p q crt input output random capacity work env).output.1 =
        value input.1 ^ value d.bytes % key.modulusValue := by
  obtain ⟨attempts, capacious, funded, blind, inverse, left, after, sampled⟩ := draws
  have drawn := sampleAttempts_drawn key random sampled
  simp only [crtPrivateOperation, limits_pass attempts capacious funded, subtract_borrow, below,
    decide_true, Bool.not_true, Bool.false_eq_true, if_false, sampled,
    crtResult_eq parts fields first second below drawn]
  exact privatePower_published key _

theorem sampleAttempts_draws {key : CheckedKey build} {random : Random E} {attempts work : Nat}
    {env after : E} {bytes : Octets key.length}
    (filled : random.fill key.length env = (some bytes, after)) (large : 1 < value bytes.1)
    (below : value bytes.1 < key.modulusValue)
    (coprime : Nat.Coprime (value bytes.1) key.modulusValue)
    (funded : blindingCost key.length ≤ work) :
    ∃ inverse, sampleAttempts key random (attempts + 1) work env =
      (.ok (value bytes.1, inverse), work - blindingCost key.length, after) := by
  obtain ⟨inverse, found, _⟩ := (inverse_spec key.odd key.large key.fits below).1 coprime
  refine ⟨inverse, ?_⟩
  simp only [sampleAttempts, if_neg (Nat.not_lt.mpr funded), filled, subtract_borrow, below, large,
    decide_true, Bool.and_self, if_true]
  rw [CheckedKey.modulusValue] at found
  rw [CheckedKey.modulusValue, found]

section

def sampleBuild : Build := ⟨true, true, true, true, true⟩

def scaledPublic (t : Nat) : PublicKey := ⟨ofValue 128 ((4 * t + 1) * (3 * t + 1)), [1, 0, 1]⟩

/-- A number `t` and the quotient `k` of `65537 d = 12 t k + 1`, in the ranges of a key. -/
structure Scaled where
  t : Nat
  k : Nat
  checked : publicKeyCheck sampleBuild (scaledPublic t) = .ok
  even : t % 2 = 0
  bits : 4 * t + 1 < 256 ^ 64
  top : 2 ^ (4 * 128 - 1) ≤ 3 * t + 1
  root : 2 ^ (8 * 128 - 1) ≤ (3 * t + 1) * (3 * t + 1)
  apart : 2 ^ (4 * 128 - 100) < t
  whole : (k * (12 * t) + 1) % 65537 = 0
  d_odd : (k * (12 * t) + 1) / 65537 % 2 = 1
  d_large : 2 ^ (4 * 128) < (k * (12 * t) + 1) / 65537
  d_below : (k * (12 * t) + 1) / 65537 < 12 * t

variable (scaled : Scaled)

def Scaled.key : CheckedKey sampleBuild := ⟨scaledPublic scaled.t, scaled.checked⟩

theorem Scaled.length_eq : scaled.key.length = 128 := ofValue_length 128 _

def Scaled.field (v : Nat) : HalfField scaled.key where
  bytes := ofValue 64 v
  nonempty := by simp
  fits := by simp [scaled.length_eq]

def Scaled.p : HalfField scaled.key := scaled.field (4 * scaled.t + 1)

def Scaled.q : HalfField scaled.key := scaled.field (3 * scaled.t + 1)

def Scaled.d : Exponent scaled.key where
  bytes := ofValue 128 ((scaled.k * (12 * scaled.t) + 1) / 65537)
  nonempty := by simp
  fits := by simp [scaled.length_eq]

def Scaled.crt : CrtView scaled.key where
  dp := scaled.field ((scaled.k * (12 * scaled.t) + 1) / 65537 % (4 * scaled.t))
  dq := scaled.field ((scaled.k * (12 * scaled.t) + 1) / 65537 % (3 * scaled.t))
  qInverse := scaled.field 4

def Scaled.octets (v : Nat) : Octets scaled.key.length :=
  ⟨ofValue scaled.key.length v, ofValue_length _ _⟩

def twoSource : Random Unit := ⟨fun length env => (some ⟨ofValue length 2, ofValue_length _ _⟩, env), 1⟩

variable {scaled}

theorem Scaled.value_field {v : Nat} (small : v < 256 ^ 64) : value (scaled.field v).bytes = v := by
  rw [field, value_ofValue, Nat.mod_eq_of_lt small]

theorem Scaled.product_lt : (4 * scaled.t + 1) * (3 * scaled.t + 1) < 256 ^ 128 := by
  have bits := scaled.bits
  have product := Nat.mul_lt_mul'' bits (show 3 * scaled.t + 1 < 256 ^ 64 by omega)
  rwa [← Nat.pow_add] at product

theorem Scaled.modulusValue_eq :
    scaled.key.modulusValue = (4 * scaled.t + 1) * (3 * scaled.t + 1) :=
  (value_ofValue 128 _).trans (Nat.mod_eq_of_lt Scaled.product_lt)

theorem Scaled.value_p : value scaled.p.bytes = 4 * scaled.t + 1 := value_field scaled.bits

theorem Scaled.value_q : value scaled.q.bytes = 3 * scaled.t + 1 := by
  have bits := scaled.bits
  exact value_field (by omega)

theorem Scaled.value_d : value scaled.d.bytes = (scaled.k * (12 * scaled.t) + 1) / 65537 := by
  have bits := scaled.bits
  have below := scaled.d_below
  rw [d, value_ofValue, Nat.mod_eq_of_lt]
  have wide : (256 : Nat) ^ 64 * 3 ≤ 256 ^ 128 := by norm_num
  omega

theorem Scaled.value_octets {v : Nat} (small : v < 256) : value (scaled.octets v).1 = v := by
  have wide : 256 ≤ 256 ^ 128 := Nat.le_self_pow (by omega) 256
  rw [octets, value_ofValue, scaled.length_eq, Nat.mod_eq_of_lt (Nat.lt_of_lt_of_le small wide)]

theorem Scaled.components :
    Components scaled.key (value scaled.d.bytes) (value scaled.p.bytes) (value scaled.q.bytes) := by
  have even := scaled.even
  have p_odd : (4 * scaled.t + 1) % 2 = 1 := by omega
  have q_odd : (3 * scaled.t + 1) % 2 = 1 := by omega
  have top := scaled.top
  have root := scaled.root
  have p_top : 2 ^ (4 * 128 - 1) ≤ 4 * scaled.t + 1 := Nat.le_trans top (by omega)
  have larger := Nat.mul_le_mul (show 3 * scaled.t + 1 ≤ 4 * scaled.t + 1 by omega)
    (show 3 * scaled.t + 1 ≤ 4 * scaled.t + 1 by omega)
  have lcm : Nat.lcm (4 * scaled.t + 1 - 1) (3 * scaled.t + 1 - 1) = 12 * scaled.t := by
    rw [Nat.add_sub_cancel, Nat.add_sub_cancel, Nat.lcm_mul_right]
    rfl
  have public_exponent : value scaled.key.exponent = 65537 := rfl
  have inverts : (scaled.k * (12 * scaled.t) + 1) / 65537 * 65537 =
      scaled.k * (12 * scaled.t) + 1 := Nat.div_mul_cancel (Nat.dvd_of_mod_eq_zero scaled.whole)
  rw [value_p, value_q, value_d]
  exact
    { p_top := by rw [scaled.length_eq]; exact p_top
      q_top := by rw [scaled.length_eq]; exact top
      p_odd
      q_odd
      product := modulusValue_eq.symm
      p_root := by rw [scaled.length_eq]; exact Nat.le_trans root larger
      q_root := by rw [scaled.length_eq]; exact root
      apart := by
        rw [scaled.length_eq]
        exact .inl (Nat.lt_of_lt_of_eq scaled.apart (by omega))
      d_odd := scaled.d_odd
      d_large := by rw [scaled.length_eq]; exact scaled.d_large
      d_below := by rw [lcm]; exact scaled.d_below
      inverts := by
        rw [lcm, public_exponent, inverts, Nat.mul_add_mod_self_right]
        exact Nat.mod_eq_of_lt (by omega) }

theorem Scaled.consistent :
    (magnitudesConsistent scaled.key scaled.d scaled.p scaled.q .fips 384 6146).1 = .ok :=
  (magnitudesConsistent_iff _ _ _ _ _ _).mpr
    ⟨fun _ => by change exponentFips [1, 0, 1] = true; decide, by rw [CheckedKey.words, scaled.length_eq]; decide,
      by rw [scaled.length_eq], Scaled.components⟩

theorem Scaled.matching :
    (crtConsistent scaled.key scaled.d scaled.p scaled.q scaled.crt 256 4097).1 = .ok := by
  have parts := @Scaled.components scaled
  have top := scaled.top
  have bits := scaled.bits
  refine (crtConsistent_iff _ _ _ _ _ _ parts.p_odd parts.q_odd ?_ ?_).mpr
    ⟨by rw [scaled.length_eq]; decide, by rw [scaled.length_eq], ?_⟩
  · rw [value_p]
    omega
  · rw [value_q]
    omega
  · rw [value_p, value_q, value_d]
    refine ⟨value_field ?_, value_field ?_, ?_, ?_⟩
    · exact Nat.lt_trans (Nat.mod_lt _ (by omega)) (by omega)
    · exact Nat.lt_trans (Nat.mod_lt _ (by omega)) (by omega)
    · rw [crt, value_field (by norm_num)]
      omega
    · rw [crt, value_field (by norm_num)]
      have once : (3 * scaled.t + 1) * 4 = (4 * scaled.t + 1) * 3 + 1 := by ring
      rw [once, Nat.mul_add_mod]
      exact Nat.mod_eq_of_lt (by omega)

theorem Scaled.three_lt : 3 < scaled.key.modulusValue := by
  have top := scaled.top
  have four : 4 ≤ 2 ^ (4 * 128 - 1) := by decide +kernel
  have := Nat.mul_le_mul (show 1 ≤ 4 * scaled.t + 1 by omega) (le_refl (3 * scaled.t + 1))
  rw [modulusValue_eq]
  omega

theorem Scaled.three_below (scaled : Scaled) :
    value (scaled.octets 3).1 < scaled.key.modulusValue := by
  rw [value_octets (by omega)]
  exact three_lt

theorem Scaled.draws (crt : Bool) : Draws scaled.key crt twoSource 416 8309 () := by
  have exponent : scaled.key.exponent.length = 3 := rfl
  have two : value (scaled.octets 2).1 = 2 := value_octets (by omega)
  have cost : privateBaseCost scaled.key.length scaled.key.exponent.length crt ≤ 6252 := by
    rw [scaled.length_eq, exponent, privateBaseCost]
    split <;> omega
  have below : 2 < scaled.key.modulusValue := Nat.lt_of_succ_lt three_lt
  have coprime : Nat.Coprime 2 scaled.key.modulusValue :=
    (Nat.coprime_two_left).mpr (Nat.odd_iff.mpr scaled.key.odd)
  have attempt : blindingCost scaled.key.length = 2049 := by
    rw [scaled.length_eq]
    rfl
  refine ⟨by decide, by rw [scaled.length_eq]; decide, by omega, ?_⟩
  obtain ⟨inverse, drawn⟩ := @sampleAttempts_draws Unit sampleBuild scaled.key twoSource 0
    (8309 - privateBaseCost scaled.key.length scaled.key.exponent.length crt) () () (scaled.octets 2)
    rfl (by rw [two]; omega) (by rw [two]; exact below) (by rw [two]; exact coprime)
    (by rw [attempt]; omega)
  exact ⟨_, inverse, _, _, drawn⟩

/-- The full-width operation on the input 3. -/
def Scaled.full (scaled : Scaled) : Outcome Unit scaled.key.length :=
  privateOperationMagnitude scaled.key scaled.d (scaled.octets 3) (scaled.octets 0) twoSource 416 8309 ()

def Scaled.half (scaled : Scaled) : Outcome Unit scaled.key.length :=
  crtPrivateOperation scaled.key scaled.p scaled.q scaled.crt (scaled.octets 3) (scaled.octets 0) twoSource
    416 8309 ()

end

def primeScaled : Scaled where
  t := 506429 * 2 ^ 491
  k := 45463
  checked := by decide +kernel
  even := by decide +kernel
  bits := by decide +kernel
  top := by decide +kernel
  root := by decide +kernel
  apart := by decide +kernel
  whole := by decide +kernel
  d_odd := by decide +kernel
  d_large := by decide +kernel
  d_below := by decide +kernel

theorem primeScaled_p_prime : (value primeScaled.p.bytes).Prime := by
  rw [Scaled.value_p]
  refine @Library.Primality.prime_of_passes 512 _ 3 [(2, 493), (7, 1), (11, 1), (6577, 1)] ?_
    (by decide +kernel)
  simp only [List.forall_mem_cons, List.not_mem_nil, false_implies, implies_true, and_true]
  norm_num

theorem primeScaled_q_prime : (value primeScaled.q.bytes).Prime := by
  rw [Scaled.value_q]
  refine @Library.Primality.prime_of_passes 512 _ 5
    [(2, 491), (3, 1), (7, 1), (11, 1), (6577, 1)] ?_ (by decide +kernel)
  simp only [List.forall_mem_cons, List.not_mem_nil, false_implies, implies_true, and_true]
  norm_num

/-- The factor `4t + 1` is a multiple of nine. -/
def compositeScaled : Scaled where
  t := 121 * 2 ^ 503
  k := 54343
  checked := by decide +kernel
  even := by decide +kernel
  bits := by decide +kernel
  top := by decide +kernel
  root := by decide +kernel
  apart := by decide +kernel
  whole := by decide +kernel
  d_odd := by decide +kernel
  d_large := by decide +kernel
  d_below := by decide +kernel

/-- For a key that passes both checks and has prime factors, the CRT operation and the
    full-width operation publish one output, the private power of the input. -/
theorem operations_agree {F : Type} (key : CheckedKey build) (d : Exponent key)
    (p q : HalfField key) (crt : CrtView key) {policy : ExponentPolicy}
    {checkCapacity checkWork crtCapacity crtWork : Nat}
    (consistent : (magnitudesConsistent key d p q policy checkCapacity checkWork).1 = .ok)
    (matching : (crtConsistent key d p q crt crtCapacity crtWork).1 = .ok)
    (first : (value p.bytes).Prime) (second : (value q.bytes).Prime)
    (input output output' : Octets key.length) (below : value input.1 < key.modulusValue)
    {random : Random E} {capacity work : Nat} {env : E}
    (draws : Draws key false random capacity work env)
    {random' : Random F} {capacity' work' : Nat} {env' : F}
    (draws' : Draws key true random' capacity' work' env') :
    (privateOperationMagnitude key d input output random capacity work env).status = .ok ∧
      (crtPrivateOperation key p q crt input output' random' capacity' work' env').status = .ok ∧
      (crtPrivateOperation key p q crt input output' random' capacity' work' env').output =
        (privateOperationMagnitude key d input output random capacity work env).output ∧
      value (privateOperationMagnitude key d input output random capacity work env).output.1 =
        value input.1 ^ value d.bytes % key.modulusValue := by
  obtain ⟨_, _, _, parts⟩ := (magnitudesConsistent_iff d p q policy _ _).mp consistent
  obtain ⟨_, _, fields⟩ := (crtConsistent_iff d p q crt _ _ parts.p_odd parts.q_odd first.one_lt
    second.one_lt).mp matching
  obtain ⟨full_ok, full⟩ := privateOperationMagnitude_ok parts first second below
    draws
  obtain ⟨half_ok, half⟩ := crtPrivateOperation_ok parts fields first second
    below draws'
  refine ⟨full_ok, half_ok, ?_, full⟩
  apply Subtype.ext
  have lengths : ∀ left right : Octets key.length, left.1.length = right.1.length :=
    fun left right => left.2.trans right.2.symm
  exact Library.ByteCounter.value_injective (lengths _ _) (half.trans full.symm)

theorem operations_agree_prime : primeScaled.full.status = .ok ∧ primeScaled.half.status = .ok ∧
      primeScaled.half.output = primeScaled.full.output ∧ value primeScaled.full.output.1 =
        value (primeScaled.octets 3).1 ^ value primeScaled.d.bytes % primeScaled.key.modulusValue := by
  unfold Scaled.full Scaled.half
  exact operations_agree primeScaled.key primeScaled.d primeScaled.p primeScaled.q primeScaled.crt
    Scaled.consistent Scaled.matching primeScaled_p_prime primeScaled_q_prime _ _ _
    (Scaled.three_below primeScaled) (Scaled.draws false) (Scaled.draws true)

theorem composite_not_published {outcome : Outcome E compositeScaled.key.length}
    {output : Octets compositeScaled.key.length}
    (safe : FaultSafe compositeScaled.key (compositeScaled.octets 3) output outcome) :
    outcome.status ≠ .ok := by
  intro ok
  obtain ⟨_, power⟩ := safe.1 ok
  have nine : 9 ∣ compositeScaled.key.modulusValue := by
    rw [Scaled.modulusValue_eq]
    exact Dvd.dvd.mul_right (by decide +kernel) _
  have exponent : value compositeScaled.key.exponent = 65537 := rfl
  have residue := congrArg (· % 9) power
  simp only [Nat.mod_mod_of_dvd _ nine, exponent,
    @Scaled.value_octets compositeScaled 3 (by omega)] at residue
  generalize value outcome.output.1 = o at residue
  have three : 3 ∣ o := by
    refine Nat.prime_three.dvd_of_dvd_pow (n := 65537) ?_
    have low := congrArg (· % 3) residue
    simp only [Nat.mod_mod_of_dvd _ (show 3 ∣ 9 by decide)] at low
    exact Nat.dvd_of_mod_eq_zero low
  have square : 9 ∣ o ^ 65537 :=
    Dvd.dvd.trans (pow_dvd_pow_of_dvd three 2) (pow_dvd_pow o (by omega))
  rw [Nat.mod_eq_zero_of_dvd square] at residue
  cases residue

/-- With a composite factor both checks pass and neither operation publishes an output. -/
theorem composite_factor_passes_checks :
    (magnitudesConsistent compositeScaled.key compositeScaled.d compositeScaled.p
        compositeScaled.q .fips 384 6146).1 = .ok ∧
      (crtConsistent compositeScaled.key compositeScaled.d compositeScaled.p compositeScaled.q
        compositeScaled.crt 256 4097).1 = .ok ∧
      value (compositeScaled.octets 3).1 < compositeScaled.key.modulusValue ∧
      Draws compositeScaled.key false twoSource 416 8309 () ∧
      Draws compositeScaled.key true twoSource 416 8309 () ∧
      compositeScaled.full.status ≠ .ok ∧ compositeScaled.half.status ≠ .ok :=
  ⟨Scaled.consistent, Scaled.matching, Scaled.three_below compositeScaled, Scaled.draws false,
    Scaled.draws true,
    composite_not_published (privateOperationMagnitude_safe _ _ _ _ _ _ _ _),
    composite_not_published (crtPrivateOperation_safe _ _ _ _ _ _ _ _ _ _)⟩

end TinyCrypto.Rsa
