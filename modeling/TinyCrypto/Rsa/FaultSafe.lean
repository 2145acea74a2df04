import TinyCrypto.Mp.Euclid
import TinyCrypto.Mp.Prime
import TinyCrypto.Rsa.Key

/-! # Fault safety of the private operations

Whatever the private fields hold, only a number whose public power is the input is
published.
-/

namespace TinyCrypto.Rsa

open Library.ByteCounter (value ofValue value_lt value_cons value_append_singleton value_ofValue
  ofValue_length)
open Mp

variable {E : Type} {build : Build}

theorem lastOdd_iff (bytes : Bytes) : lastOdd bytes = true ↔ value bytes % 2 = 1 := by
  rcases List.eq_nil_or_concat bytes with rfl | ⟨front, last, rfl⟩
  · decide
  · have even : (last &&& 1 : UInt8) ≠ 0 ↔ last.toNat % 2 = 1 := by
      rw [Ne, ← UInt8.toNat_inj, UInt8.toNat_and]
      have low : last.toNat &&& 1 = last.toNat % 2 := Nat.and_two_pow_sub_one_eq_mod last.toNat 1
      change ¬(last.toNat &&& 1) = 0 ↔ _
      rw [low]
      omega
    rw [List.concat_eq_append, value_append_singleton, lastOdd, decide_eq_true_iff,
      List.getLastD_concat, even]
    omega

theorem Build.wordBytes_cases (build : Build) : build.wordBytes = 1 ∨ build.wordBytes = 4 := by
  rw [Build.wordBytes]
  split
  · exact .inr rfl
  · exact .inl rfl

theorem Build.wordBits_pos (build : Build) : 0 < build.wordBits := by
  have := build.wordBytes_cases
  rw [Build.wordBits]
  omega

section

variable (key : CheckedKey build)

include key

theorem CheckedKey.wordBits_mul_words : build.wordBits * key.words = 8 * key.length := by
  have lengths := key.length_cases
  rw [Build.wordBits, CheckedKey.words]
  rcases build.wordBytes_cases with narrow | wide
  · rw [narrow]
    omega
  · rw [wide]
    omega

theorem CheckedKey.span_words : span build.wordBits key.words = 256 ^ key.length := by
  rw [span, key.wordBits_mul_words, Nat.pow_mul]

theorem CheckedKey.shape :
    key.exponent.length ≠ 0 ∧ key.exponent.headD 0 ≠ 0 ∧ (key.modulus.headD 0 &&& 0x80) ≠ 0 ∧
      publicShapeValid key.modulus key.exponent = true := by
  have checked := key.checked
  rw [publicKeyCheck, key.supported] at checked
  simp only [Bool.not_true, Bool.false_eq_true, if_false] at checked
  split at checked
  · cases checked
  · rename_i passed
    simpa [not_or, and_assoc] using passed

theorem CheckedKey.odd : key.modulusValue % 2 = 1 := by
  have valid := key.shape.2.2.2
  simp only [publicShapeValid, Bool.and_eq_true] at valid
  exact (lastOdd_iff _).mp valid.1.1.1.2

theorem CheckedKey.fits : key.modulusValue < span build.wordBits key.words := by
  rw [key.span_words]
  exact value_lt _

end

theorem top_iff {b : UInt8} : (b &&& 0x80) ≠ 0 ↔ 128 ≤ b.toNat := by
  have bytes : ∀ n < 256, (n &&& 128) ≠ 0 ↔ 128 ≤ n := by
    intro n small
    rw [show 128 = 2 ^ 7 from rfl, Nat.and_two_pow, Nat.testBit_eq_decide_div_mod_eq]
    by_cases high : n / 2 ^ 7 % 2 = 1
    · rw [decide_eq_true high, Bool.toNat_true]
      omega
    · rw [decide_eq_false high, Bool.toNat_false]
      omega
  rw [Ne, ← UInt8.toNat_inj, UInt8.toNat_and]
  exact bytes b.toNat b.toNat_lt

theorem CheckedKey.top (key : CheckedKey build) : 2 ^ (8 * key.length - 1) ≤ key.modulusValue := by
  have top := key.shape.2.2.1
  have lengths := key.length_cases
  rw [CheckedKey.modulusValue]
  rw [PublicKey.length] at lengths ⊢
  cases bytes : key.modulus with
  | nil => simp [bytes] at lengths
  | cons b rest =>
    rw [bytes] at top
    have high : 128 ≤ b.toNat := top_iff.mp top
    have byte : (2 ^ 8 : Nat) = 256 := rfl
    rw [value_cons]
    have width : 8 * (b :: rest).length - 1 = 7 + 8 * rest.length := by
      rw [List.length_cons]
      omega
    rw [width, Nat.pow_add, Nat.pow_mul, byte]
    have := Nat.mul_le_mul_right (256 ^ rest.length) high
    omega

theorem CheckedKey.large (key : CheckedKey build) : 1 < key.modulusValue := by
  have lengths := key.length_cases
  have low : 2 ^ 1 ≤ 2 ^ (8 * key.length - 1) := Nat.pow_le_pow_right (by omega) (by omega)
  have top := key.top
  omega

theorem CheckedKey.ready (key : CheckedKey build) : Ready build.wordBits key.field :=
  modulusOf_ready build.wordBits_pos key.odd key.fits

structure Drawn (key : CheckedKey build) (blind inverse : Nat) : Prop where
  blind_lt : blind < key.modulusValue
  inverse_lt : inverse < key.modulusValue
  inverts : inverse * blind ≡ 1 [MOD key.modulusValue]

variable {blind left work : Nat} {env : E}

theorem sampleAttempts_drawn (key : CheckedKey build) (random : Random E) {inverse : Nat}
    {after : E} {attempts : Nat}
    (drawn : sampleAttempts key random attempts work env = (.ok (blind, inverse), left, after)) :
    Drawn key blind inverse := by
  induction attempts generalizing work env with
  | zero => cases drawn
  | succ attempts ih =>
    unfold sampleAttempts at drawn
    split at drawn
    · cases drawn
    · split at drawn
      · cases drawn
      · dsimp only at drawn
        split at drawn
        · rename_i found inverted
          split at inverted
          · rename_i fits
            simp only [Bool.and_eq_true, subtract_borrow, decide_eq_true_eq] at fits
            cases drawn
            obtain ⟨below, inverts⟩ := inverse_some key.odd key.large key.fits fits.1 inverted
            exact ⟨fits.1, below, inverts⟩
          · cases inverted
        · exact ih drawn

section

variable (key : CheckedKey build)

def encode (x : Nat) : Nat :=
  montgomery build.wordBits key.field x (montgomeryR2 build.wordBits key.words key.modulusValue)

def residue (x : Nat) : ZMod key.modulusValue := element build.wordBits key.field x

variable {key}

theorem encode_lt {x : Nat} (small : x < span build.wordBits key.words) :
    encode key x < key.modulusValue :=
  key.ready.montgomery_lt small (key.ready.r2_lt key.large)

theorem residue_encode {x : Nat} (small : x < span build.wordBits key.words) :
    residue key (encode key x) = x :=
  key.ready.element_encode key.large small

theorem residue_montgomery {a b : Nat} (first : a < span build.wordBits key.words)
    (second : b < key.modulusValue) : montgomery build.wordBits key.field a b < key.modulusValue ∧
      residue key (montgomery build.wordBits key.field a b) = residue key a * residue key b :=
  ⟨key.ready.montgomery_lt first second, key.ready.element_montgomery first second⟩

theorem residue_decode {x : Nat} (small : x < key.modulusValue) :
    montgomery build.wordBits key.field x 1 < key.modulusValue ∧
      ((montgomery build.wordBits key.field x 1 : Nat) : ZMod key.modulusValue) = residue key x :=
  key.ready.decode key.large small

theorem residue_inj {x y : Nat} (first : x < key.modulusValue) (second : y < key.modulusValue)
    (same : residue key x = residue key y) : x = y :=
  key.ready.element_inj first second same

theorem wide {x : Nat} (small : x < key.modulusValue) : x < span build.wordBits key.words :=
  Nat.lt_trans small key.fits

theorem one_wide : 1 < span build.wordBits key.words := wide key.large

theorem residue_power {x exponent width : Nat} (small : x < key.modulusValue)
    (fits : exponent < 256 ^ width) :
    powerPadded build.wordBits key.field x exponent width (encode key 1) < key.modulusValue ∧
      residue key (powerPadded build.wordBits key.field x exponent width (encode key 1)) =
        residue key x ^ exponent :=
  power_spec key.ready small (encode_lt one_wide) ((residue_encode one_wide).trans Nat.cast_one)
    fits

theorem unblindVerify_some {masked inverse input number : Nat}
    (first : masked < span build.wordBits key.words) (second : inverse < key.modulusValue)
    (small : input < span build.wordBits key.words)
    (published : unblindVerify key masked inverse (encode key input) (encode key 1) = some number) :
    number < key.modulusValue ∧ (number : ZMod key.modulusValue) ^ value key.exponent = input := by
  have below := (residue_montgomery first second).1
  rw [unblindVerify] at published
  split at published
  · rename_i equal
    cases published
    have power := (residue_power below (value_lt key.exponent)).2
    rw [equal, residue_encode small] at power
    obtain ⟨lt, decoded⟩ := residue_decode below
    exact ⟨lt, by rw [decoded, power]⟩
  · cases published

end

/-- What a private operation promises: a verified output, or the output it was given. -/
def FaultSafe (key : CheckedKey build) (input output : Octets key.length)
    (outcome : Outcome E key.length) : Prop :=
  (outcome.status = .ok → value outcome.output.1 < key.modulusValue ∧
      value outcome.output.1 ^ value key.exponent % key.modulusValue =
        value input.1 % key.modulusValue) ∧
  (outcome.status ≠ .ok → outcome.output = output)

theorem publish_safe {key : CheckedKey build} {input output : Octets key.length}
    {result : Option Nat}
    (verified : ∀ number, result = some number → number < key.modulusValue ∧
      (number : ZMod key.modulusValue) ^ value key.exponent = value input.1) :
    FaultSafe key input output (publish output work env result) := by
  cases result with
  | none => exact ⟨fun ok => (nomatch ok), fun _ => rfl⟩
  | some number =>
    obtain ⟨below, power⟩ := verified number rfl
    refine ⟨fun _ => ?_, fun failed => absurd rfl failed⟩
    have fits : number < 256 ^ key.length := by
      rw [← key.span_words]
      exact wide below
    simp only [publish]
    rw [value_ofValue, Nat.mod_eq_of_lt fits]
    refine ⟨below, ?_⟩
    rw [← Nat.cast_pow] at power
    exact (ZMod.natCast_eq_natCast_iff' _ _ _).mp power

theorem magnitudeResult_some {key : CheckedKey build} {d : Exponent key} {input inverse : Nat}
    (small : input < key.modulusValue) (drawn : Drawn key blind inverse) {number : Nat}
    (published : magnitudeResult key d input blind inverse = some number) :
    number < key.modulusValue ∧ (number : ZMod key.modulusValue) ^ value key.exponent = input := by
  refine unblindVerify_some (wide ?_) (encode_lt (wide drawn.inverse_lt)) (wide small) published
  have fits : value d.bytes < 256 ^ key.length :=
    Nat.lt_of_lt_of_le (value_lt _) (Nat.pow_le_pow_right (by omega) d.fits)
  have blinded := (residue_power (encode_lt (wide drawn.blind_lt)) (value_lt key.exponent)).1
  exact (residue_power (residue_montgomery (wide (encode_lt (wide small))) blinded).1 fits).1

theorem CheckedKey.words_even (key : CheckedKey build) : 2 * key.half = key.words := by
  have lengths := key.length_cases
  rw [CheckedKey.half, CheckedKey.words]
  rcases build.wordBytes_cases with narrow | wide
  · rw [narrow]
    omega
  · rw [wide]
    omega

theorem garner_wide {key : CheckedKey build} (p q qInverse m1 m2 : Nat) :
    garner build key.half p q qInverse m1 m2 < span build.wordBits key.words := by
  rw [garner, key.words_even]
  exact Nat.mod_lt _ span_pos

theorem crtResult_some {key : CheckedKey build} {p q : HalfField key} {crt : CrtView key}
    {input inverse : Nat} (small : input < key.modulusValue) (drawn : Drawn key blind inverse)
    {number : Nat} (published : crtResult key p q crt input blind inverse = some number) :
    number < key.modulusValue ∧ (number : ZMod key.modulusValue) ^ value key.exponent = input :=
  unblindVerify_some (wide (encode_lt (garner_wide _ _ _ _ _)))
    (encode_lt (wide drawn.inverse_lt)) (wide small) published

theorem kept_safe {key : CheckedKey build} {input output : Octets key.length} {status : Result}
    (failed : status ≠ .ok) : FaultSafe key input output ⟨status, output, work, env⟩ :=
  ⟨fun ok => absurd ok failed, fun _ => rfl⟩

theorem sampleAttempts_status (key : CheckedKey build) (random : Random E) {status : Result}
    {after : E} {attempts : Nat}
    (failed : sampleAttempts key random attempts work env = (.error status, left, after)) :
    status ≠ .ok := by
  induction attempts generalizing work env with
  | zero =>
    cases failed
    exact nofun
  | succ attempts ih =>
    unfold sampleAttempts at failed
    split at failed
    · cases failed
      exact nofun
    · split at failed
      · cases failed
        exact nofun
      · dsimp only at failed
        split at failed
        · cases failed
        · exact ih failed

theorem privateOperationMagnitude_safe (key : CheckedKey build) (d : Exponent key)
    (input output : Octets key.length) (random : Random E) (capacity work : Nat) (env : E) :
    FaultSafe key input output
      (privateOperationMagnitude key d input output random capacity work env) := by
  unfold privateOperationMagnitude
  dsimp only
  split
  · exact kept_safe nofun
  · split
    · exact kept_safe nofun
    · rename_i checks
      simp only [Bool.or_eq_true, Bool.not_eq_true', subtract_borrow, decide_eq_false_iff_not,
        not_or, not_not] at checks
      split
      · rename_i failed
        exact kept_safe (sampleAttempts_status key random failed)
      · rename_i drawn
        exact publish_safe fun number published =>
          magnitudeResult_some checks.2 (sampleAttempts_drawn key random drawn) published

theorem crtPrivateOperation_safe (key : CheckedKey build) (p q : HalfField key)
    (crt : CrtView key) (input output : Octets key.length) (random : Random E)
    (capacity work : Nat) (env : E) : FaultSafe key input output
      (crtPrivateOperation key p q crt input output random capacity work env) := by
  unfold crtPrivateOperation
  dsimp only
  split
  · exact kept_safe nofun
  · split
    · exact kept_safe nofun
    · rename_i below
      simp only [Bool.not_eq_true', subtract_borrow, decide_eq_false_iff_not, not_not] at below
      split
      · rename_i failed
        exact kept_safe (sampleAttempts_status key random failed)
      · rename_i drawn
        exact publish_safe fun number published =>
          crtResult_some below (sampleAttempts_drawn key random drawn) published

/-- Both operations, and the choice between them, for any structurally checked key and any
    random source. -/
theorem private_operations_fault_safe (view : PrivateView build)
    (input output : Octets view.publicKey.length) (random : Random E) (capacity work : Nat)
    (env : E) : FaultSafe view.publicKey input output
        (privateOperationMagnitude view.publicKey view.d input output random capacity work env) ∧
      (∀ crt, FaultSafe view.publicKey input output
        (crtPrivateOperation view.publicKey view.p view.q crt input output random capacity work
          env)) ∧ FaultSafe view.publicKey input output
        (privateApply view input output random capacity work env) := by
  refine ⟨privateOperationMagnitude_safe _ _ _ _ _ _ _ _,
    fun crt => crtPrivateOperation_safe _ _ _ _ _ _ _ _ _ _, ?_⟩
  unfold privateApply
  cases view.crt with
  | none => exact privateOperationMagnitude_safe _ _ _ _ _ _ _ _
  | some crt => exact crtPrivateOperation_safe _ _ _ _ _ _ _ _ _ _

end TinyCrypto.Rsa
