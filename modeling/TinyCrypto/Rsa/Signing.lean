import TinyCrypto.Rsa.Public

/-! # RSA signing

`TC_RSA_sign_v15_digest` encodes a digest and applies the private key. The private
operation checks what it publishes, so no signature leaves that the verifier rejects.
-/

namespace TinyCrypto.Rsa

open Library.ByteCounter (value ofValue ofValue_length value_ofValue value_injective
  value_cons_lt_iff value_lt)

variable {E : Type} {build : Build}

/-- `TC_RSA_private_work`, for a key that was checked. -/
def privateWork (length exponentLength : Nat) (crt : Bool) (attempts : Nat) : Nat :=
  let base := privateBaseCost length exponentLength crt
  let attempt := blindingCost length
  if attempts = 0 || attempts > (2 ^ 32 - 1 - base) / attempt then 0
  else base + attempts * attempt

/-- `TC_RSA_SIGN_WORKSPACE_WORDS`. -/
def signWorkspaceWords (build : Build) (bits : Nat) : Nat := 14 * (bits / build.wordBits)

/-- `tc_rsa_sign_limits`. `capacity` is that of the signature buffer, `words` of the
    workspace. -/
def signLimits (view : PrivateView build) (random : Random E) (capacity words work cost : Nat) :
    Result :=
  let key := view.publicKey
  let privateCost := privateWork key.length key.exponent.length view.crt.isSome random.attempts
  if capacity < key.length || words < signWorkspaceWords build (key.length * 8) ||
      privateCost = 0 || work < privateCost || work - privateCost < cost then .limit
  else .ok

theorem v15Encode_length {length : Nat} {header digest encoded : Bytes}
    (written : v15Encode length header digest = some encoded) : encoded.length = length := by
  unfold v15Encode at written
  split at written
  · cases written
  · cases written
    simp

/-- `TC_RSA_sign_v15_digest`, for storage that is disjoint. -/
def signV15Digest (view : PrivateView build) (hash : Option Hash.Algorithm) (digest : Bytes)
    (output : Octets view.publicKey.length) (random : Random E) (capacity words work : Nat)
    (env : E) : Outcome E view.publicKey.length :=
  let length := view.publicKey.length
  if digestLengthCheck hash digest.length ≠ .ok then
    ⟨digestLengthCheck hash digest.length, output, work, env⟩
  else
    match hash with
    | none => ⟨.unsupported, output, work, env⟩
    | some hash =>
      if !v15Size length (digestInfo hash).length digest.length then ⟨.invalid, output, work, env⟩
      else if signLimits view random capacity words work length ≠ .ok then
        ⟨.limit, output, work, env⟩
      else
        match written : v15Encode length (digestInfo hash) digest with
        | none => ⟨.argument, output, work - length, env⟩
        | some encoded =>
          privateApply view ⟨encoded, v15Encode_length written⟩ output random
            (rawPrivateWorkspaceWords build (length * 8)) (work - length) env

/-- Verification accepts a published signature with any resources that suffice; a failure
    leaves the output as it was. -/
structure SignsV15 (view : PrivateView build) (hash : Option Hash.Algorithm) (digest : Bytes)
    (output : Octets view.publicKey.length) (outcome : Outcome E view.publicKey.length) :
    Prop where
  verifies : outcome.status = .ok → ∀ capacity work,
    VerifyFunded build view.publicKey.toPublicKey false capacity work →
      (verifyV15Digest build view.publicKey.toPublicKey hash digest outcome.output.1 capacity
        work).1 = .ok
  keeps : outcome.status ≠ .ok → outcome.output = output

theorem privateApply_safe (view : PrivateView build) (input output : Octets view.publicKey.length)
    (random : Random E) (words work : Nat) (env : E) : FaultSafe view.publicKey input output
      (privateApply view input output random words work env) := by
  unfold privateApply
  cases view.crt with
  | none => exact privateOperationMagnitude_safe _ _ _ _ _ _ _ _
  | some crt => exact crtPrivateOperation_safe _ _ _ _ _ _ _ _ _ _

theorem emsaPkcs1_below {key : CheckedKey build} {hash : Hash.Algorithm} {digest : Bytes}
    (sized : (digestInfo hash).length + digest.length + 11 ≤ key.length) :
    value (Rfc8017.emsaPkcs1 key.length hash digest) < key.modulusValue := by
  have top := key.top
  obtain ⟨rest, message, length⟩ : ∃ rest,
      Rfc8017.emsaPkcs1 key.length hash digest = 0 :: rest ∧ rest.length = key.length - 1 := by
    refine ⟨1 :: List.replicate (key.length - (digestInfo hash ++ digest).length - 3) 0xff ++
      0 :: (digestInfo hash ++ digest), rfl, ?_⟩
    simp only [List.length_append, List.length_cons, List.length_replicate]
    omega
  have low : value (0 :: rest) < 256 ^ rest.length := value_cons_lt_iff.mpr rfl
  have wide : 256 ^ (key.length - 1) ≤ 2 ^ (8 * key.length - 1) := by
    rw [show (256 : Nat) = 2 ^ 8 from rfl, ← Nat.pow_mul]
    exact Nat.pow_le_pow_right (by omega) (by omega)
  rw [message]
  rw [length] at low
  omega

theorem v15Outcome_of_power {key : CheckedKey build} {hash : Hash.Algorithm}
    {digest encoded : Bytes} {signature : Octets key.length}
    (digested : digest.length = hash.digestLength)
    (fits : v15Size key.length (digestInfo hash).length digest.length = true)
    (written : v15Encode key.length (digestInfo hash) digest = some encoded)
    (below : value signature.1 < key.modulusValue)
    (power : value signature.1 ^ value key.exponent % key.modulusValue =
      value encoded % key.modulusValue) :
    v15Outcome build key.toPublicKey (some hash) digest signature.1 = .ok := by
  have sized := (v15Size_iff.mp fits).2.2
  have size := v15Encode_length written
  have message : encoded = Rfc8017.emsaPkcs1 key.length hash digest := by
    have bytes := v15Byte_eq sized
    rw [v15Encode, if_neg (by simp [fits]), Option.some.injEq] at written
    exact written ▸ bytes
  have small := emsaPkcs1_below sized
  rw [← message] at small
  have room : 8 ≤ key.length - (digestInfo hash ++ digest).length - 3 := by
    rw [List.length_append]
    omega
  have opened : ofValue key.length (value signature.1 ^ value key.exponent %
      value key.modulus) = encoded := by
    apply value_injective (by rw [ofValue_length, size])
    rw [show value key.modulus = key.modulusValue from rfl, power, value_ofValue,
      Nat.mod_eq_of_lt small, Nat.mod_eq_of_lt]
    exact size ▸ value_lt encoded
  exact (v15Outcome_ok _ _ _ _ _).mpr ⟨key.checked, hash, rfl, digested, signature.2, below,
    room, opened.trans message⟩

/-- The signer publishes only what the verifier accepts, whatever the key material is. -/
theorem signV15Digest_verifies (view : PrivateView build) (hash : Option Hash.Algorithm)
    (digest : Bytes) (output : Octets view.publicKey.length) (random : Random E)
    (capacity words work : Nat) (env : E) : SignsV15 view hash digest output
      (signV15Digest view hash digest output random capacity words work env) := by
  have refused : ∀ {status : Result} {left : Nat}, status ≠ .ok →
      SignsV15 view hash digest output (⟨status, output, left, env⟩ : Outcome E _) :=
    fun failed => ⟨fun ok => absurd ok failed, fun _ => rfl⟩
  unfold signV15Digest
  dsimp only
  split
  · rename_i mismatch
    exact refused mismatch
  rename_i digested
  cases hash with
  | none => exact refused (by decide)
  | some hash =>
    dsimp only
    split
    · exact refused (by decide)
    rename_i fits
    split
    · exact refused (by decide)
    split
    · exact refused (by decide)
    · rename_i encoded written
      obtain ⟨published, kept⟩ := privateApply_safe view ⟨encoded, v15Encode_length written⟩
        output random (rawPrivateWorkspaceWords build (view.publicKey.length * 8))
        (work - view.publicKey.length) env
      refine ⟨fun ok capacity work funded => ?_, kept⟩
      obtain ⟨below, power⟩ := published ok
      have accepts := v15Outcome_of_power (by simpa [digestLengthCheck, eq_comm] using digested)
        (by simpa using fits) written below power
      exact ((verifyV15_outcome constant_one_shot).1 funded).trans accepts

end TinyCrypto.Rsa
