import TinyCrypto.Hash.Core
import TinyCrypto.Mp.LimbsPowers
import TinyCrypto.Rsa.FaultSafe

/-! # RSA public operation

`tc_rsa_public_operation` and `TC_RSA_prepare_public_key`. With the constant of a prepared key or
with its own, the operation publishes the power of a representative below the modulus.
-/

namespace TinyCrypto.Rsa

open Library.ByteCounter (value ofValue value_lt value_cons)
open Library.Words (number)
open Mp

abbrev Build.Word (build : Build) : Type := BitVec (8 * build.wordBytes)

/-- `tc_rsa_public_cost`. -/
def publicCost (length exponentLength : Nat) (prepared : Bool) : Nat :=
  (if prepared then 0 else 16 * length) + 16 * exponentLength + 4

/-- `TC_RSA_RAW_PUBLIC_WORKSPACE_WORDS`. -/
def rawPublicWorkspaceWords (build : Build) (bits : Nat) : Nat := 8 * (bits / build.wordBits) + 2

/-- `tc_rsa_public_operation`: the output or the failure, and the work left. -/
def publicOperation (build : Build) (key : PublicKey) (input : Bytes) (capacity work : Nat)
    (preparedR2 : Option (List build.Word)) : Except Result Bytes × Nat :=
  if notBelow input key.modulus then (.error .invalid, work)
  else
    let n := key.length / build.wordBytes
    let cost := publicCost key.length key.exponent.length preparedR2.isSome
    if capacity < rawPublicWorkspaceWords build (key.length * 8) || work < cost then
      (.error .limit, work)
    else
      let p := Limbs.fromBe build.wordBytes key.modulus
      let base := Limbs.fromBe build.wordBytes input
      let field := Limbs.modulusOf p
      let r2 := preparedR2.getD (Limbs.montgomeryR2 p)
      let one := (Limbs.montgomery field (Limbs.one n) r2).words
      let base := (Limbs.montgomery field base r2).words
      let result := Limbs.powerPublic field base key.exponent one
      let result := (Limbs.montgomery field result (Limbs.one n)).words
      (.ok (Limbs.toBe build.wordBytes result), work - cost)

/-- `TC_RSA_PUBLIC_SETUP_MARKER`. -/
def publicSetupMarker : Nat := 0x52533250

/-- `TC_RSA_prepared_public_key`. `r2` is the used part of the cache. -/
structure PreparedPublicKey (build : Build) where
  key : PublicKey
  r2 : List build.Word
  capacity : Nat
  marker : Nat
  deriving DecidableEq

/-- `TC_RSA_prepare_public_key`: the setup or the failure, and the work left. -/
def preparePublicKey (build : Build) (key : PublicKey) (cacheCapacity capacity work : Nat) :
    Except Result (PreparedPublicKey build) × Nat :=
  if publicKeyCheck build key ≠ .ok then (.error (publicKeyCheck build key), work)
  else
    let n := key.length / build.wordBytes
    let cost := 16 * key.length + 1
    if cacheCapacity < n || capacity < 2 * n || work < cost then (.error .limit, work)
    else
      let r2 := Limbs.montgomeryR2 (Limbs.fromBe build.wordBytes key.modulus)
      (.ok ⟨key, r2, cacheCapacity, publicSetupMarker⟩, work - cost)

/-- `tc_rsa_prepared_ready`. -/
def preparedReady {build : Build} (setup : PreparedPublicKey build) : Bool :=
  setup.marker = publicSetupMarker && setup.capacity ≥ setup.key.length / build.wordBytes

theorem notBelow_iff {left right : Bytes} (size : left.length = right.length) :
    notBelow left right = true ↔ value right ≤ value left := by
  induction left generalizing right with
  | nil =>
    have empty : right = [] := List.length_eq_zero_iff.mp size.symm
    simp [notBelow, empty]
  | cons a left ih =>
    cases right with
    | nil => cases size
    | cons b right =>
      have rest := ih (Nat.succ.inj size)
      have first := value_lt left
      have second := value_lt right
      have same : left.length = right.length := Nat.succ.inj size
      rw [same] at first
      rw [notBelow, value_cons, value_cons, same]
      by_cases equal : a = b
      · rw [if_pos equal, rest, equal]
        omega
      · rw [if_neg equal, decide_eq_true_iff, UInt8.lt_iff_toNat_lt]
        have differ : a.toNat ≠ b.toNat := fun h => equal (UInt8.toNat_inj.mp h)
        constructor
        · intro less
          have more := Nat.mul_le_mul_right (256 ^ right.length) (Nat.succ_le_of_lt less)
          rw [Nat.succ_mul] at more
          omega
        · intro least
          by_contra more
          have more := Nat.mul_le_mul_right (256 ^ right.length)
            (show a.toNat + 1 ≤ b.toNat by omega)
          rw [Nat.succ_mul] at more
          omega

variable {build : Build}

theorem CheckedKey.whole (key : CheckedKey build) : key.length = build.wordBytes * key.words := by
  have bits := key.wordBits_mul_words
  rw [Build.wordBits, Nat.mul_assoc] at bits
  omega

theorem CheckedKey.wordBytes_pos (build : Build) : 0 < build.wordBytes := by
  have cases_ := build.wordBytes_cases
  omega

def CheckedKey.limbs (key : CheckedKey build) : List build.Word :=
  Limbs.fromBe build.wordBytes key.modulus

theorem CheckedKey.limbs_spec (key : CheckedKey build) :
    number key.limbs = key.modulusValue ∧ key.limbs.length = key.words :=
  Limbs.number_fromBe (wordBytes_pos build) key.whole

theorem CheckedKey.limbs_odd (key : CheckedKey build) : Limbs.Odd key.limbs where
  width := key.ready.word_pos
  odd := by rw [key.limbs_spec.1]; exact key.odd
  large := by rw [key.limbs_spec.1]; exact key.large

theorem publicPower_spec (key : CheckedKey build) {input : Bytes} (size : input.length = key.length)
    (below : value input < key.modulusValue) :
    let field := Limbs.modulusOf key.limbs
    let r2 := Limbs.montgomeryR2 key.limbs
    let one := (Limbs.montgomery field (Limbs.one key.words) r2).words
    let base := (Limbs.montgomery field (Limbs.fromBe build.wordBytes input) r2).words
    let result := Limbs.powerPublic field base key.exponent one
    Limbs.toBe build.wordBytes (Limbs.montgomery field result (Limbs.one key.words)).words =
      ofValue key.length (value input ^ value key.exponent % key.modulusValue) := by
  intro field r2 one base result
  obtain ⟨modulus, count⟩ := key.limbs_spec
  have odd := key.limbs_odd
  have whole : input.length = build.wordBytes * key.words := size.trans key.whole
  obtain ⟨inputNumber, inputCount⟩ := Limbs.number_fromBe (CheckedKey.wordBytes_pos build) whole
  have residue : Limbs.Residue key.limbs (Limbs.fromBe build.wordBytes input) :=
    ⟨inputCount.trans count.symm, by rw [inputNumber, modulus]; exact below⟩
  obtain ⟨unit, unitNumber⟩ := odd.unit
  obtain ⟨oneResidue, oneValue⟩ := odd.encode unit
  obtain ⟨baseResidue, baseValue⟩ := odd.encode residue
  rw [count] at unit unitNumber oneResidue oneValue
  rw [unitNumber, Nat.cast_one] at oneValue
  obtain ⟨powered, power, -⟩ :=
    Limbs.powers_spec odd baseResidue oneResidue oneValue key.exponent (Nat.le_refl _)
  obtain ⟨small, decoded⟩ := odd.decode powered
  have length := (powered.montgomery odd unit).1.length
  rw [count] at small decoded length
  rw [power, baseValue, inputNumber, ← Nat.cast_pow] at decoded
  have same := (ZMod.natCast_eq_natCast_iff' _ _ _).mp decoded
  rw [Nat.mod_eq_of_lt small, modulus] at same
  rw [Limbs.toBe_eq, length, ← key.whole]
  exact congrArg (ofValue key.length) same

theorem publicOperation_eq (key : CheckedKey build) {input : Bytes}
    (size : input.length = key.length) (capacity work : Nat) (prepared : Bool) :
    publicOperation build key.toPublicKey input capacity work
        (if prepared then some (Limbs.montgomeryR2 key.limbs) else none) =
      let cost := publicCost key.length key.exponent.length prepared
      if key.modulusValue ≤ value input then (.error .invalid, work)
      else if capacity < rawPublicWorkspaceWords build (key.length * 8) || work < cost then
        (.error .limit, work)
      else
        (.ok (ofValue key.length (value input ^ value key.exponent % key.modulusValue)),
          work - cost) := by
  have order := notBelow_iff size
  have given : (if prepared then some (Limbs.montgomeryR2 key.limbs) else none).isSome =
      prepared := by
    cases prepared <;> rfl
  have constant : (if prepared then some (Limbs.montgomeryR2 key.limbs) else none).getD
      (Limbs.montgomeryR2 key.limbs) = Limbs.montgomeryR2 key.limbs := by
    cases prepared <;> rfl
  have limbs : Limbs.fromBe build.wordBytes key.modulus = key.limbs := rfl
  have words : key.length / build.wordBytes = key.words := rfl
  simp only [publicOperation, given, limbs, words, constant]
  by_cases above : key.modulusValue ≤ value input
  · rw [if_pos (order.mpr above), if_pos above]
  · rw [if_neg (mt order.mp above), if_neg above,
      publicPower_spec key size (Nat.lt_of_not_le above)]

open Library.ByteCounter (value ofValue value_lt)

/-- The DER prefix that `tc_hash_info_get` gives, before the digest. -/
def digestInfo : Hash.Algorithm → Bytes
  | .sha1 => [0x30, 0x21, 0x30, 9, 6, 5, 0x2b, 0x0e, 3, 2, 0x1a, 5, 0, 4, 20]
  | .sha224 =>
    [0x30, 0x2d, 0x30, 0x0d, 6, 9, 0x60, 0x86, 0x48, 1, 0x65, 3, 4, 2, 4, 5, 0, 4, 28]
  | .sha256 =>
    [0x30, 0x31, 0x30, 0x0d, 6, 9, 0x60, 0x86, 0x48, 1, 0x65, 3, 4, 2, 1, 5, 0, 4, 32]
  | .sha384 =>
    [0x30, 0x41, 0x30, 0x0d, 6, 9, 0x60, 0x86, 0x48, 1, 0x65, 3, 4, 2, 2, 5, 0, 4, 48]
  | .sha512 =>
    [0x30, 0x51, 0x30, 0x0d, 6, 9, 0x60, 0x86, 0x48, 1, 0x65, 3, 4, 2, 3, 5, 0, 4, 64]

/-- `tc_rsa_v15_byte`. -/
def v15Byte (index separator : Nat) (header digest : Bytes) : UInt8 :=
  if index = 0 || index = separator then 0
  else if index = 1 then 1
  else if index < separator then 0xff
  else
    let index := index - (separator + 1)
    if index < header.length then header.getD index 0 else digest.getD (index - header.length) 0

/-- `tc_rsa_v15_size`. -/
def v15Size (length headerLength digestLength : Nat) : Bool :=
  headerLength ≠ 0 && digestLength ≠ 0 && length ≥ 11 && headerLength ≤ length - 11 &&
    digestLength ≤ length - 11 - headerLength

/-- `tc_rsa_v15_encode`, or none for TC_ERROR. -/
def v15Encode (length : Nat) (header digest : Bytes) : Option Bytes :=
  if !v15Size length header.length digest.length then none
  else
    let separator := length - header.length - digest.length - 1
    some ((List.range length).map fun i => v15Byte i separator header digest)

/-- `tc_rsa_v15_check`: whether it returned TC_OK. -/
def v15Check (encoded header digest : Bytes) : Bool :=
  if !v15Size encoded.length header.length digest.length then false
  else
    let separator := encoded.length - header.length - digest.length - 1
    let difference := (List.range encoded.length).foldl
      (fun difference i =>
        difference ||| (encoded.getD i 0 ^^^ v15Byte i separator header digest).toUInt32)
      (0 : UInt32)
    difference = 0

/-- `TC_RSA_VERIFY_WORKSPACE_WORDS`. -/
def verifyWorkspaceWords (build : Build) (bits : Nat) : Nat := 9 * (bits / build.wordBits) + 2

/-- `tc_rsa_verify_call`. An unknown hash is none, and `capacity` is that of the workspace. -/
structure VerifyCall (build : Build) where
  setup : Option (PreparedPublicKey build)
  key : PublicKey
  hash : Option Hash.Algorithm
  digest : Bytes
  signature : Bytes
  capacity : Nat
  work : Nat
  deriving DecidableEq

variable {build : Build}

/-- `tc_rsa_digest_length_check`. -/
def digestLengthCheck (hash : Option Hash.Algorithm) (length : Nat) : Result := match hash with
  | some hash => if hash.digestLength ≠ length then .argument else .ok
  | none => .ok

/-- `tc_rsa_verify_check`, for storage that is disjoint. -/
def verifyCheck (call : VerifyCall build) : Result :=
  if digestLengthCheck call.hash call.digest.length ≠ .ok then
    digestLengthCheck call.hash call.digest.length
  else publicKeyCheck build call.key

/-- `tc_rsa_verify_v15`: its result, and the work left. -/
def verifyV15 (call : VerifyCall build) : Result × Nat :=
  if verifyCheck call ≠ .ok then (verifyCheck call, call.work)
  else
    match call.hash with
    | none => (.unsupported, call.work)
    | some hash =>
      let length := call.key.length
      if !v15Size length (digestInfo hash).length hash.digestLength then (.invalid, call.work)
      else if call.signature.length ≠ length then (.invalid, call.work)
      else
        let cost := length + publicCost length call.key.exponent.length call.setup.isSome
        if call.capacity < verifyWorkspaceWords build (length * 8) || call.work < cost then
          (.limit, call.work)
        else
          let r2 := call.setup.map PreparedPublicKey.r2
          match publicOperation build call.key call.signature
              (rawPublicWorkspaceWords build (length * 8)) (call.work - length) r2 with
          | (.error result, work) => (result, work)
          | (.ok encoded, work) =>
            (if v15Check encoded (digestInfo hash) call.digest then .ok else .invalid, work)

/-- `TC_RSA_verify_v15_digest`. -/
def verifyV15Digest (build : Build) (key : PublicKey) (hash : Option Hash.Algorithm)
    (digest signature : Bytes) (capacity work : Nat) : Result × Nat :=
  verifyV15 (⟨none, key, hash, digest, signature, capacity, work⟩ : VerifyCall build)

/-- `TC_RSA_verify_v15_prepared`. -/
def verifyV15Prepared (setup : PreparedPublicKey build) (hash : Option Hash.Algorithm)
    (digest signature : Bytes) (capacity work : Nat) : Result × Nat :=
  if !preparedReady setup then (.argument, work)
  else verifyV15 ⟨some setup, setup.key, hash, digest, signature, capacity, work⟩

namespace Rfc8017

/-- The encoded message of section 9.2 for an intended length. -/
def emsaPkcs1 (emLen : Nat) (hash : Hash.Algorithm) (digest : Bytes) : Bytes :=
  let t := digestInfo hash ++ digest
  0 :: 1 :: List.replicate (emLen - t.length - 3) 0xff ++ 0 :: t

/-- The verification of section 8.2.2 for a modulus `n` of `k` bytes and an exponent `e`. -/
structure VerifiesV15 (n e k : Nat) (hash : Hash.Algorithm) (digest signature : Bytes) : Prop where
  length : signature.length = k
  below : value signature < n
  padding : 8 ≤ k - (digestInfo hash ++ digest).length - 3
  message : ofValue k (value signature ^ e % n) = emsaPkcs1 k hash digest

end Rfc8017

theorem v15Size_iff {length headerLength digestLength : Nat} :
    v15Size length headerLength digestLength = true ↔
      headerLength ≠ 0 ∧ digestLength ≠ 0 ∧ headerLength + digestLength + 11 ≤ length := by
  simp only [v15Size, Bool.and_eq_true, decide_eq_true_eq]
  omega

theorem v15Byte_getElem (zeros : Nat) (header digest : Bytes) (i : Nat)
    (inside : i < zeros + 3 + (header.length + digest.length)) :
    (0 :: 1 :: (List.replicate zeros 0xff ++ 0 :: (header ++ digest)))[i]? =
      some (v15Byte i (zeros + 2) header digest) := by
  rcases i with _ | _ | i
  · simp [v15Byte]
  · simp [v15Byte]
  · rw [List.getElem?_cons_succ, List.getElem?_cons_succ]
    rcases Nat.lt_trichotomy i zeros with before | here | after
    · rw [List.getElem?_append_left (by simpa using before), List.getElem?_replicate, if_pos before]
      simp [v15Byte, Nat.ne_of_lt before, before]
    · rw [here, List.getElem?_append_right (by simp)]
      simp [v15Byte]
    · obtain ⟨j, rfl⟩ := Nat.exists_eq_add_of_lt after
      have place : zeros + j + 1 - zeros = j + 1 := by omega
      have index : zeros + j + 1 + 1 + 1 - (zeros + 2 + 1) = j := by omega
      have apart : ¬ zeros + j + 1 + 1 + 1 = zeros + 2 := by omega
      have beyond : ¬ zeros + j + 1 + 1 + 1 < zeros + 2 := by omega
      rw [List.getElem?_append_right (by simp; omega), List.length_replicate, place,
        List.getElem?_cons_succ]
      simp only [v15Byte, index, apart, beyond]
      by_cases inHeader : j < header.length
      · simp [inHeader, List.getElem?_append_left]
      · have least : header.length ≤ j := Nat.le_of_not_lt inHeader
        have within : j - header.length < digest.length := by omega
        simp [inHeader, List.getElem?_append_right least, within]

theorem v15Byte_eq {length : Nat} {header digest : Bytes}
    (sized : header.length + digest.length + 11 ≤ length) : ((List.range length).map fun i =>
        v15Byte i (length - header.length - digest.length - 1) header digest) =
      0 :: 1 :: List.replicate (length - (header ++ digest).length - 3) 0xff ++
        0 :: (header ++ digest) := by
  obtain ⟨zeros, rfl⟩ : ∃ zeros, length = zeros + 3 + (header.length + digest.length) :=
    ⟨length - (header.length + digest.length) - 3, by omega⟩
  have separator : zeros + 3 + (header.length + digest.length) - header.length - digest.length - 1 =
      zeros + 2 := by omega
  have count : zeros + 3 + (header.length + digest.length) - (header ++ digest).length - 3 =
      zeros := by
    rw [List.length_append]
    omega
  rw [separator, count]
  apply List.ext_getElem?
  intro i
  by_cases inside : i < zeros + 3 + (header.length + digest.length)
  · rw [List.getElem?_map, List.getElem?_range inside]
    exact (v15Byte_getElem zeros header digest i inside).symm
  · rw [List.getElem?_eq_none (by simpa using inside), List.getElem?_eq_none]
    simp only [List.length_append, List.length_cons, List.length_replicate]
    omega

theorem foldl_difference (f g : Nat → UInt8) (places : List Nat) (difference : UInt32) :
    places.foldl (fun difference i => difference ||| (f i ^^^ g i).toUInt32) difference = 0 ↔
      difference = 0 ∧ ∀ i ∈ places, f i = g i := by
  induction places generalizing difference with
  | nil => simp
  | cons i rest ih =>
    have zero : (f i ^^^ g i).toUInt32 = 0 ↔ f i = g i := by
      rw [← UInt8.xor_eq_zero_iff, ← UInt32.toNat_inj, UInt8.toNat_toUInt32, ← UInt8.toNat_inj]
      rfl
    rw [List.foldl_cons, ih, UInt32.or_eq_zero_iff, zero, List.forall_mem_cons, and_assoc]

theorem v15Check_iff {encoded header digest : Bytes}
    (sized : v15Size encoded.length header.length digest.length = true) :
    v15Check encoded header digest = true ↔
      encoded = 0 :: 1 :: List.replicate (encoded.length - (header ++ digest).length - 3) 0xff ++
        0 :: (header ++ digest) := by
  rw [← v15Byte_eq (v15Size_iff.mp sized).2.2, v15Check, sized]
  simp only [Bool.not_true, Bool.false_eq_true, if_false, decide_eq_true_iff]
  rw [foldl_difference]
  constructor
  · rintro ⟨-, same⟩
    apply List.ext_getElem (by simp)
    intro i inside _
    have here := same i (List.mem_range.mpr inside)
    rw [List.getD_eq_getElem?_getD, List.getElem?_eq_getElem inside, Option.getD_some] at here
    rw [here, List.getElem_map, List.getElem_range]
  · intro same
    refine ⟨rfl, fun i inside => ?_⟩
    have bound := List.mem_range.mp inside
    have here := congrArg (fun bytes : Bytes => bytes[i]?) same
    simp only [List.getElem?_map, List.getElem?_range bound, Option.map_some] at here
    rw [List.getD_eq_getElem?_getD, here, Option.getD_some]

def VerifyFunded (build : Build) (key : PublicKey) (prepared : Bool) (capacity work : Nat) : Prop :=
  verifyWorkspaceWords build (key.length * 8) ≤ capacity ∧
    key.length + publicCost key.length key.exponent.length prepared ≤ work

def v15Outcome (build : Build) (key : PublicKey) (hash : Option Hash.Algorithm)
    (digest signature : Bytes) : Result :=
  if digestLengthCheck hash digest.length ≠ .ok then digestLengthCheck hash digest.length
  else if publicKeyCheck build key ≠ .ok then publicKeyCheck build key
  else
    match hash with
    | none => .unsupported
    | some hash =>
      if !v15Size key.length (digestInfo hash).length hash.digestLength then .invalid
      else if signature.length ≠ key.length then .invalid
      else if value key.modulus ≤ value signature then .invalid
      else if v15Check
          (ofValue key.length (value signature ^ value key.exponent % value key.modulus))
          (digestInfo hash) digest then .ok
      else .invalid

structure Constant (call : VerifyCall build) : Prop where
  r2 : ∀ key : CheckedKey build, call.key = key.toPublicKey → call.setup.map PreparedPublicKey.r2 =
      if call.setup.isSome then some (Limbs.montgomeryR2 key.limbs) else none

variable {call : VerifyCall build}

theorem verifyV15_run {hash : Hash.Algorithm} (constant : Constant call)
    (checked : publicKeyCheck build call.key = .ok)
    (whole : call.signature.length = call.key.length) :
    let result :=
      if call.capacity < verifyWorkspaceWords build (call.key.length * 8) ||
          call.work < call.key.length +
            publicCost call.key.length call.key.exponent.length call.setup.isSome then
        (Result.limit, call.work)
      else
        match publicOperation build call.key call.signature
            (rawPublicWorkspaceWords build (call.key.length * 8)) (call.work - call.key.length)
            (call.setup.map PreparedPublicKey.r2) with
        | (.error result, work) => (result, work)
        | (.ok encoded, work) =>
          (if v15Check encoded (digestInfo hash) call.digest then .ok else .invalid, work)
    (VerifyFunded build call.key call.setup.isSome call.capacity call.work → result.1 =
          if value call.key.modulus ≤ value call.signature then .invalid
          else if v15Check (ofValue call.key.length
              (value call.signature ^ value call.key.exponent % value call.key.modulus))
              (digestInfo hash) call.digest then .ok
          else .invalid) ∧
      (¬ VerifyFunded build call.key call.setup.isSome call.capacity call.work →
        result.1 ≠ .ok) := by
  intro result
  let key : CheckedKey build := ⟨call.key, checked⟩
  have operation := publicOperation_eq key whole
    (rawPublicWorkspaceWords build (call.key.length * 8)) (call.work - call.key.length)
    call.setup.isSome
  rw [← constant.r2 key rfl] at operation
  constructor
  · rintro ⟨capacious, funded⟩
    have within : (decide (call.capacity < verifyWorkspaceWords build (call.key.length * 8)) ||
        decide (call.work < call.key.length +
          publicCost call.key.length call.key.exponent.length call.setup.isSome)) = false := by
      simp only [Bool.or_eq_false_iff, decide_eq_false_iff_not]
      omega
    have paid : (decide (rawPublicWorkspaceWords build (call.key.length * 8) <
        rawPublicWorkspaceWords build (key.length * 8)) || decide (call.work - call.key.length <
          publicCost key.length key.exponent.length call.setup.isSome)) = false := by
      change (decide (rawPublicWorkspaceWords build (call.key.length * 8) <
        rawPublicWorkspaceWords build (call.key.length * 8)) ||
          decide (call.work - call.key.length <
            publicCost call.key.length call.key.exponent.length call.setup.isSome)) = false
      simp only [Bool.or_eq_false_iff, decide_eq_false_iff_not]
      omega
    have call_key : key.toPublicKey = call.key := rfl
    simp only [result, within, Bool.false_eq_true, if_false]
    rw [← call_key, operation]
    simp only [paid, Bool.false_eq_true, if_false]
    by_cases above : key.modulusValue ≤ value call.signature
    · simp only [above, if_true]
      exact (if_pos above).symm
    · simp only [above, if_false]
      exact (if_neg above).symm
  · intro short
    have beyond : (decide (call.capacity < verifyWorkspaceWords build (call.key.length * 8)) ||
        decide (call.work < call.key.length +
          publicCost call.key.length call.key.exponent.length call.setup.isSome)) = true := by
      simp only [Bool.or_eq_true, decide_eq_true_eq]
      by_contra fits
      exact short ⟨by omega, by omega⟩
    simp [result, beyond]

theorem verifyV15_outcome (constant : Constant call) :
    let outcome := v15Outcome build call.key call.hash call.digest call.signature
    (VerifyFunded build call.key call.setup.isSome call.capacity call.work →
        (verifyV15 call).1 = outcome) ∧
      (¬ VerifyFunded build call.key call.setup.isSome call.capacity call.work →
        (verifyV15 call).1 ≠ .ok) := by
  intro outcome
  by_cases digested : digestLengthCheck call.hash call.digest.length = .ok
  · by_cases checked : publicKeyCheck build call.key = .ok
    · have passed : verifyCheck call = .ok := by
        rw [verifyCheck, if_neg (not_not.mpr digested), checked]
      simp only [outcome, verifyV15, v15Outcome, passed, digested, checked, ne_eq,
        not_true_eq_false, if_false]
      cases call.hash with
      | none => simp
      | some hash =>
        simp only
        by_cases sized : v15Size call.key.length (digestInfo hash).length hash.digestLength = true
        · by_cases whole : call.signature.length = call.key.length
          · simp only [sized, whole, Bool.not_true, Bool.false_eq_true, if_false, not_true_eq_false]
            exact verifyV15_run constant checked whole
          · simp [sized, whole]
        · simp [sized]
    · have refused : verifyCheck call = publicKeyCheck build call.key := by
        rw [verifyCheck, if_neg (not_not.mpr digested)]
      simp [outcome, verifyV15, v15Outcome, refused, digested, checked]
  · have refused : verifyCheck call = digestLengthCheck call.hash call.digest.length := by
      rw [verifyCheck, if_pos digested]
    simp [outcome, verifyV15, v15Outcome, refused, digested]

theorem digestInfo_sizes (hash : Hash.Algorithm) :
    (digestInfo hash).length ≠ 0 ∧ hash.digestLength ≠ 0 := by
  cases hash <;> decide

theorem v15Outcome_known {key : PublicKey} {known : Hash.Algorithm} {digest : Bytes}
    (checked : publicKeyCheck build key = .ok) (digested : known.digestLength = digest.length)
    (signature : Bytes) : v15Outcome build key (some known) digest signature = .ok ↔
      Rfc8017.VerifiesV15 (value key.modulus) (value key.exponent) key.length known digest
        signature := by
  obtain ⟨headed, filled⟩ := digestInfo_sizes known
  have check : digestLengthCheck (some known) digest.length = .ok := by
    simp [digestLengthCheck, digested]
  have size := @v15Size_iff key.length (digestInfo known).length known.digestLength
  rw [v15Outcome]
  simp only [check, checked, ne_eq, not_true_eq_false, if_false]
  by_cases sized : v15Size key.length (digestInfo known).length known.digestLength = true
  · have room := (size.mp sized).2.2
    have written := Library.ByteCounter.ofValue_length key.length
      (value signature ^ value key.exponent % value key.modulus)
    have message := @v15Check_iff
      (ofValue key.length (value signature ^ value key.exponent % value key.modulus))
      (digestInfo known) digest (by rw [written, ← digested]; exact sized)
    rw [written] at message
    have padding : 8 ≤ key.length - (digestInfo known ++ digest).length - 3 := by
      rw [List.length_append]
      omega
    simp only [sized, Bool.not_true, Bool.false_eq_true, if_false]
    by_cases whole : signature.length = key.length
    · rw [if_neg (not_not.mpr whole)]
      by_cases below : value signature < value key.modulus
      · rw [if_neg (by omega)]
        by_cases accepted : v15Check
            (ofValue key.length (value signature ^ value key.exponent % value key.modulus))
            (digestInfo known) digest = true
        · rw [if_pos accepted]
          exact iff_of_true rfl ⟨whole, below, padding, message.mp accepted⟩
        · rw [if_neg accepted]
          exact iff_of_false (by simp) fun verifies => accepted (message.mpr verifies.message)
      · rw [if_pos (by omega)]
        exact iff_of_false (by simp) fun verifies => below verifies.below
    · rw [if_pos whole]
      exact iff_of_false (by simp) fun verifies => whole verifies.length
  · rw [if_pos (by simpa using sized)]
    refine iff_of_false (by simp) fun verifies => sized (size.mpr ⟨headed, filled, ?_⟩)
    have padding := verifies.padding
    rw [List.length_append] at padding
    omega

/-- An accepted signature is one that RFC 8017 accepts. -/
theorem v15Outcome_ok (build : Build) (key : PublicKey) (hash : Option Hash.Algorithm)
    (digest signature : Bytes) : v15Outcome build key hash digest signature = .ok ↔
      publicKeyCheck build key = .ok ∧ ∃ known, hash = some known ∧
        digest.length = known.digestLength ∧
        Rfc8017.VerifiesV15 (value key.modulus) (value key.exponent) key.length known digest
          signature := by
  by_cases checked : publicKeyCheck build key = .ok
  · cases hash with
    | none => simp [v15Outcome, digestLengthCheck, checked]
    | some known =>
      by_cases digested : known.digestLength = digest.length
      · have check : digestLengthCheck (some known) digest.length = .ok := by
          simp [digestLengthCheck, digested]
        have outcome := v15Outcome_known checked digested signature
        simp [outcome, checked, digested]
      · have check : digestLengthCheck (some known) digest.length = .argument := by
          simp [digestLengthCheck, digested]
        simp [v15Outcome, check, Ne.symm digested]
  · have other : v15Outcome build key hash digest signature ≠ .ok := by
      by_cases digested : digestLengthCheck hash digest.length = .ok
      · simp [v15Outcome, digested, checked]
      · simp [v15Outcome, digested]
    exact iff_of_false other fun accepts => checked accepts.1

theorem constant_one_shot {key : PublicKey} {hash : Option Hash.Algorithm}
    {digest signature : Bytes} {capacity work : Nat} :
    Constant (⟨none, key, hash, digest, signature, capacity, work⟩ : VerifyCall build) :=
  ⟨fun _ _ => rfl⟩

theorem preparePublicKey_ok {key : PublicKey} {cacheCapacity capacity work left : Nat}
    {setup : PreparedPublicKey build}
    (prepared : preparePublicKey build key cacheCapacity capacity work = (.ok setup, left)) :
    setup.key = key ∧ preparedReady setup = true ∧
      setup.r2 = Limbs.montgomeryR2 (Limbs.fromBe build.wordBytes key.modulus) := by
  unfold preparePublicKey at prepared
  split at prepared
  · cases prepared
  · dsimp only at prepared
    split at prepared
    · cases prepared
    · rename_i enough
      cases prepared
      simp only [Bool.or_eq_true, decide_eq_true_eq, not_or, Nat.not_lt] at enough
      refine ⟨rfl, ?_, rfl⟩
      simp [preparedReady, enough.1.1]

/-- Verification accepts exactly one encoded message for each key, hash and digest, with or
    without a prepared key. Resources that suffice give both ways the same result. -/
theorem v15_exact (build : Build) (key : PublicKey) (hash : Option Hash.Algorithm)
    (digest signature : Bytes) :
    let Accepts := publicKeyCheck build key = .ok ∧ ∃ known, hash = some known ∧
      digest.length = known.digestLength ∧
      Rfc8017.VerifiesV15 (value key.modulus) (value key.exponent) key.length known digest signature
    (∀ capacity work : Nat, (verifyV15Digest build key hash digest signature capacity work).1 = .ok ↔
      Accepts ∧ VerifyFunded build key false capacity work) ∧
    ∀ (cacheCapacity scratch budget left : Nat) (setup : PreparedPublicKey build),
      preparePublicKey build key cacheCapacity scratch budget = (.ok setup, left) →
      (∀ capacity work : Nat, (verifyV15Prepared setup hash digest signature capacity work).1 = .ok ↔
        Accepts ∧ VerifyFunded build key true capacity work) ∧
      ∀ capacity work capacity' work' : Nat, VerifyFunded build key false capacity work →
        VerifyFunded build key true capacity' work' →
        (verifyV15Prepared setup hash digest signature capacity' work').1 =
          (verifyV15Digest build key hash digest signature capacity work).1 := by
  intro Accepts
  have accepts := v15Outcome_ok build key hash digest signature
  have one_shot := fun capacity work : Nat => verifyV15_outcome (@constant_one_shot build key hash
    digest signature capacity work)
  have decides : ∀ {outcome result : Result} {funded : Prop}, (outcome = .ok ↔ Accepts) →
      (funded → result = outcome) → (¬ funded → result ≠ .ok) →
      (result = .ok ↔ Accepts ∧ funded) := by
    intro outcome result funded accepted reached short
    by_cases enough : funded
    · rw [reached enough, accepted]
      exact ⟨fun here => ⟨here, enough⟩, And.left⟩
    · exact iff_of_false (short enough) fun both => enough both.2
  refine ⟨fun capacity work => ?_, ?_⟩
  · exact decides accepts (one_shot capacity work).1 (one_shot capacity work).2
  intro cacheCapacity scratch budget left setup prepared
  obtain ⟨same, ready, r2⟩ := preparePublicKey_ok prepared
  have constant : ∀ capacity work : Nat, Constant
      (⟨some setup, setup.key, hash, digest, signature, capacity, work⟩ : VerifyCall build) := by
    intro capacity work
    refine ⟨fun key' equal => ?_⟩
    have limbs : key'.limbs = Limbs.fromBe build.wordBytes key.modulus := by
      rw [CheckedKey.limbs, ← equal, same]
    simp [r2, limbs]
  have run : ∀ capacity work : Nat, verifyV15Prepared setup hash digest signature capacity work =
      verifyV15 ⟨some setup, setup.key, hash, digest, signature, capacity, work⟩ := by
    intro capacity work
    rw [verifyV15Prepared, ready]
    rfl
  have outcome := fun capacity work : Nat => verifyV15_outcome (constant capacity work)
  simp only [same] at outcome run
  refine ⟨fun capacity work => ?_, fun capacity work capacity' work' funded funded' => ?_⟩
  · rw [run]
    exact decides accepts (outcome capacity work).1 (outcome capacity work).2
  · rw [run, (outcome capacity' work').1 funded', verifyV15Digest, (one_shot capacity work).1 funded]

end TinyCrypto.Rsa
