import TinyCrypto.Common.Bytes
import TinyCrypto.Mp.Arithmetic

/-! # RSA keys

The structural checks that every public entry makes once: `rsa_key_internal.h`,
`rsa_internal.h` and `tc_rsa_private_view_init`. A checked key carries them.
-/

namespace TinyCrypto.Rsa

open Library.ByteCounter (value)

/-- `TC_RSA_WORD_BITS` and the modulus sizes of a build. -/
structure Build where
  wideWords : Bool
  enable1024 : Bool
  enable2048 : Bool
  enable3072 : Bool
  enable4096 : Bool
  deriving DecidableEq

def Build.wordBytes (build : Build) : Nat := if build.wideWords then 4 else 1

/-- `TC_MP_WORD_BITS`. -/
def Build.wordBits (build : Build) : Nat := 8 * build.wordBytes

/-- `tc_rsa_supported_modulus_size`. -/
def supportedModulusSize (build : Build) (length : Nat) : Bool :=
  (build.enable1024 && length == 128) || (build.enable2048 && length == 256) ||
    (build.enable3072 && length == 384) || (build.enable4096 && length == 512)

abbrev Octets (length : Nat) := { bytes : Bytes // bytes.length = length }

/-- `TC_RSA_public_key`. -/
structure PublicKey where
  modulus : Bytes
  exponent : Bytes
  deriving DecidableEq

def PublicKey.length (key : PublicKey) : Nat := key.modulus.length

def lastOdd (bytes : Bytes) : Bool := (bytes.getLastD 0 &&& 1) ≠ 0

/-- `memcmp(left, right, length) >= 0` on two strings of one length. -/
def notBelow : Bytes → Bytes → Bool
  | a :: left, b :: right => if a = b then notBelow left right else b < a
  | _, _ => true

/-- `tc_rsa_public_shape_valid`. -/
def publicShapeValid (modulus exponent : Bytes) : Bool :=
  modulus.length ≠ 0 && exponent.length ≠ 0 && exponent.length ≤ modulus.length &&
    lastOdd modulus && lastOdd exponent &&
    !(exponent.length = 1 && exponent.headD 0 < 3) &&
    !(exponent.length = modulus.length && notBelow exponent modulus)

/-- `tc_rsa_public_key_check`. -/
def publicKeyCheck (build : Build) (key : PublicKey) : Result :=
  if !supportedModulusSize build key.length then .unsupported
  else if key.exponent.length = 0 || key.exponent.headD 0 = 0 ||
      (key.modulus.headD 0 &&& 0x80) = 0 || !publicShapeValid key.modulus key.exponent then
    .invalid
  else .ok

structure CheckedKey (build : Build) extends PublicKey where
  checked : publicKeyCheck build toPublicKey = .ok

section

variable {build : Build}

def CheckedKey.words (key : CheckedKey build) : Nat := key.length / build.wordBytes

def CheckedKey.half (key : CheckedKey build) : Nat := key.words / 2

structure Exponent (key : CheckedKey build) where
  bytes : Bytes
  nonempty : bytes.length ≠ 0
  fits : bytes.length ≤ key.length

structure HalfField (key : CheckedKey build) where
  bytes : Bytes
  nonempty : bytes.length ≠ 0
  fits : bytes.length ≤ key.length / 2

end

/-- The CRT fields of `tc_rsa_private_view`. -/
structure CrtView {build : Build} (key : CheckedKey build) where
  dp : HalfField key
  dq : HalfField key
  qInverse : HalfField key

/-- `tc_rsa_private_view`. Its `crt` flag is whether the CRT fields are there. -/
structure PrivateView (build : Build) where
  publicKey : CheckedKey build
  d : Exponent publicKey
  p : HalfField publicKey
  q : HalfField publicKey
  crt : Option (CrtView publicKey)

theorem CheckedKey.supported {build : Build} (key : CheckedKey build) :
    supportedModulusSize build key.length = true := by
  have checked := key.checked
  unfold publicKeyCheck at checked
  by_contra unsupported
  rw [Bool.not_eq_true] at unsupported
  simp [unsupported] at checked

theorem CheckedKey.length_cases {build : Build} (key : CheckedKey build) :
    key.length = 128 ∨ key.length = 256 ∨ key.length = 384 ∨ key.length = 512 := by
  have supported := key.supported
  simp only [supportedModulusSize, Bool.or_eq_true, Bool.and_eq_true, beq_iff_eq] at supported
  omega

/-! ## RSA private operations

`rsa_private_internal.h`: blinding, the full-width operation and the CRT operation.
Scratch is its capacity; every intermediate array is the number it holds.
-/

open Library.ByteCounter (value ofValue ofValue_length)
open Mp

variable {E : Type} {build : Build}

/-- `tc_rsa_random`. A source fills a buffer or fails, and moves on either way. -/
structure Random (E : Type) where
  fill : (length : Nat) → E → Option (Octets length) × E
  attempts : Nat

/-- `tc_rsa_private_base_cost`. -/
def privateBaseCost (length exponentLength : Nat) (crt : Bool) : Nat :=
  (if crt then 48 * length + 12 else 32 * length + 8) + 32 * exponentLength

/-- `tc_rsa_blinding_cost`. -/
def blindingCost (length : Nat) : Nat := 16 * length + 1

/-- `TC_RSA_RAW_PRIVATE_WORKSPACE_WORDS`. -/
def rawPrivateWorkspaceWords (build : Build) (bits : Nat) : Nat := 13 * (bits / build.wordBits)

def CheckedKey.modulusValue (key : CheckedKey build) : Nat := value key.modulus

/-- The Montgomery field modulo `n`. -/
def CheckedKey.field (key : CheckedKey build) : Modulus :=
  modulusOf build.wordBits key.modulusValue key.words

/-- The attempts of `tc_rsa_sample_blinding`: the factor and its inverse, the work left
    and the source. -/
def sampleAttempts (key : CheckedKey build) (random : Random E) :
    (attempts work : Nat) → E → Except Result (Nat × Nat) × Nat × E
  | 0, work, env => (.error .limit, work, env)
  | attempts + 1, work, env =>
    if work < blindingCost key.length then (.error .limit, work, env)
    else
      match random.fill key.length env with
      | (none, env) => (.error .error, work - blindingCost key.length, env)
      | (some bytes, env) =>
        let blind := value bytes.1
        let below := (subtract build.wordBits key.words blind key.modulusValue).2
        let inverted := if below && 1 < blind then
            inverse build.wordBits key.words blind key.modulusValue
          else none
        match inverted with
        | some inverse => (.ok (blind, inverse), work - blindingCost key.length, env)
        | none => sampleAttempts key random attempts (work - blindingCost key.length) env

/-- `tc_rsa_sample_blinding`. -/
def sampleBlinding (key : CheckedKey build) (random : Random E) (work : Nat) (env : E) :
    Except Result (Nat × Nat) × Nat × E :=
  sampleAttempts key random random.attempts work env

/-- `tc_rsa_blind_input`. -/
def blindInput (key : CheckedKey build) (c blind one : Nat) : Nat :=
  montgomery build.wordBits key.field c
    (powerPadded build.wordBits key.field blind (value key.exponent) key.exponent.length one)

/-- `tc_rsa_unblind_verify`: the number to publish, unless the check fails. -/
def unblindVerify (key : CheckedKey build) (masked inverse c one : Nat) : Option Nat :=
  let unblinded := montgomery build.wordBits key.field masked inverse
  let check :=
    powerPadded build.wordBits key.field unblinded (value key.exponent) key.exponent.length one
  if check = c then some (montgomery build.wordBits key.field unblinded 1) else none

/-- `tc_rsa_private_exponent_check`. -/
def privateExponentCheck (build : Build) (n d modulus : Nat) : Bool :=
  d ≠ 0 && d % 2 = 1 && (subtract build.wordBits n d modulus).2

structure Outcome (E : Type) (length : Nat) where
  status : Result
  output : Octets length
  work : Nat
  env : E

def publish {length : Nat} (output : Octets length) (work : Nat) (env : E) :
    Option Nat → Outcome E length
  | none => ⟨.error, output, work, env⟩
  | some number => ⟨.ok, ⟨ofValue length number, ofValue_length _ _⟩, work, env⟩

def magnitudeResult (key : CheckedKey build) (d : Exponent key) (input blind inverse : Nat) :
    Option Nat :=
  let w := build.wordBits
  let r2 := montgomeryR2 w key.words key.modulusValue
  let one := montgomery w key.field 1 r2
  let blind := montgomery w key.field blind r2
  let inverse := montgomery w key.field inverse r2
  let c := montgomery w key.field input r2
  let masked := blindInput key c blind one
  let powered := powerPadded w key.field masked (value d.bytes) key.length one
  unblindVerify key powered inverse c one

/-- `tc_rsa_private_operation_magnitude`. -/
def privateOperationMagnitude (key : CheckedKey build) (d : Exponent key)
    (input output : Octets key.length) (random : Random E) (capacity work : Nat) (env : E) :
    Outcome E key.length :=
  let operations := privateBaseCost key.length key.exponent.length false
  if random.attempts = 0 || capacity < rawPrivateWorkspaceWords build (key.length * 8) ||
      work < operations then
    ⟨.limit, output, work, env⟩
  else
    let work := work - operations
    let c := value input.1
    if !privateExponentCheck build key.words (value d.bytes) key.modulusValue ||
        !(subtract build.wordBits key.words c key.modulusValue).2 then
      ⟨.invalid, output, work, env⟩
    else
      match sampleBlinding key random work env with
      | (.error status, work, env) => ⟨status, output, work, env⟩
      | (.ok (blind, inverse), work, env) =>
        publish output work env (magnitudeResult key d c blind inverse)

def halfPower (build : Build) (h primeLength modulus base exponent : Nat) : Nat :=
  let w := build.wordBits
  let half := modulusOf w modulus h
  let r2 := montgomeryR2 w h modulus
  let one := montgomery w half 1 r2
  let encoded := montgomery w half base r2
  montgomery w half (powerPadded w half encoded exponent primeLength one) 1

/-- Garner's formula: `m2 + q ((m1 - m2) qInverse mod p)` in the words of the modulus. -/
def garner (build : Build) (h p q qInverse m1 m2 : Nat) : Nat :=
  let w := build.wordBits
  let delta := subMod w h m1 (reduceWords w h h m2 p) p
  let factor := reduceWords w h (2 * h) (delta * qInverse) p
  (q * factor + m2) % span w (2 * h)

def crtResult (key : CheckedKey build) (p q : HalfField key) (crt : CrtView key)
    (input blind inverse : Nat) : Option Nat :=
  let w := build.wordBits
  let h := key.half
  let primeLength := key.length / 2
  let r2 := montgomeryR2 w key.words key.modulusValue
  let one := montgomery w key.field 1 r2
  let masked :=
    blindInput key (montgomery w key.field input r2) (montgomery w key.field blind r2) one
  let decoded := montgomery w key.field masked 1
  let rp := reduceWords w h key.words decoded (value p.bytes)
  let rq := reduceWords w h key.words decoded (value q.bytes)
  let m1 := halfPower build h primeLength (value p.bytes) rp (value crt.dp.bytes)
  let m2 := halfPower build h primeLength (value q.bytes) rq (value crt.dq.bytes)
  let combined := garner build h (value p.bytes) (value q.bytes) (value crt.qInverse.bytes) m1 m2
  unblindVerify key (montgomery w key.field combined r2) (montgomery w key.field inverse r2)
    (montgomery w key.field input r2) one

/-- `tc_rsa_crt_private_operation`. -/
def crtPrivateOperation (key : CheckedKey build) (p q : HalfField key) (crt : CrtView key)
    (input output : Octets key.length) (random : Random E) (capacity work : Nat) (env : E) :
    Outcome E key.length :=
  let operations := privateBaseCost key.length key.exponent.length true
  if random.attempts = 0 || capacity < rawPrivateWorkspaceWords build (key.length * 8) ||
      work < operations then
    ⟨.limit, output, work, env⟩
  else
    let work := work - operations
    let c := value input.1
    if !(subtract build.wordBits key.words c key.modulusValue).2 then
      ⟨.invalid, output, work, env⟩
    else
      match sampleBlinding key random work env with
      | (.error status, work, env) => ⟨status, output, work, env⟩
      | (.ok (blind, inverse), work, env) =>
        publish output work env (crtResult key p q crt c blind inverse)

/-- `tc_rsa_private_apply`. -/
def privateApply (view : PrivateView build) (input output : Octets view.publicKey.length)
    (random : Random E) (capacity work : Nat) (env : E) : Outcome E view.publicKey.length :=
  match view.crt with
  | some crt =>
    crtPrivateOperation view.publicKey view.p view.q crt input output random capacity work env
  | none =>
    privateOperationMagnitude view.publicKey view.d input output random capacity work env

end TinyCrypto.Rsa
