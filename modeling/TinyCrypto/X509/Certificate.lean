import TinyCrypto.Common.Bytes

/-! # Parsed certificates

The records of `x509.h` and `x509_path.h` that path validation reads. A record
borrows its spans from the certificate's DER, so a span is its bytes.
-/

namespace TinyCrypto.X509

/-- `TC_X509_time`. -/
structure Time where
  year : Nat
  month : Nat
  day : Nat
  hour : Nat
  minute : Nat
  second : Nat
  deriving DecidableEq

/-- `TC_DER_algorithm`. -/
structure Algorithm where
  oid : Bytes
  parameters : Bytes
  deriving DecidableEq

/-- `TC_key_type`. -/
inductive KeyType where
  | unknown | rsa | rsaPss | ec | dsa | ed25519 | ed448 | x25519 | x448
  deriving DecidableEq

/-- `TC_EC_curve`. -/
inductive Curve where
  | unknown | p256 | p384 | p521 | p224 | secp256k1
  | brainpoolP256 | brainpoolP384 | brainpoolP512 | p192
  deriving DecidableEq

/-- `TC_X509_public_key`. -/
structure PublicKey where
  algorithm : Algorithm
  key : Bytes
  modulus : Bytes
  exponent : Bytes
  curveOid : Bytes
  type : KeyType
  curve : Curve
  bits : Nat
  deriving DecidableEq

/-- `TC_X509_certificate`. -/
structure Certificate where
  encoded : Bytes
  tbs : Bytes
  serial : Bytes
  issuer : Bytes
  subject : Bytes
  spki : Bytes
  extensions : Bytes
  signature : Bytes
  signatureAlgorithm : Algorithm
  publicKey : PublicKey
  notBefore : Time
  notAfter : Time
  version : Nat
  serialNegative : Bool
  deriving DecidableEq

/-- `TC_X509_trust_anchor`. -/
structure TrustAnchor where
  name : Bytes
  publicKey : PublicKey
  deriving DecidableEq

/-- `TC_X509_basic_constraints`. A path length is present with
    `has_path_length`. -/
structure BasicConstraints where
  ca : Bool
  pathLength : Option Nat
  deriving DecidableEq

/-- `TC_X509_policy_constraints`. -/
structure PolicyConstraints where
  requireExplicitPolicy : Option Nat
  inhibitPolicyMapping : Option Nat
  deriving DecidableEq

/-- The slots of `TC_X509_extension_summary`. -/
inductive Slot where
  | keyUsage
  | subjectAltName
  | basicConstraints
  | nameConstraints
  | policies
  | policyMappings
  | policyConstraints
  | extendedKeyUsage
  | inhibitAny
  deriving DecidableEq

/-- `TC_X509_extension_summary`, once `ready`. `present` and `critical` have one
    bit per slot; `values` holds the extnValue contents. -/
structure Summary where
  values : Slot → Bytes
  basic : BasicConstraints
  policyConstraints : PolicyConstraints
  inhibitAny : Nat
  present : Slot → Bool
  critical : Slot → Bool
  keyUsage : Nat
  unknownCritical : Bool
  selfIssued : Bool

/-- `TC_KEY_USAGE_CERT_SIGN`. -/
def keyUsageCertSign : Nat := 2 ^ 5

/-- `TC_X509_name_constraints`. -/
structure NameConstraints where
  permitted : Bytes
  excluded : Bytes
  deriving DecidableEq

/-! ## Certificate times

`x509_time.c` converts calendar times to seconds since the Unix epoch and
compares a time with a validity window. All values stay far below the range of
`int64_t`, so the seconds are integers.
-/

/-- `tc_internal_calendar_date`. -/
def calendarDate (year month day : Nat) : Bool :=
  if year = 0 || month < 1 || month > 12 || day = 0 then false
  else
    let days := if month = 2 then
        28 + if year % 4 = 0 && (year % 100 ≠ 0 || year % 400 = 0) then 1 else 0
      else if month = 4 || month = 6 || month = 9 || month = 11 then 30 else 31
    day ≤ days

/-- `time_valid`. -/
def timeValid (t : Time) : Bool :=
  t.year ≤ 9999 && calendarDate t.year t.month t.day && t.hour ≤ 23 && t.minute ≤ 59 &&
    t.second ≤ 59

def digitPairs : Bytes → Option (List Nat)
  | [] => some []
  | [_] => none
  | a :: b :: rest =>
    if a < 48 || a > 57 || b < 48 || b > 57 then none
    else (digitPairs rest).map (((a.toNat - 48) * 10 + (b.toNat - 48)) :: ·)

/-- `tc_x509_time_value`, for a tag and the contents of an element. -/
def timeValue (tag contents : Bytes) : Option Time :=
  let generalized := decide (tag = [0x18])
  if !generalized && tag ≠ [0x17] then none
  else
    let digits := if generalized then 14 else 12
    if contents.length ≠ digits + 1 || contents.getD digits 0 ≠ 90 then none
    else
      match digitPairs (contents.take digits) with
      | none => none
      | some parts =>
        let parts := if generalized then (parts.getD 0 0 * 100 + parts.getD 1 0) :: parts.drop 2
          else (parts.getD 0 0 + if parts.getD 0 0 < 50 then 2000 else 1900) :: parts.drop 1
        let time : Time :=
          ⟨parts.getD 0 0, parts.getD 1 0, parts.getD 2 0, parts.getD 3 0, parts.getD 4 0,
            parts.getD 5 0⟩
        if timeValid time then some time else none

/-- `before_month`: days of a common year before each month. -/
def beforeMonth : List Nat := [0, 31, 59, 90, 120, 151, 181, 212, 243, 273, 304, 334]

/-- `DAYS_TO_UNIX_EPOCH`. -/
def daysToUnixEpoch : Int := 719162

/-- `TC_X509_time_to_unix`. -/
def timeToUnix (t : Time) : Except Result Int := if ¬ timeValid t then .error .invalid
  else
    let previousYear := t.year - 1
    let days : Int :=
      previousYear * 365 + previousYear / 4 - previousYear / 100 + previousYear / 400 +
        beforeMonth.getD (t.month - 1) 0 + t.day - 1
    let days := if t.month > 2 && calendarDate t.year 2 29 then days + 1 else days
    .ok ((days - daysToUnixEpoch) * 86400 + t.hour * 3600 + t.minute * 60 + t.second)

/-- `tc_x509_time_window`. -/
def timeWindow (at_ : Time) (skewSeconds : Nat) (notBefore notAfter : Time) : Except Result Bool :=
  match timeToUnix at_, timeToUnix notBefore, timeToUnix notAfter with
  | .ok now, .ok start, .ok finish =>
    if start > finish then .error .invalid
    else .ok (start - skewSeconds ≤ now && now ≤ finish + skewSeconds)
  | _, _, _ => .error .invalid

/-- `at_` lies in a validity window widened by the skew on both sides. -/
def InWindow (at_ : Time) (skewSeconds : Nat) (notBefore notAfter : Time) : Prop :=
  ∃ now start finish, timeToUnix at_ = .ok now ∧ timeToUnix notBefore = .ok start ∧
    timeToUnix notAfter = .ok finish ∧ start - skewSeconds ≤ now ∧ now ≤ finish + skewSeconds

theorem timeWindow_iff {at_ notBefore notAfter : Time} {skewSeconds : Nat} {within : Bool} :
    timeWindow at_ skewSeconds notBefore notAfter = .ok within ↔ ∃ now start finish,
      timeToUnix at_ = .ok now ∧ timeToUnix notBefore = .ok start ∧ timeToUnix notAfter = .ok finish ∧
        start ≤ finish ∧ (start - skewSeconds ≤ now && now ≤ finish + skewSeconds) = within := by
  unfold timeWindow
  cases timeToUnix at_ <;> cases timeToUnix notBefore <;> cases timeToUnix notAfter <;> simp
  split <;> grind

theorem timeWindow_eq_ok {at_ notBefore notAfter : Time} {skewSeconds : Nat} {within : Bool}
    (given : timeWindow at_ skewSeconds notBefore notAfter = .ok within) :
    within = true ↔ InWindow at_ skewSeconds notBefore notAfter := by
  obtain ⟨now, start, finish, hNow, hStart, hFinish, -, rfl⟩ := timeWindow_iff.mp given
  simp [InWindow, hNow, hStart, hFinish]

end TinyCrypto.X509
