import TinyCrypto.Tlv.DerReader
import TinyCrypto.X509.Certificate

/-! # Reading certificates

The framing of `TC_X509_read` up to the subject, and `search_subject`, which
reads only that far. What a field holds is checked by fixed functions. A name
found on the short way is the subject of the parsed certificate.
-/

namespace TinyCrypto.X509

open Tlv

/-- The functions that `tc_x509_certificate_read` calls for its fields. -/
structure FieldReaders where
  sizeT : Nat
  sizeMax : Nat
  /-- `TC_TLV_walk`, giving the elements left. -/
  walk : Limits → Bytes → Except Failure Nat
  /-- `TC_DER_uint32`. -/
  uint32 : Bytes → Option Nat
  /-- `TC_DER_integer`. -/
  integer : Bytes → Option (Bytes × Bool)
  /-- `TC_DER_algorithm_identifier`. -/
  algorithmIdentifier : Bytes → Option Algorithm
  /-- `name`, with whether an empty name is allowed. -/
  name : Bytes → Bool → Bool
  /-- `validity`. -/
  validity : Bytes → Option (Time × Time)
  /-- The fields of the TBSCertificate after the subject: the SubjectPublicKeyInfo,
      its key and the extensions. -/
  afterSubject : (rest : Bytes) → (budget version : Nat) → (subject : Bytes) →
    Except Failure (Bytes × PublicKey × Bytes)
  /-- The fields after the TBSCertificate: the signature. -/
  afterTbs : (rest : Bytes) → Algorithm → Except Failure Bytes

def require {A : Type} (value : Option A) : Except Result A := value.elim (.error .invalid) .ok

def framed {A : Type} (value : Except Result A) : Except Result A := match value with
  | .ok a => .ok a
  | .error _ => .error .invalid

def passed {A : Type} (value : Except Failure A) : Except Result A := value.mapError (·.1)

section

variable (q : FieldReaders) (limits : Limits)

/-- `unlimited`. -/
def unlimited : Limits := ⟨q.sizeMax, q.sizeMax, q.sizeMax, q.sizeMax⟩

def versionRead (element : Element) (tbs : Reader) : Except Result (Nat × Element × Reader) :=
  if element.tagIs 0xa0 then do
    let version ← require (q.uint32 element.value)
    if version = 0 || version > 2 then .error .invalid
    else
      let (element, tbs) ← framed (next q.sizeT (unlimited q) tbs)
      return (version + 1, element, tbs)
  else return (1, element, tbs)

/-- `tbs_fields`, into a certificate with the given encodings. -/
def tbsFields (encoded tbsEncoded contents : Bytes) (budget : Nat) : Except Result Certificate := do
  let tbs ← framed (readerInit (unlimited q) contents)
  let (element, tbs) ← framed (next q.sizeT (unlimited q) tbs)
  let (version, element, tbs) ← versionRead q element tbs
  let (serial, serialNegative) ← require (q.integer element.encoded)
  let (element, tbs) ← framed (field q.sizeT (unlimited q) 0x30 tbs)
  let signatureAlgorithm ← require (q.algorithmIdentifier element.encoded)
  let (issuer, tbs) ← framed (field q.sizeT (unlimited q) 0x30 tbs)
  if !q.name issuer.value false then .error .invalid
  else
    let (element, tbs) ← framed (field q.sizeT (unlimited q) 0x30 tbs)
    let (notBefore, notAfter) ← require (q.validity element.value)
    let (subject, tbs) ← framed (field q.sizeT (unlimited q) 0x30 tbs)
    if !q.name subject.value true then .error .invalid
    else
      let (spki, publicKey, extensions) ←
        passed (q.afterSubject tbs.rest budget version subject.encoded)
      return {
        encoded, tbs := tbsEncoded, serial, issuer := issuer.encoded,
        subject := subject.encoded, spki, extensions, signature := [], signatureAlgorithm,
        publicKey, notBefore, notAfter, version, serialNegative }

/-- `read_bounded`. -/
def readBounded (encoded : Bytes) : Except Result (Element × Nat) := do
  let element ← read q.sizeT limits encoded
  if !element.tagIs 0x30 || !element.header.constructed ||
      element.encoded.length ≠ encoded.length then .error .invalid
  else
    let budget ← passed (q.walk limits encoded)
    return (element, budget)

/-- `TC_X509_read`. -/
def certificateRead (encoded : Bytes) : Except Result Certificate := do
  let (element, budget) ← readBounded q limits encoded
  let outer ← framed (readerInit (unlimited q) element.value)
  let (tbs, outer) ← framed (field q.sizeT (unlimited q) 0x30 outer)
  let certificate ← tbsFields q element.encoded tbs.encoded tbs.value budget
  let signature ← passed (q.afterTbs outer.rest certificate.signatureAlgorithm)
  return { certificate with signature }

/-- The four fields of `search_subject` after the serial number. -/
def subjectField (tbs : Reader) : Except Result Bytes := do
  let (_, tbs) ← field q.sizeT limits 0x30 tbs
  let (_, tbs) ← field q.sizeT limits 0x30 tbs
  let (_, tbs) ← field q.sizeT limits 0x30 tbs
  let (subject, _) ← field q.sizeT limits 0x30 tbs
  return subject.encoded

def skipVersion (element : Element) (tbs : Reader) : Except Result (Element × Reader) :=
  if element.tagIs 0xa0 then next q.sizeT limits tbs else .ok (element, tbs)

/-- `search_subject` inside the TBSCertificate. -/
def tbsSubject (contents : Bytes) : Except Result Bytes := do
  let tbs ← readerInit limits contents
  let (element, tbs) ← next q.sizeT limits tbs
  let (element, tbs) ← skipVersion q limits element tbs
  if !element.tagIs 2 then .error .invalid else subjectField q limits tbs

/-- `search_subject`. -/
def searchSubject (encoded : Bytes) : Except Result Bytes :=
  if limits.maxDepth < 3 || limits.maxElements < 8 then .error .limit
  else do
    let element ← read q.sizeT limits encoded
    if !element.tagIs 0x30 || element.encoded.length ≠ encoded.length then .error .invalid
    else
      let outer ← readerInit limits element.value
      let (element, _) ← field q.sizeT limits 0x30 outer
      tbsSubject q limits element.value

end

section

variable {q : FieldReaders} {limits : Limits}

variable {A B : Type} {budget : Nat} {encoded tbsEncoded : Bytes}

theorem bind_ok {m : Except Result A} {f : A → Except Result B} {b : B} :
    m >>= f = .ok b ↔ ∃ a, m = .ok a ∧ f a = .ok b := by
  cases m with
  | ok a => simp [bind, Except.bind]
  | error e => simp [bind, Except.bind]

theorem framed_ok {value : Except Result A} {a : A} : framed value = .ok a ↔ value = .ok a := by
  cases value <;> simp [framed]

theorem bind_failed {m : Except Result A} {f : A → Except Result B} (first : m ≠ .error .ok)
    (second : ∀ a, m = .ok a → f a ≠ .error .ok) : m >>= f ≠ .error .ok := by
  cases m with
  | ok a => exact second a rfl
  | error e =>
    intro same
    simp only [bind, Except.bind, Except.error.injEq] at same
    exact first (by rw [same])

theorem framed_failed (value : Except Result A) : framed value ≠ .error .ok := by
  cases value <;> simp [framed]

theorem require_failed (value : Option A) : require value ≠ .error .ok := by
  cases value <;> simp [require]

theorem passed_failed (value : Except Failure A) : passed value ≠ .error .ok := by
  cases value with
  | ok a => simp [passed, Except.mapError]
  | error e => simpa [passed, Except.mapError] using e.2

theorem tbsFields_failed {contents : Bytes} :
    tbsFields q encoded tbsEncoded contents budget ≠ .error .ok := by
  refine bind_failed (framed_failed _) fun tbs _ => ?_
  refine bind_failed (framed_failed _) fun first _ => ?_
  refine bind_failed ?_ fun version _ => ?_
  · unfold versionRead
    split
    · refine bind_failed (require_failed _) fun version _ => ?_
      split
      · simp
      · exact bind_failed (framed_failed _) fun _ _ => by simp [pure, Except.pure]
    · simp [pure, Except.pure]
  refine bind_failed (require_failed _) fun serial _ => ?_
  refine bind_failed (framed_failed _) fun signature _ => ?_
  refine bind_failed (require_failed _) fun algorithm _ => ?_
  refine bind_failed (framed_failed _) fun ⟨issuer, tbs⟩ _ => ?_
  simp only
  split
  · simp
  refine bind_failed (framed_failed _) fun validity _ => ?_
  refine bind_failed (require_failed _) fun times _ => ?_
  refine bind_failed (framed_failed _) fun ⟨subject, tbs⟩ _ => ?_
  simp only
  split
  · simp
  · exact bind_failed (passed_failed _) fun _ _ => by simp [pure, Except.pure]

theorem certificateRead_failed : certificateRead q limits encoded ≠ .error .ok := by
  refine bind_failed ?_ fun bounded _ => ?_
  · refine bind_failed (read_failed _ _ _) fun element _ => ?_
    split
    · simp
    · exact bind_failed (passed_failed _) fun _ _ => by simp [pure, Except.pure]
  refine bind_failed (framed_failed _) fun outer _ => ?_
  refine bind_failed (framed_failed _) fun tbs _ => ?_
  refine bind_failed tbsFields_failed fun certificate _ => ?_
  exact bind_failed (passed_failed _) fun _ _ => by simp [pure, Except.pure]

theorem readerInit_rest {input : Bytes} {reader : Reader}
    (opened : readerInit limits input = .ok reader) : reader.rest = input := by
  unfold readerInit at opened
  split at opened
  · cases opened
  · rw [← Except.ok.inj opened]

theorem skipVersion_agree {element : Element} {tbs tbs' : Reader} {version : Nat}
    {after after' : Element × Reader} (same : tbs.rest = tbs'.rest)
    (full : versionRead q element tbs = .ok (version, after))
    (short : skipVersion q limits element tbs' = .ok after') : after.2.rest = after'.2.rest := by
  unfold versionRead at full
  unfold skipVersion at short
  split at full
  · rename_i tagged
    rw [if_pos tagged] at short
    obtain ⟨stated, -, full⟩ := bind_ok.mp full
    split at full
    · cases full
    obtain ⟨found, hNext, full⟩ := bind_ok.mp full
    cases full
    exact (next_agree same (framed_ok.mp hNext) short).2
  · rename_i untagged
    rw [if_neg untagged] at short
    cases full
    cases short
    exact same

theorem tbsSubject_agree {contents subject : Bytes} {certificate : Certificate}
    (full : tbsFields q encoded tbsEncoded contents budget = .ok certificate)
    (short : tbsSubject q limits contents = .ok subject) : subject = certificate.subject := by
  obtain ⟨tbs, opened, full⟩ := bind_ok.mp full
  obtain ⟨⟨first, afterFirst⟩, hFirst, full⟩ := bind_ok.mp full
  obtain ⟨⟨version, serial, afterVersion⟩, hVersion, full⟩ := bind_ok.mp full
  obtain ⟨_, -, full⟩ := bind_ok.mp full
  obtain ⟨⟨signature, afterSignature⟩, hSignature, full⟩ := bind_ok.mp full
  obtain ⟨_, -, full⟩ := bind_ok.mp full
  obtain ⟨⟨issuer, afterIssuer⟩, hIssuer, full⟩ := bind_ok.mp full
  simp only at full
  split at full
  · cases full
  obtain ⟨⟨validity, afterValidity⟩, hValidity, full⟩ := bind_ok.mp full
  obtain ⟨_, -, full⟩ := bind_ok.mp full
  obtain ⟨⟨name, afterName⟩, hName, full⟩ := bind_ok.mp full
  simp only at full
  split at full
  · cases full
  obtain ⟨_, -, full⟩ := bind_ok.mp full
  cases full
  obtain ⟨tbs', opened', short⟩ := bind_ok.mp short
  obtain ⟨⟨first', afterFirst'⟩, hFirst', short⟩ := bind_ok.mp short
  obtain ⟨⟨serial', afterVersion'⟩, hVersion', short⟩ := bind_ok.mp short
  simp only at short
  split at short
  · cases short
  obtain ⟨⟨_, afterSignature'⟩, hSignature', short⟩ := bind_ok.mp short
  obtain ⟨⟨_, afterIssuer'⟩, hIssuer', short⟩ := bind_ok.mp short
  obtain ⟨⟨_, afterValidity'⟩, hValidity', short⟩ := bind_ok.mp short
  obtain ⟨⟨name', _⟩, hName', short⟩ := bind_ok.mp short
  cases short
  have start : tbs.rest = tbs'.rest := by
    rw [readerInit_rest (framed_ok.mp opened), readerInit_rest opened']
  obtain ⟨rfl, atFirst⟩ := next_agree start (framed_ok.mp hFirst) hFirst'
  have atVersion := skipVersion_agree atFirst hVersion hVersion'
  obtain ⟨-, atSignature⟩ := field_agree atVersion (framed_ok.mp hSignature) hSignature'
  obtain ⟨-, atIssuer⟩ := field_agree atSignature (framed_ok.mp hIssuer) hIssuer'
  obtain ⟨-, atValidity⟩ := field_agree atIssuer (framed_ok.mp hValidity) hValidity'
  obtain ⟨rfl, -⟩ := field_agree atValidity (framed_ok.mp hName) hName'
  rfl

/-- The subject that `search_subject` finds in the certificates that are read
    is their subject. -/
theorem searchSubject_agree {subject : Bytes} {certificate : Certificate}
    (full : certificateRead q limits encoded = .ok certificate)
    (short : searchSubject q limits encoded = .ok subject) : subject = certificate.subject := by
  obtain ⟨⟨element, budget⟩, bounded, full⟩ := bind_ok.mp full
  obtain ⟨outer, opened, full⟩ := bind_ok.mp full
  obtain ⟨⟨tbs, outerRest⟩, framedTbs, full⟩ := bind_ok.mp full
  obtain ⟨fields, hFields, full⟩ := bind_ok.mp full
  obtain ⟨signature, -, full⟩ := bind_ok.mp full
  cases full
  obtain ⟨own, hRead, bounded⟩ := bind_ok.mp bounded
  split at bounded
  · cases bounded
  obtain ⟨budget', -, bounded⟩ := bind_ok.mp bounded
  cases bounded
  unfold searchSubject at short
  split at short
  · cases short
  obtain ⟨own', hRead', short⟩ := bind_ok.mp short
  split at short
  · cases short
  obtain rfl := read_agree hRead hRead'
  obtain ⟨outer', opened', short⟩ := bind_ok.mp short
  obtain ⟨⟨tbs', _⟩, framedTbs', short⟩ := bind_ok.mp short
  have start : outer.rest = outer'.rest := by
    rw [readerInit_rest (framed_ok.mp opened), readerInit_rest opened']
  obtain ⟨rfl, -⟩ := field_agree start (framed_ok.mp framedTbs) framedTbs'
  have found : subject = fields.subject := tbsSubject_agree hFields short
  exact found

end

end TinyCrypto.X509
