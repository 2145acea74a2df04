import TinyCrypto.Pki.Octets
import TinyCrypto.Tlv.Elements
import TinyCrypto.X509.Certificate

/-! # Signed attributes

`TC_CMS_signed_attributes_read`: the attributes of a SignerInfo that a signature
covers. The content type and the message digest are required, each exactly once.
-/

namespace TinyCrypto.Cms

open Tlv Pki
open Library Library.Program Library.Metered

/-- `TC_CMS_envelope_encoding`. -/
inductive EnvelopeEncoding where
  | ber
  | der
  deriving DecidableEq

/-- `TC_CMS_attribute_encoding`. -/
inductive AttributeEncoding where
  | der
  | berDefiniteOrder
  deriving DecidableEq

/-- `TC_CMS_rsa_parameters`. -/
inductive RsaParameters where
  | null
  | allowAbsent
  deriving DecidableEq

/-- `TC_CMS_attribute_oids`. -/
inductive AttributeOids where
  | cms
  | piv
  | pivTwic
  deriving DecidableEq

/-- `TC_CMS_other_attributes`. -/
inductive OtherAttributes where
  | skipListed
  | reject
  | skipAll
  deriving DecidableEq

/-- `TC_CMS_verification_policy`. -/
structure VerificationPolicy where
  envelope : EnvelopeEncoding
  attributes : AttributeEncoding
  rsaParameters : RsaParameters
  attributeOids : AttributeOids
  otherAttributes : OtherAttributes
  deriving DecidableEq

/-- `tc_cms_verification_policy_valid`, with `TC_ENABLE_TWIC`. -/
def policyValid (twic : Bool) (policy : VerificationPolicy) : Bool :=
  policy.attributeOids ≠ .pivTwic || twic

/-- The readers of attribute values, and whether the build has TWIC. What they answer
    depends on the work only in running out of it. -/
structure AttributeReaders where
  twic : Bool
  /-- `tc_pki_tree_name`. -/
  name : Profile → Bytes → Metered Result Unit Unit
  /-- `cms_capabilities`. -/
  capabilities : Profile → Bytes → Metered Result Unit Unit
  name_steady : ∀ profile encoded, Agree .limit (name profile encoded) (name profile encoded)
  capabilities_steady : ∀ profile encoded,
    Agree .limit (capabilities profile encoded) (capabilities profile encoded)

/-- `TC_CMS_signed_attributes`. An absent span is none. -/
structure SignedAttributes where
  contentType : Option Bytes
  messageDigest : Option Bytes
  signatureInput : List Bytes
  signingTime : Option X509.Time
  smimeCapabilities : Option Bytes
  signerName : Option Bytes
  fascnOid : Option Bytes
  fascnOctets : Option Bytes
  entryUuidOctets : Option Bytes
  deriving DecidableEq

/-- `cms_attribute_kind`. -/
inductive AttributeKind where
  | contentType
  | messageDigest
  | signingTime
  | smimeCapabilities
  | entryUuid
  | signerName
  | fascn
  | listed
  | excluded
  | other
  deriving DecidableEq

/-- `pkcs9`. -/
def pkcs9 : Bytes := [0x2a, 0x86, 0x48, 0x86, 0xf7, 0x0d, 1, 9]

/-- `entry_uuid`. -/
def entryUuid : Bytes := [0x2b, 6, 1, 1, 0x10, 4]

/-- `piv_signer_name`. -/
def pivSignerName : Bytes := [0x60, 0x86, 0x48, 1, 0x65, 3, 6, 5]

/-- `piv_fascn`. -/
def pivFascn : Bytes := [0x60, 0x86, 0x48, 1, 0x65, 3, 6, 6]

/-- `fascn` of `twic_oid.c`. -/
def twicFascn : Bytes := [0x2b, 6, 1, 4, 1, 0x81, 0xe3, 0x52, 6, 6]

/-- contentType (RFC 5652 11.1). -/
def contentTypeOid : Bytes := pkcs9 ++ [3]

/-- messageDigest (RFC 5652 11.2). -/
def messageDigestOid : Bytes := pkcs9 ++ [4]

/-- The identifiers under `pkcs9`. -/
def pkcs9Classify : Bytes → AttributeKind
  | [3] => .contentType
  | [4] => .messageDigest
  | [5] => .signingTime
  | [15] => .smimeCapabilities
  | [52] => .listed
  | [16, 2, 12] => .listed
  | [16, 2, 47] => .listed
  | _ => .other

/-- `cms_attribute_classify`. -/
def attributeClassify (twic : Bool) (oid : Bytes) (oids : AttributeOids) : AttributeKind :=
  if oids ≠ .cms && oid = pivSignerName then .signerName
  else if oids ≠ .cms && oid = pivFascn then .fascn
  else if oids ≠ .cms && twic && oid = twicFascn then
    if oids = .pivTwic then .fascn else .excluded
  else if oid = entryUuid then .entryUuid
  else if oid.length ≤ pkcs9.length || oid.take pkcs9.length ≠ pkcs9 then .other
  else pkcs9Classify (oid.drop pkcs9.length)

/-- `TC_DER_oid_contents`: `first` tells that an arc begins. -/
def oidArcs : (first : Bool) → Bytes → Bool
  | first, [] => first
  | first, b :: rest => if first && b = 128 then false else oidArcs (b.toNat < 128) rest

def oidContents (contents : Bytes) : Bool := contents ≠ [] && oidArcs true contents

/-- `tc_pki_compare(a, b) > 0`. -/
def compareGreater : Bytes → Bytes → Bool
  | [], _ => false
  | _ :: _, [] => true
  | a :: as, b :: bs => if a = b then compareGreater as bs else b < a

/-- `TC_PKI_READER_STORAGE_WORK`. -/
def readerStorageWork : Nat := 10

section

variable {D : Type} (tree : Workspace) (profile : Profile)

def reading : Reading := ⟨tree.ber, tree.sizeT, profile⟩

/-- `cms_open`. -/
def cmsOpen (tag : UInt8) (encoded : Bytes) : Metered Result D ProfileElement := do
  let outer ← lift (readProfile (reading tree profile) tree.limits encoded)
  if !outer.tagIs tag || outer.encoded.length ≠ encoded.length || outer.value = [] then throw .invalid
  charge .limit encoded.length
  let (result, events) := walk tree.ber tree.sizeT profile tree.limits tree.capacity encoded
  if result ≠ .ok then throw result
  if events.any fun e => e.kind = .begin && e.header.elim false (·.indefinite) then throw .invalid
  return outer

/-- `tc_pki_next` where any failure is INVALID. -/
def expect (tag : UInt8) (reader : Reader) : Metered Result D (ProfileElement × Reader) :=
  match nextProfile (reading tree profile) tree.limits reader with
  | .ok (element, reader) => if element.tagIs tag then pure (element, reader) else throw .invalid
  | .error _ => throw .invalid

/-- `cms_attribute_repeated`. `before` is the SET value up to the attribute. -/
def attributeRepeated (before oid : Bytes) : Metered Result D Unit :=
  forElements (reading tree profile) tree.limits
    (fun _ member _ => do
      let fields ← lift (profileInit (reading tree profile) tree.limits member.value)
      let (type, _) ← expect tree profile 6 fields
      charge .limit type.value.length
      if type.value = oid then throw .invalid)
    before ()

/-- `cms_attribute_values_order`. -/
def attributeValuesOrder (values : Bytes) : Metered Result D Unit := if profile ≠ .der then pure ()
  else do
    let _ ← forElements (reading tree profile) tree.limits
      (fun _ value previous => do
        if Option.elim previous false (compareGreater · value.encoded) then throw .invalid
        return some value.encoded)
      values (none : Option Bytes)

variable (readers : AttributeReaders)

def attributeValue (kind : AttributeKind) (before oid : Bytes) (value : ProfileElement)
    (parsed : SignedAttributes) : Metered Result D SignedAttributes := do
  match kind with
  | .contentType =>
    if parsed.contentType.isSome || !value.tagIs 6 || !oidContents value.value then throw .invalid
    return { parsed with contentType := some value.value }
  | .messageDigest =>
    if parsed.messageDigest.isSome || !value.tagIs 4 || value.value = [] then throw .invalid
    return { parsed with messageDigest := some value.value }
  | .signingTime =>
    if parsed.signingTime.isSome then throw .invalid
    match X509.timeValue value.header.tag value.value with
    | none => throw .invalid
    | some time =>
      if value.tagIs 0x18 && 1950 ≤ time.year && time.year ≤ 2049 then throw .invalid
      return { parsed with signingTime := some time }
  | .fascn =>
    if parsed.fascnOctets.isSome then throw .invalid
    let (_, octets) ← locally id ⟨[], 0, 0, []⟩
      (octetsImplicit tree profile 4 (storeChunk tree.sizeMax none) value.encoded)
    if octets.length ≠ 25 then throw .invalid
    return { parsed with fascnOid := some oid, fascnOctets := some value.encoded }
  | .entryUuid =>
    if parsed.entryUuidOctets.isSome then throw .invalid
    let (_, octets) ← locally id ⟨[], 0, 0, []⟩
      (octetsImplicit tree profile 4 (storeChunk tree.sizeMax none) value.encoded)
    if octets.length ≠ 16 then throw .invalid
    return { parsed with entryUuidOctets := some value.encoded }
  | .signerName =>
    if parsed.signerName.isSome then throw .invalid
    borrow id (readers.name profile value.encoded)
    return { parsed with signerName := some value.encoded }
  | .smimeCapabilities =>
    if parsed.smimeCapabilities.isSome then throw .invalid
    borrow id (readers.capabilities profile value.encoded)
    return { parsed with smimeCapabilities := some value.encoded }
  | .listed | .excluded | .other =>
    if !value.tagIs 0x30 then throw .invalid
    attributeRepeated tree profile before oid
    return parsed

structure AttributeLoop where
  previous : Option Bytes
  parsed : SignedAttributes
  deriving DecidableEq

variable (policy : VerificationPolicy)

def attributeValues (kind : AttributeKind) (before oid values : Bytes) (parsed : SignedAttributes) :
    Metered Result D SignedAttributes := do
  if kind = .excluded || (kind = .listed && policy.otherAttributes = .reject) ||
      (kind = .other && policy.otherAttributes ≠ .skipAll) then throw .unsupported
  if kind = .other then
    attributeValuesOrder tree profile values
    attributeRepeated tree profile before oid
    return parsed
  let reader ← lift (profileInit (reading tree profile) tree.limits values)
  match nextProfile (reading tree profile) tree.limits reader with
  | .error _ => throw .invalid
  | .ok (value, rest) =>
    if rest.rest ≠ [] then throw .invalid
    attributeValue tree profile readers kind before oid value parsed

def attributeStep (before : Bytes) (member : ProfileElement) (state : AttributeLoop) :
    Metered Result D AttributeLoop := do
  charge .limit member.encoded.length
  if !member.tagIs 0x30 || (policy.attributes = .der &&
      state.previous.elim false (compareGreater · member.encoded)) then throw .invalid
  let fields ← lift (profileInit (reading tree profile) tree.limits member.value)
  let (type, fields) ← expect tree profile 6 fields
  if !oidContents type.value then throw .invalid
  let (set, fields) ← expect tree profile 0x31 fields
  if fields.rest ≠ [] || set.value = [] then throw .invalid
  let kind := attributeClassify readers.twic type.value policy.attributeOids
  let parsed ← attributeValues tree profile readers policy kind before type.value set.value state.parsed
  return ⟨some member.encoded, parsed⟩

end

/-- The profile of `policy.attributes`. -/
def attributeProfile (policy : VerificationPolicy) : Profile :=
  if policy.attributes = .der then .der else .ber

/-- `TC_CMS_signed_attributes_read`. -/
def signedAttributesRead {D : Type} (tree : Workspace) (readers : AttributeReaders)
    (policy : VerificationPolicy) (encoded : Bytes) : Metered Result D SignedAttributes := do
  if !policyValid readers.twic policy then throw .argument
  charge .limit readerStorageWork
  let profile := attributeProfile policy
  let outer ← cmsOpen tree profile 0xa0 encoded
  let state ← forElements (reading tree profile) tree.limits
    (attributeStep tree profile readers policy) outer.value
    ⟨none, ⟨none, none, [], none, none, none, none, none, none⟩⟩
  if state.parsed.contentType.isNone || state.parsed.messageDigest.isNone then throw .invalid
  return { state.parsed with signatureInput := [[0x31], encoded.drop 1] }

end TinyCrypto.Cms
