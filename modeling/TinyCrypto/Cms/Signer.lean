import TinyCrypto.Cms.Attributes
import TinyCrypto.Hash.Core
import TinyCrypto.X509.PathBasic

/-! # Verifying one signer

`tc_cms_signer_verify`: hash the content, bind it through the signed attributes,
and give the digest and the signature octets to a signature provider. One scratch
buffer holds first the content digest and then the digest of the attributes. A
signer search keeps the latter for its next candidate.
-/

namespace TinyCrypto.Cms

open Tlv Pki
open Library Library.Program Library.Metered

/-- `TC_signature_scheme`. -/
inductive Scheme where
  | rsaV15
  | rsaPss
  | ecdsa
  deriving DecidableEq

/-- `TC_signature_algorithm`. -/
structure SignatureAlgorithm where
  scheme : Scheme
  hash : Hash.Algorithm
  mgfHash : Option Hash.Algorithm
  saltLength : Nat
  deriving DecidableEq

/-- `tc_cms_signature_algorithm`. -/
structure ResolvedAlgorithm where
  contentHash : Hash.Algorithm
  signature : SignatureAlgorithm
  deriving DecidableEq

/-- The fields of `TC_CMS_signer_info` that verification reads. -/
structure SignerInfo where
  digestAlgorithm : X509.Algorithm
  signatureAlgorithm : X509.Algorithm
  signedAttributes : Bytes
  signature : Bytes
  deriving DecidableEq

/-- `verify_digest` of a provider: from a digest, an algorithm, signature octets, a key
    and the work, the verdict and the work left. -/
abbrev VerifyDigest := Bytes → SignatureAlgorithm → Bytes → X509.PublicKey → Nat → Result × Nat

/-- `TC_CMS_signer_verify_request`. -/
structure VerifyRequest where
  signer : SignerInfo
  contentType : Bytes
  policy : VerificationPolicy
  key : X509.PublicKey
  provider : Option VerifyDigest

/-- `tc_cms_verify_input`. -/
inductive VerifyInput where
  | digest
  | raw
  | ber
  deriving DecidableEq

/-- What the build and the workspace fix. A hash that the build lacks has no descriptor. -/
structure Build where
  tree : Workspace
  readers : AttributeReaders
  hashes : Hash.Algorithm → Option Hash.Info
  /-- `signature_capacity`. -/
  scratch : Nat
  /-- `tc_pki_signature_key_check`. -/
  keyCheck : SignatureAlgorithm → X509.PublicKey → Except Result Unit
  /-- `tc_pki_signature_resolve_profile`. -/
  resolve : X509.Algorithm → X509.PublicKey → Profile → Metered Result Unit SignatureAlgorithm
  digestBytes : ∀ algorithm info, hashes algorithm = some info →
    info.digestBytes = algorithm.digestLength
  resolve_steady : ∀ algorithm key profile,
    Agree .limit (resolve algorithm key profile) (resolve algorithm key profile)

structure CacheEntry where
  digest : Bytes
  hash : Hash.Algorithm
  signerName : Option Bytes
  deriving DecidableEq

/-- `tc_cms_signed_attrs_cache`: the capacity of its buffer and its valid entry. Without
    a cache there is no buffer. -/
structure Cache where
  capacity : Option Nat
  entry : Option CacheEntry
  deriving DecidableEq

structure SignerState where
  scratch : Bytes
  cache : Cache
  deriving DecidableEq

abbrev SignerProgram := Metered Result SignerState

inductive DigestSpan where
  | caller (bytes : Bytes)
  | scratch (length : Nat)
  | cached
  deriving DecidableEq

def DigestSpan.bytes (state : SignerState) : DigestSpan → Bytes
  | .caller bytes => bytes
  | .scratch length => state.scratch.take length
  | .cached => state.cache.entry.elim [] (·.digest)

/-- `cms_data_oid`. -/
def dataOid : Bytes := [0x2a, 0x86, 0x48, 0x86, 0xf7, 0x0d, 1, 7, 1]

/-- `tc_pki_rsa_encryption_oid`. -/
def rsaEncryptionOid : Bytes := [0x2a, 0x86, 0x48, 0x86, 0xf7, 0x0d, 1, 1, 1]

/-- The identifiers of `tc_hash_info_get`. -/
def hashOid : Hash.Algorithm → Bytes
  | .sha1 => [0x2b, 0x0e, 3, 2, 0x1a]
  | .sha224 => [0x60, 0x86, 0x48, 1, 0x65, 3, 4, 2, 4]
  | .sha256 => [0x60, 0x86, 0x48, 1, 0x65, 3, 4, 2, 1]
  | .sha384 => [0x60, 0x86, 0x48, 1, 0x65, 3, 4, 2, 2]
  | .sha512 => [0x60, 0x86, 0x48, 1, 0x65, 3, 4, 2, 3]

/-- `tc_cms_envelope_profile`. -/
def envelopeProfile (policy : VerificationPolicy) : Profile :=
  if policy.envelope = .der then .der else .ber

section

variable (b : Build)

/-- `tc_pki_null`. -/
def pkiNull (profile : Profile) (encoded : Bytes) : Bool :=
  match readProfile (reading b.tree profile) ⟨encoded.length, encoded.length, 1, 0⟩ encoded with
  | .ok element => element.tagIs 5 && element.value = [] && element.encoded.length = encoded.length
  | .error _ => false

/-- `tc_pki_hash_algorithm_profile`. -/
def hashAlgorithmProfile (profile : Profile) (algorithm : X509.Algorithm) :
    Except Result Hash.Algorithm :=
  if !oidContents algorithm.oid then .error .invalid
  else
    match [Hash.Algorithm.sha1, .sha224, .sha256, .sha384, .sha512].find?
        fun id => hashOid id = algorithm.oid with
    | none => .error .unsupported
    | some id =>
      if algorithm.parameters = [] || pkiNull b profile algorithm.parameters then .ok id
      else .error .invalid

/-- `tc_cms_signature_resolve_policy`. -/
def signatureResolvePolicy {D : Type} (request : VerifyRequest) : Metered Result D ResolvedAlgorithm := do
  let signer := request.signer
  let profile := envelopeProfile request.policy
  charge .limit signer.digestAlgorithm.oid.length
  charge .limit signer.digestAlgorithm.parameters.length
  charge .limit signer.signatureAlgorithm.oid.length
  charge .limit signer.signatureAlgorithm.parameters.length
  charge .limit request.key.algorithm.parameters.length
  let contentHash ← lift (hashAlgorithmProfile b profile signer.digestAlgorithm)
  if signer.signatureAlgorithm.oid = rsaEncryptionOid then
    if (signer.signatureAlgorithm.parameters ≠ [] || request.policy.rsaParameters = .null) &&
        !pkiNull b profile signer.signatureAlgorithm.parameters then throw .invalid
    let signature : SignatureAlgorithm := ⟨.rsaV15, contentHash, none, 0⟩
    lift (b.keyCheck signature request.key)
    return ⟨contentHash, signature⟩
  else
    let signature ← borrow id (b.resolve signer.signatureAlgorithm request.key profile)
    if signature.hash ≠ contentHash &&
        (signature.scheme ≠ .rsaPss || signer.signedAttributes = []) then throw .invalid
    return ⟨contentHash, signature⟩

/-- `cms_octets_hash_update`. -/
def octetsHashUpdate (info : Hash.Info) (bytes : Bytes) : Metered Result Hash.View Unit := do
  charge .limit bytes.length
  let view ← data
  match info.absorb view bytes with
  | some after => update fun _ => after
  | none => throw .invalid

/-- `cms_octets_hash`. -/
def octetsHash {D : Type} (info : Hash.Info) (encoded : Bytes) : Metered Result D Bytes := do
  let (_, view) ← locally id info.start
    (octetsImplicit b.tree .ber 4 (octetsHashUpdate info) encoded)
  return info.finish view

/-- `tc_pki_hash_parts` of one part. -/
def pkiHashPart {D : Type} (info : Hash.Info) (part : Bytes) : Metered Result D Bytes := do
  charge .limit 1
  if part.length > b.tree.limits.maxInput || part.length > b.tree.limits.maxValue then throw .limit
  charge .limit part.length
  match info.digestParts [part] with
  | some digest => return digest
  | none => throw .argument

/-- `tc_cms_hash_content`. -/
def hashContent {D : Type} (kind : VerifyInput) (algorithm : Hash.Algorithm) (input : Bytes) :
    Metered Result D Bytes :=
  match b.hashes algorithm with
  | none => throw .unsupported
  | some info => if kind = .ber then octetsHash b info input else pkiHashPart b info input

/-- `signature_callback_result`. -/
def callbackResult : Result → Except Result Unit
  | .ok => .ok ()
  | .invalid => .error .invalid
  | .unsupported => .error .unsupported
  | .limit => .error .limit
  | _ => .error .error

def providerCall {D : Type} (verify : Nat → Result × Nat) : Metered Result D Unit :=
  ExceptT.mk fun s =>
    let (result, left) := verify s.work
    if left > s.work then (.error .error, { s with work := 0 })
    else (callbackResult result, { s with work := left })

/-- `TC_X509_signature_verify_digest`. -/
def signatureVerifyDigest {D : Type} (verify : VerifyDigest) (digest : Bytes)
    (algorithm : SignatureAlgorithm) (signature : Bytes) (key : X509.PublicKey) :
    Metered Result D Unit := do
  if signature = [] || key.key = [] || key.algorithm.oid = [] then throw .error
  if digest.length ≠ algorithm.hash.digestLength then throw .error
  charge .limit (1 + digest.length)
  charge .limit (1 + signature.length)
  charge .limit (1 + key.algorithm.oid.length)
  charge .limit (1 + key.algorithm.parameters.length)
  charge .limit (1 + key.key.length)
  providerCall (verify digest algorithm signature key)

/-- `tc_cms_content_digest_compare`. -/
def contentDigestCompare (attributes : SignedAttributes) (expectedType digest : Bytes) :
    SignerProgram Bool := do
  charge .limit expectedType.length
  charge .limit digest.length
  return attributes.contentType = some expectedType && attributes.messageDigest = some digest

/-- The attribute digest of `cms_verify_digest` and the signer name: from the cache, or
    read, compared with the content digest and hashed over it. -/
def attributesDigest (request : VerifyRequest) (digest : DigestSpan) (algorithm : ResolvedAlgorithm) :
    SignerProgram (DigestSpan × Option Bytes) := do
  let state ← data
  match state.cache.entry.filter (·.hash = algorithm.signature.hash) with
  | some entry => return (.cached, entry.signerName)
  | none =>
    let attributes ← borrow X509.signatureError
      (signedAttributesRead b.tree b.readers request.policy request.signer.signedAttributes)
    let state ← data
    let matched ← contentDigestCompare attributes request.contentType (digest.bytes state)
    if !matched then throw .invalid
    match b.hashes algorithm.signature.hash with
    | none => throw .unsupported
    | some info =>
      charge .limit 1
      charge .limit (request.signer.signedAttributes.length - 1)
      match info.digestParts attributes.signatureInput with
      | none => throw .error
      | some attributeDigest =>
        update fun state => { state with scratch := attributeDigest }
        update fun state =>
          if state.cache.capacity.elim false (algorithm.signature.hash.digestLength ≤ ·) then
            { state with cache := { state.cache with
                entry := some ⟨attributeDigest, algorithm.signature.hash, attributes.signerName⟩ } }
          else state
        return (.scratch algorithm.signature.hash.digestLength, attributes.signerName)

def signedDigest (request : VerifyRequest) (digest : DigestSpan) (algorithm : ResolvedAlgorithm) :
    SignerProgram (DigestSpan × Option Bytes) :=
  if request.signer.signedAttributes ≠ [] then attributesDigest b request digest algorithm
  else do
    charge .limit request.contentType.length
    if request.contentType ≠ dataOid then throw .invalid
    return (digest, none)

/-- `cms_verify_digest`. -/
def cmsVerifyDigest (request : VerifyRequest) (verify : VerifyDigest) (digest : DigestSpan)
    (algorithm : ResolvedAlgorithm) : SignerProgram (Option Bytes) := do
  let (signed, signerName) ← signedDigest b request digest algorithm
  let signature ← borrow X509.signatureError
    (octetsContiguous b.tree (envelopeProfile request.policy) 4 b.scratch request.signer.signature)
  let state ← data
  signatureVerifyDigest verify (signed.bytes state) algorithm.signature signature request.key
  return signerName

def contentDigest (kind : VerifyInput) (algorithm : Hash.Algorithm) (input : Bytes) :
    SignerProgram DigestSpan := do
  if kind = .digest then
    if input.length ≠ algorithm.digestLength then throw .error
    return .caller input
  else
    let digest ← borrow X509.signatureError (hashContent b kind algorithm input)
    update fun state => { state with scratch := digest }
    return .scratch algorithm.digestLength

/-- The number of comparisons of `cms_signature_storage`. -/
def signatureStorageWork : Nat := 78

/-- `tc_cms_signer_verify`. Its failures are its verdicts other than VALID. -/
def signerVerify (request : VerifyRequest) (kind : VerifyInput) (input : Bytes) :
    SignerProgram (Option Bytes) := do
  if !policyValid b.readers.twic request.policy then throw .error
  charge .limit signatureStorageWork
  match request.provider with
  | none => throw .unsupported
  | some verify =>
    if request.contentType = [] || (kind = .digest && input = []) then throw .error
    let algorithm ← borrow X509.signatureError (signatureResolvePolicy b request)
    let digest ← contentDigest b kind algorithm.contentHash input
    cmsVerifyDigest b request verify digest algorithm

end

end TinyCrypto.Cms
