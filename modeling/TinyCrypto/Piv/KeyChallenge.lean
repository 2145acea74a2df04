import TinyCrypto.Cms.Binding
import TinyCrypto.Piv.Link
import TinyCrypto.Rsa.Pss
import TinyCrypto.Rsa.Public
import TinyCrypto.Tlv.HeaderWrite

/-! # Key challenges

`key_challenge.c` and `piv_key_proof.c`: a card signs a random challenge, and the
signature is verified once. NULL and overlap checks depend on the caller's memory
only; `arguments` is their outcome.
-/

namespace TinyCrypto.Piv

open Library Library.Program Library.Metered

structure ChallengeBuild where
  hashes : Rsa.Hashes
  rsa : Rsa.Build
  /-- `TC_KEY_CHALLENGE_MAX_INPUT_BYTES`. -/
  inputBytes : Nat

/-- `TC_key_challenge_options`. An unknown hash is none. -/
structure ChallengeOptions where
  scheme : Cms.Scheme
  hash : Option Hash.Algorithm
  mgfHash : Option Hash.Algorithm
  saltLength : Nat
  deriving DecidableEq

/-- `TC_key_challenge_workspace`. -/
structure ChallengeWorkspace where
  digest : Bytes
  challenge : Bytes
  signature : ChallengeOptions
  digestLength : Nat
  state : Nat
  deriving DecidableEq

/-- `KEY_CHALLENGE_ACTIVE`. -/
def challengeActive : Nat := 0x4b455943

/-- `TC_KEY_CHALLENGE_MAX_DIGEST_BYTES`. -/
def maxDigestBytes : Nat := 64

/-- `TC_KEY_CHALLENGE_MAX_SALT_BYTES`. -/
def maxSaltBytes : Nat := 64

/-- `TC_random_source` in one call: what it wrote for a request of the call, or none when it
    failed. -/
abbrev RandomSource := (request length : Nat) → Option (Rsa.Octets length)

/-- `TC_key_challenge_prepare`. -/
structure PrepareCall where
  arguments : Bool
  key : X509.PublicKey
  options : ChallengeOptions
  random : RandomSource
  work : UInt32

/-- `TC_key_challenge_verify`, with the callback of its provider. -/
structure ChallengeVerifyCall where
  arguments : Bool
  key : X509.PublicKey
  signature : Bytes
  provider : Option Cms.VerifyDigest
  work : Nat

/-- What a call leaves: its result, `out` with OK, and the work. -/
structure ChallengeAnswer where
  result : Result
  out : Option Bytes
  work : Nat

def padded (length : Nat) (bytes : Bytes) : Bytes :=
  bytes ++ List.replicate (length - bytes.length) 0

section

variable (b : ChallengeBuild)

def ChallengeWorkspace.zero : ChallengeWorkspace :=
  ⟨padded maxDigestBytes [], padded b.inputBytes [], ⟨.ecdsa, none, none, 0⟩, 0, 0⟩

/-- `TC_RSA_encode_v15_work`. -/
def encodeV15Work (hash : Hash.Algorithm) (length : Nat) : Nat :=
  if !b.hashes.available hash || !Rsa.supportedModulusSize b.rsa length then 0 else length

/-- `TC_RSA_encode_pss_work`. -/
def encodePssWork (options : Rsa.PssOptions) (length : Nat) : Nat :=
  if !Rsa.supportedModulusSize b.rsa length then 0
  else
    match Rsa.pssCost b.hashes length (length * 8 - 1) options.hash options.mgfHash
        options.saltLength with
    | .error _ => 0
    | .ok cost => if cost > 2 ^ 32 - 1 then 0 else cost

/-- `TC_RSA_encode_v15_digest` into a buffer of a length, and the work left. -/
def encodeV15Digest (hash : Hash.Algorithm) (digest : Bytes) (length work : Nat) :
    Except Result Bytes × Nat :=
  if !b.hashes.available hash then (.error .unsupported, work)
  else if digest.length ≠ hash.digestLength then (.error .argument, work)
  else if !Rsa.supportedModulusSize b.rsa length then (.error .unsupported, work)
  else if work < length then (.error .limit, work)
  else
    match Rsa.v15Encode length (Rsa.digestInfo hash) digest with
    | some encoded => (.ok encoded, work - length)
    | none => (.error .argument, work - length)

/-- `TC_RSA_encode_pss_digest` into a zeroed buffer of a length, and the work left. -/
def encodePssDigest (options : Rsa.PssOptions) (digest salt : Bytes) (length work : Nat) :
    Except Result Bytes × Nat :=
  if salt.length ≠ options.saltLength then (.error .argument, work)
  else if digest.length ≠ options.hash.digestLength then (.error .argument, work)
  else if !Rsa.supportedModulusSize b.rsa length then (.error .unsupported, work)
  else
    match Rsa.pssCost b.hashes length (length * 8 - 1) options.hash options.mgfHash
        salt.length with
    | .error e => (.error e, work)
    | .ok cost =>
      if work < cost then (.error .limit, work)
      else
        let encoded := Rsa.pssEncode b.hashes options (List.replicate length 0) (length * 8 - 1)
          digest salt work
        if encoded.status ≠ .ok then (.error encoded.status, encoded.work)
        else (.ok encoded.bytes, encoded.work)

def ChallengeOptions.pss (options : ChallengeOptions) (hash : Hash.Algorithm) :
    Option Rsa.PssOptions :=
  options.mgfHash.map fun mgfHash => ⟨hash, mgfHash, options.saltLength⟩

/-- `encoding_work`. -/
def encodingWork (options : ChallengeOptions) (hash : Hash.Algorithm) (length : Nat) : Nat :=
  if options.scheme = .rsaPss then
    if options.saltLength > maxSaltBytes then 0
    else (options.pss hash).elim 0 (encodePssWork b · length)
  else encodeV15Work b hash length

def encodeRsa (p : PrepareCall) (hash : Hash.Algorithm) (digest : Bytes) (work : Nat) :
    Except Result Bytes × Nat :=
  let length := p.key.modulus.length
  if p.options.scheme = .rsaPss then
    let saltLength := p.options.saltLength
    let salt := if saltLength = 0 then some [] else (p.random 1 saltLength).map Subtype.val
    match salt, p.options.pss hash with
    | none, _ => (.error .error, work - saltLength)
    | some _, none => (.error .unsupported, work - saltLength)
    | some salt, some options => encodePssDigest b options digest salt length (work - saltLength)
  else encodeV15Digest b hash digest length work

/-- `challenge_parameters`: the hash and the work to encode, or none for UNSUPPORTED. -/
def challengeParameters (key : X509.PublicKey) (options : ChallengeOptions) :
    Option (Hash.Algorithm × Nat) :=
  match options.hash.filter b.hashes.available with
  | none => none
  | some hash =>
    if options.scheme ≠ .rsaPss && (options.mgfHash ≠ none || options.saltLength ≠ 0) then none
    else if key.type = .rsa && options.scheme ≠ .ecdsa then
      let length := key.modulus.length
      if length ≠ key.bits / 8 || key.bits % 8 ≠ 0 ||
          !Rsa.supportedModulusSize b.rsa (key.bits / 8) || length > b.inputBytes then none
      else if encodingWork b options hash length = 0 then none
      else some (hash, encodingWork b options hash length)
    else if key.type = .ec && options.scheme = .ecdsa then
      if key.curve = .unknown then none else some (hash, 0)
    else none

/-- `random_work`. -/
def randomWork (options : ChallengeOptions) (hash : Hash.Algorithm) : Nat :=
  hash.digestLength + if options.scheme = .rsaPss then options.saltLength else 0

/-- The checks of `TC_key_challenge_prepare`, that of the work last. -/
def prepareCheck (p : PrepareCall) : Except Result Hash.Algorithm :=
  if !p.arguments then .error .argument
  else
    match challengeParameters b p.key p.options with
    | none => .error .unsupported
    | some (hash, encoding) =>
      if p.work.toNat < randomWork p.options hash ||
          p.work.toNat - randomWork p.options hash < encoding then .error .limit
      else .ok hash

def encodeResult : Result → Result
  | .limit => .limit
  | .unsupported => .unsupported
  | .argument => .argument
  | _ => .error

/-- `TC_key_challenge_prepare`. -/
def prepare (p : PrepareCall) (workspace : ChallengeWorkspace) :
    ChallengeAnswer × ChallengeWorkspace :=
  match prepareCheck b p with
  | .error e => (⟨e, none, p.work.toNat⟩, workspace)
  | .ok hash =>
    let work := p.work.toNat - hash.digestLength
    match p.random 0 hash.digestLength with
    | none => (⟨.error, none, work⟩, .zero b)
    | some digest =>
      let active : ChallengeWorkspace :=
        ⟨padded maxDigestBytes digest.val, padded b.inputBytes [], p.options, hash.digestLength,
          challengeActive⟩
      if p.key.type = .rsa then
        match encodeRsa b p hash digest.val work with
        | (.error e, work) => (⟨encodeResult e, none, work⟩, .zero b)
        | (.ok encoded, work) =>
          (⟨.ok, some encoded, work⟩, { active with challenge := padded b.inputBytes encoded })
      else (⟨.ok, some digest.val, work⟩, active)

def ChallengeOptions.algorithm (options : ChallengeOptions) (hash : Hash.Algorithm) :
    Cms.SignatureAlgorithm :=
  ⟨options.scheme, hash, options.mgfHash, options.saltLength⟩

/-- The verdict on a signature with the work that the budget lends, and the work left of it. -/
def challengeVerdict (v : ChallengeVerifyCall) (workspace : ChallengeWorkspace) (lent : Nat) :
    Except Result Unit × Nat :=
  match v.provider, workspace.signature.hash with
  | some verify, some hash =>
    let digest := workspace.digest.take workspace.digestLength
    let outcome := (Cms.signatureVerifyDigest verify digest (workspace.signature.algorithm hash)
      v.signature v.key : Metered Result Unit Unit).exec ⟨lent, ()⟩
    (outcome.1, outcome.2.work)
  | _, _ => (.error .unsupported, lent)

def verdictResult : Except Result Unit → Result
  | .ok _ => .ok
  | .error .invalid => .invalid
  | .error .unsupported => .unsupported
  | .error .limit => .limit
  | .error _ => .error

/-- `TC_key_challenge_verify`. -/
def verify (v : ChallengeVerifyCall) (workspace : ChallengeWorkspace) :
    ChallengeAnswer × ChallengeWorkspace :=
  if workspace.state ≠ challengeActive then (⟨.argument, none, v.work⟩, workspace)
  else if !v.arguments || v.signature = [] then (⟨.argument, none, v.work⟩, .zero b)
  else
    let lent := min v.work b.hashes.sizeMax
    let (verdict, left) := challengeVerdict v workspace lent
    (⟨verdictResult verdict, none, v.work - (lent - left)⟩, .zero b)

inductive ChallengeCall where
  | prepare (p : PrepareCall)
  | verify (v : ChallengeVerifyCall)
  | clear

def challengeStep (workspace : ChallengeWorkspace) :
    ChallengeCall → ChallengeAnswer × ChallengeWorkspace
  | .prepare p => prepare b p workspace
  | .verify v => verify b v workspace
  | .clear => (⟨.ok, none, 0⟩, .zero b)

end

abbrev TemplateItem := UInt8 × Bytes

/-- `contents_size`, or none for a length that the writer or `size_t` does not hold. -/
def contentsSize (sizeMax : Nat) (items : List TemplateItem) : Option Nat :=
  items.foldlM (fun total item =>
    let header := Tlv.headerSize 1 item.2.length
    if header = 0 || item.2.length > sizeMax - header - total then none
    else some (total + header + item.2.length)) 0

/-- `tc_piv_template_size`. -/
def templateSize (sizeMax : Nat) (items : List TemplateItem) : Nat :=
  match contentsSize sizeMax items with
  | none => 0
  | some contents =>
    let header := Tlv.headerSize 1 contents
    if header = 0 || contents > sizeMax - header then 0 else header + contents

/-- `tc_piv_template_write`. -/
def templateWrite (items : List TemplateItem) : Bytes :=
  let contents := items.flatMap fun item => Tlv.headerWrite [item.1] item.2.length ++ item.2
  Tlv.headerWrite [0x7c] contents.length ++ contents

/-- `tc_piv_template_read` of one DO, or none when it fails. -/
def templateRead (sizeT : Nat) (tag : UInt8) (encoded : Bytes) : Option Bytes :=
  let reading : Tlv.Reading := ⟨false, sizeT, .iso7816⟩
  let limits : Tlv.Limits := ⟨encoded.length, encoded.length, 1, 2⟩
  match Tlv.nextProfile reading limits ⟨encoded, 0⟩ with
  | .error _ => none
  | .ok (element, _) =>
    if !element.tagIs 0x7c || element.encoded.length ≠ encoded.length then none
    else
      match Tlv.nextProfile reading limits ⟨element.value, 0⟩ with
      | .error _ => none
      | .ok (child, rest) => if !child.tagIs tag || rest.rest ≠ [] then none else some child.value

/-- `TC_PIV_key_parameters`. -/
structure KeyParameters where
  algorithm : UInt8
  challenge : ChallengeOptions

structure ProofPrimitives (Policy : Type) where
  challenge : ChallengeBuild
  link : LinkPrimitives
  /-- `TC_PIV_key_parameters_select`. -/
  select : X509.Certificate → Policy → Except Failure KeyParameters
  /-- `tc_twic_proof_allowed`. -/
  twicAllowed : Link → UInt8 → Policy → Result
  requestBytes : Nat

/-- `TC_PIV_key_prove`, with what the link fixes for it. The inner calls check their own
    `arguments`. -/
structure ProofCall (Policy : Type) where
  arguments : Bool
  challengeArguments : Bool
  signatureArguments : Bool
  contactless : Bool
  responseNe : Nat
  certificate : X509.Certificate
  keyReference : UInt8
  policy : Policy
  random : RandomSource
  provider : Option Cms.VerifyDigest
  work : UInt32
  workspace : ChallengeWorkspace
  response : Bytes

structure ProofOutcome where
  result : Result
  world : World
  workspace : ChallengeWorkspace
  work : Nat

/-- `challenge_result`. -/
def challengeResult : Result → Result
  | .ok => .ok
  | .invalid => .invalid
  | .limit => .limit
  | .unsupported => .unsupported
  | _ => .error

section

variable {Policy : Type} (b : ProofPrimitives Policy) (card : Apdu.Card)

/-- `key_reference_valid`. -/
def keyReferenceValid (key : UInt8) : Bool := key = 0x9a || key = 0x9c || key = 0x9e

/-- `proof_allowed`. -/
def proofAllowed (link : Link) (r : ProofCall Policy) : Result :=
  let allowed :=
    if link.application = .twic then b.twicAllowed link r.keyReference r.policy
    else if keyReferenceValid r.keyReference then .ok
    else .argument
  if link.application = .none then .refused
  else if allowed ≠ .ok then allowed
  else if link.smLost then .refused
  else if r.contactless && r.keyReference ≠ 0x9e && !link.vci then .refused
  else .ok

/-- The command of `sign_challenge`. -/
def signCommand (responseNe : Nat) (algorithm key : UInt8) (challenge : Bytes) : Apdu.Command :=
  ⟨templateWrite [(0x82, []), (0x81, challenge)], responseNe, 0, insGeneralAuthenticate, algorithm,
    key⟩

/-- `tc_piv_link_fail`. -/
def linkFail (w : World) (status : Nat) (result : Result) : Except Result Bytes × World :=
  (.error result, { w with link := { w.link with status := status } })

/-- `sign_challenge`. -/
def signChallenge (w : World) (channel : Apdu.Channel) (algorithm : UInt8) (r : ProofCall Policy)
    (challenge : Bytes) : Except Result Bytes × World :=
  let size := templateSize b.challenge.hashes.sizeMax [(0x82, []), (0x81, challenge)]
  if size = 0 || size > b.requestBytes then (.error .limit, w)
  else
    match linkTransceive b.link card w channel true
        (signCommand r.responseNe algorithm r.keyReference challenge) r.response with
    | (reply, w) =>
      if reply.result ≠ .ok then (.error reply.result, w)
      else if reply.response.sw ≠ 0x9000 then linkFail w reply.response.sw .cardStatus
      else
        match templateRead (b.challenge.hashes.sizeBits / 8) 0x82 reply.response.data with
        | none => linkFail w 0 .invalid
        | some signature => if signature = [] then linkFail w 0 .invalid else (.ok signature, w)

def ProofCall.prepares (r : ProofCall Policy) (parameters : KeyParameters) : PrepareCall :=
  ⟨r.challengeArguments, r.certificate.publicKey, parameters.challenge, r.random, r.work⟩

def ProofCall.verifies (r : ProofCall Policy) (signature : Bytes) (work : Nat) :
    ChallengeVerifyCall :=
  ⟨r.signatureArguments, r.certificate.publicKey, signature, r.provider, work⟩

/-- `TC_PIV_key_prove` after the selection of its parameters. -/
def proveSelected (w : World) (channel : Apdu.Channel) (r : ProofCall Policy)
    (parameters : KeyParameters) : Result × World × Nat :=
  let (prepared, workspace) := prepare b.challenge (r.prepares parameters) r.workspace
  if challengeResult prepared.result ≠ .ok then (challengeResult prepared.result, w, prepared.work)
  else
    match signChallenge b card w channel parameters.algorithm r (prepared.out.getD []) with
    | (.error e, w) => (e, w, prepared.work)
    | (.ok signature, w) =>
      let verified := (verify b.challenge (r.verifies signature prepared.work) workspace).1
      (challengeResult verified.result, w, verified.work)

/-- `TC_PIV_key_prove`. -/
def keyProve (w : World) (r : ProofCall Policy) : ProofOutcome := match w.link.channel with
  | none => ⟨.argument, w, r.workspace, r.work.toNat⟩
  | some channel =>
    if !r.arguments then ⟨.argument, w, r.workspace, r.work.toNat⟩
    else if proofAllowed b w.link r ≠ .ok then
      ⟨proofAllowed b w.link r, w, r.workspace, r.work.toNat⟩
    else if r.provider.isNone then ⟨.unsupported, w, r.workspace, r.work.toNat⟩
    else
      match b.select r.certificate r.policy with
      | .error e => ⟨e.1, w, .zero b.challenge, r.work.toNat⟩
      | .ok parameters =>
        let (result, w, work) := proveSelected b card w channel r parameters
        ⟨result, w, .zero b.challenge, work⟩

end

section

variable {b : ChallengeBuild} {p : PrepareCall} {v : ChallengeVerifyCall}
  {workspace workspace' : ChallengeWorkspace} {hash : Hash.Algorithm} {digest : Bytes}
  {answer : ChallengeAnswer}

/-- What a key signs for a digest: its encoded message under RFC 8017, or the digest. -/
def EncodedFor (b : ChallengeBuild) (p : PrepareCall) (hash : Hash.Algorithm)
    (digest challenge : Bytes) : Prop :=
  let length := p.key.modulus.length
  match p.options.scheme with
  | .ecdsa => challenge = digest
  | .rsaV15 => challenge = Rsa.Rfc8017.emsaPkcs1 length hash digest
  | .rsaPss => ∃ options salt, p.options.pss hash = some options ∧
      salt.length = options.saltLength ∧
      challenge = b.hashes.pss options length (length * 8 - 1) digest salt

variable {work left : Nat} {encoded : Bytes}

theorem challengeParameters_some {key : X509.PublicKey} {options : ChallengeOptions}
    (given : challengeParameters b key options = some (hash, work)) :
    options.hash = some hash ∧ (key.type = .rsa ↔ options.scheme ≠ .ecdsa) := by
  rw [challengeParameters] at given
  cases known : options.hash.filter b.hashes.available with
  | none => simp [known] at given
  | some found =>
    simp only [known] at given
    have named := (Option.filter_eq_some_iff.mp known).1
    by_cases rsa : key.type = .rsa <;> by_cases ecdsa : options.scheme = .ecdsa <;>
      simp [rsa, ecdsa] at given ⊢ <;> grind

theorem prepareCheck_ok (given : prepareCheck b p = .ok hash) :
    p.options.hash = some hash ∧ (p.key.type = .rsa ↔ p.options.scheme ≠ .ecdsa) := by
  rw [prepareCheck] at given
  split at given
  · cases given
  split at given
  · cases given
  · rename_i parameters
    split at given
    · cases given
    · cases given
      exact challengeParameters_some parameters

theorem prepareCheck_error {e : Result} (given : prepareCheck b p = .error e) : e ≠ .ok := by
  rw [prepareCheck] at given
  split at given
  · cases given
    decide
  split at given
  · cases given
    decide
  split at given
  · cases given
    decide
  · cases given

theorem encodeV15Digest_ok {length : Nat}
    (given : encodeV15Digest b hash digest length work = (.ok encoded, left)) :
    encoded = Rsa.Rfc8017.emsaPkcs1 length hash digest := by
  simp only [encodeV15Digest, Rsa.v15Encode] at given
  split at given <;> try cases given
  split at given <;> try cases given
  split at given <;> try cases given
  split at given <;> try cases given
  split at given
  · rename_i found
    cases given
    split at found
    · cases found
    · rename_i fits
      cases found
      rw [Bool.not_eq_true, Bool.not_eq_false'] at fits
      rw [Rsa.v15Byte_eq (Rsa.v15Size_iff.mp fits).2.2]
      rfl
  · cases given

theorem encodePssDigest_ok {options : Rsa.PssOptions} {salt : Bytes} {length : Nat}
    (bounded : work < 2 ^ 32)
    (given : encodePssDigest b options digest salt length work = (.ok encoded, left)) :
    salt.length = options.saltLength ∧
      encoded = b.hashes.pss options length (length * 8 - 1) digest salt := by
  simp only [encodePssDigest] at given
  split at given
  · cases given
  rename_i salted
  split at given
  · cases given
  rename_i digested
  rw [not_not] at salted digested
  split at given
  · cases given
  split at given
  · cases given
  rename_i cost paid
  split at given
  · cases given
  rename_i funded
  rw [salted] at paid
  obtain ⟨paid⟩ := Rsa.pssCost_ok paid
  rw [paid.encodes (Nat.not_lt.mp funded) bounded (List.length_replicate ..) digested salted]
    at given
  cases given
  exact ⟨salted, rfl⟩

theorem encodeRsa_ok (bounded : work < 2 ^ 32) (scheme : p.options.scheme ≠ .ecdsa)
    (given : encodeRsa b p hash digest work = (.ok encoded, left)) :
    EncodedFor b p hash digest encoded := by
  simp only [encodeRsa] at given
  cases kind : p.options.scheme with
  | ecdsa => exact absurd kind scheme
  | rsaV15 =>
    simp only [kind, reduceCtorEq, if_false] at given
    simp only [EncodedFor, kind]
    exact encodeV15Digest_ok given
  | rsaPss =>
    simp only [kind, if_true] at given
    split at given
    · cases given
    · cases given
    · rename_i salt options drawn named
      obtain ⟨salted, encoded⟩ := encodePssDigest_ok (by omega) given
      simp only [EncodedFor, kind]
      exact ⟨options, salt, named, salted, encoded⟩

/-- The workspace holds the digest that a preparation drew, and the algorithm of its options. -/
def Drawn (p : PrepareCall) (workspace : ChallengeWorkspace) : Prop :=
  ∃ hash digest, p.options.hash = some hash ∧ p.random 0 hash.digestLength = some digest ∧
    workspace.signature = p.options ∧ workspace.digest.take workspace.digestLength = digest.val

theorem encodeResult_failed (e : Result) : encodeResult e ≠ .ok := by
  cases e <;> decide

/-- A preparation that fails its checks changes nothing. Later it records its challenge, or
    leaves zero bytes. -/
theorem prepare_cases (b : ChallengeBuild) (p : PrepareCall) (workspace : ChallengeWorkspace) :
    (∃ e, prepareCheck b p = .error e ∧ (prepare b p workspace).1.result ≠ .ok ∧
      (prepare b p workspace).2 = workspace) ∨
    (∃ hash, prepareCheck b p = .ok hash ∧ (prepare b p workspace).1.result ≠ .ok ∧
      (prepare b p workspace).2 = .zero b) ∨ ∃ hash digest challenge, prepareCheck b p = .ok hash ∧
      p.random 0 hash.digestLength = some digest ∧ EncodedFor b p hash digest.val challenge ∧
      (prepare b p workspace).1.result = .ok ∧ (prepare b p workspace).1.out = some challenge ∧
      (prepare b p workspace).2.state = challengeActive ∧ Drawn p (prepare b p workspace).2 := by
  rw [prepare]
  cases checked : prepareCheck b p with
  | error e => exact .inl ⟨e, rfl, prepareCheck_error checked, rfl⟩
  | ok hash =>
    obtain ⟨named, kind⟩ := prepareCheck_ok checked
    cases drawn : p.random 0 hash.digestLength with
    | none => exact .inr (.inl ⟨hash, rfl, by simp [drawn], by simp [drawn]⟩)
    | some digest =>
      have kept : (padded maxDigestBytes digest.val).take hash.digestLength = digest.val := by
        rw [padded, List.take_left' digest.property]
      have bounded := p.work.toNat_lt
      simp only [drawn]
      by_cases rsa : p.key.type = .rsa
      · rw [if_pos rsa]
        rcases encoded : encodeRsa b p hash digest.val (p.work.toNat - hash.digestLength) with
          ⟨e | challenge, left⟩
        · exact .inr (.inl ⟨hash, rfl, encodeResult_failed e, rfl⟩)
        · refine .inr (.inr ⟨hash, digest, challenge, rfl, drawn, ?_, rfl, rfl, rfl, ?_⟩)
          · exact encodeRsa_ok (by omega) (kind.mp rsa) encoded
          · exact ⟨hash, digest, named, drawn, rfl, kept⟩
      · rw [if_neg rsa]
        refine .inr (.inr ⟨hash, digest, digest.val, rfl, drawn, ?_, rfl, rfl, rfl, ?_⟩)
        · rw [EncodedFor, not_not.mp fun other => rsa (kind.mpr other)]
        · exact ⟨hash, digest, named, drawn, rfl, kept⟩

/-- The provider of a verification accepts its signature for the digest that a preparation drew
    and the algorithm of its options. -/
def Accepts (p : PrepareCall) (v : ChallengeVerifyCall) : Prop :=
  ∃ hash digest verify work left, p.options.hash = some hash ∧
    p.random 0 hash.digestLength = some digest ∧ v.provider = some verify ∧
    verify digest.val (p.options.algorithm hash) v.signature v.key work = (.ok, left)

theorem signatureVerifyDigest_ok {verify : Cms.VerifyDigest} {algorithm : Cms.SignatureAlgorithm}
    {signature : Bytes} {key : X509.PublicKey} {s s' : Budgeted Unit}
    (given : Gives (Cms.signatureVerifyDigest verify digest algorithm signature key) s () s') :
    ∃ work left, verify digest algorithm signature key work = (.ok, left) := by
  obtain ⟨-, work, left, accepted, -⟩ :=
    (@Cms.signatureVerifyDigest_triple Unit (fun _ => True) verify digest signature algorithm key).gives
      trivial given
  exact ⟨work, left, accepted⟩

theorem verify_ok (given : (verify b v workspace).1.result = .ok) :
    workspace.state = challengeActive ∧ ∀ p, Drawn p workspace → Accepts p v := by
  rw [verify] at given
  split at given
  · cases given
  rename_i active
  refine ⟨not_not.mp active, fun p ⟨hash, digest, named, drawn, signature, kept⟩ => ?_⟩
  split at given
  · cases given
  simp only [challengeVerdict, signature, named, kept] at given
  cases provided : v.provider with
  | none => simp [provided, verdictResult] at given
  | some verify =>
    simp only [provided] at given
    rcases outcome : (Cms.signatureVerifyDigest verify digest.val (p.options.algorithm hash)
        v.signature v.key : Metered Result Unit Unit).exec ⟨min v.work b.hashes.sizeMax, ()⟩ with
      ⟨e | ⟨⟩, s'⟩
    · rw [outcome] at given
      cases e <;> simp [verdictResult] at given
    · obtain ⟨work, left, accepted⟩ := signatureVerifyDigest_ok outcome
      exact ⟨hash, digest, verify, work, left, named, drawn, provided, accepted⟩

theorem verify_wipes (active : workspace.state = challengeActive) :
    (verify b v workspace).2 = .zero b := by
  rw [verify, if_neg (not_not.mpr active)]
  split <;> rfl

end

section

variable {b : ChallengeBuild} {start workspace : ChallengeWorkspace}
  {history newer older : List (ChallengeCall × ChallengeAnswer)}

def Prepared (p : PrepareCall) (entry : ChallengeCall × ChallengeAnswer) : Prop :=
  entry.1 = .prepare p ∧ entry.2.result = .ok

def Unprepared (entry : ChallengeCall × ChallengeAnswer) : Prop :=
  (∃ p, entry.1 = .prepare p) ∧ entry.2.result ≠ .ok

/-- The newest calls are failed preparations, and the one before them prepared a challenge. -/
def Latest (p : PrepareCall) (history : List (ChallengeCall × ChallengeAnswer)) : Prop :=
  ∃ between entry rest, history = between ++ entry :: rest ∧ Prepared p entry ∧
    ∀ e ∈ between, Unprepared e

theorem zero_inactive : (ChallengeWorkspace.zero b).state ≠ challengeActive := nofun

theorem active_latest (inactive : start.state ≠ challengeActive)
    (reached : Reaches (challengeStep b) start history workspace)
    (active : workspace.state = challengeActive) : ∃ p, Latest p history ∧ Drawn p workspace := by
  induction reached with
  | start => exact absurd active inactive
  | @call history workspace reached c ih =>
    cases c with
    | clear => exact absurd active zero_inactive
    | verify v =>
      by_cases before : workspace.state = challengeActive
      · exact absurd ((congrArg ChallengeWorkspace.state (verify_wipes before)).symm.trans active)
          zero_inactive
      · rw [challengeStep, verify, if_pos before] at active
        exact absurd active before
    | prepare p =>
      rcases prepare_cases b p workspace with ⟨e, -, failed, kept⟩ | ⟨hash, -, -, wiped⟩ |
        ⟨hash, digest, challenge, -, -, -, ok, -, -, recorded⟩
      · have same : (challengeStep b workspace (.prepare p)).2 = workspace := kept
        rw [same] at active ⊢
        obtain ⟨latest, ⟨between, entry, rest, rfl, prepared, failures⟩, recorded⟩ := ih active
        refine ⟨latest, ⟨_ :: between, entry, rest, rfl, prepared, fun e member => ?_⟩, recorded⟩
        rcases List.mem_cons.mp member with rfl | member
        · exact ⟨⟨p, rfl⟩, failed⟩
        · exact failures e member
      · exact absurd ((congrArg ChallengeWorkspace.state wiped).symm.trans active) zero_inactive
      · exact ⟨p, ⟨[], _, history, rfl, ⟨rfl, ok⟩, by simp⟩, recorded⟩

theorem verified_latest {v : ChallengeVerifyCall} {answer : ChallengeAnswer}
    (inactive : start.state ≠ challengeActive)
    (reached : Reaches (challengeStep b) start (newer ++ (.verify v, answer) :: older) workspace)
    (ok : answer.result = .ok) : ∃ p, Latest p older ∧ Accepts p v := by
  obtain ⟨after, reached, -⟩ := reached.split
  obtain ⟨before, reached, answered⟩ := reaches_cons.mp reached
  have given : (verify b v before).1.result = .ok :=
    (congrArg (ChallengeAnswer.result ∘ Prod.fst) answered).trans ok
  obtain ⟨active, accepts⟩ := verify_ok given
  obtain ⟨p, latest, recorded⟩ := active_latest inactive reached active
  exact ⟨p, latest, accepts p recorded⟩

theorem Latest.after {p : PrepareCall} {v : ChallengeVerifyCall} {answer : ChallengeAnswer}
    (latest : Latest p (newer ++ (.verify v, answer) :: older)) :
    ∃ entry ∈ newer, Prepared p entry := by
  obtain ⟨between, entry, rest, same, prepared, failures⟩ := latest
  rcases List.append_eq_append_iff.mp same with ⟨gap, rfl, shape⟩ | ⟨gap, rfl, shape⟩
  · cases gap with
    | nil =>
      cases shape
      exact absurd prepared.1 (by simp)
    | cons e gap =>
      cases shape
      obtain ⟨⟨p', call⟩, -⟩ := failures (.verify v, answer) (by simp)
      cases call
  · cases gap with
    | nil =>
      cases shape
      exact absurd prepared.1 (by simp)
    | cons e gap =>
      cases shape
      exact ⟨entry, by simp, prepared⟩

end

section

variable {Policy : Type} {b : ProofPrimitives Policy} {card : Apdu.Card} {w : World}
  {r : ProofCall Policy}

/-- A key proof drew a digest, sent what the certificate's key signs for it and got a signature
    that the provider accepts. -/
def Proven (b : ProofPrimitives Policy) (card : Apdu.Card) (w : World) (r : ProofCall Policy) :
    Prop :=
  ∃ channel parameters hash digest challenge reply after signature verify work left,
    w.link.channel = some channel ∧ b.select r.certificate r.policy = .ok parameters ∧
    parameters.challenge.hash = some hash ∧ r.random 0 hash.digestLength = some digest ∧
    EncodedFor b.challenge (r.prepares parameters) hash digest.val challenge ∧
    linkTransceive b.link card w channel true
      (signCommand r.responseNe parameters.algorithm r.keyReference challenge) r.response =
        (reply, after) ∧
    reply.result = .ok ∧ reply.response.sw = 0x9000 ∧
    templateRead (b.challenge.hashes.sizeBits / 8) 0x82 reply.response.data = some signature ∧
    r.provider = some verify ∧
    verify digest.val (parameters.challenge.algorithm hash) signature r.certificate.publicKey work =
      (.ok, left)

theorem signChallenge_cases (b : ProofPrimitives Policy) (card : Apdu.Card) (w : World)
    (channel : Apdu.Channel) (algorithm : UInt8) (r : ProofCall Policy) (challenge : Bytes) :
    (∃ e after,
      signChallenge b card w channel algorithm r challenge = (.error e, after) ∧ e ≠ .ok) ∨
    ∃ reply signature after,
      signChallenge b card w channel algorithm r challenge = (.ok signature, after) ∧
      linkTransceive b.link card w channel true
        (signCommand r.responseNe algorithm r.keyReference challenge) r.response = (reply, after) ∧
      reply.result = .ok ∧ reply.response.sw = 0x9000 ∧
      templateRead (b.challenge.hashes.sizeBits / 8) 0x82 reply.response.data = some signature := by
  simp only [signChallenge]
  split
  · exact .inl ⟨_, _, rfl, by decide⟩
  rcases linkTransceive b.link card w channel true
    (signCommand r.responseNe algorithm r.keyReference challenge) r.response with ⟨reply, after⟩
  simp only
  split
  · rename_i failed
    exact .inl ⟨_, _, rfl, failed⟩
  rename_i ok
  split
  · exact .inl ⟨_, _, rfl, by decide⟩
  rename_i success
  split
  · exact .inl ⟨_, _, rfl, by decide⟩
  rename_i found
  split
  · exact .inl ⟨_, _, rfl, by decide⟩
  · exact .inr ⟨reply, _, after, rfl, rfl, not_not.mp ok, not_not.mp success, found⟩

theorem challengeResult_ok {result : Result} : challengeResult result = .ok ↔ result = .ok := by
  cases result <;> decide

theorem keyProve_ok (ok : (keyProve b card w r).result = .ok) : Proven b card w r := by
  rw [keyProve] at ok
  split at ok
  · cases ok
  rename_i channel ready
  split at ok
  · cases ok
  split at ok
  · rename_i refused
    exact absurd ok refused
  split at ok
  · cases ok
  split at ok
  · rename_i failure failed
    exact absurd ok failure.2
  rename_i parameters selected
  simp only [proveSelected] at ok
  rcases prepare_cases b.challenge (r.prepares parameters) r.workspace with
    ⟨_, -, failed, -⟩ | ⟨_, -, failed, -⟩ |
    ⟨hash, digest, challenge, checked, drawn, encoded, prepared, out, -, recorded⟩
  · rw [if_pos (mt challengeResult_ok.mp failed)] at ok
    exact absurd (challengeResult_ok.mp ok) failed
  · rw [if_pos (mt challengeResult_ok.mp failed)] at ok
    exact absurd (challengeResult_ok.mp ok) failed
  · rw [if_neg (not_not.mpr (challengeResult_ok.mpr prepared)), out] at ok
    rcases signChallenge_cases b card w channel parameters.algorithm r challenge with
      ⟨e, after, failed, other⟩ | ⟨reply, signature, after, signed, sent, answered, success, found⟩
    · simp only [Option.getD_some, failed] at ok
      exact absurd ok other
    · simp only [Option.getD_some, signed] at ok
      obtain ⟨-, accepts⟩ := verify_ok (challengeResult_ok.mp ok)
      obtain ⟨hash', digest', verify, work, left, named, drawn', provided, accepted⟩ :=
        accepts _ recorded
      cases (prepareCheck_ok checked).1.symm.trans named
      cases drawn.symm.trans drawn'
      exact ⟨channel, parameters, hash, digest, challenge, reply, after, signature, verify, work,
        left, ready, selected, named, drawn, encoded, sent, answered, success, found, provided, accepted⟩

end

end TinyCrypto.Piv
