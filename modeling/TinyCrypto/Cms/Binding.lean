import TinyCrypto.Cms.Segments

/-! # What a valid signature binds

A signer search verifies one signer with the keys of its candidates. Whatever it
has put into its cache, a candidate found VALID means that the provider accepted
the signature octets for a digest that covers the content.
-/

namespace TinyCrypto.Cms

open Tlv Pki
open Library Library.Program Library.Metered

structure Search where
  signer : SignerInfo
  contentType : Bytes
  policy : VerificationPolicy
  kind : VerifyInput
  input : Bytes

structure Candidate where
  key : X509.PublicKey
  provider : Option VerifyDigest
  work : Nat

def Search.request (search : Search) (c : Candidate) : VerifyRequest :=
  ⟨search.signer, search.contentType, search.policy, c.key, c.provider⟩

def verdict {A : Type} : Except Result A → Result
  | .ok _ => .ok
  | .error e => e

/-- One call of `tc_cms_signer_verify` in a search. -/
def searchCall (b : Build) (search : Search) (cache : Cache) (c : Candidate) : Result × Cache :=
  let outcome := (signerVerify b (search.request c) search.kind search.input).exec ⟨c.work, ⟨[], cache⟩⟩
  (verdict outcome.1, outcome.2.data.cache)

section

variable (b : Build) (search : Search)

def ContentHash (algorithm : Hash.Algorithm) (digest : Bytes) : Prop :=
  hashAlgorithmProfile b (envelopeProfile search.policy) search.signer.digestAlgorithm = .ok algorithm ∧
    match search.kind with
    | .digest => digest = search.input ∧ digest.length = algorithm.digestLength
    | .raw => ∃ info, b.hashes algorithm = some info ∧ digest = info.digest search.input
    | .ber => ∃ info octets, b.hashes algorithm = some info ∧
        OctetString b.tree .ber 4 search.input octets ∧ digest = info.digest octets

/-- Signed attributes are present and name the content type and the content digest, and
    `digest` is the hash of their encoding as a SET. -/
def AttributesCover (hash : Hash.Algorithm) (digest : Bytes) : Prop :=
  search.signer.signedAttributes ≠ [] ∧
    (∃ algorithm content, ContentHash b search algorithm content ∧
      AttributesHold (reading b.tree (attributeProfile search.policy)) b.tree.limits
        search.signer.signedAttributes search.contentType content) ∧
    ∃ info, b.hashes hash = some info ∧
      digest = info.digest (0x31 :: search.signer.signedAttributes.drop 1)

/-- There are no signed attributes, the content is data, and `digest` is its hash. -/
def ContentCovers (hash : Hash.Algorithm) (digest : Bytes) : Prop :=
  search.signer.signedAttributes = [] ∧ search.contentType = dataOid ∧ ContentHash b search hash digest

/-- The provider accepted the signature octets for a digest that covers the content. -/
def Accepted (c : Candidate) : Prop :=
  ∃ verify digest algorithm octets work left, c.provider = some verify ∧
    OctetString b.tree (envelopeProfile search.policy) 4 search.signer.signature octets ∧
    verify digest algorithm octets c.key work = (.ok, left) ∧ left ≤ work ∧
    (AttributesCover b search algorithm.hash digest ∨ ContentCovers b search algorithm.hash digest)

def CacheSound (cache : Cache) : Prop :=
  ∀ entry, cache.entry = some entry → AttributesCover b search entry.hash entry.digest

end

variable {b : Build} {search : Search}

variable {s' : Budgeted Unit}

theorem octetsContiguous_gives {profile : Profile} {scratch work : Nat} {encoded octets : Bytes}
    (plain : profile.iso = false)
    (given : Gives (octetsContiguous b.tree profile 4 scratch encoded) ⟨work, ()⟩ octets s') :
    OctetString b.tree profile 4 encoded octets := by
  have run := given
  obtain ⟨span, _, given, -⟩ := gives_bind.mp given
  rw [octetsSpan, if_neg (by decide)] at given
  obtain ⟨⟨done, state⟩, middle, pass, -⟩ := gives_bind.mp given
  obtain ⟨_, visited, -⟩ := gives_locally.mp pass
  obtain ⟨joined, shape⟩ := octetsImplicit_gives plain visited
  obtain rfl := Ends.gives (octetsContiguous_ends () (by decide) shape) run
  exact shape

variable {info : Hash.Info} {work : Nat}

theorem octetsHash_gives {encoded digest : Bytes}
    (given : Gives (octetsHash b info encoded) ⟨work, ()⟩ digest s') :
    ∃ octets, OctetString b.tree .ber 4 encoded octets ∧ digest = info.digest octets := by
  have run := given
  simp only [octetsHash, gives_bind] at given
  obtain ⟨⟨done, view⟩, middle, pass, -⟩ := given
  obtain ⟨_, visited, -⟩ := gives_locally.mp pass
  obtain ⟨octets, shape⟩ := octetsImplicit_gives rfl visited
  refine ⟨octets, shape, ?_⟩
  have ends := @octetsHash_ends b info Unit encoded octets shape ()
  rw [hashOutcome] at ends
  split at ends
  · exact Ends.gives ends run
  · obtain short | failed := ends work
    · rw [run] at short
      cases short
    · rw [run] at failed
      cases failed

theorem envelopeProfile_plain (policy : VerificationPolicy) : (envelopeProfile policy).iso = false := by
  unfold envelopeProfile
  split <;> rfl

variable {digest : Bytes}

theorem ContentHash.size {algorithm : Hash.Algorithm}
    (content : ContentHash b search algorithm digest) : digest.length = algorithm.digestLength := by
  obtain ⟨-, hashed⟩ := content
  cases kind : search.kind with
  | digest =>
    rw [kind] at hashed
    exact hashed.2
  | raw =>
    rw [kind] at hashed
    obtain ⟨info, available, rfl⟩ := hashed
    rw [info.digest_length, b.digestBytes algorithm info available]
  | ber =>
    rw [kind] at hashed
    obtain ⟨info, octets, available, -, rfl⟩ := hashed
    rw [info.digest_length, b.digestBytes algorithm info available]

theorem pkiHashPart_gives {part digest : Bytes}
    (given : Gives (pkiHashPart b info part) ⟨work, ()⟩ digest s') : digest = info.digest part := by
  simp only [pkiHashPart, gives_bind, gives_charge] at given
  obtain ⟨_, _, ⟨_, rfl⟩, given⟩ := given
  split at given
  · simp at given
  simp only [gives_bind, gives_charge] at given
  obtain ⟨_, _, ⟨_, rfl⟩, given⟩ := given
  split at given
  · rename_i value hashed
    obtain ⟨rfl, -⟩ := gives_pure.mp given
    have same := Hash.digestParts_some hashed
    rwa [List.flatten_cons, List.flatten_nil, List.append_nil] at same
  · simp at given

theorem hashContent_gives {algorithm : Hash.Algorithm}
    (known : hashAlgorithmProfile b (envelopeProfile search.policy) search.signer.digestAlgorithm = .ok algorithm)
    (content : search.kind ≠ .digest)
    (given : Gives (hashContent b search.kind algorithm search.input) ⟨work, ()⟩ digest s') :
    ContentHash b search algorithm digest := by
  unfold hashContent at given
  split at given
  · simp at given
  rename_i info available
  refine ⟨known, ?_⟩
  cases kind : search.kind with
  | digest => exact absurd kind content
  | ber =>
    simp only [kind, if_true] at given
    obtain ⟨octets, shape, same⟩ := octetsHash_gives given
    exact ⟨info, octets, available, shape, same⟩
  | raw =>
    simp only [kind, reduceCtorEq, if_false] at given
    exact ⟨info, available, pkiHashPart_gives given⟩

theorem contentDigest_triple {algorithm : Hash.Algorithm}
    (known : hashAlgorithmProfile b (envelopeProfile search.policy) search.signer.digestAlgorithm =
      .ok algorithm) : Triple (Data fun state => CacheSound b search state.cache)
      (contentDigest b search.kind algorithm search.input)
      (fun span => Data fun state => CacheSound b search state.cache ∧
        ContentHash b search algorithm (span.bytes state))
      (fun _ => Data fun state => CacheSound b search state.cache) := by
  unfold contentDigest
  by_cases digest : search.kind = .digest
  · rw [if_pos digest]
    refine triple_ite (fun _ => triple_throw fun _ sound => sound) fun fits => ?_
    refine triple_pure fun s sound => ⟨sound, known, ?_⟩
    rw [digest]
    exact ⟨rfl, not_not.mp fits⟩
  · rw [if_neg digest]
    refine triple_bind (Q := fun hashed => Data fun state => CacheSound b search state.cache ∧
      ContentHash b search algorithm hashed) ?_ fun hashed => ?_
    · exact triple_borrow (fun _ _ hashed given _ sound => ⟨sound, hashContent_gives known digest given⟩)
        fun _ _ sound => sound
    · refine triple_bind (Q := fun _ => Data fun state => CacheSound b search state.cache ∧
        ContentHash b search algorithm hashed ∧ state.scratch = hashed) ?_ fun _ => ?_
      · exact triple_update fun _ before => ⟨before.1, before.2, rfl⟩
      · refine triple_pure fun s before => ⟨before.1, ?_⟩
        have whole : (DigestSpan.scratch algorithm.digestLength).bytes s.data = hashed := by
          rw [DigestSpan.bytes, before.2.2, ← before.2.1.size, List.take_length]
        rw [whole]
        exact before.2.1

def Holding (b : Build) (search : Search) (algorithm : Hash.Algorithm) (digest : DigestSpan)
    (state : SignerState) : Prop :=
  CacheSound b search state.cache ∧ ContentHash b search algorithm (digest.bytes state)

variable {hash : Hash.Algorithm}

theorem cached_covers {state : SignerState} {entry : CacheEntry}
    (sound : CacheSound b search state.cache)
    (found : state.cache.entry.filter (·.hash = hash) = some entry) :
    AttributesCover b search hash (DigestSpan.cached.bytes state) := by
  obtain ⟨present, same⟩ := Option.filter_eq_some_iff.mp found
  have covers := sound entry present
  rw [of_decide_eq_true same] at covers
  rwa [DigestSpan.bytes, present]

variable {attributes : SignedAttributes} {P : SignerState → Prop}

theorem contentDigestCompare_triple {type digest : Bytes} :
    Triple (Data P) (contentDigestCompare attributes type digest)
      (fun matched => Data fun state => P state ∧ matched =
        (attributes.contentType = some type && attributes.messageDigest = some digest))
      (fun _ => Data P) := by
  refine triple_bind (triple_charge fun _ before => before) fun _ => ?_
  refine triple_bind (triple_charge fun _ before => before) fun _ => ?_
  exact triple_pure fun s before => ⟨before, rfl⟩

/-- The attributes that were read name the content, once they match. -/
structure AttributesMatch (b : Build) (search : Search) (attributes : SignedAttributes) : Prop where
  input : attributes.signatureInput = [[0x31], search.signer.signedAttributes.drop 1]
  content : ∃ algorithm content, ContentHash b search algorithm content ∧
    AttributesHold (reading b.tree (attributeProfile search.policy)) b.tree.limits
      search.signer.signedAttributes search.contentType content

theorem AttributesMatch.covers (matches_ : AttributesMatch b search attributes)
    (present : search.signer.signedAttributes ≠ []) (available : b.hashes hash = some info)
    (hashed : info.digestParts attributes.signatureInput = some digest) :
    AttributesCover b search hash digest := by
  refine ⟨present, matches_.content, info, available, ?_⟩
  rw [Hash.digestParts_some hashed, matches_.input]
  simp

theorem AttributesCover.size (covers : AttributesCover b search hash digest) :
    digest.length = hash.digestLength := by
  obtain ⟨-, -, info, available, rfl⟩ := covers
  rw [info.digest_length, b.digestBytes hash info available]

theorem attributesStore_triple (covers : AttributesCover b search hash digest) :
    Triple (Data fun state => CacheSound b search state.cache)
      (do
        update fun state : SignerState => { state with scratch := digest }
        update fun state =>
          if state.cache.capacity.elim false (hash.digestLength ≤ ·) then
            { state with cache := { state.cache with
                entry := some ⟨digest, hash, attributes.signerName⟩ } }
          else state
        return (DigestSpan.scratch hash.digestLength, attributes.signerName) : SignerProgram _)
      (fun signed => Data fun state => CacheSound b search state.cache ∧
        AttributesCover b search hash (signed.1.bytes state))
      (fun _ => Data fun state => CacheSound b search state.cache) := by
  refine triple_bind (Q := fun _ => Data fun state => CacheSound b search state.cache ∧
    state.scratch = digest) (triple_update fun _ sound => ⟨sound, rfl⟩) fun _ => ?_
  refine triple_bind (Q := fun _ => Data fun state => CacheSound b search state.cache ∧
    state.scratch = digest) ?_ fun _ => ?_
  · refine triple_update fun state before => ?_
    split
    · refine ⟨?_, before.2⟩
      intro entry stored
      cases stored
      exact covers
    · exact before
  · refine triple_pure fun s before => ⟨before.1, ?_⟩
    have whole : (DigestSpan.scratch hash.digestLength).bytes s.data = digest := by
      rw [DigestSpan.bytes, before.2, ← covers.size, List.take_length]
    rwa [whole]

variable {algorithm : ResolvedAlgorithm} {c : Candidate}

theorem attributesDigest_triple {contentHash : Hash.Algorithm} {digest : DigestSpan}
    (present : search.signer.signedAttributes ≠ []) :
    Triple (Data (Holding b search contentHash digest))
      (attributesDigest b (search.request c) digest algorithm)
      (fun signed => Data fun state => CacheSound b search state.cache ∧
        AttributesCover b search algorithm.signature.hash (signed.1.bytes state))
      (fun _ => Data fun state => CacheSound b search state.cache) := by
  refine triple_bind (Q := fun start => Data fun state =>
    Holding b search contentHash digest state ∧ state = start)
    (triple_data fun _ before => ⟨before, rfl⟩) fun start => ?_
  split
  · rename_i entry found
    refine triple_pure fun s before => ⟨before.1.1, ?_⟩
    obtain ⟨⟨sound, -⟩, rfl⟩ := before
    exact cached_covers sound found
  refine triple_bind (Q := fun attributes => Data fun state =>
    Holding b search contentHash digest state ∧ ∃ type value,
      attributes.contentType = some type ∧ attributes.messageDigest = some value ∧
      attributes.signatureInput = [[0x31], search.signer.signedAttributes.drop 1] ∧
      AttributesHold (reading b.tree (attributeProfile search.policy)) b.tree.limits
        search.signer.signedAttributes type value) ?_ fun attributes => ?_
  · exact triple_borrow
      (fun _ _ attributes given _ before => ⟨before.1, signedAttributesRead_gives given⟩)
      fun _ _ before => before.1.1
  refine triple_fact (fun _ before => before.2) fun read => ?_
  obtain ⟨type, value, foundType, foundDigest, input, holds⟩ := read
  refine triple_bind (Q := fun now => Data fun state =>
    Holding b search contentHash digest state ∧ state = now)
    (triple_data fun _ before => ⟨before.1, rfl⟩) fun now => ?_
  refine triple_bind (contentDigestCompare_triple.mono (fun _ before => before) (fun _ _ after => after)
    fun _ _ before => before.1.1) fun matched => ?_
  refine triple_ite (fun _ => triple_throw fun _ before => before.1.1.1) fun accepted => ?_
  refine triple_fact (c := AttributesMatch b search attributes) ?_ fun matches_ => ?_
  · rintro s ⟨⟨⟨-, content⟩, rfl⟩, equal⟩
    rw [equal, foundType, foundDigest] at accepted
    simp only [Option.some.injEq, Bool.not_eq_true', Bool.not_eq_false, Bool.and_eq_true,
      decide_eq_true_eq] at accepted
    obtain ⟨rfl, rfl⟩ := accepted
    exact ⟨input, contentHash, _, content, holds⟩
  have sound : ∀ s, Data (fun state => (Holding b search contentHash digest state ∧ state = now) ∧
      matched = (attributes.contentType = some (search.request c).contentType &&
        attributes.messageDigest = some (digest.bytes now))) s →
      Data (fun state => CacheSound b search state.cache) s := fun _ before => before.1.1.1
  refine Triple.mono ?_ sound (fun _ _ after => after) fun _ _ after => after
  split
  · exact triple_throw fun _ before => before
  rename_i info available
  refine triple_bind (triple_charge fun _ before => before) fun _ => ?_
  refine triple_bind (triple_charge fun _ before => before) fun _ => ?_
  split
  · exact triple_throw fun _ before => before
  rename_i hashed parts
  exact attributesStore_triple (matches_.covers present available parts)

theorem signatureResolvePolicy_gives
    (given : Gives (signatureResolvePolicy b (search.request c)) ⟨work, ()⟩ algorithm s') :
    hashAlgorithmProfile b (envelopeProfile search.policy) search.signer.digestAlgorithm =
        .ok algorithm.contentHash ∧
      (search.signer.signedAttributes = [] → algorithm.signature.hash = algorithm.contentHash) := by
  simp only [signatureResolvePolicy, gives_bind, gives_charge, gives_lift] at given
  obtain ⟨_, _, ⟨_, rfl⟩, _, _, ⟨_, rfl⟩, _, _, ⟨_, rfl⟩, _, _, ⟨_, rfl⟩, _, _, ⟨_, rfl⟩, contentHash, _,
    ⟨known, rfl⟩, given⟩ := given
  split at given
  · split at given
    · simp at given
    simp only [gives_bind, gives_lift, gives_pure] at given
    obtain ⟨_, _, _, rfl, _⟩ := given
    exact ⟨known, fun _ => rfl⟩
  · simp only [gives_bind] at given
    obtain ⟨signature, _, _, given⟩ := given
    split at given
    · simp at given
    rename_i allowed
    obtain ⟨rfl, -⟩ := gives_pure.mp given
    refine ⟨known, fun absent => ?_⟩
    by_contra different
    have none : (search.request c).signer.signedAttributes = [] := absent
    exact allowed (by simp [different, none])

def Covers (b : Build) (search : Search) (hash : Hash.Algorithm) (digest : Bytes) : Prop :=
  AttributesCover b search hash digest ∨ ContentCovers b search hash digest

theorem signedDigest_triple {digest : DigestSpan}
    (plain : search.signer.signedAttributes = [] → algorithm.signature.hash = algorithm.contentHash) :
    Triple (Data (Holding b search algorithm.contentHash digest))
      (signedDigest b (search.request c) digest algorithm)
      (fun signed => Data fun state => CacheSound b search state.cache ∧
        Covers b search algorithm.signature.hash (signed.1.bytes state))
      (fun _ => Data fun state => CacheSound b search state.cache) := by
  unfold signedDigest
  refine triple_ite (fun present => ?_) fun absent => ?_
  · exact (attributesDigest_triple present).mono (fun _ before => before)
      (fun _ _ after => ⟨after.1, .inl after.2⟩) fun _ _ after => after
  refine triple_bind (triple_charge fun _ before => before.1) fun _ => ?_
  refine triple_ite (fun _ => triple_throw fun _ before => before.1) fun data => ?_
  refine triple_pure fun s before => ⟨before.1, .inr ⟨not_not.mp absent, not_not.mp data, ?_⟩⟩
  rw [plain (not_not.mp absent)]
  exact before.2

theorem providerCall_triple {D : Type} {P : D → Prop} {verify : Nat → Result × Nat} :
    Triple (Data P) (providerCall verify)
      (fun _ => Data fun state => P state ∧ ∃ work left, verify work = (.ok, left) ∧ left ≤ work)
      (fun _ => Data P) := by
  rintro ⟨work, state⟩ before
  change Ended _ _ (if (verify work).2 > work then (Except.error Result.error, (⟨0, state⟩ : Budgeted _))
    else (callbackResult (verify work).1, ⟨(verify work).2, state⟩))
  split
  · exact before
  rename_i within
  cases answer : (verify work).1 with
  | ok => exact ⟨before, work, (verify work).2, Prod.ext answer rfl, Nat.not_lt.mp within⟩
  | _ => exact before

theorem signatureVerifyDigest_triple {D : Type} {P : D → Prop} {verify : VerifyDigest} {digest signature : Bytes}
    {algorithm : SignatureAlgorithm} {key : X509.PublicKey} :
    Triple (Data P) (signatureVerifyDigest verify digest algorithm signature key)
      (fun _ => Data fun state => P state ∧
        ∃ work left, verify digest algorithm signature key work = (.ok, left) ∧ left ≤ work)
      (fun _ => Data P) := by
  refine triple_ite (fun _ => triple_throw fun _ before => before) fun _ => ?_
  refine triple_ite (fun _ => triple_throw fun _ before => before) fun _ => ?_
  refine triple_bind (triple_charge fun _ before => before) fun _ => ?_
  refine triple_bind (triple_charge fun _ before => before) fun _ => ?_
  refine triple_bind (triple_charge fun _ before => before) fun _ => ?_
  refine triple_bind (triple_charge fun _ before => before) fun _ => ?_
  refine triple_bind (triple_charge fun _ before => before) fun _ => ?_
  exact providerCall_triple

theorem cmsVerifyDigest_triple {verify : VerifyDigest} {digest : DigestSpan}
    (provider : c.provider = some verify)
    (plain : search.signer.signedAttributes = [] → algorithm.signature.hash = algorithm.contentHash) :
    Triple (Data (Holding b search algorithm.contentHash digest))
      (cmsVerifyDigest b (search.request c) verify digest algorithm)
      (fun _ => Data fun state => CacheSound b search state.cache ∧ Accepted b search c)
      (fun _ => Data fun state => CacheSound b search state.cache) := by
  refine triple_bind (signedDigest_triple plain) fun signed => ?_
  refine triple_bind (Q := fun octets => Data fun state => (CacheSound b search state.cache ∧
    Covers b search algorithm.signature.hash (signed.1.bytes state)) ∧
    OctetString b.tree (envelopeProfile search.policy) 4 search.signer.signature octets) ?_
    fun octets => ?_
  · exact triple_borrow (fun _ _ octets given _ before =>
      ⟨before, octetsContiguous_gives (envelopeProfile_plain _) given⟩) fun _ _ before => before.1
  refine triple_fact (fun _ before => before.2) fun shape => ?_
  refine triple_bind (Q := fun now => Data fun state => CacheSound b search state.cache ∧
    Covers b search algorithm.signature.hash (signed.1.bytes now))
    (triple_data fun _ before => before.1) fun now => ?_
  refine triple_fact (fun _ before => before.2) fun covers => ?_
  refine triple_bind (signatureVerifyDigest_triple.mono (fun _ before => before.1)
    (fun _ _ after => after) fun _ _ after => after) fun _ => ?_
  refine triple_pure fun s after => ⟨after.1, ?_⟩
  obtain ⟨work, left, accepted, within⟩ := after.2
  exact ⟨verify, _, algorithm.signature, octets, work, left, provider, shape, accepted, within, covers⟩

theorem signerVerify_triple : Triple (Data fun state => CacheSound b search state.cache)
      (signerVerify b (search.request c) search.kind search.input)
      (fun _ => Data fun state => CacheSound b search state.cache ∧ Accepted b search c)
      (fun _ => Data fun state => CacheSound b search state.cache) := by
  refine triple_ite (fun _ => triple_throw fun _ sound => sound) fun _ => ?_
  refine triple_bind (triple_charge fun _ sound => sound) fun _ => ?_
  split
  · exact triple_throw fun _ sound => sound
  rename_i verify provider
  refine triple_ite (fun _ => triple_throw fun _ sound => sound) fun _ => ?_
  refine triple_bind (Q := fun algorithm => Data fun state => CacheSound b search state.cache ∧
    hashAlgorithmProfile b (envelopeProfile search.policy) search.signer.digestAlgorithm =
        .ok algorithm.contentHash ∧
    (search.signer.signedAttributes = [] → algorithm.signature.hash = algorithm.contentHash)) ?_
    fun algorithm => ?_
  · exact triple_borrow (fun _ _ algorithm given _ sound => ⟨sound, signatureResolvePolicy_gives given⟩)
      fun _ _ sound => sound
  refine triple_fact (fun _ before => before.2) fun facts => ?_
  refine triple_bind ((contentDigest_triple facts.1).mono (fun _ before => before.1)
    (fun _ _ after => after) fun _ _ after => after) fun digest => ?_
  exact cmsVerifyDigest_triple provider facts.2

theorem signatureError_failed (e : Result) : X509.signatureError e ≠ .ok := by
  cases e <;> decide

theorem attributesDigest_throws (request : VerifyRequest) (digest : DigestSpan)
    (algorithm : ResolvedAlgorithm) :
    Throws (· ≠ .ok) (attributesDigest b request digest algorithm) := by
  refine .bind throws_data fun _ _ _ _ => ?_
  split
  · exact .pure _
  refine .bind (throws_borrow signatureError_failed) fun _ _ _ _ => ?_
  refine .bind throws_data fun _ _ _ _ => .bind ?_ fun _ _ _ _ => ?_
  · exact .bind (throws_charge (by decide)) fun _ _ _ _ =>
      .bind (throws_charge (by decide)) fun _ _ _ _ => .pure _
  refine .ite (fun _ => .throw (by decide)) fun _ => ?_
  split
  · exact .throw (by decide)
  refine .bind (throws_charge (by decide)) fun _ _ _ _ => ?_
  refine .bind (throws_charge (by decide)) fun _ _ _ _ => ?_
  split
  · exact .throw (by decide)
  · exact .bind throws_update fun _ _ _ _ => .bind throws_update fun _ _ _ _ => .pure _

theorem signedDigest_throws (request : VerifyRequest) (digest : DigestSpan)
    (algorithm : ResolvedAlgorithm) : Throws (· ≠ .ok) (signedDigest b request digest algorithm) := by
  refine .ite (fun _ => attributesDigest_throws _ _ _) fun _ => ?_
  refine .bind (throws_charge (by decide)) fun _ _ _ _ => ?_
  exact .ite (fun _ => .throw (by decide)) fun _ => .pure _

theorem providerCall_throws {D : Type} (verify : Nat → Result × Nat) :
    Throws (· ≠ .ok) (providerCall verify : Metered Result D Unit) := by
  rintro ⟨work, d⟩ e s' failed
  change (if (verify work).2 > work then (Except.error Result.error, (⟨0, d⟩ : Budgeted D))
    else (callbackResult (verify work).1, ⟨(verify work).2, d⟩)) = (Except.error e, s') at failed
  split at failed
  · cases failed
    decide
  · have shape := congrArg Prod.fst failed
    cases answer : (verify work).1 <;> rw [answer] at shape <;> cases shape <;> decide

theorem signatureVerifyDigest_throws {D : Type} (verify : VerifyDigest) (digest signature : Bytes)
    (algorithm : SignatureAlgorithm) (key : X509.PublicKey) : Throws (· ≠ .ok)
      (signatureVerifyDigest verify digest algorithm signature key : Metered Result D Unit) := by
  refine .ite (fun _ => .throw (by decide)) fun _ => ?_
  refine .ite (fun _ => .throw (by decide)) fun _ => ?_
  refine .bind (throws_charge (by decide)) fun _ _ _ _ => ?_
  refine .bind (throws_charge (by decide)) fun _ _ _ _ => ?_
  refine .bind (throws_charge (by decide)) fun _ _ _ _ => ?_
  refine .bind (throws_charge (by decide)) fun _ _ _ _ => ?_
  exact .bind (throws_charge (by decide)) fun _ _ _ _ => providerCall_throws _

theorem contentDigest_throws (kind : VerifyInput) (algorithm : Hash.Algorithm) (input : Bytes) :
    Throws (· ≠ .ok) (contentDigest b kind algorithm input) := by
  refine .ite (fun _ => ?_) fun _ => ?_
  · exact .ite (fun _ => .throw (by decide)) fun _ => .pure _
  · exact .bind (throws_borrow signatureError_failed) fun _ _ _ _ =>
      .bind throws_update fun _ _ _ _ => .pure _

theorem signerVerify_throws (request : VerifyRequest) (kind : VerifyInput) (input : Bytes) :
    Throws (· ≠ .ok) (signerVerify b request kind input) := by
  refine .ite (fun _ => .throw (by decide)) fun _ => ?_
  refine .bind (throws_charge (by decide)) fun _ _ _ _ => ?_
  split
  · exact .throw (by decide)
  refine .ite (fun _ => .throw (by decide)) fun _ => ?_
  refine .bind (throws_borrow signatureError_failed) fun _ _ _ _ => ?_
  refine .bind (contentDigest_throws _ _ _) fun _ _ _ _ => ?_
  refine .bind (signedDigest_throws _ _ _) fun _ _ _ _ => ?_
  refine .bind (throws_borrow signatureError_failed) fun _ _ _ _ => ?_
  refine .bind throws_data fun _ _ _ _ => ?_
  exact .bind (signatureVerifyDigest_throws _ _ _ _ _) fun _ _ _ _ => .pure _

variable {cache : Cache}

theorem searchCall_sound (sound : CacheSound b search cache) (c : Candidate) :
    CacheSound b search (searchCall b search cache c).2 :=
  signerVerify_triple.after (T := fun s => CacheSound b search s.data.cache) sound
    (fun _ _ after => after.1) fun _ _ after => after

theorem searchCall_accepted (sound : CacheSound b search cache)
    (valid : (searchCall b search cache c).1 = .ok) : Accepted b search c := by
  have ended := @signerVerify_triple b search c ⟨c.work, ⟨[], cache⟩⟩ sound
  simp only [searchCall] at valid
  rcases outcome : (signerVerify b (search.request c) search.kind search.input).exec
    ⟨c.work, ⟨[], cache⟩⟩ with ⟨e | name, after⟩
  · rw [outcome] at valid
    exact absurd valid (signerVerify_throws _ _ _ _ e after outcome)
  · rw [outcome] at ended
    exact ended.2

theorem reaches_sound {capacity : Option Nat} {history : List (Candidate × Result)}
    (reached : Reaches (searchCall b search) ⟨capacity, none⟩ history cache) :
    CacheSound b search cache := by
  induction reached with
  | start =>
    intro entry present
    cases present
  | call reached c ih => exact searchCall_sound ih c

def Search.reencoded (search : Search) (input signature : Bytes) : Search :=
  { search with signer := { search.signer with signature }, input }

/-- In a signer search that started with an empty cache, VALID means that the provider
    accepted the signature octets for a digest that covers the content. Encodings of the
    same content and the same signature octets get the same verdict, unless a limit or
    the work ended one of the calls. -/
theorem signerVerify_binds (b : Build) (search : Search) :
    (∀ capacity history cache, Reaches (searchCall b search) ⟨capacity, none⟩ history cache →
      ∀ c, (searchCall b search cache c).1 = .ok → Accepted b search c) ∧
    ∀ input signature, SameContent b.tree search.kind search.input input →
      SameSignature b.tree (envelopeProfile search.policy) search.signer.signature signature →
      ∀ cache c work, (∀ verify, c.provider = some verify → Steady verify) →
        (searchCall b search cache c).1 = .limit ∨
        (searchCall b (search.reencoded input signature) cache { c with work }).1 = .limit ∨
        (searchCall b search cache c).1 =
          (searchCall b (search.reencoded input signature) cache { c with work }).1 := by
  refine ⟨fun _ _ _ reached c valid => searchCall_accepted (reaches_sound reached) valid, ?_⟩
  intro input signature content octets cache c work steady
  have agree := @signerVerify_agree b (search.request c) search.kind search.input input signature
    steady content octets c.work work ⟨[], cache⟩
  have call : ((searchCall b search cache c).1 = verdict
      ((signerVerify b (search.request c) search.kind search.input).exec ⟨c.work, ⟨[], cache⟩⟩).1) ∧
      (searchCall b (search.reencoded input signature) cache { c with work }).1 = verdict
        ((signerVerify b ((search.request c).withSignature signature) search.kind input).exec
          ⟨work, ⟨[], cache⟩⟩).1 := ⟨rfl, rfl⟩
  rw [call.1, call.2]
  obtain one | two | alike := agree
  · rw [one]
    exact .inl rfl
  · rw [two]
    exact .inr (.inl rfl)
  · refine .inr (.inr ?_)
    generalize (signerVerify b (search.request c) search.kind search.input).exec ⟨c.work, ⟨[], cache⟩⟩ =
      left, (signerVerify b ((search.request c).withSignature signature) search.kind input).exec
        ⟨work, ⟨[], cache⟩⟩ = right at alike
    cases alike with
    | ok a d w w' => rfl
    | error e s s' => rfl

def ecdsaBuild : Build where
  tree := ⟨true, 8, 2 ^ 64 - 1, ⟨100, 100, 4, 8⟩, 4⟩
  readers :=
    { twic := false
      name := fun _ _ => throw .unsupported
      capabilities := fun _ _ => throw .unsupported
      name_steady := fun _ _ => agree_throw _
      capabilities_steady := fun _ _ => agree_throw _ }
  hashes := fun _ => none
  scratch := 16
  keyCheck := fun _ _ => .error .unsupported
  resolve := fun _ _ _ => pure ⟨.ecdsa, .sha256, none, 0⟩
  digestBytes := fun _ _ given => by cases given
  resolve_steady := fun _ _ _ => agree_pure _

/-- A digest of data, signed with the octets `aa bb` in one chunk. -/
def digestSearch : Search where
  signer := ⟨⟨hashOid .sha256, []⟩, ⟨[0x2a, 0x86, 0x48, 0xce, 0x3d, 4, 3, 2], []⟩, [], [4, 2, 0xaa, 0xbb]⟩
  contentType := dataOid
  policy := ⟨.ber, .der, .null, .cms, .skipListed⟩
  kind := .digest
  input := List.replicate 32 7

/-- A key under which the octets `aa bb` are the valid signature. -/
def ecCandidate : Candidate where
  key := ⟨⟨[0x2a], []⟩, [1], [], [], [], .ec, .p256, 256⟩
  provider := some fun _ _ signature _ work =>
    (if signature = [0xaa, 0xbb] then .ok else .invalid, work)
  work := 1000

theorem digestSearch_octets {encoded octets : Bytes} (work left : Nat)
    (given : Gives (octetsContiguous ecdsaBuild.tree .ber 4 16 encoded) ⟨work, ()⟩ octets ⟨left, ()⟩) :
    OctetString ecdsaBuild.tree .ber 4 encoded octets :=
  octetsContiguous_gives (b := ecdsaBuild) rfl given

theorem digestSearch_signature : SameSignature ecdsaBuild.tree .ber digestSearch.signer.signature
    [0x24, 0x80, 4, 0, 0x24, 3, 4, 1, 0xaa, 4, 1, 0xbb, 0, 0] :=
  ⟨[0xaa, 0xbb], digestSearch_octets 100 96 rfl, digestSearch_octets 100 70 rfl⟩

theorem ecCandidate_steady (verify : VerifyDigest) (given : ecCandidate.provider = some verify) :
    Steady verify := by
  cases given
  intro digest algorithm signature key work
  exact ⟨Nat.le_refl _, fun _ _ _ => rfl⟩

/-- The digest is found valid, and so it is with the signature in nested chunks. -/
theorem signerVerify_binds_ecdsa : Accepted ecdsaBuild digestSearch ecCandidate ∧
      (searchCall ecdsaBuild (digestSearch.reencoded (List.replicate 32 7)
        [0x24, 0x80, 4, 0, 0x24, 3, 4, 1, 0xaa, 4, 1, 0xbb, 0, 0]) ⟨none, none⟩ ecCandidate).1 = .ok := by
  obtain ⟨binds, reencoded⟩ := signerVerify_binds ecdsaBuild digestSearch
  have valid : (searchCall ecdsaBuild digestSearch ⟨none, none⟩ ecCandidate).1 = .ok := rfl
  refine ⟨binds none [] ⟨none, none⟩ .start ecCandidate valid, ?_⟩
  obtain one | two | same := reencoded (List.replicate 32 7)
    [0x24, 0x80, 4, 0, 0x24, 3, 4, 1, 0xaa, 4, 1, 0xbb, 0, 0] rfl digestSearch_signature ⟨none, none⟩
    ecCandidate 1000 ecCandidate_steady
  · rw [valid] at one
    cases one
  · cases two
  · exact same.symm.trans valid

end TinyCrypto.Cms
