import TinyCrypto.Cms.AttributesRead
import TinyCrypto.Cms.Signer

/-! # Re-segmented octet strings

The verdict on a signer depends on BER content and on the signature only through
their octets: the hash, the joined signature and every other step end alike for
two encodings of the same octets, unless a limit or the work ends one of them.
-/

namespace TinyCrypto.Cms

open Tlv Pki
open Library Library.Program Library.Metered

section

variable {b : Build} {info : Hash.Info} {view : Hash.View} {message : Bytes} {D : Type}

theorem hashUpdate_fits {bytes : Bytes} (absorbed : info.Absorbed view message)
    (fits : (message ++ bytes).length ≤ info.maxMessageBytes) :
    ∃ after, info.Absorbed after (message ++ bytes) ∧
      Ends .limit (octetsHashUpdate info bytes) view (.ok ((), after)) := by
  obtain ⟨after, step, reached⟩ := absorbed.fits fits
  refine ⟨after, reached, ends_bind (ends_charge _) (ends_bind ends_data ?_)⟩
  rw [step]
  exact ends_update _

theorem hashUpdate_long {bytes : Bytes} (absorbed : info.Absorbed view message) (filled : bytes ≠ [])
    (long : info.maxMessageBytes < (message ++ bytes).length) :
    Ends .limit (octetsHashUpdate info bytes) view (.error .invalid) := by
  refine ends_bind (ends_charge _) (ends_bind ends_data ?_)
  rw [absorbed.long filled long]
  exact ends_throw

theorem hashUpdate_throws (bytes : Bytes) : Throws (· ≠ .ok) (octetsHashUpdate info bytes) := by
  refine .bind (throws_charge (by decide)) fun _ _ _ _ => ?_
  refine .bind throws_data fun _ view _ _ => ?_
  split
  · exact throws_update
  · exact .throw (by decide)

theorem hashAll_fits {chunks : List Bytes} (absorbed : info.Absorbed view message)
    (fits : (message ++ chunks.flatten).length ≤ info.maxMessageBytes) :
    ∃ after, info.Absorbed after (message ++ chunks.flatten) ∧
      Ends .limit (consumeAll (octetsHashUpdate info) chunks) view (.ok ((), after)) := by
  induction chunks generalizing view message with
  | nil => exact ⟨view, by simpa using absorbed, ends_pure⟩
  | cons chunk rest ih =>
    have joined : message ++ (chunk :: rest).flatten = message ++ chunk ++ rest.flatten := by simp
    rw [joined] at fits ⊢
    have here : (message ++ chunk).length ≤ info.maxMessageBytes := by
      rw [List.length_append] at fits
      omega
    obtain ⟨middle, reached, first⟩ := hashUpdate_fits absorbed here
    obtain ⟨after, ended, later⟩ := ih reached fits
    exact ⟨after, ended, ends_bind first later⟩

theorem hashAll_long {chunks : List Bytes} (absorbed : info.Absorbed view message)
    (filled : ∀ chunk ∈ chunks, chunk ≠ []) (short : message.length ≤ info.maxMessageBytes)
    (long : info.maxMessageBytes < (message ++ chunks.flatten).length) :
    Ends .limit (consumeAll (octetsHashUpdate info) chunks) view (.error .invalid) := by
  induction chunks generalizing view message with
  | nil =>
    simp at long
    omega
  | cons chunk rest ih =>
    have joined : message ++ (chunk :: rest).flatten = message ++ chunk ++ rest.flatten := by simp
    rw [joined] at long
    by_cases here : (message ++ chunk).length ≤ info.maxMessageBytes
    · obtain ⟨middle, reached, first⟩ := hashUpdate_fits absorbed here
      exact ends_bind first (ih reached (fun c member => filled c (by simp [member])) here long)
    · exact ends_bind_error (hashUpdate_long absorbed (filled chunk (by simp)) (by omega))

def hashOutcome (info : Hash.Info) (octets : Bytes) : Except Result Bytes :=
  if octets.length ≤ info.maxMessageBytes then .ok (info.digest octets) else .error .invalid

theorem octetsHash_ends {encoded octets : Bytes} (shape : OctetString b.tree .ber 4 encoded octets)
    (d : D) : Ends .limit (octetsHash b info encoded) d ((hashOutcome info octets).map (·, d)) := by
  obtain ⟨chunks, joined, filled, visits⟩ := octetsImplicit_chunks shape
  have same := visits (octetsHashUpdate info) hashUpdate_throws
  rw [hashOutcome]
  split
  · rename_i fits
    have whole : (([] : Bytes) ++ chunks.flatten).length ≤ info.maxMessageBytes := by
      rw [joined]
      exact fits
    obtain ⟨after, absorbed, ends⟩ := hashAll_fits info.start_absorbed whole
    rw [List.nil_append, joined] at absorbed
    rw [octetsHash, same]
    refine ends_bind (ends_locally (ends_bind (ends_charge _) ends)) ?_
    rw [← absorbed.finish]
    exact ends_pure
  · rename_i long
    have whole : info.maxMessageBytes < (([] : Bytes) ++ chunks.flatten).length := by
      rw [joined, List.nil_append]
      omega
    rw [octetsHash, same]
    exact ends_bind_error (ends_locally_error (ends_bind (ends_charge _)
      (hashAll_long info.start_absorbed filled (Nat.zero_le _) whole)))

end

/-- Two inputs of one kind stand for the same content: BER encodings of the same octets,
    or equal bytes. -/
def SameContent (tree : Workspace) : VerifyInput → Bytes → Bytes → Prop
  | .ber, input, input' => ∃ octets, OctetString tree .ber 4 input octets ∧
      OctetString tree .ber 4 input' octets
  | _, input, input' => input = input'

def SameSignature (tree : Workspace) (profile : Profile) (signature signature' : Bytes) : Prop :=
  ∃ octets, OctetString tree profile 4 signature octets ∧ OctetString tree profile 4 signature' octets

def VerifyRequest.withSignature (request : VerifyRequest) (signature : Bytes) : VerifyRequest :=
  { request with signer := { request.signer with signature } }

/-- The provider returns no work, and its verdict depends on the work only in running
    out of it. -/
def Steady (verify : VerifyDigest) : Prop :=
  ∀ digest algorithm signature key work, (verify digest algorithm signature key work).2 ≤ work ∧
    ∀ work', (verify digest algorithm signature key work).1 ≠ .limit →
      (verify digest algorithm signature key work').1 ≠ .limit →
      (verify digest algorithm signature key work).1 = (verify digest algorithm signature key work').1

section

variable {b : Build} {D : Type} {request : VerifyRequest} {verify : VerifyDigest}

variable {input input' : Bytes} {kind : VerifyInput}

theorem hashContent_agree {algorithm : Hash.Algorithm} (same : SameContent b.tree kind input input') :
    Agree .limit (hashContent b kind algorithm input : Metered Result D _)
      (hashContent b kind algorithm input') := by
  unfold hashContent
  split
  · exact agree_throw _
  rename_i info available
  cases kind with
  | ber =>
    obtain ⟨octets, left, right⟩ := same
    exact agree_of_ends fun d => ⟨_, octetsHash_ends left d, octetsHash_ends right d⟩
  | digest | raw =>
    obtain rfl : input = input' := same
    simp only [reduceCtorEq, if_false, pkiHashPart]
    refine agree_bind (agree_charge _ _) fun _ => agree_guard fun _ => ?_
    refine agree_bind (agree_charge _ _) fun _ => ?_
    split
    · exact agree_pure _
    · exact agree_throw _

theorem contentDigest_agree {algorithm : Hash.Algorithm}
    (same : SameContent b.tree kind input input') :
    Agree .limit (contentDigest b kind algorithm input) (contentDigest b kind algorithm input') := by
  unfold contentDigest
  by_cases digest : kind = .digest
  · subst digest
    obtain rfl : input = input' := same
    simp only [if_true]
    exact agree_guard fun _ => agree_pure _
  · rw [if_neg digest, if_neg digest]
    refine agree_bind (agree_borrow (hashContent_agree same)) fun _ => ?_
    exact agree_bind (agree_update _) fun _ => agree_pure _

theorem attributesDigest_steady (digest : DigestSpan) (algorithm : ResolvedAlgorithm) :
    Agree .limit (attributesDigest b request digest algorithm)
      (attributesDigest b request digest algorithm) := by
  refine agree_bind agree_data fun state => ?_
  split
  · exact agree_pure _
  refine agree_bind (agree_borrow (signedAttributesRead_steady _)) fun attributes => ?_
  refine agree_bind agree_data fun state => agree_bind ?_ fun matched => ?_
  · exact agree_bind (agree_charge _ _) fun _ => agree_bind (agree_charge _ _) fun _ => agree_pure _
  refine agree_guard fun _ => ?_
  split
  · exact agree_throw _
  refine agree_bind (agree_charge _ _) fun _ => agree_bind (agree_charge _ _) fun _ => ?_
  split
  · exact agree_throw _
  · exact agree_bind (agree_update _) fun _ => agree_bind (agree_update _) fun _ => agree_pure _

theorem signedDigest_steady (digest : DigestSpan) (algorithm : ResolvedAlgorithm) :
    Agree .limit (signedDigest b request digest algorithm) (signedDigest b request digest algorithm) := by
  unfold signedDigest
  split
  · exact attributesDigest_steady digest algorithm
  · refine agree_bind (agree_charge _ _) fun _ => ?_
    exact agree_guard fun _ => agree_pure _

theorem providerCall_steady (steady : Steady verify) (digest signature : Bytes)
    (algorithm : SignatureAlgorithm) (key : X509.PublicKey) :
    Agree .limit (providerCall (verify digest algorithm signature key) : Metered Result D _)
      (providerCall (verify digest algorithm signature key)) := by
  intro work work' d
  obtain ⟨spent, same⟩ := steady digest algorithm signature key work
  obtain ⟨spent', -⟩ := steady digest algorithm signature key work'
  have run : ∀ w, (verify digest algorithm signature key w).2 ≤ w →
      (providerCall (verify digest algorithm signature key) : Metered Result D _).exec ⟨w, d⟩ =
        (callbackResult (verify digest algorithm signature key w).1,
          ⟨(verify digest algorithm signature key w).2, d⟩) := by
    intro w within
    change (if (verify digest algorithm signature key w).2 > w then
      (Except.error Result.error, (⟨0, d⟩ : Budgeted D)) else _) = _
    rw [if_neg (Nat.not_lt.mpr within)]
  rw [run work spent, run work' spent']
  by_cases left : (verify digest algorithm signature key work).1 = .limit
  · rw [left]
    exact .inl rfl
  by_cases right : (verify digest algorithm signature key work').1 = .limit
  · rw [right]
    exact .inr (.inl rfl)
  rw [same work' left right]
  cases callbackResult (verify digest algorithm signature key work').1 with
  | ok done => exact .inr (.inr (.ok done d _ _))
  | error e => exact .inr (.inr (.error e _ _))

theorem signatureVerifyDigest_steady (steady : Steady verify) (digest signature : Bytes)
    (algorithm : SignatureAlgorithm) (key : X509.PublicKey) :
    Agree .limit (signatureVerifyDigest verify digest algorithm signature key : Metered Result D _)
      (signatureVerifyDigest verify digest algorithm signature key) := by
  refine agree_guard fun _ => agree_guard fun _ => ?_
  refine agree_bind (agree_charge _ _) fun _ => agree_bind (agree_charge _ _) fun _ => ?_
  refine agree_bind (agree_charge _ _) fun _ => agree_bind (agree_charge _ _) fun _ => ?_
  exact agree_bind (agree_charge _ _) fun _ => providerCall_steady steady _ _ _ _

theorem cmsVerifyDigest_agree {signature : Bytes} (steady : Steady verify)
    (same : SameSignature b.tree (envelopeProfile request.policy) request.signer.signature signature)
    (digest : DigestSpan) (algorithm : ResolvedAlgorithm) :
    Agree .limit (cmsVerifyDigest b request verify digest algorithm)
      (cmsVerifyDigest b (request.withSignature signature) verify digest algorithm) := by
  obtain ⟨octets, left, right⟩ := same
  refine agree_bind (signedDigest_steady digest algorithm) fun signed => ?_
  refine agree_bind (agree_borrow (agree_of_ends fun d => ⟨_, octetsContiguous_ends d (by decide) left,
    octetsContiguous_ends d (by decide) right⟩)) fun joined => ?_
  refine agree_bind agree_data fun state => ?_
  exact agree_bind (signatureVerifyDigest_steady steady _ _ _ _) fun _ => agree_pure _

theorem signatureResolvePolicy_steady :
    Agree .limit (signatureResolvePolicy b request : Metered Result D _)
      (signatureResolvePolicy b request) := by
  refine agree_bind (agree_charge _ _) fun _ => agree_bind (agree_charge _ _) fun _ => ?_
  refine agree_bind (agree_charge _ _) fun _ => agree_bind (agree_charge _ _) fun _ => ?_
  refine agree_bind (agree_charge _ _) fun _ => agree_bind (agree_lift _) fun contentHash => ?_
  dsimp only
  split
  · refine agree_guard fun _ => ?_
    exact agree_bind (agree_lift _) fun _ => agree_pure _
  · refine agree_bind (agree_borrow (b.resolve_steady _ _ _)) fun signature => ?_
    exact agree_guard fun _ => agree_pure _

theorem sameContent_empty (same : SameContent b.tree kind input input') :
    (kind = .digest && input = []) = (kind = .digest && input' = []) := by
  cases kind with
  | digest =>
    obtain rfl : input = input' := same
    rfl
  | raw | ber => rfl

theorem signerVerify_agree {kind : VerifyInput} {input input' signature : Bytes}
    (steady : ∀ verify, request.provider = some verify → Steady verify)
    (content : SameContent b.tree kind input input')
    (octets : SameSignature b.tree (envelopeProfile request.policy) request.signer.signature signature) :
    Agree .limit (signerVerify b request kind input)
      (signerVerify b (request.withSignature signature) kind input') := by
  simp only [signerVerify]
  refine agree_guard fun _ => agree_bind (agree_charge _ _) fun _ => ?_
  have kept : (request.withSignature signature).provider = request.provider := rfl
  rw [kept]
  cases given : request.provider with
  | none => exact agree_throw _
  | some verify =>
    simp only
    rw [sameContent_empty content]
    refine agree_guard fun _ => ?_
    refine agree_bind (agree_borrow signatureResolvePolicy_steady) fun algorithm => ?_
    refine agree_bind (contentDigest_agree content) fun digest => ?_
    exact cmsVerifyDigest_agree (steady verify given) octets digest algorithm

end

end TinyCrypto.Cms
