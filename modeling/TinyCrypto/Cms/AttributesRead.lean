import TinyCrypto.Cms.Attributes

/-! # What the signed attributes say

A field that `TC_CMS_signed_attributes_read` accepts is a sequence of attributes
with exactly one content type and exactly one message digest, and these are the
ones it reports. Work decides only whether the field is read.
-/

namespace TinyCrypto.Cms

open Tlv Pki
open Library Library.Program Library.Metered

section

variable (r : Reading) (limits : Limits)

def attributeType (member : ProfileElement) : Option Bytes :=
  match nextProfile r limits ⟨member.value, 0⟩ with
  | .ok (type, _) => some type.value
  | .error _ => none

/-- The attribute is a SEQUENCE of the type `oid` and a SET of the one value `v`. -/
structure IsAttribute (member : ProfileElement) (oid : Bytes) (v : ProfileElement) : Prop where
  sequence : member.tagIs 0x30 = true
  fields : ∃ type set : ProfileElement, member.value = type.encoded ++ set.encoded ∧
    type.Valid r limits ∧ type.tagIs 6 = true ∧ type.value = oid ∧
    set.Valid r limits ∧ set.tagIs 0x31 = true ∧ set.value = v.encoded
  valid : v.Valid r limits

/-- Exactly one member has the type `oid`, with one value of the given tag and contents. -/
def HasOnce (members : List ProfileElement) (oid : Bytes) (tag : UInt8) (contents : Bytes) : Prop :=
  ∃ before member after v, members = before ++ member :: after ∧
    IsAttribute r limits member oid v ∧ v.tagIs tag = true ∧ v.value = contents ∧
    ∀ other ∈ before ++ after, attributeType r limits other ≠ some oid

/-- The field is a list of attributes under the tag [0], with one content type and one
    message digest. -/
structure AttributesHold (encoded contentType digest : Bytes) : Prop where
  framed : ∃ (outer : ProfileElement) (members : List ProfileElement), outer.encoded = encoded ∧
    outer.Valid r limits ∧ outer.tagIs 0xa0 = true ∧ encodings members = outer.value ∧
    (∀ member ∈ members, member.Valid r limits) ∧
    HasOnce r limits members contentTypeOid 6 contentType ∧
    HasOnce r limits members messageDigestOid 4 digest

/-- What one attribute does to a required field: it is of its type and sets it for the
    first time, or it is of another type and keeps it. -/
def Records (member : ProfileElement) (oid : Bytes) (tag : UInt8) (before after : Option Bytes) : Prop :=
  (attributeType r limits member = some oid ∧ before = none ∧
    ∃ v, IsAttribute r limits member oid v ∧ v.tagIs tag = true ∧ after = some v.value) ∨
  (attributeType r limits member ≠ some oid ∧ after = before)

def Tracks (members : List ProfileElement) (oid : Bytes) (tag : UInt8) : Option Bytes → Prop
  | none => ∀ member ∈ members, attributeType r limits member ≠ some oid
  | some contents => HasOnce r limits members oid tag contents

end

variable {r : Reading} {limits : Limits} {members : List ProfileElement} {member : ProfileElement}
variable {oid : Bytes} {tag : UInt8} {before after : Option Bytes}

theorem Tracks.step (tracks : Tracks r limits members oid tag before)
    (records : Records r limits member oid tag before after) :
    Tracks r limits (members ++ [member]) oid tag after := by
  obtain ⟨-, rfl, v, shape, tagged, rfl⟩ | ⟨another, rfl⟩ := records
  · refine ⟨members, member, [], v, rfl, shape, tagged, rfl, ?_⟩
    intro other found
    rw [List.append_nil] at found
    exact tracks other found
  · cases after with
    | none =>
      intro other found
      rw [List.mem_append, List.mem_singleton] at found
      obtain earlier | rfl := found
      · exact tracks other earlier
      · exact another
    | some contents =>
      obtain ⟨first, chosen, rest, v, rfl, shape, tagged, same, others⟩ := tracks
      refine ⟨first, chosen, rest ++ [member], v, by simp, shape, tagged, same, ?_⟩
      intro other found
      rw [← List.append_assoc, List.mem_append, List.mem_singleton] at found
      obtain earlier | rfl := found
      · exact others other earlier
      · exact another

theorem classify_contentType (twic : Bool) (oids : AttributeOids) :
    attributeClassify twic contentTypeOid oids = .contentType := by
  cases twic <;> cases oids <;> decide

theorem classify_messageDigest (twic : Bool) (oids : AttributeOids) :
    attributeClassify twic messageDigestOid oids = .messageDigest := by
  cases twic <;> cases oids <;> decide

theorem pkcs9Classify_arcs {arcs : Bytes} : (pkcs9Classify arcs = .contentType → arcs = [3]) ∧
      (pkcs9Classify arcs = .messageDigest → arcs = [4]) := by
  unfold pkcs9Classify
  split <;> simp

theorem classify_oid {twic : Bool} {oid : Bytes} {oids : AttributeOids} :
    (attributeClassify twic oid oids = .contentType → oid = contentTypeOid) ∧
      (attributeClassify twic oid oids = .messageDigest → oid = messageDigestOid) := by
  unfold attributeClassify
  split
  · simp
  split
  · simp
  split
  · split <;> simp
  split
  · simp
  split
  · simp
  · rename_i within
    simp only [Bool.or_eq_true, decide_eq_true_eq, not_or, not_le, ne_eq, not_not] at within
    have joined := List.take_append_drop pkcs9.length oid
    rw [within.2] at joined
    refine ⟨?_, ?_⟩
    · intro kind
      rw [← joined, pkcs9Classify_arcs.1 kind]
      rfl
    · intro kind
      rw [← joined, pkcs9Classify_arcs.2 kind]
      rfl

section

variable {D : Type} {tree : Workspace} {profile : Profile} {readers : AttributeReaders}
variable {policy : VerificationPolicy} {s s' : Budgeted D} {reader rest : Reader}
variable {parsed parsed' : SignedAttributes} {kind : AttributeKind} {prior values : Bytes}

theorem expect_gives {e : ProfileElement}
    (given : Gives (expect tree profile tag reader) s (e, rest) s') :
    nextProfile (reading tree profile) tree.limits reader = .ok (e, rest) ∧ e.tagIs tag = true := by
  unfold expect at given
  split at given
  · rename_i element after found
    split at given
    · rename_i tagged
      simp only [gives_pure, Prod.mk.injEq] at given
      obtain ⟨⟨rfl, rfl⟩, -⟩ := given
      exact ⟨found, tagged⟩
    · simp at given
  · simp at given

variable {value : ProfileElement}

theorem attributeValue_keeps (type : kind ≠ .contentType) (digest : kind ≠ .messageDigest)
    (given : Gives (attributeValue tree profile readers kind prior oid value parsed) s parsed' s') :
    parsed'.contentType = parsed.contentType ∧ parsed'.messageDigest = parsed.messageDigest := by
  cases kind with
  | contentType => exact absurd rfl type
  | messageDigest => exact absurd rfl digest
  | signingTime =>
    simp only [attributeValue] at given
    split at given
    · simp at given
    split at given
    · simp at given
    split at given
    · simp at given
    simp only [gives_pure] at given
    rw [← given.1]
    exact ⟨rfl, rfl⟩
  | fascn | entryUuid =>
    simp only [attributeValue] at given
    split at given
    · simp at given
    simp only [gives_bind] at given
    obtain ⟨_, _, _, given⟩ := given
    split at given
    · simp at given
    simp only [gives_pure] at given
    rw [← given.1]
    exact ⟨rfl, rfl⟩
  | signerName | smimeCapabilities =>
    simp only [attributeValue] at given
    split at given
    · simp at given
    simp only [gives_bind, gives_pure] at given
    obtain ⟨_, _, _, rfl, _⟩ := given
    exact ⟨rfl, rfl⟩
  | listed | excluded | other =>
    simp only [attributeValue] at given
    split at given
    · simp at given
    simp only [gives_bind, gives_pure] at given
    obtain ⟨_, _, _, rfl, _⟩ := given
    exact ⟨rfl, rfl⟩

theorem attributeValue_once
    (given : Gives (attributeValue tree profile readers kind prior oid value parsed) s parsed' s') :
    (kind = .contentType → parsed.contentType = none ∧ value.tagIs 6 = true ∧
      parsed'.contentType = some value.value ∧ parsed'.messageDigest = parsed.messageDigest) ∧
    (kind = .messageDigest → parsed.messageDigest = none ∧ value.tagIs 4 = true ∧
      parsed'.messageDigest = some value.value ∧ parsed'.contentType = parsed.contentType) := by
  constructor <;> rintro rfl
  all_goals
    simp only [attributeValue] at given
    split at given
    · simp at given
    rename_i checked
    simp only [Bool.or_eq_true, not_or, Bool.not_eq_true', Option.isSome_eq_false_iff,
      Option.isNone_iff_eq_none, Bool.not_eq_true, Bool.not_eq_false] at checked
    simp only [gives_pure] at given
    rw [← given.1]
    exact ⟨checked.1.1, checked.1.2, rfl, rfl⟩

theorem attributeValues_gives
    (given : Gives (attributeValues tree profile readers policy kind prior oid values parsed) s
      parsed' s') :
    (kind ≠ .contentType ∧ kind ≠ .messageDigest ∧ parsed'.contentType = parsed.contentType ∧
      parsed'.messageDigest = parsed.messageDigest) ∨
    ∃ (value : ProfileElement) (middle : Budgeted D), values = value.encoded ∧
        value.Valid (reading tree profile) tree.limits ∧
      Gives (attributeValue tree profile readers kind prior oid value parsed) middle parsed' s' := by
  simp only [attributeValues] at given
  split at given
  · simp at given
  split at given
  · rename_i other
    simp only [gives_bind, gives_pure] at given
    obtain ⟨_, _, _, _, _, _, rfl, _⟩ := given
    exact .inl ⟨by simp [other], by simp [other], rfl, rfl⟩
  simp only [gives_bind, gives_lift] at given
  obtain ⟨reader, _, ⟨opened, rfl⟩, given⟩ := given
  split at given
  · simp at given
  rename_i value rest found
  split at given
  · simp at given
  rename_i ended
  obtain ⟨valid, joined⟩ := nextProfile_ok found
  simp only [ne_eq, not_not] at ended
  rw [profileInit_ok opened, ended, List.append_nil] at joined
  exact .inr ⟨value, _, joined, valid, given⟩

theorem attributeStep_gives {state state' : AttributeLoop}
    (given : Gives (attributeStep tree profile readers policy prior member state) s state' s') :
    Records (reading tree profile) tree.limits member contentTypeOid 6 state.parsed.contentType
      state'.parsed.contentType ∧
    Records (reading tree profile) tree.limits member messageDigestOid 4 state.parsed.messageDigest
      state'.parsed.messageDigest := by
  simp only [attributeStep, gives_bind, gives_charge] at given
  obtain ⟨_, _, ⟨_, rfl⟩, given⟩ := given
  split at given
  · simp at given
  rename_i sequence
  simp only [gives_bind, gives_lift] at given
  obtain ⟨fields, _, ⟨opened, rfl⟩, ⟨type, after⟩, _, first, given⟩ := given
  split at given
  · simp at given
  simp only [gives_bind] at given
  obtain ⟨⟨set, last⟩, _, second, given⟩ := given
  split at given
  · simp at given
  rename_i closed
  simp only [gives_bind, gives_pure] at given
  obtain ⟨parsed, _, values, rfl, _⟩ := given
  obtain ⟨found, typeTag⟩ := expect_gives first
  obtain ⟨foundSet, setTag⟩ := expect_gives second
  obtain ⟨typeValid, joined⟩ := nextProfile_ok found
  obtain ⟨setValid, rest⟩ := nextProfile_ok foundSet
  simp only [Bool.or_eq_true, Bool.not_eq_true', Bool.and_eq_true, decide_eq_true_eq, not_or,
    Bool.not_eq_false, ne_eq, not_not] at sequence closed
  rw [closed.1, List.append_nil] at rest
  have typed : attributeType (reading tree profile) tree.limits member = some type.value := by
    rw [attributeType, ← profileInit_ok opened, found]
  rw [profileInit_ok opened, rest] at joined
  have shape : ∀ value : ProfileElement, set.value = value.encoded →
      value.Valid (reading tree profile) tree.limits →
      IsAttribute (reading tree profile) tree.limits member type.value value :=
    fun value same valid => ⟨sequence.1, ⟨type, set, joined, typeValid, typeTag, rfl, setValid, setTag,
      same⟩, valid⟩
  have another : ∀ oid, attributeClassify readers.twic type.value policy.attributeOids ≠
      attributeClassify readers.twic oid policy.attributeOids →
      attributeType (reading tree profile) tree.limits member ≠ some oid := by
    intro oid different same
    rw [typed, Option.some.injEq] at same
    exact different (by rw [same])
  have types := @classify_oid readers.twic type.value policy.attributeOids
  have notType := another contentTypeOid
  have notDigest := another messageDigestOid
  rw [classify_contentType] at notType
  rw [classify_messageDigest] at notDigest
  generalize attributeClassify readers.twic type.value policy.attributeOids = kind at *
  obtain ⟨type', digest', sameType, sameDigest⟩ | ⟨value, _, same, valid, read⟩ :=
    attributeValues_gives values
  · exact ⟨.inr ⟨notType type', sameType⟩, .inr ⟨notDigest digest', sameDigest⟩⟩
  · by_cases isType : kind = .contentType
    · obtain ⟨fresh, tagged, set', kept⟩ := (attributeValue_once read).1 isType
      have oid := types.1 isType
      refine ⟨.inl ⟨by rw [typed, oid], fresh, value, oid ▸ shape value same valid, tagged, set'⟩,
        .inr ⟨notDigest (by simp [isType]), kept⟩⟩
    · by_cases isDigest : kind = .messageDigest
      · obtain ⟨fresh, tagged, set', kept⟩ := (attributeValue_once read).2 isDigest
        have oid := types.2 isDigest
        refine ⟨.inr ⟨notType isType, kept⟩,
          .inl ⟨by rw [typed, oid], fresh, value, oid ▸ shape value same valid, tagged, set'⟩⟩
      · obtain ⟨sameType, sameDigest⟩ := attributeValue_keeps isType isDigest read
        exact ⟨.inr ⟨notType isType, sameType⟩, .inr ⟨notDigest isDigest, sameDigest⟩⟩

theorem cmsOpen_gives {encoded : Bytes} {outer : ProfileElement}
    (given : Gives (cmsOpen tree profile tag encoded) s outer s') :
    outer.encoded = encoded ∧ outer.Valid (reading tree profile) tree.limits ∧
      outer.tagIs tag = true := by
  simp only [cmsOpen, gives_bind, gives_lift] at given
  obtain ⟨element, _, ⟨read, rfl⟩, given⟩ := given
  split at given
  · simp at given
  rename_i checked
  simp only [gives_bind, gives_charge] at given
  obtain ⟨_, _, ⟨_, rfl⟩, given⟩ := given
  split at given
  · simp at given
  split at given
  · simp at given
  obtain ⟨rfl, -⟩ := gives_pure.mp given
  obtain ⟨valid, rest, same⟩ := readProfile_ok read
  simp only [Bool.or_eq_true, Bool.not_eq_true', decide_eq_true_eq, not_or, Bool.not_eq_false,
    ne_eq, not_not] at checked
  have size := congrArg List.length same
  rw [List.length_append, ← checked.1.2] at size
  have empty : rest = [] := List.eq_nil_of_length_eq_zero (by omega)
  rw [empty, List.append_nil] at same
  exact ⟨same.symm, valid, checked.1.1⟩

theorem signedAttributesRead_gives {encoded : Bytes}
    (given : Gives (signedAttributesRead tree readers policy encoded) s parsed s') :
    ∃ contentType digest, parsed.contentType = some contentType ∧
      parsed.messageDigest = some digest ∧ parsed.signatureInput = [[0x31], encoded.drop 1] ∧
      AttributesHold (reading tree (attributeProfile policy)) tree.limits encoded contentType digest := by
  simp only [signedAttributesRead] at given
  split at given
  · simp at given
  simp only [gives_bind, gives_charge] at given
  obtain ⟨_, _, ⟨_, rfl⟩, outer, _, opened, state, _, loop, given⟩ := given
  split at given
  · simp at given
  rename_i present
  obtain ⟨rfl, -⟩ := gives_pure.mp given
  obtain ⟨whole, valid, tagged⟩ := cmsOpen_gives opened
  obtain ⟨members, joined, all, types, digests⟩ := forElements_gives
    (fun done state _ =>
      Tracks (reading tree (attributeProfile policy)) tree.limits done contentTypeOid 6
        state.parsed.contentType ∧
      Tracks (reading tree (attributeProfile policy)) tree.limits done messageDigestOid 4
        state.parsed.messageDigest)
    loop ⟨by simp [Tracks], by simp [Tracks]⟩
    (fun done e a s a' s' _ tracks step =>
      ⟨tracks.1.step (attributeStep_gives step).1, tracks.2.step (attributeStep_gives step).2⟩)
  cases type : state.parsed.contentType with
  | none => simp [type] at present
  | some contentType =>
    cases digest : state.parsed.messageDigest with
    | none => simp [digest] at present
    | some value =>
      rw [type] at types
      rw [digest] at digests
      exact ⟨contentType, value, rfl, rfl, rfl,
        ⟨outer, members, whole, valid, tagged, joined, all, types, digests⟩⟩

theorem expect_steady (tag : UInt8) (reader : Reader) :
    Agree .limit (expect tree profile tag reader : Metered Result D _) (expect tree profile tag reader) := by
  unfold expect
  split
  · split
    · exact agree_pure _
    · exact agree_throw _
  · exact agree_throw _

theorem attributeRepeated_steady (prior oid : Bytes) :
    Agree .limit (attributeRepeated tree profile prior oid : Metered Result D _)
      (attributeRepeated tree profile prior oid) := by
  refine forElements_steady ?_ _ _
  intro before e a
  refine agree_bind (agree_lift _) fun fields => agree_bind (expect_steady _ _) fun type => ?_
  refine agree_bind (agree_charge _ _) fun _ => ?_
  split
  · exact agree_throw _
  · exact agree_pure _

theorem attributeValuesOrder_steady (values : Bytes) :
    Agree .limit (attributeValuesOrder tree profile values : Metered Result D _)
      (attributeValuesOrder tree profile values) := by
  unfold attributeValuesOrder
  split
  · exact agree_pure _
  refine agree_bind (forElements_steady ?_ _ _) fun _ => agree_pure _
  intro before e a
  dsimp only
  split
  · exact agree_throw _
  · exact agree_pure _

theorem octetsLength_steady (encoded : Bytes) : Agree .limit
      (locally id ⟨[], 0, 0, []⟩ (octetsImplicit tree profile 4 (storeChunk tree.sizeMax none) encoded) :
        Metered Result D _)
      (locally id ⟨[], 0, 0, []⟩ (octetsImplicit tree profile 4 (storeChunk tree.sizeMax none) encoded)) :=
  agree_locally (octetsImplicit_steady (storeChunk_unmetered tree.sizeMax) encoded)

theorem attributeValue_steady (value : ProfileElement) : Agree .limit
      (attributeValue tree profile readers kind prior oid value parsed : Metered Result D _)
      (attributeValue tree profile readers kind prior oid value parsed) := by
  cases kind with
  | contentType | messageDigest =>
    simp only [attributeValue]
    exact agree_guard fun _ => agree_pure _
  | signingTime =>
    simp only [attributeValue]
    refine agree_guard fun _ => ?_
    split
    · exact agree_throw _
    · exact agree_guard fun _ => agree_pure _
  | fascn | entryUuid =>
    simp only [attributeValue]
    refine agree_guard fun _ => agree_bind (octetsLength_steady _) fun _ => ?_
    exact agree_guard fun _ => agree_pure _
  | signerName =>
    simp only [attributeValue]
    refine agree_guard fun _ => ?_
    exact agree_bind (agree_borrow (readers.name_steady _ _)) fun _ => agree_pure _
  | smimeCapabilities =>
    simp only [attributeValue]
    refine agree_guard fun _ => ?_
    exact agree_bind (agree_borrow (readers.capabilities_steady _ _)) fun _ => agree_pure _
  | listed | excluded | other =>
    simp only [attributeValue]
    refine agree_guard fun _ => ?_
    exact agree_bind (attributeRepeated_steady _ _) fun _ => agree_pure _

theorem attributeValues_steady (values : Bytes) : Agree .limit
      (attributeValues tree profile readers policy kind prior oid values parsed : Metered Result D _)
      (attributeValues tree profile readers policy kind prior oid values parsed) := by
  simp only [attributeValues]
  refine agree_guard fun _ => agree_ite (fun _ => ?_) fun _ => ?_
  · exact agree_bind (attributeValuesOrder_steady _) fun _ =>
      agree_bind (attributeRepeated_steady _ _) fun _ => agree_pure _
  refine agree_bind (agree_lift _) fun reader => ?_
  split
  · exact agree_throw _
  · exact agree_guard fun _ => attributeValue_steady _

theorem attributeStep_steady (prior : Bytes) (member : ProfileElement) (state : AttributeLoop) :
    Agree .limit (attributeStep tree profile readers policy prior member state : Metered Result D _)
      (attributeStep tree profile readers policy prior member state) := by
  simp only [attributeStep]
  refine agree_bind (agree_charge _ _) fun _ => agree_guard fun _ => ?_
  refine agree_bind (agree_lift _) fun _ => agree_bind (expect_steady _ _) fun _ => ?_
  refine agree_guard fun _ => agree_bind (expect_steady _ _) fun _ => ?_
  refine agree_guard fun _ => ?_
  exact agree_bind (attributeValues_steady _) fun _ => agree_pure _

theorem cmsOpen_steady (tag : UInt8) (encoded : Bytes) :
    Agree .limit (cmsOpen tree profile tag encoded : Metered Result D _)
      (cmsOpen tree profile tag encoded) := by
  simp only [cmsOpen]
  refine agree_bind (agree_lift _) fun _ => agree_guard fun _ => ?_
  refine agree_bind (agree_charge _ _) fun _ => agree_guard fun _ => ?_
  exact agree_guard fun _ => agree_pure _

theorem signedAttributesRead_steady (encoded : Bytes) :
    Agree .limit (signedAttributesRead tree readers policy encoded : Metered Result D _)
      (signedAttributesRead tree readers policy encoded) := by
  simp only [signedAttributesRead]
  refine agree_guard fun _ => agree_bind (agree_charge _ _) fun _ => ?_
  refine agree_bind (cmsOpen_steady _ _) fun _ => ?_
  refine agree_bind (forElements_steady attributeStep_steady _ _) fun _ => ?_
  exact agree_guard fun _ => agree_pure _

end

end TinyCrypto.Cms
