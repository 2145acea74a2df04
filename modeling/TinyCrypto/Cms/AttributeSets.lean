import Mathlib.Data.List.Nodup
import TinyCrypto.Cms.AttributesRead
import TinyCrypto.Tlv.Siblings

/-! # Sets of attributes

What an attribute says does not depend on its place: it sets the fields of its kind, or none.
A set is read when its attributes are read on their own and no two count as one type.
-/

namespace TinyCrypto.Cms

open Tlv Pki
open Library Library.Program Library.Metered

def SignedAttributes.nothing : SignedAttributes := ⟨none, none, [], none, none, none, none, none, none⟩

def SignedAttributes.join (parsed said : SignedAttributes) : SignedAttributes where
  contentType := said.contentType.or parsed.contentType
  messageDigest := said.messageDigest.or parsed.messageDigest
  signatureInput := parsed.signatureInput
  signingTime := said.signingTime.or parsed.signingTime
  smimeCapabilities := said.smimeCapabilities.or parsed.smimeCapabilities
  signerName := said.signerName.or parsed.signerName
  fascnOid := said.fascnOid.or parsed.fascnOid
  fascnOctets := said.fascnOctets.or parsed.fascnOctets
  entryUuidOctets := said.entryUuidOctets.or parsed.entryUuidOctets

def SignedAttributes.has (parsed : SignedAttributes) : AttributeKind → Bool
  | .contentType => parsed.contentType.isSome
  | .messageDigest => parsed.messageDigest.isSome
  | .signingTime => parsed.signingTime.isSome
  | .smimeCapabilities => parsed.smimeCapabilities.isSome
  | .entryUuid => parsed.entryUuidOctets.isSome
  | .signerName => parsed.signerName.isSome
  | .fascn => parsed.fascnOctets.isSome
  | .listed | .excluded | .other => false

def AttributeKind.oid : AttributeKind → Option Bytes
  | .contentType => some contentTypeOid
  | .messageDigest => some messageDigestOid
  | .signingTime => some (pkcs9 ++ [5])
  | .smimeCapabilities => some (pkcs9 ++ [15])
  | .entryUuid => some Cms.entryUuid
  | .signerName => some pivSignerName
  | .fascn => some pivFascn
  | .listed | .excluded | .other => none

structure SignedAttributes.OnlyOf (said : SignedAttributes) (kind : AttributeKind) : Prop where
  contentType : kind ≠ .contentType → said.contentType = none
  messageDigest : kind ≠ .messageDigest → said.messageDigest = none
  signingTime : kind ≠ .signingTime → said.signingTime = none
  smimeCapabilities : kind ≠ .smimeCapabilities → said.smimeCapabilities = none
  signerName : kind ≠ .signerName → said.signerName = none
  fascn : kind ≠ .fascn → said.fascnOid = none ∧ said.fascnOctets = none
  entryUuid : kind ≠ .entryUuid → said.entryUuidOctets = none

open SignedAttributes (has nothing join)

theorem onlyOf_nothing (kind : AttributeKind) : nothing.OnlyOf kind :=
  ⟨fun _ => rfl, fun _ => rfl, fun _ => rfl, fun _ => rfl, fun _ => rfl, fun _ => ⟨rfl, rfl⟩, fun _ => rfl⟩

theorem join_nothing (parsed : SignedAttributes) : parsed.join .nothing = parsed := rfl

theorem has_join (parsed said : SignedAttributes) (kind : AttributeKind) :
    (parsed.join said).has kind = (said.has kind || parsed.has kind) := by
  cases kind <;> simp [has, join, Option.isSome_or]

theorem SignedAttributes.OnlyOf.has {said : SignedAttributes} {kind kind' : AttributeKind}
    (only : said.OnlyOf kind) (set : said.has kind' = true) : kind = kind' := by
  by_contra other
  unfold SignedAttributes.has at set
  cases kind' with
  | contentType => rw [only.contentType other] at set; cases set
  | messageDigest => rw [only.messageDigest other] at set; cases set
  | signingTime => rw [only.signingTime other] at set; cases set
  | smimeCapabilities => rw [only.smimeCapabilities other] at set; cases set
  | entryUuid => rw [only.entryUuid other] at set; cases set
  | signerName => rw [only.signerName other] at set; cases set
  | fascn => rw [(only.fascn other).2] at set; cases set
  | listed | excluded | other => cases set

theorem or_left_comm {A : Type} {a b p : Option A} (disjoint : a = none ∨ b = none) :
    b.or (a.or p) = a.or (b.or p) := by
  rcases disjoint with rfl | rfl
  · rw [Option.none_or, Option.none_or]
  · rw [Option.none_or, Option.none_or]

theorem join_comm {one two : SignedAttributes} {kind kind' : AttributeKind} (first : one.OnlyOf kind)
    (second : two.OnlyOf kind') (other : kind ≠ kind') (parsed : SignedAttributes) :
    (parsed.join one).join two = (parsed.join two).join one := by
  have apart {A : Type} {target : AttributeKind} {a b : Option A} (left : kind ≠ target → a = none)
      (right : kind' ≠ target → b = none) : a = none ∨ b = none := by
    by_cases same : kind = target
    · exact .inr (right fun same' => other (same.trans same'.symm))
    · exact .inl (left same)
  simp only [join, SignedAttributes.mk.injEq]
  exact ⟨or_left_comm (apart first.contentType second.contentType),
    or_left_comm (apart first.messageDigest second.messageDigest), trivial,
    or_left_comm (apart first.signingTime second.signingTime),
    or_left_comm (apart first.smimeCapabilities second.smimeCapabilities),
    or_left_comm (apart first.signerName second.signerName),
    or_left_comm (apart (fun target => (first.fascn target).1) fun target => (second.fascn target).1),
    or_left_comm (apart (fun target => (first.fascn target).2) fun target => (second.fascn target).2),
    or_left_comm (apart first.entryUuid second.entryUuid)⟩

/-- The type that an attribute counts as: under the combined set twicFASC-N counts as pivFASC-N. -/
def countedType (oids : AttributeOids) (oid : Bytes) : Bytes :=
  if oids = .pivTwic ∧ oid = twicFascn then pivFascn else oid

variable {oids : AttributeOids}

theorem countedType_of_ne {oid : Bytes} (plain : oid ≠ twicFascn) :
    countedType oids oid = oid := if_neg fun both => plain both.2

theorem pkcs9Classify_oid {arcs counted : Bytes} (kind : (pkcs9Classify arcs).oid = some counted) :
    pkcs9 ++ arcs = counted := by
  unfold pkcs9Classify at kind
  split at kind <;> first | exact Option.some.inj kind | cases kind

theorem classify_counted {twic : Bool} {oid counted : Bytes}
    (kind : (attributeClassify twic oid oids).oid = some counted) : countedType oids oid = counted := by
  unfold attributeClassify at kind
  split at kind
  · rename_i named
    cases kind
    rw [Bool.and_eq_true, decide_eq_true_eq, decide_eq_true_eq] at named
    rw [named.2, countedType_of_ne (by decide)]
  split at kind
  · rename_i named
    cases kind
    rw [Bool.and_eq_true, decide_eq_true_eq, decide_eq_true_eq] at named
    rw [named.2, countedType_of_ne (by decide)]
  split at kind
  · rename_i named
    rw [Bool.and_eq_true, Bool.and_eq_true, decide_eq_true_eq, decide_eq_true_eq] at named
    split at kind
    · rename_i combined
      cases kind
      exact if_pos ⟨combined, named.2⟩
    · cases kind
  split at kind
  · rename_i named
    cases kind
    rw [named, countedType_of_ne (by decide)]
  split at kind
  · cases kind
  · rename_i within
    simp only [Bool.or_eq_true, decide_eq_true_eq, not_or, not_le, ne_eq, not_not] at within
    have joined := List.take_append_drop pkcs9.length oid
    rw [within.2] at joined
    have counts := pkcs9Classify_oid kind
    rw [← counts, joined]
    refine countedType_of_ne ?_
    rintro rfl
    exact absurd within.2 (by decide)

theorem classify_countedType {twic : Bool} (valid : oids = .pivTwic → twic = true)
    (oid : Bytes) : attributeClassify twic (countedType oids oid) oids = attributeClassify twic oid oids := by
  unfold countedType
  split
  · rename_i both
    obtain ⟨rfl, rfl⟩ := both
    rw [valid rfl]
    decide
  · rfl

structure AttributeReaders.AreReliable (readers : AttributeReaders) : Prop where
  name : ∀ profile encoded, Reliable (readers.name profile encoded)
  capabilities : ∀ profile encoded, Reliable (readers.capabilities profile encoded)

section

variable {D : Type} {tree : Workspace} {profile : Profile} {readers : AttributeReaders}
  {policy : VerificationPolicy} {kind : AttributeKind} {before oid : Bytes} {value : ProfileElement}
  {parsed said : SignedAttributes}

theorem expect_reliable (tag : UInt8) (reader : Reader) :
    Reliable (expect tree profile tag reader : Metered Result D _) := by
  unfold expect
  split
  · exact reliable_ite (fun _ => reliable_pure) fun _ => reliable_throw
  · exact reliable_throw

theorem attributeRepeated_reliable : Reliable (attributeRepeated tree profile before oid : Metered Result D _) := by
  refine forElements_reliable (fun before e a => ?_) _
  refine .bind reliable_lift fun fields => (expect_reliable _ _).bind fun type => ?_
  exact reliable_charge.bind fun _ => reliable_guard fun _ => reliable_pure

theorem attributeValuesOrder_reliable (values : Bytes) :
    Reliable (attributeValuesOrder tree profile values : Metered Result D _) := by
  unfold attributeValuesOrder
  refine reliable_ite (fun _ => reliable_pure) fun _ => .bind (forElements_reliable (fun before e a => ?_) _)
    fun _ => reliable_pure
  exact reliable_guard fun _ => reliable_pure

theorem octets_reliable (encoded : Bytes) : Reliable (locally id ⟨[], 0, 0, []⟩
      (octetsImplicit tree profile 4 (storeChunk tree.sizeMax none) encoded) : Metered Result D _) :=
  reliable_locally (f := id) (octetsWalk_unmetered (storeChunk_unmetered tree.sizeMax) encoded)

theorem attributeValue_reliable (reliable : readers.AreReliable) :
    Reliable (attributeValue tree profile readers kind before oid value parsed : Metered Result D _) := by
  cases kind with
  | contentType | messageDigest =>
    simp only [attributeValue]
    exact reliable_guard fun _ => reliable_pure
  | signingTime =>
    simp only [attributeValue]
    refine reliable_guard fun _ => ?_
    split
    · exact reliable_throw
    · exact reliable_guard fun _ => reliable_pure
  | fascn | entryUuid =>
    simp only [attributeValue]
    refine reliable_guard fun _ => (octets_reliable _).bind fun _ => ?_
    exact reliable_guard fun _ => reliable_pure
  | signerName =>
    simp only [attributeValue]
    refine reliable_guard fun _ => ?_
    exact .bind (reliable_borrow (f := id) (reliable.name _ _)) fun _ => reliable_pure
  | smimeCapabilities =>
    simp only [attributeValue]
    refine reliable_guard fun _ => ?_
    exact .bind (reliable_borrow (f := id) (reliable.capabilities _ _)) fun _ => reliable_pure
  | listed | excluded | other =>
    simp only [attributeValue]
    exact reliable_guard fun _ => attributeRepeated_reliable.bind fun _ => reliable_pure

theorem gives_refuse {A B : Type} {c : Prop} [Decidable c] {e : Result} {next : B → Metered Result D A}
    {m : Metered Result D A} {a : A} {s s' : Budgeted D} :
    Gives (if c then throw e >>= next else m) s a s' ↔ ¬c ∧ Gives m s a s' := by
  by_cases holds : c
  · simp [holds]
  · simp [holds]

theorem attributeValue_gives {s s' : Budgeted D} {parsed' : SignedAttributes} (own : kind.oid.isSome = true) :
    Gives (attributeValue tree profile readers kind before oid value parsed) s parsed' s' ↔
      parsed.has kind = false ∧ ∃ said,
        Gives (attributeValue tree profile readers kind [] oid value .nothing) s said s' ∧
        parsed' = parsed.join said := by
  cases kind with
  | listed | excluded | other => cases own
  | contentType | messageDigest =>
    simp only [attributeValue, gives_refuse, gives_pure, has]
    constructor
    · rintro ⟨checked, rfl, rfl⟩
      simp only [Bool.or_eq_true, not_or, Bool.not_eq_true] at checked
      exact ⟨checked.1.1, _, ⟨by simp [nothing, checked.1.2, checked.2], rfl, rfl⟩, rfl⟩
    · rintro ⟨unset, said, ⟨checked, rfl, rfl⟩, rfl⟩
      simp only [nothing, Option.isSome_none, Bool.false_or] at checked
      exact ⟨by rwa [unset, Bool.false_or], rfl, rfl⟩
  | signingTime =>
    simp only [attributeValue, gives_refuse, has]
    cases X509.timeValue value.header.tag value.value with
    | none => simp
    | some time =>
      simp only [gives_refuse, gives_pure]
      constructor
      · rintro ⟨unset, checked, rfl, rfl⟩
        exact ⟨by simpa using unset, _, ⟨by simp [nothing], checked, rfl, rfl⟩, rfl⟩
      · rintro ⟨unset, said, ⟨-, checked, rfl, rfl⟩, rfl⟩
        exact ⟨by simp [unset], checked, rfl, rfl⟩
  | fascn | entryUuid =>
    simp only [attributeValue, gives_refuse, gives_bind, gives_pure, has]
    constructor
    · rintro ⟨unset, octets, middle, given, sized, rfl, rfl⟩
      exact ⟨by simpa using unset, _, ⟨by simp [nothing], octets, middle, given, sized,
        rfl, rfl⟩, rfl⟩
    · rintro ⟨unset, said, ⟨-, octets, middle, given, sized, rfl, rfl⟩, rfl⟩
      exact ⟨by simp [unset], octets, middle, given, sized, rfl, rfl⟩
  | signerName | smimeCapabilities =>
    simp only [attributeValue, gives_refuse, gives_bind, gives_pure, has]
    constructor
    · rintro ⟨unset, u, middle, given, rfl, rfl⟩
      exact ⟨by simpa using unset, _, ⟨by simp [nothing], u, middle, given, rfl, rfl⟩, rfl⟩
    · rintro ⟨unset, said, ⟨-, u, middle, given, rfl, rfl⟩, rfl⟩
      exact ⟨by simp [unset], u, middle, given, rfl, rfl⟩

theorem attributeValue_sets {s s' : Budgeted D} (own : kind.oid.isSome = true)
    (given : Gives (attributeValue tree profile readers kind [] oid value .nothing) s said s') :
    said.has kind = true ∧ said.OnlyOf kind := by
  cases kind with
  | listed | excluded | other => cases own
  | contentType | messageDigest =>
    simp only [attributeValue, gives_refuse, gives_pure] at given
    obtain ⟨-, rfl, -⟩ := given
    refine ⟨rfl, ?_⟩
    constructor <;> intro other <;> first | exact absurd rfl other | rfl | exact ⟨rfl, rfl⟩
  | signingTime =>
    simp only [attributeValue, gives_refuse] at given
    cases time : X509.timeValue value.header.tag value.value with
    | none => simp [time] at given
    | some time =>
      simp only [time, gives_refuse, gives_pure] at given
      obtain ⟨-, -, rfl, -⟩ := given
      refine ⟨rfl, ?_⟩
      constructor <;> intro other <;> first | exact absurd rfl other | rfl | exact ⟨rfl, rfl⟩
  | fascn | entryUuid =>
    simp only [attributeValue, gives_refuse, gives_bind, gives_pure] at given
    obtain ⟨-, _, _, -, -, rfl, -⟩ := given
    refine ⟨rfl, ?_⟩
    constructor <;> intro other <;> first | exact absurd rfl other | rfl | exact ⟨rfl, rfl⟩
  | signerName | smimeCapabilities =>
    simp only [attributeValue, gives_refuse, gives_bind, gives_pure] at given
    obtain ⟨-, _, _, -, rfl, -⟩ := given
    refine ⟨rfl, ?_⟩
    constructor <;> intro other <;> first | exact absurd rfl other | rfl | exact ⟨rfl, rfl⟩

end

section

variable (tree : Workspace) (profile : Profile) (readers : AttributeReaders) (policy : VerificationPolicy)

structure Says (kind : AttributeKind) (oid values : Bytes) (said : SignedAttributes) : Prop where
  admitted : (kind = .excluded || (kind = .listed && policy.otherAttributes = .reject) ||
    (kind = .other && policy.otherAttributes ≠ .skipAll)) = false
  only : said.OnlyOf kind
  sets : kind.oid.isSome = true → said.has kind = true
  quiet : kind.oid = none → said = .nothing
  ordered : kind = .other → Pays (attributeValuesOrder tree profile values : Metered Result Unit Unit) ()
  single : kind ≠ .other → ∃ reader value rest,
    profileInit (reading tree profile) tree.limits values = .ok reader ∧
    nextProfile (reading tree profile) tree.limits reader = .ok (value, rest) ∧ rest.rest = [] ∧
    (kind.oid.isSome = true →
      Pays (attributeValue tree profile readers kind [] oid value .nothing : Metered Result Unit _) said) ∧
    (kind.oid = none → value.tagIs 0x30 = true)

structure Reads (member : ProfileElement) (oid : Bytes) (said : SignedAttributes) : Prop where
  sequence : member.tagIs 0x30 = true
  parts : ∃ fields type set after last, profileInit (reading tree profile) tree.limits member.value = .ok fields ∧
    nextProfile (reading tree profile) tree.limits fields = .ok (type, after) ∧ type.tagIs 6 = true ∧
    type.value = oid ∧ oidContents oid = true ∧
    nextProfile (reading tree profile) tree.limits after = .ok (set, last) ∧ set.tagIs 0x31 = true ∧
    last.rest = [] ∧ set.value ≠ [] ∧
    Says tree profile readers policy (attributeClassify readers.twic oid policy.attributeOids) oid set.value said

structure Fresh (done : List ProfileElement) (oid : Bytes) (parsed : SignedAttributes) : Prop where
  field : parsed.has (attributeClassify readers.twic oid policy.attributeOids) = false
  type : (attributeClassify readers.twic oid policy.attributeOids).oid = none →
    ∀ e ∈ done, attributeType (reading tree profile) tree.limits e ≠ some oid

end

section

variable {tree : Workspace} {profile : Profile} {readers : AttributeReaders} {policy : VerificationPolicy}
  {kind : AttributeKind} {oid values : Bytes} {parsed parsed' said : SignedAttributes}
  {done : List ProfileElement} {member : ProfileElement} {s s' : Budgeted Unit}

theorem Reads.type (reads : Reads tree profile readers policy member oid said) :
    attributeType (reading tree profile) tree.limits member = some oid := by
  obtain ⟨fields, type, set, after, last, opened, found, -, same, -⟩ := reads.parts
  rw [attributeType, ← profileInit_ok opened, found, ← same]

theorem Reads.saying (reads : Reads tree profile readers policy member oid said) :
    ∃ values, Says tree profile readers policy
      (attributeClassify readers.twic oid policy.attributeOids) oid values said := by
  obtain ⟨_, _, set, _, _, -, -, -, -, -, -, -, -, -, said_⟩ := reads.parts
  exact ⟨set.value, said_⟩

theorem attributeRepeated_gives (configured : config tree.ber profile = .ok)
    (valid : ∀ e ∈ done, e.Valid (reading tree profile) tree.limits)
    (size : (encodings done).length ≤ tree.limits.maxInput)
    (given : Gives (attributeRepeated tree profile (encodings done) oid : Metered Result Unit Unit) s () s') :
    ∀ e ∈ done, attributeType (reading tree profile) tree.limits e ≠ some oid := by
  have read := forElements_gives
    (fun seen _ _ => ∀ e ∈ seen, attributeType (reading tree profile) tree.limits e ≠ some oid) given
    (fun _ none => by cases none) ?_
  · obtain ⟨elements, joined, each, others⟩ := read
    rwa [siblings_unique configured each valid (joined ▸ size) joined] at others
  · intro seen e _ s _ s' _ others step
    simp only [gives_bind, gives_lift] at step
    obtain ⟨fields, _, ⟨opened, rfl⟩, ⟨type, after⟩, _, first, _, _, -, step⟩ := step
    split at step
    · simp at step
    rename_i other
    intro e' within same
    rw [List.mem_append, List.mem_singleton] at within
    rcases within with earlier | rfl
    · exact others e' earlier same
    · rw [attributeType, ← profileInit_ok opened, (expect_gives first).1] at same
      exact other (Option.some.inj same)

theorem attributeRepeated_pays (configured : config tree.ber profile = .ok)
    (valid : ∀ e ∈ done, e.Valid (reading tree profile) tree.limits)
    (size : (encodings done).length ≤ tree.limits.maxInput) (room : done.length ≤ tree.limits.maxElements)
    (reads : ∀ e ∈ done, ∃ other said, Reads tree profile readers policy e other said ∧ other ≠ oid) :
    Pays (attributeRepeated tree profile (encodings done) oid : Metered Result Unit Unit) () := by
  suffices run : ∃ u, Pays (attributeRepeated tree profile (encodings done) oid : Metered Result Unit Unit) u ∧
      True from run.elim fun _ paid => paid.1
  refine forElements_pays (fun _ _ => True) configured valid size room trivial ?_
  intro before e after _ split _
  obtain ⟨other, said, ⟨-, fields, type, set, next, last, opened, found, tagged, same, -⟩, differs⟩ :=
    reads e (by rw [split]; exact List.mem_append_right _ (List.mem_cons_self ..))
  refine ⟨(), pays_bind (pays_lift opened) ?_, trivial⟩
  have expected : Pays (expect tree profile 6 fields : Metered Result Unit _) (type, next) := by
    rw [expect, found]
    dsimp only
    rw [if_pos tagged]
    exact pays_pure
  refine pays_bind expected (pays_bind pays_charge ?_)
  rw [if_neg (by rwa [same])]
  exact pays_pure

theorem pays_gives {A : Type} {m : Metered Result Unit A} {a : A} (pays : Pays m a) :
    ∃ s s', Gives m s a s' := by
  obtain ⟨cost, paid⟩ := pays
  obtain ⟨left, given, -⟩ := paid ⟨cost, ()⟩ le_rfl
  exact ⟨_, _, given⟩

theorem attributeValues_reads (reliable : readers.AreReliable) (configured : config tree.ber profile = .ok)
    (valid : ∀ e ∈ done, e.Valid (reading tree profile) tree.limits)
    (size : (encodings done).length ≤ tree.limits.maxInput)
    (classified : attributeClassify readers.twic oid policy.attributeOids = kind)
    (given : Gives (attributeValues tree profile readers policy kind (encodings done) oid values parsed) s
      parsed' s') : ∃ said, Says tree profile readers policy kind oid values said ∧
      Fresh tree profile readers policy done oid parsed ∧ parsed' = parsed.join said := by
  simp only [attributeValues, gives_refuse] at given
  obtain ⟨admitted, given⟩ := given
  rw [Bool.not_eq_true] at admitted
  by_cases other : kind = .other
  · simp only [if_pos other, gives_bind, gives_pure] at given
    obtain ⟨_, _, ordered, _, _, fresh, rfl, rfl⟩ := given
    refine ⟨.nothing, ⟨admitted, onlyOf_nothing _, ?_, fun _ => rfl, fun _ =>
      attributeValuesOrder_reliable values ordered, fun differs => absurd other differs⟩, ⟨?_, fun _ =>
        attributeRepeated_gives configured valid size fresh⟩, rfl⟩
    · rw [other]
      exact fun own => absurd own (by decide)
    · rw [classified, other]
      rfl
  · simp only [if_neg other, gives_bind, gives_lift] at given
    obtain ⟨reader, _, ⟨opened, rfl⟩, given⟩ := given
    split at given
    · simp at given
    rename_i value rest found
    simp only [gives_refuse] at given
    obtain ⟨ended, given⟩ := given
    rw [ne_eq, not_not] at ended
    cases own : kind.oid with
    | some counted =>
      have isOwn : kind.oid.isSome = true := by rw [own]; rfl
      obtain ⟨unset, said, alone, rfl⟩ := (attributeValue_gives isOwn).mp given
      obtain ⟨sets, only⟩ := attributeValue_sets isOwn alone
      refine ⟨said, ⟨admitted, only, fun _ => sets, fun none => ?_, fun same => absurd same other, fun _ =>
        ⟨reader, value, rest, opened, found, ended, fun _ => attributeValue_reliable reliable alone,
          fun none => ?_⟩⟩, ⟨by rwa [classified], fun none => ?_⟩, rfl⟩
      · rw [own] at none
        cases none
      · rw [own] at none
        cases none
      · rw [classified, own] at none
        cases none
    | none =>
      have listed : kind = .listed := by
        cases kind with
        | listed => rfl
        | excluded => cases admitted
        | other => exact absurd rfl other
        | _ => cases own
      subst listed
      simp only [attributeValue, gives_refuse, gives_bind, gives_pure] at given
      obtain ⟨tagged, _, _, fresh, rfl, rfl⟩ := given
      refine ⟨.nothing, ⟨admitted, onlyOf_nothing _, fun own => absurd own (by decide), fun _ => rfl, fun same =>
        absurd same other, fun _ => ⟨reader, value, rest, opened, found, ended, fun own =>
          absurd own (by decide), fun _ => ?_⟩⟩, ⟨by rw [classified]; rfl, fun _ =>
            attributeRepeated_gives configured valid size fresh⟩, rfl⟩
      simpa using tagged

theorem attributeStep_reads (reliable : readers.AreReliable) (configured : config tree.ber profile = .ok)
    (valid : ∀ e ∈ done, e.Valid (reading tree profile) tree.limits)
    (size : (encodings done).length ≤ tree.limits.maxInput) {state state' : AttributeLoop}
    (given : Gives (attributeStep tree profile readers policy (encodings done) member state) s state' s') :
    ∃ oid said, Reads tree profile readers policy member oid said ∧
      Fresh tree profile readers policy done oid state.parsed ∧
      state' = ⟨some member.encoded, state.parsed.join said⟩ ∧
      (policy.attributes = .der → state.previous.elim false (compareGreater · member.encoded) = false) := by
  simp only [attributeStep, gives_bind, gives_charge, gives_refuse, gives_lift, gives_pure] at given
  obtain ⟨_, _, ⟨_, rfl⟩, placed, fields, _, ⟨opened, rfl⟩, ⟨type, after⟩, _, first, contents,
    ⟨set, last⟩, _, second, closed, parsed, _, values, rfl, rfl⟩ := given
  obtain ⟨found, tagged⟩ := expect_gives first
  obtain ⟨found', tagged'⟩ := expect_gives second
  simp only [Bool.or_eq_true, Bool.not_eq_true', Bool.and_eq_true, decide_eq_true_eq, not_or,
    Bool.not_eq_false, ne_eq, not_not, not_and, Bool.not_eq_true] at placed closed contents
  obtain ⟨said, saying, fresh, rfl⟩ := attributeValues_reads reliable configured valid size rfl values
  exact ⟨type.value, said, ⟨placed.1, fields, type, set, after, last, opened, found, tagged, rfl, contents,
    found', tagged', closed.1, closed.2, saying⟩, fresh, rfl, placed.2⟩

theorem attributeStep_pays (reliable : readers.AreReliable) (configured : config tree.ber profile = .ok)
    (valid : ∀ e ∈ done, e.Valid (reading tree profile) tree.limits)
    (size : (encodings done).length ≤ tree.limits.maxInput) (room : done.length ≤ tree.limits.maxElements)
    (unordered : policy.attributes ≠ .der) (reads : Reads tree profile readers policy member oid said)
    (fresh : Fresh tree profile readers policy done oid parsed)
    (earlier : ∀ e ∈ done, ∃ other said, Reads tree profile readers policy e other said)
    (previous : Option Bytes) :
    Pays (attributeStep tree profile readers policy (encodings done) member ⟨previous, parsed⟩ :
      Metered Result Unit _) ⟨some member.encoded, parsed.join said⟩ := by
  obtain ⟨sequence, fields, type, set, after, last, opened, found, tagged, rfl, contents, found', tagged',
    closed, nonempty, saying⟩ := reads
  have repeated (quiet : (attributeClassify readers.twic type.value policy.attributeOids).oid = none) :
      Pays (attributeRepeated tree profile (encodings done) type.value : Metered Result Unit Unit) () := by
    have others : ∀ e ∈ done, ∃ other said,
        Reads tree profile readers policy e other said ∧ other ≠ type.value := by
      intro e within
      obtain ⟨other, said, here⟩ := earlier e within
      refine ⟨other, said, here, fun same => fresh.type quiet e within ?_⟩
      rw [here.type, same]
    exact attributeRepeated_pays configured valid size room others
  have expected {tag : UInt8} {from_ : Reader} {e : ProfileElement} {rest : Reader}
      (read : nextProfile (reading tree profile) tree.limits from_ = .ok (e, rest)) (has : e.tagIs tag = true) :
      Pays (expect tree profile tag from_ : Metered Result Unit _) (e, rest) := by
    rw [expect, read]
    dsimp only
    rw [if_pos has]
    exact pays_pure
  have said_ : Pays (attributeValues tree profile readers policy
      (attributeClassify readers.twic type.value policy.attributeOids) (encodings done) type.value set.value
      parsed : Metered Result Unit _) (parsed.join said) := by
    have unset := fresh.field
    generalize attributeClassify readers.twic type.value policy.attributeOids = kind at *
    simp only [attributeValues]
    rw [if_neg (by rw [saying.admitted]; exact Bool.false_ne_true)]
    by_cases other : kind = .other
    · have quiet : kind.oid = none := by rw [other]; rfl
      rw [if_pos other, saying.quiet quiet, join_nothing]
      exact pays_bind (saying.ordered other) (pays_bind (repeated quiet) pays_pure)
    · obtain ⟨reader, value, rest, started, read, ended, alone, listed⟩ := saying.single other
      rw [if_neg other]
      refine pays_bind (pays_lift started) ?_
      rw [read]
      dsimp only
      rw [if_neg (not_not.mpr ended)]
      cases own : kind.oid with
      | some counted =>
        have isOwn : kind.oid.isSome = true := by rw [own]; rfl
        obtain ⟨s, s', given⟩ := pays_gives (alone isOwn)
        exact attributeValue_reliable reliable ((attributeValue_gives isOwn).mpr ⟨unset, said, given, rfl⟩)
      | none =>
        have tagged := listed own
        rw [saying.quiet own, join_nothing]
        have admitted := saying.admitted
        cases kind with
        | listed =>
          simp only [attributeValue]
          rw [if_neg (by rw [tagged]; exact Bool.false_ne_true)]
          exact pays_bind (repeated rfl) pays_pure
        | excluded => cases admitted
        | other => exact absurd rfl other
        | _ => cases own
  simp only [attributeStep]
  refine pays_bind pays_charge ?_
  rw [if_neg (by simp [sequence, unordered])]
  refine pays_bind (pays_lift opened) (pays_bind (expected found tagged) ?_)
  dsimp only
  rw [if_neg (by simp [contents])]
  refine pays_bind (expected found' tagged') ?_
  dsimp only
  rw [if_neg (by simp [closed, nonempty])]
  exact pays_bind said_ pays_pure

end

structure Attribute where
  member : ProfileElement
  oid : Bytes
  said : SignedAttributes

def saidTogether (parsed : SignedAttributes) (attributes : List Attribute) : SignedAttributes :=
  attributes.foldl (fun parsed a => parsed.join a.said) parsed

section

variable (tree : Workspace) (profile : Profile) (readers : AttributeReaders) (policy : VerificationPolicy)

structure Distinct (attributes : List Attribute) : Prop where
  valid : ∀ a ∈ attributes, a.member.Valid (reading tree profile) tree.limits
  reads : ∀ a ∈ attributes, Reads tree profile readers policy a.member a.oid a.said
  once : (attributes.map fun a => countedType policy.attributeOids a.oid).Nodup

end

section

variable {tree : Workspace} {profile : Profile} {readers : AttributeReaders} {policy : VerificationPolicy}
  {attributes attributes' : List Attribute} {oid : Bytes} {parsed : SignedAttributes}

theorem has_saidTogether (kind : AttributeKind) : (saidTogether parsed attributes).has kind =
    (parsed.has kind || attributes.any fun a => a.said.has kind) := by
  induction attributes generalizing parsed with
  | nil => simp [saidTogether]
  | cons a rest ih =>
    have later := @ih (parsed.join a.said)
    rw [saidTogether] at later ⊢
    rw [List.foldl_cons, later, has_join, List.any_cons, Bool.or_comm (a.said.has kind), Bool.or_assoc]

theorem counted_of_quiet (twic : policy.attributeOids = .pivTwic → readers.twic = true)
    (quiet : (attributeClassify readers.twic oid policy.attributeOids).oid = none) :
    countedType policy.attributeOids oid = oid := by
  refine if_neg ?_
  rintro ⟨combined, rfl⟩
  rw [combined, twic combined] at quiet
  exact absurd quiet (by decide)

theorem fresh_iff (twic : policy.attributeOids = .pivTwic → readers.twic = true)
    (reads : ∀ a ∈ attributes, Reads tree profile readers policy a.member a.oid a.said) :
    Fresh tree profile readers policy (attributes.map Attribute.member) oid (saidTogether .nothing attributes) ↔
      ∀ a ∈ attributes, countedType policy.attributeOids a.oid ≠ countedType policy.attributeOids oid := by
  have empty (kind : AttributeKind) : nothing.has kind = false := by cases kind <;> rfl
  constructor
  · intro fresh a within same
    have kinds : attributeClassify readers.twic a.oid policy.attributeOids =
        attributeClassify readers.twic oid policy.attributeOids := by
      rw [← classify_countedType twic a.oid, same, classify_countedType twic]
    obtain ⟨values, saying⟩ := (reads a within).saying
    cases own : (attributeClassify readers.twic oid policy.attributeOids).oid with
    | some counted =>
      have sets := saying.sets (by rw [kinds, own]; rfl)
      have unset := fresh.field
      rw [has_saidTogether, empty, Bool.false_or, List.any_eq_false] at unset
      exact unset a within (kinds ▸ sets)
    | none =>
      rw [counted_of_quiet twic (kinds ▸ own), counted_of_quiet twic own] at same
      exact fresh.type own a.member (List.mem_map_of_mem within) (same ▸ (reads a within).type)
  · intro others
    refine ⟨?_, ?_⟩
    · rw [has_saidTogether, empty, Bool.false_or, List.any_eq_false]
      intro a within set
      obtain ⟨values, saying⟩ := (reads a within).saying
      have kinds := saying.only.has set
      cases own : (attributeClassify readers.twic oid policy.attributeOids).oid with
      | some counted =>
        exact others a within ((classify_counted (kinds ▸ own)).trans (classify_counted own).symm)
      | none =>
        generalize attributeClassify readers.twic oid policy.attributeOids = kind at set own
        cases kind <;> first | cases set | cases own
    · intro _ e within same
      obtain ⟨a, member, rfl⟩ := List.mem_map.mp within
      rw [(reads a member).type, Option.some.injEq] at same
      exact others a member (same ▸ rfl)

section

variable (distinct : Distinct tree profile readers policy attributes)

include distinct

theorem saidTogether_perm (perm : attributes.Perm attributes') :
    saidTogether parsed attributes = saidTogether parsed attributes' := by
  refine perm.foldl_eq' ?_ parsed
  intro a within b within' parsed
  by_cases same : countedType policy.attributeOids a.oid = countedType policy.attributeOids b.oid
  · rw [List.inj_on_of_nodup_map distinct.once within within' same]
  · obtain ⟨values, saying⟩ := (distinct.reads a within).saying
    obtain ⟨values', saying'⟩ := (distinct.reads b within').saying
    by_cases kinds : attributeClassify readers.twic a.oid policy.attributeOids =
        attributeClassify readers.twic b.oid policy.attributeOids
    · cases own : (attributeClassify readers.twic a.oid policy.attributeOids).oid with
      | some counted => exact absurd ((classify_counted own).trans (classify_counted (kinds ▸ own)).symm) same
      | none => rw [saying.quiet own, saying'.quiet (kinds ▸ own)]
    · exact join_comm saying.only saying'.only kinds parsed

theorem Distinct.members :
    ∀ e ∈ attributes.map Attribute.member, e.Valid (reading tree profile) tree.limits := by
  intro e within
  obtain ⟨a, found, rfl⟩ := List.mem_map.mp within
  exact distinct.valid a found

theorem Distinct.perm (perm : attributes.Perm attributes') :
    Distinct tree profile readers policy attributes' where
  valid a within := distinct.valid a (perm.mem_iff.mpr within)
  reads a within := distinct.reads a (perm.mem_iff.mpr within)
  once := (perm.map _).nodup_iff.mp distinct.once

end

end

end TinyCrypto.Cms
