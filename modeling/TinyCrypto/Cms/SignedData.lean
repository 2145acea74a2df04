import TinyCrypto.Cms.Signer
import TinyCrypto.Crl.Entries
import TinyCrypto.Library.Together

/-! # The version of SignedData

`tc_cms_signed_data_check`: all certificates, revocations and signers are read, the version that
they require is compared with the one stated (RFC 5652 5.1), and one signer is selected.
-/

namespace TinyCrypto.Cms

open Tlv Pki
open Library Library.Program Library.Metered

/-- `TC_CMS_signer_info`. An absent field has no bytes. -/
structure SignerFields extends SignerInfo where
  encoded : Bytes
  issuer : Bytes
  serial : Bytes
  subjectKeyId : Bytes
  unsignedAttributes : Bytes
  version : Nat
  serialNegative : Bool
  deriving DecidableEq

/-- The fields of `TC_CMS_signed_data` that the check reads. -/
structure SignedData where
  contentType : Bytes
  certificates : Bytes
  revocations : Bytes
  signers : Bytes
  version : Nat
  deriving DecidableEq

/-- `tc_cms_certificate_kind`. -/
inductive CertificateKind where
  | x509
  | extended
  | attributeV1
  | attributeV2
  | other
  deriving DecidableEq

structure DataReaders where
  tree : Workspace
  /-- `tc_pki_tree_read`. -/
  treeRead : Profile → Bytes → Metered Result Unit ProfileElement
  /-- `tc_pki_tree_name`. -/
  name : Profile → Bytes → Metered Result Unit Unit

abbrev DataProgram := Metered Result Unit

/-- The number loop of `TC_DER_uint32_contents`. -/
def uint32Octets : (n : Nat) → Bytes → Except Result Nat
  | n, [] => .ok n
  | n, b :: rest =>
    if n > (2 ^ 32 - 1 - b.toNat) / 256 then .error .limit
    else uint32Octets (n * 256 + b.toNat) rest

/-- `TC_DER_uint32_contents`. -/
def uint32Contents (contents : Bytes) : Except Result Nat :=
  if !Crl.integerContents contents then .error .invalid
  else if (contents.getD 0 0).toNat ≥ 128 then .error .invalid
  else uint32Octets 0 contents

/-- `tc_cms_classify_certificate`. -/
def classifyCertificate (element : ProfileElement) : Except Result CertificateKind :=
  if element.tagIs 0x30 then .ok .x509
  else if element.tagIs 0xa0 then .ok .extended
  else if element.tagIs 0xa1 then .ok .attributeV1
  else if element.tagIs 0xa2 then .ok .attributeV2
  else if element.tagIs 0xa3 then .ok .other
  else .error .invalid

section

variable (c : DataReaders) (profile : Profile)

/-- `tc_pki_tree_next`. -/
def treeNext (reader : Reader) : DataProgram (ProfileElement × Reader) :=
  if reader.rest = [] then throw .end
  else if reader.elements ≥ c.tree.limits.maxElements then throw .limit
  else do
    let element ← c.treeRead profile reader.rest
    return (element, ⟨reader.rest.drop element.encoded.length, reader.elements + 1⟩)

/-- `tc_pki_tree_field`. -/
def treeField (tag : UInt8) (reader : Reader) : DataProgram (ProfileElement × Reader) := do
  match ← trial (treeNext c profile reader) with
  | .error e => throw (if e = .end then .invalid else e)
  | .ok (element, reader) =>
    if element.tagIs tag then return (element, reader) else throw .invalid

/-- `tc_pki_tree_open`. -/
def treeOpen (tag : UInt8) (input : Bytes) : DataProgram Reader := do
  let outer ← c.treeRead profile input
  if !outer.tagIs tag || !outer.header.constructed || outer.encoded.length ≠ input.length then
    throw .invalid
  lift (profileInit (reading c.tree profile) c.tree.limits outer.value)

/-- `tc_pki_tree_algorithm`. -/
def treeAlgorithm (input : Bytes) : DataProgram X509.Algorithm := do
  let fields ← treeOpen c profile 0x30 input
  let (oid, fields) ← treeField c profile 6 fields
  if !oidContents oid.value then throw .invalid
  if fields.rest = [] then return ⟨oid.value, []⟩
  let (value, fields) ← treeNext c profile fields
  if fields.rest ≠ [] then throw .invalid
  return ⟨oid.value, value.encoded⟩

/-- `tc_pki_octets_implicit` with `cms_octet_count`, where no octets are INVALID. -/
def octetsCounted (rootTag : UInt8) (encoded : Bytes) : DataProgram Unit := do
  let (_, octets) ← locally id ⟨[], 0, 0, []⟩
    (octetsImplicit c.tree profile rootTag (storeChunk c.tree.sizeMax none) encoded)
  if octets.length = 0 then throw .invalid

/-- The SignerIdentifier of `tc_cms_signer_info_read`: issuer, serial and key identifier. -/
def signerIdentifier (version : Nat) (element : ProfileElement) :
    DataProgram (Bytes × Bytes × Bytes) := do
  if element.tagIs 0x80 || element.tagIs 0xa0 then
    if version ≠ 3 then throw .invalid
    octetsCounted c profile 0x80 element.encoded
    return ([], [], element.encoded)
  if !element.tagIs 0x30 || version ≠ 1 then throw .invalid
  let identifier ← lift (profileInit (reading c.tree profile) c.tree.limits element.value)
  let (issuer, identifier) ← treeField c profile 0x30 identifier
  c.name profile issuer.encoded
  let (serial, identifier) ← treeField c profile 2 identifier
  if identifier.rest ≠ [] || !Crl.integerContents serial.value then throw .invalid
  return (issuer.encoded, serial.value, [])

def unsignedAttributes (fields : Reader) : DataProgram Bytes := do
  if fields.rest = [] then return []
  let (element, fields) ← treeField c profile 0xa1 fields
  if element.value = [] || fields.rest ≠ [] then throw .invalid
  return element.encoded

def signerFields (encoded : Bytes) : DataProgram SignerFields := do
  let fields ← treeOpen c profile 0x30 encoded
  let (element, fields) ← treeField c profile 2 fields
  let version ← lift (uint32Contents element.value)
  let (element, fields) ← treeNext c profile fields
  let (issuer, serial, subjectKeyId) ← signerIdentifier c profile version element
  let (element, fields) ← treeField c profile 0x30 fields
  let digestAlgorithm ← treeAlgorithm c profile element.encoded
  let (element, fields) ← treeNext c profile fields
  if element.tagIs 0xa0 && element.value = [] then throw .invalid
  let signedAttributes := if element.tagIs 0xa0 then element.encoded else []
  let (element, fields) ←
    if element.tagIs 0xa0 then treeNext c profile fields else pure (element, fields)
  if !element.tagIs 0x30 then throw .invalid
  let signatureAlgorithm ← treeAlgorithm c profile element.encoded
  let (signature, fields) ← treeNext c profile fields
  octetsCounted c profile 4 signature.encoded
  let unsignedAttributes ← unsignedAttributes c profile fields
  return { digestAlgorithm, signatureAlgorithm, signedAttributes, signature := signature.encoded,
           encoded, issuer, serial, subjectKeyId, unsignedAttributes, version,
           serialNegative := serial ≠ [] && (serial.getD 0 0).toNat ≥ 128 }

/-- `tc_cms_signer_info_read`, for DER or BER: an end is INVALID. -/
def signerInfoRead (encoded : Bytes) : DataProgram SignerFields := do
  let read ← trial (signerFields c profile encoded)
  lift (read.mapError fun e => if e = .end then .invalid else e)

/-- `while (!tc_pki_end(..))` over `tc_pki_tree_next`. A pass consumes a byte. -/
def treeLoop {A : Type} (body : ProfileElement → A → DataProgram A) :
    (passes : Nat) → Reader → A → DataProgram A
  | 0, _, a => pure a
  | passes + 1, reader, a =>
    if reader.rest = [] then pure a
    else do
      let (element, reader) ← treeNext c profile reader
      let a ← body element a
      treeLoop body passes reader a

def forTree {A : Type} (tag : UInt8) (body : ProfileElement → A → DataProgram A) (encoded : Bytes)
    (a : A) : DataProgram A := do
  let reader ← treeOpen c profile tag encoded
  treeLoop c profile body reader.rest.length reader a

end

def CertificateKind.version : CertificateKind → Nat
  | .other => 5
  | .attributeV2 => 4
  | .attributeV1 => 3
  | .x509 | .extended => 1

structure Selection where
  required : Nat
  index : Nat
  found : Option SignerFields
  deriving DecidableEq

/-- A signer that was read, in `tc_cms_signed_data_check`. -/
def Selection.take (select : Bool) (signer : SignerFields) (state : Selection) : Selection :=
  let required := if signer.version = 3 && state.required < 3 then 3 else state.required
  if select && state.found.isNone then
    if state.index ≠ 0 then { state with required, index := state.index - 1 }
    else { state with required, found := some signer }
  else { state with required }

section

variable (c : DataReaders) (profile : Profile)

/-- The certificates of `tc_cms_signed_data_check`. -/
def certificatesCheck (encoded : Bytes) (required : Nat) : DataProgram Nat :=
  if encoded = [] then pure required
  else
    forTree c profile 0xa0 (fun element required => do
      let kind ← lift (classifyCertificate element)
      return max required kind.version) encoded required

/-- The revocations of `tc_cms_signed_data_check`. -/
def revocationsCheck (encoded : Bytes) (required : Nat) : DataProgram Nat :=
  if encoded = [] then pure required
  else
    forTree c profile 0xa1 (fun element required =>
      if element.tagIs 0xa1 then pure 5
      else if !element.tagIs 0x30 then throw .invalid
      else pure required) encoded required

/-- The signers of `tc_cms_signed_data_check`. -/
def signersCheck (select : Bool) (encoded : Bytes) (state : Selection) : DataProgram Selection :=
  forTree c profile 0x31 (fun element state => do
    let signer ← signerInfoRead c profile element.encoded
    return Selection.take select signer state) encoded state

/-- `tc_cms_signed_data_check`, with the index of the signer to select if there is one. -/
def signedDataCheck (input : SignedData) (signerIndex : Option Nat) :
    DataProgram (Option SignerFields) := do
  if input.contentType = [] then throw .argument
  charge .limit input.contentType.length
  let required := if input.contentType = dataOid then 1 else 3
  let required ← certificatesCheck c profile input.certificates required
  let required ← revocationsCheck c profile input.revocations required
  let state ← signersCheck c profile signerIndex.isSome input.signers
    ⟨required, signerIndex.getD 0, none⟩
  if input.version = state.required && (signerIndex.isNone || state.found.isSome) then
    return state.found
  else throw .invalid

end

section

variable (c : DataReaders) (profile : Profile)

inductive ReadsTree : Reader → List ProfileElement → Prop
  | done {reader : Reader} (ended : reader.rest = []) : ReadsTree reader []
  | next {reader after : Reader} {e : ProfileElement} {rest : List ProfileElement}
      (read : Reaches (treeNext c profile reader) () (.ok (e, after)) ()) (some : e.encoded ≠ [])
      (later : ReadsTree after rest) : ReadsTree reader (e :: rest)

def ListsTree (tag : UInt8) (encoded : Bytes) (elements : List ProfileElement) : Prop :=
  ∃ reader, Reaches (treeOpen c profile tag encoded) () (.ok reader) () ∧
    ReadsTree c profile reader elements

def ListsIfAny (tag : UInt8) (encoded : Bytes) (elements : List ProfileElement) : Prop :=
  if encoded = [] then elements = [] else ListsTree c profile tag encoded elements

end

section

variable {c : DataReaders} {profile : Profile} {A : Type} {elements : List ProfileElement}
  {body : ProfileElement → A → DataProgram A} {steps : List (A → A)}

theorem treeNext_ok {reader after : Reader} {e : ProfileElement}
    (read : Reaches (treeNext c profile reader) () (.ok (e, after)) ()) :
    reader.rest ≠ [] ∧ after.rest = reader.rest.drop e.encoded.length := by
  obtain ⟨cost, completes⟩ := read
  obtain ⟨left, run, -⟩ := completes cost le_rfl
  have given : Gives (treeNext c profile reader) ⟨cost, ()⟩ (e, after) ⟨left, ()⟩ := run
  rw [treeNext] at given
  split at given
  · exact absurd given gives_throw
  rename_i some
  split at given
  · exact absurd given gives_throw
  obtain ⟨element, _, -, given⟩ := gives_bind.mp given
  cases (gives_pure.mp given).1
  exact ⟨some, rfl⟩

theorem treeLoop_reaches {reader : Reader} (reads : ReadsTree c profile reader elements)
    (each : List.Forall₂ (fun e step => ∀ a, Reaches (body e a) () (.ok (step a)) ())
      elements steps) {passes : Nat} (enough : reader.rest.length ≤ passes) (a : A) :
    Reaches (treeLoop c profile body passes reader a) ()
      (.ok (steps.foldl (fun a step => step a) a)) () := by
  induction reads generalizing steps passes a with
  | done ended =>
    cases each
    cases passes with
    | zero => exact reaches_pure
    | succ passes =>
      rw [treeLoop, if_pos ended]
      exact reaches_pure
  | @next reader after e rest read some later ih =>
    obtain ⟨left, follows⟩ := treeNext_ok read
    cases each with
    | cons here each =>
      have pos := List.length_pos_iff.mpr some
      have more := List.length_pos_iff.mpr left
      cases passes with
      | zero => omega
      | succ passes =>
        rw [treeLoop, if_neg left]
        refine reaches_bind read (reaches_bind (here a) (ih each ?_ _))
        rw [follows, List.length_drop]
        omega

theorem forTree_reaches {tag : UInt8} {encoded : Bytes}
    (lists : ListsTree c profile tag encoded elements)
    (each : List.Forall₂ (fun e step => ∀ a, Reaches (body e a) () (.ok (step a)) ())
      elements steps) (a : A) : Reaches (forTree c profile tag body encoded a) ()
      (.ok (steps.foldl (fun a step => step a) a)) () := by
  obtain ⟨reader, opened, reads⟩ := lists
  exact reaches_bind opened (treeLoop_reaches reads each le_rfl a)

end

/-- The version that RFC 5652 5.1 requires. -/
def requiredVersion (contentType : Bytes) (certificates : List CertificateKind)
    (otherRevocation : Prop) (signers : List SignerFields) [Decidable otherRevocation] : Nat :=
  if .other ∈ certificates ∨ otherRevocation then 5
  else if .attributeV2 ∈ certificates then 4
  else if .attributeV1 ∈ certificates ∨ (∃ signer ∈ signers, signer.version = 3) ∨
      contentType ≠ dataOid then 3
  else 1

def certificatesVersion (certificates : List CertificateKind) : Nat :=
  if .other ∈ certificates then 5
  else if .attributeV2 ∈ certificates then 4
  else if .attributeV1 ∈ certificates then 3
  else 1

theorem certificatesVersion_cons (kind : CertificateKind) (rest : List CertificateKind) :
    certificatesVersion (kind :: rest) = max kind.version (certificatesVersion rest) := by
  simp only [certificatesVersion, List.mem_cons]
  cases kind <;> simp only [CertificateKind.version, reduceCtorEq, false_or, true_or, if_true] <;>
    split_ifs <;> omega

theorem certificates_fold {base : Nat} (pos : 1 ≤ base) (kinds : List CertificateKind) :
    (kinds.map fun (kind : CertificateKind) (required : Nat) => max required kind.version).foldl
      (fun a step => step a) base = max base (certificatesVersion kinds) := by
  induction kinds generalizing base with
  | nil => simp [certificatesVersion, pos]
  | cons kind rest ih =>
    rw [List.map_cons, List.foldl_cons, ih (Nat.le_trans pos (Nat.le_max_left _ _)),
      certificatesVersion_cons, Nat.max_assoc]

theorem revocations_fold (base : Nat) (others : List Bool) :
    (others.map fun (other : Bool) (required : Nat) => if other then 5 else required).foldl
      (fun a step => step a) base = if true ∈ others then 5 else base := by
  induction others generalizing base with
  | nil => rfl
  | cons other rest ih =>
    rw [List.map_cons, List.foldl_cons, ih]
    cases other with
    | false => simp
    | true => simp

theorem Selection.take_required (select : Bool) (signer : SignerFields) (state : Selection) :
    (Selection.take select signer state).required =
      if signer.version = 3 ∧ state.required < 3 then 3 else state.required := by
  rw [Selection.take]
  split
  · split
    · simp
    · simp
  · simp

theorem Selection.take_found (select : Bool) (signer : SignerFields) (rest : List SignerFields)
    (state : Selection) : (if select && (Selection.take select signer state).found.isNone then
        rest[(Selection.take select signer state).index]?
      else (Selection.take select signer state).found) =
      if select && state.found.isNone then (signer :: rest)[state.index]? else state.found := by
  rw [Selection.take]
  by_cases open_ : select && state.found.isNone
  · rw [if_pos open_, if_pos open_]
    obtain ⟨selects, unfound⟩ := Bool.and_eq_true_iff.mp open_
    cases index : state.index with
    | zero => simp [selects]
    | succ index => simp [selects, unfound]
  · rw [if_neg open_, if_neg open_]
    exact (if_neg open_).symm

theorem signers_fold (select : Bool) (signers : List SignerFields) (state : Selection) :
    let ended := (signers.map fun signer state => Selection.take select signer state).foldl
      (fun a step => step a) state
    ended.required = (if (∃ signer ∈ signers, signer.version = 3) ∧ state.required < 3 then 3
          else state.required) ∧
      ended.found =
        (if select && state.found.isNone then signers[state.index]? else state.found) := by
  induction signers generalizing state with
  | nil => simp
  | cons signer rest ih =>
    rw [List.map_cons, List.foldl_cons]
    obtain ⟨required, found⟩ := ih (Selection.take select signer state)
    refine ⟨required.trans ?_, found.trans (Selection.take_found select signer rest state)⟩
    rw [Selection.take_required]
    by_cases three : signer.version = 3
    · by_cases low : state.required < 3
      · simp [three, low]
      · simp [low]
    · simp [three]

variable {c : DataReaders} {profile : Profile} {input : SignedData}
  {elements : List ProfileElement} {kinds : List CertificateKind} {others : List Bool}
  {signers : List SignerFields}

theorem certificates_reaches (lists : ListsIfAny c profile 0xa0 input.certificates elements)
    (classified : List.Forall₂ (fun e kind => classifyCertificate e = .ok kind) elements kinds)
    {base : Nat} (pos : 1 ≤ base) : Reaches (certificatesCheck c profile input.certificates base) ()
      (.ok (max base (certificatesVersion kinds))) () := by
  rw [ListsIfAny] at lists
  split at lists
  · subst lists
    cases classified
    rw [certificatesCheck, if_pos ‹_›, certificatesVersion]
    simp [pos, reaches_pure]
  · rw [certificatesCheck, if_neg ‹_›, ← certificates_fold pos]
    refine forTree_reaches lists ?_ base
    rw [List.forall₂_map_right_iff]
    exact classified.imp fun e kind known a => by
      rw [known]
      exact reaches_bind reaches_pure reaches_pure

theorem revocations_reaches (lists : ListsIfAny c profile 0xa1 input.revocations elements)
    (formats : List.Forall₂ (fun e other => if other then e.tagIs 0xa1 else e.tagIs 0x30)
      elements others) (base : Nat) : Reaches (revocationsCheck c profile input.revocations base) ()
      (.ok (if true ∈ others then 5 else base)) () := by
  rw [ListsIfAny] at lists
  split at lists
  · subst lists
    cases formats
    rw [revocationsCheck, if_pos ‹_›]
    simp [reaches_pure]
  · rw [revocationsCheck, if_neg ‹_›, ← revocations_fold]
    refine forTree_reaches lists ?_ base
    rw [List.forall₂_map_right_iff]
    refine formats.imp ?_
    intro e other format a
    cases other with
    | true =>
      rw [if_pos (by simpa using format)]
      exact reaches_pure
    | false =>
      have crl : e.header.tag = [0x30] := by simpa [ProfileElement.tagIs] using format
      rw [if_neg (by simp [ProfileElement.tagIs, crl]),
        if_neg (by simp [ProfileElement.tagIs, crl])]
      exact reaches_pure

theorem signers_reaches (lists : ListsTree c profile 0x31 input.signers elements)
    (read : List.Forall₂
      (fun e signer => Reaches (signerInfoRead c profile e.encoded) () (.ok signer) ())
      elements signers) (select : Bool) (state : Selection) :
    Reaches (signersCheck c profile select input.signers state) ()
      (.ok ((signers.map fun signer state => Selection.take select signer state).foldl
        (fun a step => step a) state)) () := by
  refine forTree_reaches lists ?_ state
  rw [List.forall₂_map_right_iff]
  refine read.imp ?_
  intro e signer given a
  exact reaches_bind given reaches_pure

/-- The maximum, the revocations and the signers give the version of RFC 5652. -/
theorem required_eq (contentType : Bytes) (kinds : List CertificateKind) (other : Prop)
    [Decidable other] (signers : List SignerFields) :
    (if (∃ signer ∈ signers, signer.version = 3) ∧ (if other then 5 else
        max (if contentType = dataOid then 1 else 3) (certificatesVersion kinds)) < 3 then 3
      else if other then 5 else
        max (if contentType = dataOid then 1 else 3) (certificatesVersion kinds)) =
      requiredVersion contentType kinds other signers := by
  rw [requiredVersion, certificatesVersion]
  by_cases revoked : other
  · simp [revoked]
  by_cases five : .other ∈ kinds
  · by_cases data : contentType = dataOid <;> simp [revoked, five, data]
  by_cases four : .attributeV2 ∈ kinds
  · by_cases data : contentType = dataOid <;> simp [revoked, five, four, data]
  by_cases three : .attributeV1 ∈ kinds <;> by_cases data : contentType = dataOid <;>
    simp [revoked, five, four, three, data]

/-- The lists of a SignedData parse: its certificates, its revocations and its signers. -/
structure Parsed (c : DataReaders) (profile : Profile) (input : SignedData)
    (kinds : List CertificateKind) (others : List Bool) (signers : List SignerFields) : Prop where
  content : input.contentType ≠ []
  certificates : ∃ elements, ListsIfAny c profile 0xa0 input.certificates elements ∧
    List.Forall₂ (fun e kind => classifyCertificate e = .ok kind) elements kinds
  revocations : ∃ elements, ListsIfAny c profile 0xa1 input.revocations elements ∧
    List.Forall₂ (fun e other => if other then e.tagIs 0xa1 else e.tagIs 0x30) elements others
  signers : ∃ elements, ListsTree c profile 0x31 input.signers elements ∧
    List.Forall₂ (fun e signer => Reaches (signerInfoRead c profile e.encoded) () (.ok signer) ())
      elements signers

/-- A SignedData whose lists parse is accepted, with the signer at the index if one is to be
    selected, exactly when it states the version required and the index is of a signer. -/
theorem signedDataCheck_version (parsed : Parsed c profile input kinds others signers)
    (signerIndex : Option Nat) : Reaches (signedDataCheck c profile input signerIndex) ()
      (if input.version = requiredVersion input.contentType kinds (true ∈ others) signers ∧
          ∀ index, signerIndex = some index → index < signers.length then
        .ok (signerIndex.bind fun index => signers[index]?) else .error .invalid) () := by
  obtain ⟨elements, certificates, classified⟩ := parsed.certificates
  obtain ⟨elements', revocations, formats⟩ := parsed.revocations
  obtain ⟨elements'', listed, read⟩ := parsed.signers
  have pos : 1 ≤ if input.contentType = dataOid then 1 else 3 := by
    split <;> decide
  rw [signedDataCheck, if_neg parsed.content]
  refine reaches_bind reaches_charge ?_
  refine reaches_bind (certificates_reaches certificates classified pos) ?_
  refine reaches_bind (revocations_reaches revocations formats _) ?_
  refine reaches_bind (signers_reaches listed read signerIndex.isSome _) ?_
  obtain ⟨required, found⟩ := signers_fold signerIndex.isSome signers
    ⟨if true ∈ others then 5 else max (if input.contentType = dataOid then 1 else 3)
      (certificatesVersion kinds), signerIndex.getD 0, none⟩
  dsimp only at required found
  rw [required_eq] at required
  rw [required, found]
  cases signerIndex with
  | none =>
    simp only [Option.isSome_none, Bool.false_and, Bool.false_eq_true, if_false]
    by_cases version :
        input.version = requiredVersion input.contentType kinds (true ∈ others) signers
    · rw [if_pos (by simp [version]), if_pos ⟨version, nofun⟩]
      exact reaches_pure
    · rw [if_neg (by simp [version]), if_neg fun accepts => version accepts.1]
      exact reaches_throw
  | some index =>
    simp only [Option.isSome_some, Option.isNone_none, Bool.and_self, if_true, Option.getD_some]
    by_cases accepts :
        input.version = requiredVersion input.contentType kinds (true ∈ others) signers ∧
          index < signers.length
    · rw [if_pos (by simp [accepts.1, accepts.2]), if_pos ⟨accepts.1, by simpa using accepts.2⟩]
      exact reaches_pure
    · rw [if_neg (by simpa using accepts), if_neg (by simpa using accepts)]
      exact reaches_throw

def plainReaders : DataReaders where
  tree := ⟨true, 8, 2 ^ 64 - 1, ⟨100, 100, 4, 8⟩, 4⟩
  treeRead := fun profile input => lift (readProfile ⟨true, 8, profile⟩ ⟨100, 100, 4, 8⟩ input)
  name := fun _ _ => pure ()

def oneSigner : Bytes :=
  [0x30, 23, 2, 1, 1, 0x30, 5, 0x30, 0, 2, 1, 5, 0x30, 3, 6, 1, 0x2a, 0x30, 3, 6, 1, 0x2a, 4, 1, 7]

def oneSignerFields : SignerFields :=
  { digestAlgorithm := ⟨[0x2a], []⟩, signatureAlgorithm := ⟨[0x2a], []⟩, signedAttributes := [],
    signature := [4, 1, 7], encoded := oneSigner, issuer := [0x30, 0], serial := [5], subjectKeyId := [],
    unsignedAttributes := [], version := 1, serialNegative := false }

def attributeData : SignedData := ⟨dataOid, [0xa0, 2, 0xa2, 0], [], [0x31, 25] ++ oneSigner, 4⟩

/-- It has to state version 4, and its signer is selected. -/
theorem signedDataCheck_version_attribute :
    Reaches (signedDataCheck plainReaders .der attributeData (some 0)) () (.ok (some oneSignerFields)) () := by
  have free {A : Type} {m : DataProgram A} {a : A}
      (run : ∀ work, m.exec ⟨work, ()⟩ = (.ok a, ⟨work, ()⟩)) : Reaches m () (.ok a) () :=
    ⟨0, fun work _ => ⟨work, run work, Nat.le_refl _⟩⟩
  have certificates : ListsTree plainReaders .der 0xa0 attributeData.certificates
      [⟨⟨⟨0, 2, [0xa2], 2, 2, true⟩, false⟩, [0xa2, 0], []⟩] :=
    ⟨⟨[0xa2, 0], 0⟩, free fun _ => rfl, .next (free fun _ => rfl) nofun (.done rfl)⟩
  have signers : ListsTree plainReaders .der 0x31 attributeData.signers
      [⟨⟨⟨23, 16, [0x30], 2, 0, true⟩, false⟩, oneSigner, oneSigner.drop 2⟩] :=
    ⟨⟨oneSigner, 0⟩, free fun _ => rfl, .next (free fun _ => rfl) nofun (.done rfl)⟩
  have read : Reaches (signerInfoRead plainReaders .der oneSigner) () (.ok oneSignerFields) () := by
    refine ⟨3, fun work enough => ?_⟩
    obtain ⟨left, rfl⟩ := Nat.exists_eq_add_of_le' enough
    exact ⟨left, rfl, Nat.le_refl _⟩
  have parsed : Parsed plainReaders .der attributeData [.attributeV2] [] [oneSignerFields] :=
    ⟨nofun, ⟨_, certificates, .cons rfl .nil⟩, ⟨[], rfl, .nil⟩, ⟨_, signers, .cons read .nil⟩⟩
  have checked := signedDataCheck_version parsed (some 0)
  rwa [if_pos ⟨by decide, by simp⟩] at checked

end TinyCrypto.Cms
