import TinyCrypto.Cms.Attributes
import TinyCrypto.Unicode.Prepare
import TinyCrypto.X509.Read

/-! # Reading names

`x509.c`: the attributes of an RDN and the RDNs of a Name, in DER. What is read does not
depend on the limits.
-/

namespace TinyCrypto.X509

open Tlv Cms Library Library.Program Library.Metered

/-- `TC_X509_name_attribute`. -/
structure NameAttribute where
  encoded : Bytes
  oid : Bytes
  value : Bytes
  deriving DecidableEq

/-- `tc_x509_attribute_kind`. -/
inductive AttributeSyntax where
  | unknown
  | directory
  | printable
  | country
  | email
  | domain
  deriving DecidableEq

def x520Syntax (last : UInt8) : AttributeSyntax :=
  if last ∈ ([3, 4, 7, 8, 9, 10, 11, 12, 41, 42, 43, 44, 65] : List UInt8) then .directory
  else if last = 6 then .country
  else if last = 5 || last = 46 then .printable
  else .unknown

def emailOid : Bytes := [0x2a, 0x86, 0x48, 0x86, 0xf7, 0x0d, 1, 9, 1]

def pilotOid : Bytes := [9, 0x92, 0x26, 0x89, 0x93, 0xf2, 0x2c, 100, 1]

/-- `tc_x509_attribute_syntax`. -/
def attributeSyntax (oid : Bytes) : AttributeSyntax :=
  if oid.length = 3 && oid.take 2 = [0x55, 4] then x520Syntax (oid.getD 2 0)
  else if oid = emailOid then .email
  else if oid = pilotOid ++ [1] then .directory
  else if oid = pilotOid ++ [25] then .domain
  else .unknown

/-- `tc_x509_attribute_type`. -/
def attributeType (oid : Bytes) (tag length : Nat) : Bool :=
  let kind := attributeSyntax oid
  let directory := kind = .directory
  let printable := kind = .printable || kind = .country
  let ia5 := kind = .email || kind = .domain
  if kind = .country && length ≠ 2 then false
  else if directory || printable || ia5 then
    if length = 0 then false
    else if directory && tag ≠ 0x0c && tag ≠ 0x13 && tag ≠ 0x14 && tag ≠ 0x1c && tag ≠ 0x1e then false
    else !((printable && tag ≠ 0x13) || (ia5 && tag ≠ 0x16))
  else true

/-- The loop of `string_value`: whether the whole string is read. -/
def stringEnds (tag : Nat) (input : Bytes) : Bool := match read : Unicode.stringNext tag input with
  | .error e => e = .end
  | .ok (_, rest) =>
    have _shorter := Unicode.stringNext_shorter read
    stringEnds tag rest
termination_by input.length

def Element.tagByte (element : Element) : Nat := (element.header.tag.getD 0 0).toNat

/-- `string_value`. -/
def stringValue (element : Element) : Bool :=
  let tag := Element.tagByte element
  if element.header.tag.length ≠ 1 then true
  else if tag ≠ 0x0c && tag ≠ 0x13 && tag ≠ 0x16 && tag ≠ 0x1c && tag ≠ 0x1e then true
  else stringEnds tag element.value

/-- `tc_x509_attribute_value`. -/
def attributeValue (oid : Bytes) (element : Element) : Bool :=
  let tag := if element.header.tag.length = 1 then Element.tagByte element else 256
  attributeType oid tag element.value.length && stringValue element

section

variable (sizeT sizeMax : Nat)

/-- `value` of `der.c`. -/
def derValue (tag : UInt8) (encoded : Bytes) : Except Result Bytes :=
  match read sizeT ⟨sizeMax, sizeMax, 1, 1⟩ encoded with
  | .error e => .error (if e = .more || e = .limit then .invalid else e)
  | .ok element =>
    if element.encoded.length ≠ encoded.length || !element.tagIs tag then .error .invalid
    else .ok element.value

/-- `TC_DER_oid`. -/
def derOid (encoded : Bytes) : Except Result Bytes := do
  let value ← derValue sizeT sizeMax 6 encoded
  if oidContents value then return value else .error .invalid

variable (limits : Limits)

def child {A : Type} (outcome : Except Result A) : Except Result A := match outcome with
  | .error .end => .error .invalid
  | outcome => outcome

def Limits.below (elements : Nat) : Except Result Limits :=
  if limits.maxDepth = 0 then .error .limit
  else .ok { limits with
    maxElements := limits.maxElements - elements
    maxDepth := limits.maxDepth - 1 }

def attributeFields (encoded contents : Bytes) : Except Result (NameAttribute × Nat) := do
  let fields ← readerInit limits contents
  let (type, fields) ← child (next sizeT limits fields)
  if !type.tagIs 6 then .error .invalid
  else
    let oid ← derOid sizeT sizeMax type.encoded
    let (value, fields) ← child (next sizeT limits fields)
    if fields.rest ≠ [] || !attributeValue oid value then .error .invalid
    else return (⟨encoded, oid, value.encoded⟩, fields.elements)

/-- `TC_X509_attribute_next`. -/
def attributeNext (reader : Reader) : Except Result (NameAttribute × Reader) := do
  let (element, reader) ← next sizeT limits reader
  if !element.tagIs 0x30 then .error .invalid
  else
    let bounds ← Limits.below limits reader.elements
    let (found, used) ← attributeFields sizeT sizeMax bounds element.encoded element.value
    return (found, { reader with elements := reader.elements + used })

/-- The loop of `tc_x509_rdn_contents`, for at most so many attributes. -/
def rdnContentsLoop : (passes : Nat) → (previous : Option Bytes) → Reader → Except Result Reader
  | 0, _, reader => .ok reader
  | passes + 1, previous, reader =>
    match attributeNext sizeT sizeMax limits reader with
    | .error .end => .ok reader
    | .error e => .error e
    | .ok (found, reader) =>
      if previous.elim false (compareGreater · found.encoded) then .error .invalid
      else rdnContentsLoop passes (some found.encoded) reader

/-- `tc_x509_rdn_contents`. -/
def rdnContents (reader : Reader) : Except Result Reader := if reader.rest = [] then .error .invalid
  else rdnContentsLoop sizeT sizeMax limits reader.rest.length none reader

/-- `TC_X509_rdn_next`. -/
def rdnNext (reader : Reader) : Except Result (Bytes × Reader) := do
  let (element, reader) ← next sizeT limits reader
  if !element.tagIs 0x31 || element.value = [] then .error .invalid
  else
    let bounds ← Limits.below limits reader.elements
    let attributes ← readerInit bounds element.value
    let attributes ← rdnContents sizeT sizeMax bounds attributes
    return (element.value, { reader with elements := reader.elements + attributes.elements })

/-- `TC_X509_name_init`: the limits and the reader. -/
def nameInit (encoded : Bytes) : Except Result (Limits × Reader) := do
  let element ← read sizeT limits encoded
  if !element.tagIs 0x30 || element.encoded.length ≠ encoded.length then .error .invalid
  else
    let reader ← readerInit limits element.value
    if limits.maxElements = 0 || limits.maxDepth = 0 then .error .limit
    else return ({ limits with maxDepth := limits.maxDepth - 1 }, { reader with elements := 1 })

/-- The loop of `tc_x509_name_validate`, for at most so many RDNs. -/
def validateLoop : (passes : Nat) → Reader → Except Result Unit
  | 0, _ => .ok ()
  | passes + 1, reader =>
    match rdnNext sizeT sizeMax limits reader with
    | .error .end => .ok ()
    | .error e => .error e
    | .ok (_, reader) => validateLoop passes reader

end

inductive RdnAttributes (sizeT sizeMax : Nat) : Bytes → List NameAttribute → Prop where
  | done : RdnAttributes sizeT sizeMax [] []
  | more : attributeNext sizeT sizeMax limits reader = .ok (found, after) →
      RdnAttributes sizeT sizeMax after.rest list →
      RdnAttributes sizeT sizeMax reader.rest (found :: list)

inductive NameRdns (sizeT sizeMax : Nat) : Bytes → List (List NameAttribute) → Prop where
  | done : NameRdns sizeT sizeMax [] []
  | more : rdnNext sizeT sizeMax limits reader = .ok (contents, after) →
      RdnAttributes sizeT sizeMax contents list → NameRdns sizeT sizeMax after.rest rdns →
      NameRdns sizeT sizeMax reader.rest (list :: rdns)

def NameParses (sizeT sizeMax : Nat) (encoded : Bytes) (rdns : List (List NameAttribute)) : Prop :=
  ∃ limits below reader, nameInit sizeT limits encoded = .ok (below, reader) ∧
    NameRdns sizeT sizeMax reader.rest rdns

section

variable {sizeT sizeMax : Nat} {limits limits' : Limits}

variable {input : Bytes}

theorem next_shorter {reader after : Reader} {element : Element}
    (found : next sizeT limits reader = .ok (element, after)) :
    after.rest.length < reader.rest.length := by
  unfold next at found
  split at found
  · cases found
  · rename_i filled
    split at found
    · cases found
    · split at found
      · cases found
      · rename_i element parsed
        cases found
        have size := List.length_pos_iff.mpr filled
        unfold Tlv.read at parsed
        split at parsed
        · cases parsed
        · split at parsed
          · cases parsed
          · rename_i header headed
            have pos := headerRead_positive headed
            split at parsed
            · cases parsed
            · cases parsed
              simp only [List.length_drop, List.length_take]
              omega

variable {A : Type} {encoded : Bytes} {previous : Option Bytes} {found' : NameAttribute}
  {after' reader' : Reader}

theorem child_ok {outcome : Except Result A} {a : A} (given : child outcome = .ok a) :
    outcome = .ok a := by
  cases outcome with
  | ok value => exact given
  | error e => cases e <;> cases given

variable {e : Result}

theorem bind_error {B : Type} {m : Except Result A} {f : A → Except Result B} :
    m >>= f = .error e ↔ m = .error e ∨ ∃ a, m = .ok a ∧ f a = .error e := by
  cases m with
  | ok a => simp [bind, Except.bind]
  | error e => simp [bind, Except.bind]

theorem readerInit_error (failed : readerInit limits input = .error e) : ReadError e := by
  unfold readerInit at failed
  split at failed
  · cases failed
    exact .inl rfl
  · cases failed

variable {reader : Reader}

theorem child_error (failed : child (next sizeT limits reader) = .error e) : ReadError e := by
  cases outcome : next sizeT limits reader with
  | ok found =>
    rw [outcome] at failed
    cases failed
  | error e' =>
    rw [outcome] at failed
    rcases next_error outcome with ⟨rfl, _⟩ | inner
    · cases failed
      exact .inr (Or.inl rfl)
    · rcases inner with rfl | rfl | rfl
      · cases failed
        exact .inl rfl
      · cases failed
        exact .inr (Or.inl rfl)
      · cases failed
        exact .inr (Or.inr rfl)

def FailsReading (m : Except Result A) : Prop := ∀ e, m = .error e → ReadError e

theorem FailsReading.bind {B : Type} {m : Except Result A} {f : A → Except Result B}
    (first : FailsReading m) (second : ∀ a, FailsReading (f a)) : FailsReading (m >>= f) := by
  intro e failed
  rcases bind_error.mp failed with failed | ⟨a, _, failed⟩
  · exact first e failed
  · exact second a e failed

theorem failsReading_pure {a : A} : FailsReading (.ok a) := nofun

theorem failsReading_guard {c : Prop} [Decidable c] {m : Except Result A}
    (rest : ¬c → FailsReading m) : FailsReading (if c then .error .invalid else m) := by
  intro e failed
  split at failed
  · cases failed
    exact .inr (Or.inl rfl)
  · rename_i passed
    exact rest passed e failed

theorem derOid_fails : FailsReading (derOid sizeT sizeMax encoded) := by
  refine .bind (fun e failed => ?_) fun value e failed => ?_
  · unfold derValue at failed
    split at failed
    · rename_i inner
      rcases read_error inner with rfl | rfl | rfl <;> cases failed <;> exact .inr (Or.inl rfl)
    · exact failsReading_guard (fun _ => failsReading_pure) e failed
  · split at failed
    · cases failed
    · cases failed
      exact .inr (Or.inl rfl)

theorem below_error {elements : Nat} (failed : Limits.below limits elements = .error e) :
    ReadError e := by
  unfold Limits.below at failed
  split at failed
  · cases failed
    exact .inl rfl
  · cases failed

theorem attributeFields_fails {contents : Bytes} :
    FailsReading (attributeFields sizeT sizeMax limits encoded contents) := by
  refine .bind (fun _ => readerInit_error) fun _ => .bind (fun _ => child_error) fun _ => ?_
  refine failsReading_guard fun _ => .bind derOid_fails fun _ => ?_
  exact .bind (fun _ => child_error) fun _ => failsReading_guard fun _ => failsReading_pure

theorem attributeNext_error (failed : attributeNext sizeT sizeMax limits reader = .error e) :
    (e = .end ∧ reader.rest = []) ∨ ReadError e := by
  rcases bind_error.mp failed with failed | ⟨⟨element, middle⟩, _, failed⟩
  · exact next_error failed
  refine .inr (failsReading_guard (fun _ => ?_) e failed)
  exact .bind (fun _ => below_error) fun _ => .bind attributeFields_fails fun _ => failsReading_pure

theorem attributeNext_end (ended : attributeNext sizeT sizeMax limits reader = .error .end) :
    reader.rest = [] := by
  rcases attributeNext_error ended with ⟨_, empty⟩ | inner
  · exact empty
  · exact absurd rfl inner.ne.2.1

variable {passes : Nat}

theorem rdnContentsLoop_error
    (failed : rdnContentsLoop sizeT sizeMax limits passes previous reader = .error e) :
    ReadError e := by
  induction passes generalizing previous reader with
  | zero => cases failed
  | succ passes ih =>
    rw [rdnContentsLoop] at failed
    split at failed
    · cases failed
    · rename_i other inner
      cases failed
      rcases attributeNext_error inner with ⟨rfl, _⟩ | inner
      · exact absurd rfl other
      · exact inner
    · split at failed
      · cases failed
        exact .inr (Or.inl rfl)
      · exact ih failed

theorem rdnNext_error (failed : rdnNext sizeT sizeMax limits reader = .error e) :
    (e = .end ∧ reader.rest = []) ∨ ReadError e := by
  rcases bind_error.mp failed with failed | ⟨⟨element, middle⟩, _, failed⟩
  · exact next_error failed
  refine .inr (failsReading_guard (fun _ => .bind (fun _ => below_error) fun _ => ?_) e failed)
  refine .bind (fun _ => readerInit_error) fun _ => .bind ?_ fun _ => failsReading_pure
  exact failsReading_guard fun _ _ => rdnContentsLoop_error

theorem rdnNext_end (ended : rdnNext sizeT sizeMax limits reader = .error .end) :
    reader.rest = [] := by
  rcases rdnNext_error ended with ⟨_, empty⟩ | inner
  · exact empty
  · exact absurd rfl inner.ne.2.1

theorem validateLoop_error (failed : validateLoop sizeT sizeMax limits passes reader = .error e) :
    ReadError e := by
  induction passes generalizing reader with
  | zero => cases failed
  | succ passes ih =>
    rw [validateLoop] at failed
    split at failed
    · cases failed
    · rename_i other inner
      cases failed
      rcases rdnNext_error inner with ⟨rfl, _⟩ | inner
      · exact absurd rfl other
      · exact inner
    · exact ih failed

theorem nameInit_error (failed : nameInit sizeT limits encoded = .error e) : ReadError e := by
  revert failed
  refine FailsReading.bind (fun _ => read_error) (fun element => failsReading_guard fun _ =>
    .bind (fun _ => readerInit_error) fun reader e failed => ?_) e
  split at failed
  · cases failed
    exact .inl rfl
  · cases failed

variable {found : NameAttribute}

theorem attributeFields_agree {contents : Bytes} {used used' : Nat}
    (parsed : attributeFields sizeT sizeMax limits encoded contents = .ok (found, used))
    (parsed' : attributeFields sizeT sizeMax limits' encoded contents = .ok (found', used')) :
    found = found' := by
  obtain ⟨start, opened, parsed⟩ := bind_ok.mp parsed
  obtain ⟨start', opened', parsed'⟩ := bind_ok.mp parsed'
  have starts : start.rest = start'.rest :=
    (readerInit_rest opened).trans (readerInit_rest opened').symm
  obtain ⟨⟨type, middle⟩, first, parsed⟩ := bind_ok.mp parsed
  obtain ⟨⟨type', middle'⟩, first', parsed'⟩ := bind_ok.mp parsed'
  obtain ⟨rfl, middles⟩ := next_agree starts (child_ok first) (child_ok first')
  dsimp only at parsed parsed'
  split at parsed
  · cases parsed
  rename_i tagged
  rw [if_neg tagged] at parsed'
  obtain ⟨oid, named, parsed⟩ := bind_ok.mp parsed
  obtain ⟨oid', named', parsed'⟩ := bind_ok.mp parsed'
  obtain rfl := Except.ok.inj (named.symm.trans named')
  obtain ⟨⟨value, after⟩, second, parsed⟩ := bind_ok.mp parsed
  obtain ⟨⟨value', after'⟩, second', parsed'⟩ := bind_ok.mp parsed'
  obtain ⟨rfl, _⟩ := next_agree middles (child_ok second) (child_ok second')
  dsimp only at parsed parsed'
  split at parsed
  · cases parsed
  split at parsed'
  · cases parsed'
  cases parsed
  cases parsed'
  rfl

theorem attributeNext_shorter {reader after : Reader}
    (parsed : attributeNext sizeT sizeMax limits reader = .ok (found, after)) :
    after.rest.length < reader.rest.length := by
  obtain ⟨⟨element, middle⟩, first, parsed⟩ := bind_ok.mp parsed
  dsimp only at parsed
  split at parsed
  · cases parsed
  · obtain ⟨bounds, _, parsed⟩ := bind_ok.mp parsed
    obtain ⟨⟨found', used⟩, _, parsed⟩ := bind_ok.mp parsed
    cases parsed
    have shorter := next_shorter first
    exact shorter

theorem attributeNext_agree {reader after : Reader} (same : reader.rest = reader'.rest)
    (parsed : attributeNext sizeT sizeMax limits reader = .ok (found, after))
    (parsed' : attributeNext sizeT sizeMax limits' reader' = .ok (found', after')) :
    found = found' ∧ after.rest = after'.rest := by
  obtain ⟨⟨element, middle⟩, first, parsed⟩ := bind_ok.mp parsed
  obtain ⟨⟨element', middle'⟩, first', parsed'⟩ := bind_ok.mp parsed'
  obtain ⟨rfl, rests⟩ := next_agree same first first'
  dsimp only at parsed parsed'
  split at parsed
  · cases parsed
  · rename_i tagged
    rw [if_neg tagged] at parsed'
    obtain ⟨bounds, _, parsed⟩ := bind_ok.mp parsed
    obtain ⟨⟨found, used⟩, fields, parsed⟩ := bind_ok.mp parsed
    obtain ⟨bounds', _, parsed'⟩ := bind_ok.mp parsed'
    obtain ⟨⟨found', used'⟩, fields', parsed'⟩ := bind_ok.mp parsed'
    cases parsed
    cases parsed'
    exact ⟨attributeFields_agree fields fields', rests⟩

theorem attributeNext_filled {reader after : Reader}
    (parsed : attributeNext sizeT sizeMax limits reader = .ok (found, after)) :
    reader.rest ≠ [] := by
  have shorter := attributeNext_shorter parsed
  exact List.ne_nil_of_length_pos (by omega)

variable {contents : Bytes}

theorem RdnAttributes.unique {list list' : List NameAttribute}
    (first : RdnAttributes sizeT sizeMax contents list)
    (second : RdnAttributes sizeT sizeMax contents list') : list = list' := by
  induction first generalizing list' with
  | done =>
    generalize empty : ([] : Bytes) = contents at second
    cases second with
    | done => rfl
    | more parsed _ => exact absurd empty.symm (attributeNext_filled parsed)
  | @more limits reader found after list parsed _ ih =>
    generalize same : reader.rest = contents at second
    cases second with
    | done => exact absurd same (attributeNext_filled parsed)
    | more parsed' rest =>
      obtain ⟨rfl, rests⟩ := attributeNext_agree same parsed parsed'
      rw [ih (rests ▸ rest)]

theorem rdnContentsLoop_attributes {reader after : Reader} (enough : reader.rest.length ≤ passes)
    (parsed : rdnContentsLoop sizeT sizeMax limits passes previous reader = .ok after) :
    ∃ list, RdnAttributes sizeT sizeMax reader.rest list := by
  induction passes generalizing previous reader with
  | zero =>
    have empty : reader.rest = [] := by simpa using enough
    exact ⟨[], empty ▸ .done⟩
  | succ passes ih =>
    rw [rdnContentsLoop] at parsed
    split at parsed
    · rename_i ended
      exact ⟨[], attributeNext_end ended ▸ .done⟩
    · cases parsed
    · rename_i found middle one
      split at parsed
      · cases parsed
      · have shorter := attributeNext_shorter one
        obtain ⟨list, rest⟩ := ih (by omega) parsed
        exact ⟨found :: list, .more one rest⟩

theorem rdnNext_attributes {reader after : Reader}
    (parsed : rdnNext sizeT sizeMax limits reader = .ok (contents, after)) :
    after.rest.length < reader.rest.length ∧ ∃ list, RdnAttributes sizeT sizeMax contents list := by
  obtain ⟨⟨element, middle⟩, first, parsed⟩ := bind_ok.mp parsed
  dsimp only at parsed
  split at parsed
  · cases parsed
  · obtain ⟨bounds, _, parsed⟩ := bind_ok.mp parsed
    obtain ⟨opened, start, parsed⟩ := bind_ok.mp parsed
    obtain ⟨ended, read, parsed⟩ := bind_ok.mp parsed
    cases parsed
    have shorter := next_shorter first
    refine ⟨shorter, ?_⟩
    unfold rdnContents at read
    split at read
    · cases read
    · rw [← readerInit_rest start]
      exact rdnContentsLoop_attributes le_rfl read

theorem rdnNext_agree {reader after : Reader} {contents contents' : Bytes}
    (same : reader.rest = reader'.rest)
    (parsed : rdnNext sizeT sizeMax limits reader = .ok (contents, after))
    (parsed' : rdnNext sizeT sizeMax limits' reader' = .ok (contents', after')) :
    contents = contents' ∧ after.rest = after'.rest := by
  obtain ⟨⟨element, middle⟩, first, parsed⟩ := bind_ok.mp parsed
  obtain ⟨⟨element', middle'⟩, first', parsed'⟩ := bind_ok.mp parsed'
  obtain ⟨rfl, rests⟩ := next_agree same first first'
  dsimp only at parsed parsed'
  split at parsed
  · cases parsed
  · rename_i tagged
    rw [if_neg tagged] at parsed'
    obtain ⟨_, _, parsed⟩ := bind_ok.mp parsed
    obtain ⟨_, _, parsed⟩ := bind_ok.mp parsed
    obtain ⟨_, _, parsed⟩ := bind_ok.mp parsed
    obtain ⟨_, _, parsed'⟩ := bind_ok.mp parsed'
    obtain ⟨_, _, parsed'⟩ := bind_ok.mp parsed'
    obtain ⟨_, _, parsed'⟩ := bind_ok.mp parsed'
    cases parsed
    cases parsed'
    exact ⟨rfl, rests⟩

theorem NameRdns.unique {rdns rdns' : List (List NameAttribute)}
    (first : NameRdns sizeT sizeMax contents rdns)
    (second : NameRdns sizeT sizeMax contents rdns') : rdns = rdns' := by
  induction first generalizing rdns' with
  | done =>
    generalize empty : ([] : Bytes) = contents at second
    cases second with
    | done => rfl
    | more parsed _ _ =>
      have shorter := (rdnNext_attributes parsed).1
      rw [← empty] at shorter
      cases shorter
  | @more limits reader contents after list rdns parsed attributes _ ih =>
    generalize same : reader.rest = whole at second
    cases second with
    | done =>
      have shorter := (rdnNext_attributes parsed).1
      rw [same] at shorter
      cases shorter
    | more parsed' attributes' rest =>
      obtain ⟨rfl, rests⟩ := rdnNext_agree same parsed parsed'
      rw [attributes.unique attributes', ih (rests ▸ rest)]

theorem validateLoop_rdns (enough : reader.rest.length ≤ passes)
    (valid : validateLoop sizeT sizeMax limits passes reader = .ok ()) :
    ∃ rdns, NameRdns sizeT sizeMax reader.rest rdns := by
  induction passes generalizing reader with
  | zero =>
    have empty : reader.rest = [] := by simpa using enough
    exact ⟨[], empty ▸ .done⟩
  | succ passes ih =>
    rw [validateLoop] at valid
    split at valid
    · rename_i ended
      exact ⟨[], rdnNext_end ended ▸ .done⟩
    · cases valid
    · rename_i contents after parsed
      obtain ⟨shorter, list, attributes⟩ := rdnNext_attributes parsed
      obtain ⟨rdns, rest⟩ := ih (by omega) valid
      exact ⟨list :: rdns, .more parsed attributes rest⟩

end

end TinyCrypto.X509
