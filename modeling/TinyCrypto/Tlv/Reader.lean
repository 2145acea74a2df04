import Mathlib.Tactic.Basic
import TinyCrypto.Common.Bytes

/-! # Headers and DER elements

`tlv.c`: the header of an object in each profile, and for DER one element at the
start of its input and a cursor over siblings. Limits decide whether an element is
read, never what is read.
-/

namespace TinyCrypto.Tlv

/-- `TC_TLV_limits`. -/
structure Limits where
  maxInput : Nat
  maxValue : Nat
  maxDepth : Nat
  maxElements : Nat
  deriving DecidableEq

/-- `tc_tlv_wide_header`, for definite lengths. `tag` holds `tag_length` bytes. -/
structure Header where
  length : Nat
  number : Nat
  tag : Bytes
  headerLength : Nat
  tagClass : Nat
  constructed : Bool
  deriving DecidableEq

/-- `TC_TLV_TAG_BYTES`. -/
def tagBytes : Nat := 6

def lengthOctets : Nat → Bytes → Except Result Nat
  | length, [] => .ok length
  | length, b :: rest =>
    if length > (2 ^ 64 - 1 - b.toNat) / 256 then .error .limit
    else lengthOctets (length * 256 + b.toNat) rest

/-- `TC_TLV_profile`. -/
inductive Profile where
  | der
  | iso7816
  | ber
  | iso7816PadZero
  | iso7816PadZeroFf
  deriving DecidableEq

/-- A profile of ISO/IEC 7816-4. -/
def Profile.iso (profile : Profile) : Bool := profile ≠ .der && profile ≠ .ber

/-- `tc_tlv_padding`. -/
def padding (profile : Profile) (byte : UInt8) : Bool :=
  (profile = .iso7816PadZero || profile = .iso7816PadZeroFf) && byte = 0 ||
    profile = .iso7816PadZeroFf && byte = 0xff

/-- `TC_TLV_header`. -/
structure ProfileHeader extends Header where
  indefinite : Bool
  deriving DecidableEq

def Profile.tagLimit (profile : Profile) : Nat := if profile.iso then 3 else tagBytes

/-- The subsequent octets of a tag: `p` of its bytes were read. -/
def tagOctets (limit : Nat) : (p number : Nat) → Bytes → Except Result (Nat × Nat)
  | _, _, [] => .error .more
  | p, number, b :: rest =>
    let digit := b.toNat % 128
    if p = limit then .error .limit
    else if p = 1 && digit = 0 then .error .invalid
    else if number > (2 ^ 32 - 1 - digit) / 128 then .error .limit
    else if b.toNat < 128 then
      if number * 128 + digit < 31 then .error .invalid
      else .ok (p + 1, number * 128 + digit)
    else tagOctets limit (p + 1) (number * 128 + digit) rest

def profileTag (profile : Profile) (first : UInt8) (rest : Bytes) : Except Result (Nat × Nat) :=
  if first = 0 || (profile.iso && first = 0xff) then .error .invalid
  else if first.toNat % 32 = 31 then tagOctets profile.tagLimit 1 0 rest
  else if first.toNat / 64 = 0 && first.toNat % 32 = 0 then .error .invalid
  else .ok (1, first.toNat % 32)

/-- The length field: its size, and the length it states or none for an
    indefinite one. -/
def profileLength (profile : Profile) (constructed : Bool) (maxOctets : Nat) :
    Bytes → Except Result (Nat × Option Nat)
  | [] => .error .more
  | b :: rest =>
    if b = 0xff then .error .invalid
    else if b = 0x80 then
      if profile ≠ .ber || !constructed then .error .invalid else .ok (1, none)
    else if b.toNat < 128 then .ok (1, some b.toNat)
    else
      let n := b.toNat % 128
      if profile.iso && n > 4 then .error .invalid
      else if n > maxOctets then .error .limit
      else if n > rest.length then .error .more
      else if profile = .der && rest.head? = some 0 then .error .invalid
      else
        match lengthOctets 0 (rest.take n) with
        | .error e => .error e
        | .ok length =>
          if profile = .der && length < 128 then .error .invalid
          else .ok (n + 1, some length)

/-- `tc_tlv_header_parse`. `sizeT` is `sizeof(size_t)`. -/
def headerParse (sizeT : Nat) (profile : Profile) (maxValue : Nat) :
    Bytes → Except Result ProfileHeader
  | [] => .error .more
  | first :: rest =>
    match profileTag profile first rest with
    | .error e => .error e
    | .ok (tagLength, number) =>
      let constructed := decide (first.toNat / 32 % 2 = 1)
      match profileLength profile constructed sizeT ((first :: rest).drop tagLength) with
      | .error e => .error e
      | .ok (octets, stated) =>
        let length := stated.getD 0
        if length > maxValue then .error .limit
        else .ok
          { length, number, tag := (first :: rest).take tagLength,
            headerLength := tagLength + octets, tagClass := first.toNat / 64, constructed,
            indefinite := stated = none }

/-- `tc_tlv_header_read` with `TC_TLV_DER`, after its argument checks. -/
def headerRead (maxOctets maxValue : Nat) (input : Bytes) : Except Result Header :=
  (headerParse maxOctets .der maxValue input).map ProfileHeader.toHeader

/-- `TC_TLV_element`. -/
structure Element where
  header : Header
  encoded : Bytes
  value : Bytes
  deriving DecidableEq

/-- `tc_tlv_tag_is`, for tags of one byte. -/
def Element.tagIs (element : Element) (tag : UInt8) : Bool := element.header.tag = [tag]

/-- `TC_TLV_reader`: the input that is not read yet, and the elements read. -/
structure Reader where
  rest : Bytes
  elements : Nat
  deriving DecidableEq

section

variable (sizeT : Nat) (limits : Limits)

/-- `TC_TLV_read`. `sizeT` is `sizeof(size_t)`. -/
def read (input : Bytes) : Except Result Element :=
  if input.length > limits.maxInput then .error .limit
  else
    match headerRead sizeT limits.maxValue input with
    | .error e => .error e
    | .ok header =>
      if header.length > input.length - header.headerLength then .error .more
      else .ok
        { header, encoded := input.take (header.headerLength + header.length),
          value := (input.drop header.headerLength).take header.length }

/-- `TC_TLV_reader_init`. -/
def readerInit (input : Bytes) : Except Result Reader :=
  if input.length > limits.maxInput then .error .limit else .ok ⟨input, 0⟩

/-- `TC_TLV_next`. -/
def next (reader : Reader) : Except Result (Element × Reader) :=
  if reader.rest = [] then .error .end
  else if reader.elements ≥ limits.maxElements then .error .limit
  else
    match read sizeT limits reader.rest with
    | .error e => .error e
    | .ok element =>
      .ok (element, ⟨reader.rest.drop element.encoded.length, reader.elements + 1⟩)

/-- `tc_pki_field`. -/
def field (tag : UInt8) (reader : Reader) : Except Result (Element × Reader) :=
  match next sizeT limits reader with
  | .error .end => .error .invalid
  | .error .more => .error .invalid
  | .error e => .error e
  | .ok (element, reader) =>
    if element.tagIs tag then .ok (element, reader) else .error .invalid

end

def ReadError (e : Result) : Prop := e = .limit ∨ e = .invalid ∨ e = .more

variable {e : Result}

theorem lengthOctets_error {length : Nat} {octets : Bytes}
    (failed : lengthOctets length octets = .error e) : e = .limit := by
  induction octets generalizing length with
  | nil => simp [lengthOctets] at failed
  | cons b rest ih =>
    simp only [lengthOctets] at failed
    split at failed
    · cases failed
      rfl
    · exact ih failed

section

variable {sizeT : Nat} {limits limits' : Limits}

variable {input : Bytes}

theorem headerParse_agree {profile : Profile} {maxValue maxValue' : Nat}
    {h h' : ProfileHeader} (read : headerParse sizeT profile maxValue input = .ok h)
    (read' : headerParse sizeT profile maxValue' input = .ok h') : h = h' := by
  cases input with
  | nil => cases read
  | cons first rest =>
    simp only [headerParse] at read read'
    split at read
    · cases read
    rename_i tagLength number tag
    simp only [tag] at read'
    split at read
    · cases read
    rename_i octets length stated
    simp only [stated] at read'
    split at read
    · cases read
    split at read'
    · cases read'
    rw [← Except.ok.inj read, ← Except.ok.inj read']

theorem headerRead_eq_ok {maxOctets maxValue : Nat} {header : Header} :
    headerRead maxOctets maxValue input = .ok header ↔
      ∃ h, headerParse maxOctets .der maxValue input = .ok h ∧ h.toHeader = header := by
  rw [headerRead]
  cases headerParse maxOctets .der maxValue input with
  | error e => simp [Except.map]
  | ok h => simp [Except.map]

theorem headerRead_eq_error {maxOctets maxValue : Nat} :
    headerRead maxOctets maxValue input = .error e ↔
      headerParse maxOctets .der maxValue input = .error e := by
  rw [headerRead]
  cases headerParse maxOctets .der maxValue input with
  | error e' => simp [Except.map]
  | ok h => simp [Except.map]

theorem headerRead_agree {maxValue maxValue' : Nat} {header header' : Header}
    (read : headerRead sizeT maxValue input = .ok header)
    (read' : headerRead sizeT maxValue' input = .ok header') : header = header' := by
  obtain ⟨h, parsed, rfl⟩ := headerRead_eq_ok.mp read
  obtain ⟨h', parsed', rfl⟩ := headerRead_eq_ok.mp read'
  rw [headerParse_agree parsed parsed']

variable {element element' : Element}

theorem read_agree (hRead : read sizeT limits input = .ok element)
    (hRead' : read sizeT limits' input = .ok element') : element = element' := by
  unfold read at hRead hRead'
  split at hRead
  · cases hRead
  split at hRead'
  · cases hRead'
  split at hRead
  · cases hRead
  rename_i header parsed
  split at hRead'
  · cases hRead'
  rename_i header' parsed'
  obtain rfl := headerRead_agree parsed parsed'
  split at hRead
  · cases hRead
  rename_i fits
  rw [if_neg fits] at hRead'
  exact Except.ok.inj (hRead.symm.trans hRead')

theorem next_agree {reader reader' : Reader} {after after' : Reader}
    (same : reader.rest = reader'.rest) (hNext : next sizeT limits reader = .ok (element, after))
    (hNext' : next sizeT limits' reader' = .ok (element', after')) :
    element = element' ∧ after.rest = after'.rest := by
  unfold next at hNext hNext'
  split at hNext
  · cases hNext
  split at hNext'
  · cases hNext'
  split at hNext
  · cases hNext
  split at hNext'
  · cases hNext'
  split at hNext
  · cases hNext
  rename_i found hRead
  split at hNext'
  · cases hNext'
  rename_i found' hRead'
  rw [same] at hRead
  obtain rfl := read_agree hRead hRead'
  simp only [Except.ok.injEq, Prod.mk.injEq] at hNext hNext'
  obtain ⟨rfl, rfl⟩ := hNext
  obtain ⟨rfl, rfl⟩ := hNext'
  exact ⟨rfl, by rw [same]⟩

theorem field_next {tag : UInt8} {reader after : Reader} {element : Element}
    (read : field sizeT limits tag reader = .ok (element, after)) :
    next sizeT limits reader = .ok (element, after) := by
  unfold field at read
  split at read
  · cases read
  · cases read
  · cases read
  · rename_i found
    split at read
    · rw [found, read]
    · cases read

theorem field_agree {tag tag' : UInt8} {reader reader' : Reader} {after after' : Reader}
    (same : reader.rest = reader'.rest)
    (read : field sizeT limits tag reader = .ok (element, after))
    (read' : field sizeT limits' tag' reader' = .ok (element', after')) :
    element = element' ∧ after.rest = after'.rest :=
  next_agree same (field_next read) (field_next read')

end

end TinyCrypto.Tlv
