import TinyCrypto.Piv.Link
import TinyCrypto.Tlv.Elements

/-! # Reading a protected response

`response_read` of `piv_sm_apdu.c`. It accepts a cryptogram, a status and a MAC in this order
with nothing after them, under any ISO 7816 length fields.
-/

namespace TinyCrypto.Piv

open Tlv

/-- `TC_TLV_ISO7816` in a build. -/
def isoReading (ber : Bool) (sizeT : Nat) : Reading := ⟨ber, sizeT, .iso7816⟩

section

variable (r : Reading) (limits : Limits)

def nextField (reader : Reader) : Option (ProfileElement × Reader) :=
  match nextProfile r limits reader with
  | .ok found => some found
  | .error _ => none

def cryptogramField (ins : UInt8) (element : ProfileElement) (reader : Reader) :
    Option (Bytes × ProfileElement × Reader) :=
  if element.tagIs 0x87 then
    let value := element.value
    if ins = insVerify || value.length < 17 || value.headD 0 ≠ 1 || (value.length - 1) % 16 ≠ 0 then
      none
    else (nextField r limits reader).map fun next => (value.drop 1, next)
  else some ([], element, reader)

def statusFields (data ciphertext : Bytes) (element : ProfileElement) (reader : Reader) :
    Option ResponseFields :=
  if !element.tagIs 0x99 || element.value.length ≠ 2 then none
  else
    let sw := (element.value.getD 0 0).toNat * 256 + (element.value.getD 1 0).toNat
    let authenticated := data.take (data.length - reader.rest.length)
    match nextField r limits reader with
    | none => none
    | some (element, reader) =>
      if !element.tagIs 0x8e || element.value.length ≠ 8 || reader.rest ≠ [] then none
      else some ⟨ciphertext, authenticated, element.value, sw⟩

/-- `response_read`. -/
def responseRead (data : Bytes) (ins : UInt8) : Option ResponseFields :=
  let limits : Limits := ⟨data.length, data.length, 0, 3⟩
  match profileInit r limits data with
  | .error _ => none
  | .ok reader => do
    let (element, reader) ← nextField r limits reader
    let (ciphertext, element, reader) ← cryptogramField r limits ins element reader
    statusFields r limits data ciphertext element reader

end

def DataObject (sizeT : Nat) (tag : UInt8) (value bytes : Bytes) : Prop :=
  ∃ lengthField, bytes = tag :: lengthField ++ value ∧
    ValidLength .iso7816 false sizeT lengthField (some value.length)

variable {ber : Bool} {sizeT : Nat} {limits : Limits} {reader after : Reader}
  {e : ProfileElement} {tag : UInt8}

structure ObjectTag (tag : UInt8) : Prop where
  valid : ValidTag .iso7816 [tag] (tag.toNat % 32)
  primitive : decide (tag.toNat / 32 % 2 = 1) = false

theorem objectTag_cryptogram : ObjectTag 0x87 :=
  ⟨.low (by decide) (by decide) (by decide), by decide⟩

theorem objectTag_status : ObjectTag 0x99 := ⟨.low (by decide) (by decide) (by decide), by decide⟩

theorem objectTag_mac : ObjectTag 0x8e := ⟨.low (by decide) (by decide) (by decide), by decide⟩

theorem nextField_object (object : ObjectTag tag)
    (found : nextField (isoReading ber sizeT) limits reader = some (e, after))
    (named : e.tagIs tag = true) :
    DataObject sizeT tag e.value e.encoded ∧ reader.rest = e.encoded ++ after.rest := by
  have read : nextProfile (isoReading ber sizeT) limits reader = .ok (e, after) := by
    unfold nextField at found
    split at found
    · rename_i read
      rw [read, Option.some.inj found]
    · cases found
  obtain ⟨⟨head, encoded, size, definite, header⟩, rest⟩ := nextProfile_ok read
  refine ⟨?_, rest⟩
  have same : e.header.tag = [tag] := of_decide_eq_true named
  obtain ⟨field, stated, split, length, states, indefinite⟩ := header.fields
  have primitive : e.header.constructed = false := by
    rw [header.constructed, same]
    exact object.primitive
  rw [primitive] at length
  rw [definite] at indefinite
  cases stated with
  | none => cases indefinite
  | some n =>
    refine ⟨field, ?_, ?_⟩
    · rw [encoded, split, same]
      rfl
    · rw [size, states]
      exact length

theorem nextField_of_object {value bytes rest : Bytes} (object : ObjectTag tag)
    (data : DataObject sizeT tag value bytes) (split : reader.rest = bytes ++ rest)
    (input : reader.rest.length ≤ limits.maxInput) (most : value.length ≤ limits.maxValue)
    (more : reader.elements < limits.maxElements) :
    ∃ e, nextField (isoReading ber sizeT) limits reader =
        some (e, ⟨rest, reader.elements + 1⟩) ∧ e.tagIs tag = true ∧ e.value = value := by
  obtain ⟨field, rfl, length⟩ := data
  let header : ProfileHeader :=
    { length := value.length, number := tag.toNat % 32, tag := [tag],
      headerLength := (tag :: field).length, tagClass := tag.toNat / 64, constructed := false,
      indefinite := false }
  have valid : ValidHeader sizeT .iso7816 limits.maxValue (tag :: field) header :=
    ⟨⟨field, some value.length, rfl, length, rfl, rfl⟩, object.valid, rfl, object.primitive.symm,
      rfl, most⟩
  have whole : tag :: field ++ (value ++ rest) = tag :: field ++ value ++ rest := by simp
  have parsed : headerParse (isoReading ber sizeT).sizeT (isoReading ber sizeT).profile
      limits.maxValue (tag :: field ++ value ++ rest) = .ok header :=
    whole ▸ headerParse_valid valid (value ++ rest)
  rw [split] at input
  have filled : tag :: field ++ value ++ rest ≠ [] := by simp
  have read : readProfile (isoReading ber sizeT) limits (tag :: field ++ value ++ rest) =
      .ok ⟨header, tag :: field ++ value, value⟩ := by
    unfold readProfile
    have accepted : config (isoReading ber sizeT).ber (isoReading ber sizeT).profile = .ok := rfl
    rw [accepted, if_neg (not_not.mpr rfl), if_neg (Nat.not_lt.mpr input)]
    rw [parsed]
    have room : ¬header.length >
        (tag :: field ++ value ++ rest).length - header.headerLength := by
      simp only [header, List.length_append]
      omega
    dsimp only
    rw [if_neg Bool.false_ne_true, if_neg room]
    have size : header.headerLength + header.length = (tag :: field ++ value).length :=
      List.length_append.symm
    rw [size, List.take_left]
    simp only [header, List.append_assoc, List.drop_left, List.take_left]
  refine ⟨⟨header, tag :: field ++ value, value⟩, ?_, decide_eq_true rfl, rfl⟩
  unfold nextField nextProfile
  rw [split, if_neg filled, if_neg (Nat.not_le.mpr more), read]
  dsimp only
  rw [List.drop_left]

/-- `[87 L 01 ciphertext] 99 L SW 8E L MAC`, the cryptogram of one block or more and not for
    VERIFY. -/
structure ResponseObjects (sizeT : Nat) (ins : UInt8) (fields : ResponseFields)
    (object status mac : Bytes) : Prop where
  cryptogram : object = [] ∧ fields.ciphertext = [] ∨
    ins ≠ insVerify ∧ fields.ciphertext ≠ [] ∧ fields.ciphertext.length % 16 = 0 ∧
      DataObject sizeT 0x87 (0x01 :: fields.ciphertext) object
  word : ∃ sw1 sw2 : UInt8, DataObject sizeT 0x99 [sw1, sw2] status ∧
    fields.sw = sw1.toNat * 256 + sw2.toNat
  authenticated : fields.authenticated = object ++ status
  tag : DataObject sizeT 0x8e fields.mac mac
  macLength : fields.mac.length = 8

def ProtectedResponse (sizeT : Nat) (ins : UInt8) (data : Bytes) (fields : ResponseFields) : Prop :=
  ∃ object status mac, data = object ++ status ++ mac ∧
    ResponseObjects sizeT ins fields object status mac

variable {data : Bytes} {ins : UInt8} {fields : ResponseFields}

theorem cryptogramField_ok {ciphertext : Bytes} {e' : ProfileElement} {after' : Reader}
    {input : Bytes} (object : nextField (isoReading ber sizeT) limits reader = some (e, after))
    (held : reader.rest = input)
    (found : cryptogramField (isoReading ber sizeT) limits ins e after =
      some (ciphertext, e', after')) :
    ∃ cryptogram middle, nextField (isoReading ber sizeT) limits middle = some (e', after') ∧
      input = cryptogram ++ middle.rest ∧ (cryptogram = [] ∧ ciphertext = [] ∨
        ins ≠ insVerify ∧ ciphertext ≠ [] ∧ ciphertext.length % 16 = 0 ∧
          DataObject sizeT 0x87 (0x01 :: ciphertext) cryptogram) := by
  unfold cryptogramField at found
  split at found
  · rename_i named
    obtain ⟨parsed, rest⟩ := nextField_object objectTag_cryptogram object named
    dsimp only at found
    split at found
    · cases found
    · rename_i checked
      simp only [Bool.or_eq_true, decide_eq_true_eq, not_or, not_lt, ne_eq, not_not] at checked
      obtain ⟨⟨⟨other, size⟩, indicator⟩, blocks⟩ := checked
      obtain ⟨next, following, same⟩ := Option.map_eq_some_iff.mp found
      obtain ⟨rfl, rfl⟩ := Prod.mk.inj same
      generalize whole : e.value = value at *
      cases value with
      | nil => exact absurd size (by decide)
      | cons first more =>
        cases indicator
        refine ⟨e.encoded, after, following, held.symm.trans rest, Or.inr ⟨other, ?_, ?_, parsed⟩⟩
        · rintro rfl
          exact absurd size (by decide)
        · simpa using blocks
  · cases found
    exact ⟨[], reader, object, held.symm, Or.inl ⟨rfl, rfl⟩⟩

theorem statusFields_ok {data ciphertext object : Bytes} {start : Reader}
    (found : nextField (isoReading ber sizeT) limits start = some (e, after))
    (split : data = object ++ start.rest)
    (read : statusFields (isoReading ber sizeT) limits data ciphertext e after = some fields) :
    fields.ciphertext = ciphertext ∧ fields.mac.length = 8 ∧
      ∃ status mac, data = object ++ status ++ mac ∧ fields.authenticated = object ++ status ∧
        (∃ sw1 sw2 : UInt8, DataObject sizeT 0x99 [sw1, sw2] status ∧
          fields.sw = sw1.toNat * 256 + sw2.toNat) ∧ DataObject sizeT 0x8e fields.mac mac := by
  unfold statusFields at read
  split at read
  · cases read
  rename_i stated
  simp only [Bool.or_eq_true, Bool.not_eq_true', decide_eq_true_eq, not_or, Bool.not_eq_false,
    ne_eq, not_not] at stated
  obtain ⟨statusObject, rest⟩ := nextField_object objectTag_status found stated.1
  dsimp only at read
  split at read
  · cases read
  rename_i mac last following
  split at read
  · cases read
  rename_i ended
  simp only [Bool.or_eq_true, Bool.not_eq_true', decide_eq_true_eq, not_or, Bool.not_eq_false,
    ne_eq, not_not] at ended
  obtain ⟨macObject, rest'⟩ := nextField_object objectTag_mac following ended.1.1
  cases read
  have whole : data = object ++ e.encoded ++ after.rest := by rw [split, rest, List.append_assoc]
  obtain ⟨sw1, sw2, bytes⟩ := List.length_eq_two.mp stated.2
  refine ⟨rfl, ended.1.2, e.encoded, mac.encoded, ?_, ?_, ⟨sw1, sw2, bytes ▸ statusObject, ?_⟩,
    macObject⟩
  · rw [whole, rest', ended.2, List.append_nil]
  · change data.take (data.length - after.rest.length) = _
    rw [whole, @List.length_append _ _ after.rest, Nat.add_sub_cancel, List.take_left]
  · rw [bytes]
    rfl

theorem responseRead_sound (read : responseRead (isoReading ber sizeT) data ins = some fields) :
    ProtectedResponse sizeT ins data fields := by
  unfold responseRead at read
  dsimp only at read
  split at read
  · cases read
  rename_i reader opened
  obtain rfl := profileInit_ok opened
  simp only [bind, Option.bind_eq_some_iff] at read
  obtain ⟨⟨first, reader₁⟩, found, ⟨ciphertext, status, reader₂⟩, cryptogram, read⟩ := read
  obtain ⟨object, middle, found₂, split, shape⟩ := cryptogramField_ok found rfl cryptogram
  obtain ⟨rfl, macLength, status, mac, whole, authenticated, word, tag⟩ :=
    statusFields_ok found₂ split read
  exact ⟨object, status, mac, whole, shape, word, authenticated, tag, macLength⟩

theorem DataObject.length {value bytes : Bytes} (object : DataObject sizeT tag value bytes) :
    value.length ≤ bytes.length := by
  obtain ⟨field, rfl, _⟩ := object
  rw [List.length_append]
  omega

theorem profileInit_iso (ber : Bool) (sizeT : Nat) (data : Bytes) :
    profileInit (isoReading ber sizeT) ⟨data.length, data.length, 0, 3⟩ data = .ok ⟨data, 0⟩ := by
  unfold profileInit
  have accepted : config (isoReading ber sizeT).ber (isoReading ber sizeT).profile = .ok := rfl
  rw [accepted, if_neg (not_not.mpr rfl), if_neg (Nat.lt_irrefl _)]

theorem statusFields_of_objects {data ciphertext authenticated value mac : Bytes} {sw1 sw2 : UInt8}
    {n : Nat} (named : e.tagIs 0x99 = true) (word : e.value = [sw1, sw2])
    (tag : DataObject sizeT 0x8e value mac) (size : value.length = 8)
    (whole : data = authenticated ++ mac) (few : n < 3) :
    statusFields (isoReading ber sizeT) ⟨data.length, data.length, 0, 3⟩ data ciphertext e
        ⟨mac, n⟩ = some ⟨ciphertext, authenticated, value, sw1.toNat * 256 + sw2.toNat⟩ := by
  have sizes := congrArg List.length whole
  rw [List.length_append] at sizes
  have macSize := tag.length
  obtain ⟨e', following, named', same⟩ := @nextField_of_object ber sizeT
    ⟨data.length, data.length, 0, 3⟩ ⟨mac, n⟩ 0x8e value mac [] objectTag_mac tag
    (List.append_nil mac).symm (by dsimp only; omega) (by dsimp only; omega) few
  unfold statusFields
  rw [named, word, if_neg (by simp)]
  dsimp only
  rw [following]
  dsimp only
  rw [named', same, size, if_neg (by simp), whole, List.length_append, Nat.add_sub_cancel,
    List.take_left]
  rfl

theorem responseRead_complete (response : ProtectedResponse sizeT ins data fields) :
    responseRead (isoReading ber sizeT) data ins = some fields := by
  obtain ⟨object, status, mac, whole, shape, ⟨sw1, sw2, statusObject, sw⟩, authenticated, tag,
    macLength⟩ := response
  have sizes := congrArg List.length whole
  rw [List.length_append, List.length_append] at sizes
  have statusSize := statusObject.length
  have status_read (n : Nat) (few : n < 3) :=
    @nextField_of_object ber sizeT ⟨data.length, data.length, 0, 3⟩ ⟨status ++ mac, n⟩ 0x99
      [sw1, sw2] status mac objectTag_status statusObject rfl
      (by simp only [List.length_append]; omega) (by dsimp only; omega) few
  obtain ⟨ciphertext, prefixed, value, word⟩ := fields
  dsimp only at shape sw authenticated tag macLength
  subst sw authenticated
  unfold responseRead
  dsimp only
  rw [profileInit_iso]
  dsimp only
  rcases shape with ⟨rfl, rfl⟩ | ⟨other, filled, blocks, cryptogram⟩
  · rw [List.nil_append] at whole
    obtain ⟨e, found, named, same⟩ := status_read 0 (by omega)
    have unnamed : e.tagIs 0x87 = false := by
      have tag : e.header.tag = [0x99] := of_decide_eq_true named
      rw [ProfileElement.tagIs, tag]
      decide
    rw [whole] at found ⊢
    rw [found]
    change (cryptogramField _ _ ins e _).bind _ = _
    rw [cryptogramField, unnamed, if_neg Bool.false_ne_true]
    exact statusFields_of_objects named same tag macLength rfl (show 0 + 1 < 3 by decide)
  · rw [List.append_assoc] at whole
    have cryptogramSize := cryptogram.length
    obtain ⟨first, opened, named, same⟩ := @nextField_of_object ber sizeT
      ⟨data.length, data.length, 0, 3⟩ ⟨data, 0⟩ 0x87 (0x01 :: ciphertext) object (status ++ mac)
      objectTag_cryptogram cryptogram whole le_rfl (by dsimp only; omega) (Nat.zero_lt_succ 2)
    obtain ⟨e, found, named', same'⟩ := status_read 1 (by omega)
    rw [opened]
    change (cryptogramField _ _ ins first _).bind _ = _
    have pos := List.length_pos_of_ne_nil filled
    have checked : (decide (ins = insVerify) || decide ((0x01 :: ciphertext).length < 17) ||
        decide ((0x01 :: ciphertext).headD 0 ≠ 1) ||
        decide (((0x01 :: ciphertext).length - 1) % 16 ≠ 0)) = false := by
      simp only [List.length_cons, List.headD_cons, Nat.add_sub_cancel, blocks]
      simp [other]
      omega
    rw [cryptogramField, named, if_pos rfl]
    dsimp only
    rw [same, checked, if_neg Bool.false_ne_true, found]
    refine statusFields_of_objects named' same' tag macLength ?_ (show 1 + 1 < 3 by decide)
    rw [whole, List.append_assoc]

theorem responseRead_iff : responseRead (isoReading ber sizeT) data ins = some fields ↔
    ProtectedResponse sizeT ins data fields :=
  ⟨responseRead_sound, responseRead_complete⟩

end TinyCrypto.Piv
