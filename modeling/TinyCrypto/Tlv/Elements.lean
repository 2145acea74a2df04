import TinyCrypto.Library.Steady
import TinyCrypto.Tlv.Grammar
import TinyCrypto.Tlv.StreamBytes

/-! # Elements in any profile

`TC_TLV_read` and `TC_TLV_next` outside DER. Only definite lengths are read. A
loop over siblings reads its input as a sequence of elements.
-/

namespace TinyCrypto.Tlv

open Library Library.Program

/-- `TC_TLV_element`. -/
structure ProfileElement where
  header : ProfileHeader
  encoded : Bytes
  value : Bytes
  deriving DecidableEq

/-- `tc_tlv_tag_is`, for tags of one byte. -/
def ProfileElement.tagIs (element : ProfileElement) (tag : UInt8) : Bool := element.header.tag = [tag]

structure Reading where
  ber : Bool
  sizeT : Nat
  profile : Profile
  deriving DecidableEq

section

variable (r : Reading) (limits : Limits)

/-- `TC_TLV_read`. -/
def readProfile (input : Bytes) : Except Result ProfileElement :=
  if config r.ber r.profile ≠ .ok then .error (config r.ber r.profile)
  else if input.length > limits.maxInput then .error .limit
  else
    match headerParse r.sizeT r.profile limits.maxValue input with
    | .error e => .error e
    | .ok header =>
      if header.indefinite then .error .unsupported
      else if header.length > input.length - header.headerLength then .error .more
      else .ok
        { header, encoded := input.take (header.headerLength + header.length),
          value := (input.drop header.headerLength).take header.length }

/-- `TC_TLV_reader_init`. -/
def profileInit (input : Bytes) : Except Result Reader :=
  if config r.ber r.profile ≠ .ok then .error (config r.ber r.profile)
  else if input.length > limits.maxInput then .error .limit
  else .ok ⟨input, 0⟩

/-- `TC_TLV_next` in a profile without padding. -/
def nextProfile (reader : Reader) : Except Result (ProfileElement × Reader) :=
  if reader.rest = [] then .error .end
  else if reader.elements ≥ limits.maxElements then .error .limit
  else
    match readProfile r limits reader.rest with
    | .error e => .error e
    | .ok element =>
      .ok (element, ⟨reader.rest.drop element.encoded.length, reader.elements + 1⟩)

variable {D A : Type}

/-- `while (TC_TLV_next(..) == TC_TLV_OK)`, where the end of the input ends the loop
    and another result is returned. The body also gets the input before the element. -/
def elementsLoop (body : Bytes → ProfileElement → A → Metered Result D A) :
    (passes : Nat) → (before : Bytes) → Reader → A → Metered Result D A
  | 0, _, _, a => pure a
  | passes + 1, before, reader, a =>
    match nextProfile r limits reader with
    | .error .end => pure a
    | .error e => throw e
    | .ok (element, reader) => do
      let a ← body before element a
      elementsLoop body passes (before ++ element.encoded) reader a

def forElements (body : Bytes → ProfileElement → A → Metered Result D A) (input : Bytes) (a : A) :
    Metered Result D A := do
  let reader ← lift (profileInit r limits input)
  elementsLoop r limits body input.length [] reader a

end

def ProfileElement.Valid (r : Reading) (limits : Limits) (e : ProfileElement) : Prop :=
  ∃ head, e.encoded = head ++ e.value ∧ e.value.length = e.header.length ∧
    e.header.indefinite = false ∧ ValidHeader r.sizeT r.profile limits.maxValue head e.header

def encodings (elements : List ProfileElement) : Bytes := elements.flatMap (·.encoded)

variable {r : Reading} {limits : Limits} {input : Bytes} {e : ProfileElement}

theorem readProfile_ok (read : readProfile r limits input = .ok e) :
    e.Valid r limits ∧ ∃ rest, input = e.encoded ++ rest := by
  simp only [readProfile] at read
  split at read
  · cases read
  split at read
  · cases read
  split at read
  · cases read
  rename_i header parsed
  split at read
  · cases read
  rename_i definite
  split at read
  · cases read
  rename_i enough
  cases read
  obtain ⟨head, tail, rfl, valid⟩ := headerParse_ok parsed
  have size := valid.headerLength
  rw [List.length_append] at enough
  have inside : header.length ≤ tail.length := by omega
  refine ⟨⟨head, ?_, ?_, by simpa using definite, valid⟩, tail.drop header.length, ?_⟩
  · simp only [size, List.take_length_add_append, List.drop_left]
  · simp only [size, List.drop_left, List.length_take]
    omega
  · simp only [size, List.take_length_add_append, List.append_assoc, List.take_append_drop]

theorem ProfileElement.Valid.encoded_pos (valid : e.Valid r limits) : 0 < e.encoded.length := by
  obtain ⟨head, same, -, -, header⟩ := valid
  have size := header.size
  rw [same, List.length_append]
  omega

theorem nextProfile_ok {reader after : Reader} (read : nextProfile r limits reader = .ok (e, after)) :
    e.Valid r limits ∧ reader.rest = e.encoded ++ after.rest := by
  simp only [nextProfile] at read
  split at read
  · cases read
  split at read
  · cases read
  split at read
  · cases read
  rename_i element found
  cases read
  obtain ⟨valid, rest, same⟩ := readProfile_ok found
  refine ⟨valid, ?_⟩
  simp only [same, List.drop_left]

theorem profileInit_ok {reader : Reader} (opened : profileInit r limits input = .ok reader) :
    reader = ⟨input, 0⟩ := by
  simp only [profileInit] at opened
  split at opened
  · cases opened
  split at opened
  · cases opened
  · cases opened
    rfl

theorem readProfile_error {e : Result} (failed : readProfile r limits input = .error e) :
    e ≠ .ok ∧ e ≠ .end := by
  simp only [readProfile] at failed
  split at failed
  · rename_i refused
    cases failed
    refine ⟨refused, ?_⟩
    unfold config
    split <;> decide
  split at failed
  · cases failed
    decide
  split at failed
  · rename_i parsed
    cases failed
    rcases Stream.headerParse_error parsed with rfl | rfl | rfl <;> decide
  split at failed
  · cases failed
    decide
  split at failed
  · cases failed
    decide
  · cases failed

theorem nextProfile_end {reader : Reader} (ended : nextProfile r limits reader = .error .end) :
    reader.rest = [] := by
  simp only [nextProfile] at ended
  split at ended
  · assumption
  split at ended
  · cases ended
  split at ended
  · rename_i failed
    cases ended
    exact absurd rfl (readProfile_error failed).2
  · cases ended

section

variable {D A : Type} {body : Bytes → ProfileElement → A → Metered Result D A}
variable {s s' : Budgeted D} {a a' : A}

/-- The invariant rule: a completed loop read its input as valid elements, and what
    one pass keeps the loop keeps. -/
theorem elementsLoop_gives (I : List ProfileElement → A → Budgeted D → Prop) {passes : Nat}
    {reader : Reader} {done : List ProfileElement} (enough : reader.rest.length ≤ passes)
    (given : Gives (elementsLoop r limits body passes (encodings done) reader a) s a' s')
    (start : I done a s) (keep : ∀ done e a s a' s', e.Valid r limits → I done a s →
      Gives (body (encodings done) e a) s a' s' → I (done ++ [e]) a' s') :
    ∃ elements, encodings elements = reader.rest ∧ (∀ e ∈ elements, e.Valid r limits) ∧
      I (done ++ elements) a' s' := by
  induction passes generalizing reader done a s with
  | zero =>
    simp only [elementsLoop, gives_pure] at given
    obtain ⟨rfl, rfl⟩ := given
    have empty : reader.rest = [] := by simpa using enough
    exact ⟨[], by simp [encodings, empty], by simp, by simpa using start⟩
  | succ passes ih =>
    simp only [elementsLoop] at given
    split at given
    · rename_i ended
      obtain ⟨rfl, rfl⟩ := gives_pure.mp given
      exact ⟨[], by simp [encodings, nextProfile_end ended], by simp, by simpa using start⟩
    · simp at given
    · rename_i element after read
      obtain ⟨valid, same⟩ := nextProfile_ok read
      have consumed := valid.encoded_pos
      simp only [gives_bind] at given
      obtain ⟨middle, state, step, rest⟩ := given
      have before : encodings done ++ element.encoded = encodings (done ++ [element]) := by
        simp [encodings]
      rw [before] at rest
      have shorter : after.rest.length ≤ passes := by
        rw [same, List.length_append] at enough
        omega
      obtain ⟨elements, joined, all, ends⟩ :=
        ih shorter rest (keep done element a s middle state valid start step)
      refine ⟨element :: elements, ?_, ?_, ?_⟩
      · rw [same, ← joined]
        simp [encodings]
      · simpa using ⟨valid, all⟩
      · simpa using ends

theorem elementsLoop_steady (steady : ∀ before e a, Metered.Agree .limit (body before e a) (body before e a))
    (passes : Nat) (before : Bytes) (reader : Reader) (a : A) :
    Metered.Agree .limit (elementsLoop r limits body passes before reader a)
      (elementsLoop r limits body passes before reader a) := by
  induction passes generalizing before reader a with
  | zero => exact Metered.agree_pure a
  | succ passes ih =>
    simp only [elementsLoop]
    split
    · exact Metered.agree_pure a
    · exact Metered.agree_throw _
    · exact Metered.agree_bind (steady _ _ _) fun a => ih _ _ a

theorem forElements_steady (steady : ∀ before e a, Metered.Agree .limit (body before e a) (body before e a))
    (input : Bytes) (a : A) :
    Metered.Agree .limit (forElements r limits body input a) (forElements r limits body input a) :=
  Metered.agree_bind (Metered.agree_lift _) fun _ => elementsLoop_steady steady _ _ _ a

theorem forElements_gives (I : List ProfileElement → A → Budgeted D → Prop)
    (given : Gives (forElements r limits body input a) s a' s') (start : I [] a s)
    (keep : ∀ done e a s a' s', e.Valid r limits → I done a s →
      Gives (body (encodings done) e a) s a' s' → I (done ++ [e]) a' s') :
    ∃ elements, encodings elements = input ∧ (∀ e ∈ elements, e.Valid r limits) ∧
      I elements a' s' := by
  simp only [forElements, gives_bind, gives_lift] at given
  obtain ⟨reader, _, ⟨opened, rfl⟩, loop⟩ := given
  have same : reader.rest = input := congrArg Reader.rest (profileInit_ok opened)
  have run := @elementsLoop_gives r limits D A body s s' a a' I input.length reader []
    (Nat.le_of_eq (congrArg List.length same)) loop start keep
  rwa [same] at run

end

end TinyCrypto.Tlv
