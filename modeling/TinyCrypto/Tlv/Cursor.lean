import Mathlib.Data.List.TakeWhile
import TinyCrypto.Tlv.Elements

/-! # Readers over a whole input

`TC_TLV_reader` with its padding. The elements that a reader returns, with the padding
between them, are the input up to its offset.
-/

namespace TinyCrypto.Tlv

/-- `TC_TLV_reader`. The profile and the limits are those of the reading. -/
structure Cursor where
  input : Bytes
  offset : Nat
  elements : Nat
  root : Bool
  deriving DecidableEq

section

variable (r : Reading) (limits : Limits)

/-- `TC_TLV_reader_init` for a reader at `place` and an input at `address`. -/
def cursorInit (place : Span) (address : Nat) (input : Bytes) : Except Result Cursor :=
  if config r.ber r.profile ≠ .ok then .error (config r.ber r.profile)
  else if place.address = 0 || (address = 0 && input.length ≠ 0) ||
      !place.disjoint ⟨address, input.length⟩ then .error .argument
  else if input.length > limits.maxInput then .error .limit
  else .ok ⟨input, 0, 0, true⟩

def Cursor.position (c : Cursor) : Nat :=
  if c.root then c.offset + ((c.input.drop c.offset).takeWhile (padding r.profile)).length
  else c.offset

/-- `TC_TLV_next`: the result, the reader and `out`. -/
def Cursor.next (c : Cursor) (out : ProfileElement) : Result × Cursor × ProfileElement :=
  if c.offset > c.input.length then (.argument, c, out)
  else
    let p := c.position r
    if p = c.input.length then (.end, { c with offset := p }, out)
    else if c.elements ≥ limits.maxElements then (.limit, c, out)
    else
      match readProfile r limits (c.input.drop p) with
      | .error e => (if e = .more && !c.root then .invalid else e, c, out)
      | .ok e => (.ok, { c with offset := p + e.encoded.length, elements := c.elements + 1 }, e)

/-- `calls` calls one after another: the elements returned with TC_TLV_OK and the reader. -/
def Cursor.readAll : (calls : Nat) → Cursor → ProfileElement → List ProfileElement × Cursor
  | 0, c, _ => ([], c)
  | calls + 1, c, out =>
    match c.next r limits out with
    | (.ok, c, e) => ((readAll calls c e).1.cons e, (readAll calls c e).2)
    | (_, c, out) => readAll calls c out

/-- The first `consumed` bytes are the elements in order, each as `TC_TLV_read` reads it from
    there, with padding of the profile before and after them. -/
inductive Tiles : (input : Bytes) → (consumed : Nat) → List ProfileElement → Prop
  | blank {pad rest : Bytes} (only : ∀ b ∈ pad, padding r.profile b = true) :
    Tiles (pad ++ rest) pad.length []
  | element {pad rest : Bytes} {consumed : Nat} {e : ProfileElement} {elements : List ProfileElement}
      (only : ∀ b ∈ pad, padding r.profile b = true)
      (read : readProfile r limits (e.encoded ++ rest) = .ok e) (later : Tiles rest consumed elements) :
    Tiles (pad ++ (e.encoded ++ rest)) (pad.length + (e.encoded.length + consumed)) (e :: elements)

end

variable {r : Reading} {limits : Limits} {input : Bytes} {consumed : Nat} {c c' : Cursor}
  {e out : ProfileElement} {elements : List ProfileElement} {result : Result}

theorem Tiles.length_le (tiles : Tiles r limits input consumed elements) :
    consumed ≤ input.length ∧ elements.length ≤ consumed := by
  induction tiles with
  | blank => simp
  | element _ read _ ih =>
    have some := (readProfile_ok read).1.encoded_pos
    simp only [List.length_append, List.length_cons]
    omega

theorem Tiles.after_padding {pad : Bytes} (tiles : Tiles r limits input consumed elements)
    (only : ∀ b ∈ pad, padding r.profile b = true) :
    Tiles r limits (pad ++ input) (pad.length + consumed) elements := by
  have both : ∀ {more : Bytes}, (∀ b ∈ more, padding r.profile b = true) →
      ∀ b ∈ pad ++ more, padding r.profile b = true := fun only' b member =>
    (List.mem_append.mp member).elim (only b) (only' b)
  cases tiles with
  | blank only' =>
    rw [← List.append_assoc, ← List.length_append]
    exact .blank (both only')
  | element only' read later =>
    rw [← List.append_assoc, ← Nat.add_assoc, ← List.length_append]
    exact .element (both only') read later

theorem Cursor.position_spec (c : Cursor) :
    ∃ pad, (∀ b ∈ pad, padding r.profile b = true) ∧ c.position r = c.offset + pad.length ∧
      c.input.drop c.offset = pad ++ c.input.drop (c.position r) := by
  unfold Cursor.position
  split
  · refine ⟨_, List.all_eq_true.mp List.all_takeWhile, rfl, ?_⟩
    rw [← List.drop_drop]
    exact (List.prefix_iff_eq_append.mp (List.takeWhile_prefix _)).symm
  · exact ⟨[], by simp, rfl, rfl⟩

theorem Cursor.next_cases (inside : c.offset ≤ c.input.length)
    (called : c.next r limits out = (result, c', e)) :
    ∃ pad, (∀ b ∈ pad, padding r.profile b = true) ∧
      (result = .end ∧ c.input.drop c.offset = pad ∧ e = out ∧
          c' = { c with offset := c.offset + pad.length } ∨
        result = .ok ∧ c.elements < limits.maxElements ∧ c' = { c with
            offset := c.offset + (pad.length + e.encoded.length), elements := c.elements + 1 } ∧
          c.input.drop c.offset = pad ++ (e.encoded ++ c.input.drop c'.offset) ∧
          readProfile r limits (e.encoded ++ c.input.drop c'.offset) = .ok e ∨
        result ≠ .ok ∧ result ≠ .end ∧ c' = c ∧ e = out) := by
  obtain ⟨pad, only, place, parts⟩ := @position_spec r c
  refine ⟨pad, only, ?_⟩
  have size := congrArg List.length parts
  simp only [List.length_append, List.length_drop] at size
  simp only [Cursor.next, if_neg (Nat.not_lt.mpr inside)] at called
  split at called
  · rename_i ended
    cases called
    refine .inl ⟨rfl, ?_, rfl, by rw [place]⟩
    rw [parts, ended, List.drop_length, List.append_nil]
  split at called
  · cases called
    exact .inr (.inr ⟨nofun, nofun, rfl, rfl⟩)
  rename_i room
  split at called
  · rename_i e failed
    cases called
    obtain ⟨notOk, notEnd⟩ := readProfile_error failed
    refine .inr (.inr ⟨?_, ?_, rfl, rfl⟩) <;> split <;> first | assumption | exact nofun
  · rename_i element read
    cases called
    obtain ⟨valid, rest, encoded⟩ := readProfile_ok read
    have after : c.input.drop (c.position r + e.encoded.length) = rest := by
      rw [← List.drop_drop, encoded, List.drop_left]
    refine .inr (.inl ⟨rfl, Nat.not_le.mp room, by rw [place, Nat.add_assoc], ?_, ?_⟩)
    · simp only [after]
      rw [parts, encoded]
    · simp only [after]
      rw [← encoded, read]

theorem Cursor.readAll_tiles (calls : Nat) (out : ProfileElement) (inside : c.offset ≤ c.input.length) :
    ∃ consumed, Tiles r limits (c.input.drop c.offset) consumed (c.readAll r limits calls out).1 ∧
      (c.readAll r limits calls out).2 = { c with
        offset := c.offset + consumed,
        elements := c.elements + (c.readAll r limits calls out).1.length } ∧
      (c.elements ≤ limits.maxElements →
        (c.readAll r limits calls out).2.elements ≤ limits.maxElements) := by
  induction calls generalizing c out with
  | zero => exact ⟨0, @Tiles.blank r limits [] _ (by simp), rfl, id⟩
  | succ calls ih =>
    obtain ⟨result, c', e, called⟩ : ∃ result c' e, c.next r limits out = (result, c', e) :=
      ⟨_, _, _, rfl⟩
    obtain ⟨pad, only, ⟨rfl, parts, rfl, rfl⟩ | ⟨rfl, room, rfl, parts, read⟩ |
      ⟨notOk, -, rfl, rfl⟩⟩ := next_cases inside called
    · have size := congrArg List.length parts
      rw [List.length_drop] at size
      obtain ⟨consumed, tiles, same, few⟩ :=
        @ih { c with offset := c.offset + pad.length } e (by simp only; omega)
      have tiles := tiles.after_padding only
      have joined : pad ++ c.input.drop (c.offset + pad.length) = c.input.drop c.offset := by
        rw [← List.drop_drop, parts, List.drop_length, List.append_nil]
      simp only [readAll, called]
      refine ⟨pad.length + consumed, by rwa [joined] at tiles, ?_, few⟩
      rw [same, Nat.add_assoc]
    · have size := congrArg List.length parts
      simp only [List.length_append, List.length_drop] at size
      have some := (readProfile_ok read).1.encoded_pos
      obtain ⟨consumed, tiles, same, few⟩ := @ih { c with
        offset := c.offset + (pad.length + e.encoded.length), elements := c.elements + 1 } e
        (by simp only; omega)
      simp only [readAll, called]
      refine ⟨pad.length + (e.encoded.length + consumed), ?_, ?_, fun _ => few room⟩
      · rw [parts]
        exact .element only read tiles
      · rw [same]
        simp only [List.length_cons, Nat.add_assoc, Nat.add_comm 1]
    · simp only [readAll, called]
      exact ih e inside

theorem Cursor.next_end (root : c.root = true) (inside : c.offset ≤ c.input.length)
    (only : ∀ b ∈ c.input.drop c.offset, padding r.profile b = true) :
    (c.next r limits out).1 = .end := by
  have whole : c.position r = c.input.length := by
    rw [position, if_pos root, List.takeWhile_eq_self_iff.mpr only, List.length_drop]
    omega
  simp [next, Nat.not_lt.mpr inside, whole]

/-- The elements read tile the input, whatever calls failed between them; a call that fails
    leaves the reader where it is, and END moves it over the padding at the end. -/
theorem cursor_tiles {place : Span} {address : Nat} (opened : cursorInit r limits place address input = .ok c)
    (calls : Nat) (out : ProfileElement) :
    let elements := (c.readAll r limits calls out).1
    let reached := (c.readAll r limits calls out).2
    Tiles r limits input reached.offset elements ∧
      elements.length ≤ limits.maxElements ∧ elements.length ≤ input.length ∧
      ∀ out, let (result, after, e) := reached.next r limits out
        (result = .end ↔ ∀ b ∈ input.drop reached.offset, padding r.profile b = true) ∧
        (result = .end → after = { reached with offset := input.length }) ∧
        (result ≠ .ok → e = out ∧ (result ≠ .end → after = reached)) ∧
        (result = .ok → ∃ pad, (∀ b ∈ pad, padding r.profile b = true) ∧
          input.drop reached.offset = pad ++ (e.encoded ++ input.drop after.offset) ∧
          readProfile r limits (e.encoded ++ input.drop after.offset) = .ok e) := by
  intro elements reached
  obtain rfl : (⟨input, 0, 0, true⟩ : Cursor) = c := by
    simp only [cursorInit] at opened
    split at opened
    · cases opened
    split at opened
    · cases opened
    split at opened
    · cases opened
    · exact Except.ok.inj opened
  obtain ⟨consumed, tiles, same, few⟩ := @Cursor.readAll_tiles r limits ⟨input, 0, 0, true⟩ calls out
    (Nat.zero_le _)
  have size := tiles.length_le
  simp only [List.drop_zero, Nat.zero_add] at tiles same size
  have place : reached.offset = consumed := congrArg Cursor.offset same
  have counted : reached.elements = elements.length := congrArg Cursor.elements same
  have kept : reached.input = input := congrArg Cursor.input same
  have root : reached.root = true := congrArg Cursor.root same
  have inside : reached.offset ≤ reached.input.length := by
    rw [place, kept]
    exact size.1
  refine ⟨by rwa [place], ?_, size.2.trans size.1, fun out => ?_⟩
  · rw [← counted]
    exact few (Nat.zero_le _)
  have ends := @Cursor.next_end r limits reached out root inside
  generalize called : reached.next r limits out = answer at ends
  obtain ⟨result, after, e⟩ := answer
  have cases := Cursor.next_cases inside called
  rw [kept] at cases ends
  obtain ⟨pad, only, ⟨rfl, parts, rfl, rfl⟩ | ⟨rfl, -, rfl, parts, read⟩ |
    ⟨notOk, notEnd, rfl, rfl⟩⟩ := cases
  · have last := congrArg List.length parts
    rw [List.length_drop] at last
    rw [kept] at inside
    refine ⟨⟨fun _ => parts ▸ only, ends⟩, fun _ => ?_, fun _ => ⟨rfl, fun other => absurd rfl other⟩,
      nofun⟩
    rw [Cursor.mk.injEq]
    exact ⟨kept.symm, by omega, rfl, rfl⟩
  · exact ⟨⟨nofun, ends⟩, nofun, fun failed => absurd rfl failed, fun _ => ⟨pad, only, parts, read⟩⟩
  · exact ⟨⟨fun same => absurd same notEnd, ends⟩, fun same => absurd same notEnd,
      fun _ => ⟨rfl, fun _ => rfl⟩, fun same => absurd same notOk⟩

/-- One element between two bytes of padding. -/
theorem cursor_tiles_padded :
    let out : ProfileElement := ⟨⟨⟨0, 0, [], 0, 0, false⟩, false⟩, [], []⟩
    let c : Cursor := ⟨[0, 2, 1, 7, 0], 0, 0, true⟩
    let read := c.readAll ⟨false, 8, .iso7816PadZero⟩ ⟨16, 16, 4, 4⟩ 2 out
    read.1.map (·.encoded) = [[2, 1, 7]] ∧
      Tiles ⟨false, 8, .iso7816PadZero⟩ ⟨16, 16, 4, 4⟩ c.input read.2.offset read.1 :=
  ⟨rfl, (cursor_tiles (show cursorInit ⟨false, 8, .iso7816PadZero⟩ ⟨16, 16, 4, 4⟩ ⟨0x1000, 112⟩
    0x2000 [0, 2, 1, 7, 0] = .ok _ from rfl) 2 _).1⟩

/-- At the end of the input the reader moves. -/
theorem cursor_end_moves :
    let c : Cursor := ⟨[0], 0, 0, true⟩
    cursorInit ⟨false, 8, .iso7816PadZero⟩ ⟨16, 16, 4, 4⟩ ⟨0x1000, 112⟩ 0x2000 [0] = .ok c ∧
      ∀ out, (c.next ⟨false, 8, .iso7816PadZero⟩ ⟨16, 16, 4, 4⟩ out).1 ≠ .ok ∧
        (c.next ⟨false, 8, .iso7816PadZero⟩ ⟨16, 16, 4, 4⟩ out).2.1 ≠ c :=
  ⟨rfl, fun _ => ⟨nofun, nofun⟩⟩

end TinyCrypto.Tlv
