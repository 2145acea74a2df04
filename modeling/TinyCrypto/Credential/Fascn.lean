import Mathlib.Data.List.Nodup
import Mathlib.Data.List.Perm.Basic
import Mathlib.Tactic.FinCases
import Mathlib.Tactic.IntervalCases
import TinyCrypto.Common.Bytes
import TinyCrypto.Library.BitString

/-! # FASC-N

`fascn.c`: forty characters of four bits and an odd parity bit, the least significant bit
first. Sentinels stand between decimal fields, and the last character is the LRC.
-/

namespace TinyCrypto.Credential

open Library.BitString (ofOctets ofOctets_getD ofOctets_injective ofOctets_length)

/-- `TC_FASCN`. -/
structure Fascn where
  person : Nat
  credential : Nat
  agency : Nat
  system : Nat
  organization : Nat
  series : Nat
  issue : Nat
  category : Nat
  association : Nat
  deriving DecidableEq

/-- `TC_FASCN_BYTES`. -/
def fascnBytes : Nat := 25

/-- `fields`: the first character and the digits of each field. -/
def fields : List (Nat × Nat) :=
  [(1, 4), (6, 4), (11, 6), (18, 1), (20, 1), (22, 10), (32, 1), (33, 4), (37, 1)]

def firstOf (field : Nat) : Nat := (fields.getD field (0, 0)).1

def digitsOf (field : Nat) : Nat := (fields.getD field (0, 0)).2

def bitAt (encoded : Bytes) (position : Nat) : Bool :=
  (encoded.getD (position / 8) 0).toNat.testBit (7 - position % 8)

/-- `character`: the value and the parity. -/
def character (encoded : Bytes) (index : Nat) : Nat × Bool := (List.range 5).foldl
    (fun (value, odd) bit =>
      let set := bitAt encoded (index * 5 + bit)
      (if bit < 4 then value ||| (set.toNat <<< bit) else value, odd ^^ set))
    (0, false)

def setBit (encoded : Bytes) (position : Nat) (set : Bool) : Bytes :=
  encoded.modify (position / 8) (· ||| UInt8.ofNat (set.toNat <<< (7 - position % 8)))

/-- `put_character`. -/
def putCharacter (encoded : Bytes) (index value : Nat) : Bytes := ((List.range 5).foldl
    (fun (encoded, parity) bit =>
      let set := if bit < 4 then value.testBit bit else parity
      (setBit encoded (index * 5 + bit) set, parity ^^ set))
    (encoded, true)).1

/-- `delimiter`. -/
def delimiter (position : Nat) : Nat :=
  if position = 0 then 0x0b else if position = 38 then 0x0f else 0x0d

def fieldFrom (position field : Nat) : Nat :=
  field + ((fields.drop field).takeWhile fun f => position ≥ f.1 + f.2).length

/-- The values of `TC_FASCN_read`, the checksum and the field. -/
structure ReadState where
  values : Nat → Nat
  checksum : Nat
  field : Nat

/-- One character of `TC_FASCN_read`. -/
def readStep (encoded : Bytes) (state : ReadState) (i : Nat) : Except Result ReadState :=
  let (value, parity) := character encoded i
  if !parity then .error .invalid
  else
    let checksum := state.checksum ^^^ value
    if i = 39 then .ok { state with checksum }
    else
      let field := fieldFrom i state.field
      if field < 9 && i ≥ firstOf field then
        if value > 9 then .error .invalid
        else
          .ok ⟨Function.update state.values field (state.values field * 10 + value), checksum, field⟩
      else if value ≠ delimiter i then .error .invalid
      else .ok ⟨state.values, checksum, field⟩

def Fascn.ofValues (v : Nat → Nat) : Fascn :=
  ⟨v 5, v 2 % 2 ^ 32, v 0 % 2 ^ 16, v 1 % 2 ^ 16, v 7 % 2 ^ 16, v 3 % 2 ^ 8, v 4 % 2 ^ 8,
    v 6 % 2 ^ 8, v 8 % 2 ^ 8⟩

/-- `TC_FASCN_read`. -/
def fascnRead (encoded : Bytes) : Except Result Fascn := do
  if encoded.length ≠ fascnBytes then throw .invalid
  let state ← (List.range 40).foldlM (readStep encoded) ⟨fun _ => 0, 0, 0⟩
  if state.checksum ≠ 0 then throw .invalid
  return .ofValues state.values

/-- `values` of `TC_FASCN_write`. -/
def Fascn.values (x : Fascn) : Nat → Nat
  | 0 => x.agency
  | 1 => x.system
  | 2 => x.credential
  | 3 => x.series
  | 4 => x.issue
  | 5 => x.person
  | 6 => x.category
  | 7 => x.organization
  | _ => x.association

/-- The output and the checksum of `TC_FASCN_write`. -/
abbrev WriteState := Bytes × Nat

def writeCharacter (state : WriteState) (index value : Nat) : WriteState :=
  (putCharacter state.1 index value, state.2 ^^^ value)

/-- One position of the first loop of `TC_FASCN_write`, with the field. -/
def delimiterStep (state : WriteState × Nat) (i : Nat) : WriteState × Nat :=
  let field := fieldFrom i state.2
  if field < 9 && i ≥ firstOf field then (state.1, field)
  else (writeCharacter state.1 i (delimiter i), field)

def digitsLoop (first : Nat) : (digits value : Nat) → WriteState → WriteState
  | 0, _, state => state
  | digits + 1, value, state =>
    digitsLoop first digits (value / 10) (writeCharacter state (first + digits) (value % 10))

/-- `TC_FASCN_write`, into a buffer of a capacity: the octets that it writes. -/
def fascnWrite (x : Fascn) (capacity : Nat) : Except Result Bytes :=
  if (List.range 9).any fun i => x.values i ≥ 10 ^ digitsOf i then .error .argument
  else if capacity < fascnBytes then .error .limit
  else
    let start : WriteState := (List.replicate fascnBytes 0, 0)
    let delimited := ((List.range 39).foldl delimiterStep (start, 0)).1
    let written := (List.range 9).foldl
      (fun state i => digitsLoop (firstOf i) (digitsOf i) (x.values i) state) delimited
    .ok (putCharacter written.1 39 written.2)

def charBit (value bit : Nat) : Bool := if bit < 4 then value.testBit bit
  else true ^^ value.testBit 0 ^^ value.testBit 1 ^^ value.testBit 2 ^^ value.testBit 3

def HoldsCharacter (encoded : Bytes) (index value : Nat) : Prop :=
  ∀ bit < 5, bitAt encoded (index * 5 + bit) = charBit value bit

theorem bitAt_eq (encoded : Bytes) (position : Nat) :
    bitAt encoded position = (ofOctets encoded).getD position false :=
  (ofOctets_getD encoded position).symm

theorem bitAt_injective {a b : Bytes} (left : a.length = fascnBytes) (right : b.length = fascnBytes)
    (same : ∀ position < 200, bitAt a position = bitAt b position) : a = b := by
  apply ofOctets_injective (left.trans right.symm)
  apply List.ext_getElem (by rw [ofOctets_length, ofOctets_length, left, right])
  intro position inside inside'
  have bit := same position (by rw [ofOctets_length, left] at inside; exact inside)
  rw [bitAt_eq, bitAt_eq] at bit
  rwa [List.getD_eq_getElem _ _ inside, List.getD_eq_getElem _ _ inside'] at bit

theorem character_bits (a b c d e : Bool) : ∀ value < 16,
    (((0 ||| a.toNat <<< 0) ||| b.toNat <<< 1) ||| c.toNat <<< 2) ||| d.toNat <<< 3 = value ∧
        (((((false ^^ a) ^^ b) ^^ c) ^^ d) ^^ e) = true ↔
      a = charBit value 0 ∧ b = charBit value 1 ∧ c = charBit value 2 ∧ d = charBit value 3 ∧
        e = charBit value 4 := by
  cases a <;> cases b <;> cases c <;> cases d <;> cases e <;> decide

theorem forall_bit {P : Nat → Prop} : (∀ bit < 5, P bit) ↔ P 0 ∧ P 1 ∧ P 2 ∧ P 3 ∧ P 4 := by
  constructor
  · intro all
    exact ⟨all 0 (by decide), all 1 (by decide), all 2 (by decide), all 3 (by decide), all 4 (by decide)⟩
  · rintro ⟨zero, one, two, three, four⟩ bit inside
    interval_cases bit <;> assumption

variable {encoded : Bytes}

theorem character_iff {index value : Nat} (small : value < 16) :
    character encoded index = (value, true) ↔ HoldsCharacter encoded index value := by
  rw [HoldsCharacter, forall_bit, ← character_bits _ _ _ _ _ value small, Prod.ext_iff]
  rfl

theorem setBit_length (encoded : Bytes) (position : Nat) (set : Bool) :
    (setBit encoded position set).length = encoded.length := List.length_modify _ _ _

theorem oneBit_octet (set : Bool) : ∀ place < 8, ∀ other < 8,
    (UInt8.ofNat (set.toNat <<< (7 - place))).toNat.testBit (7 - other) =
      (set && decide (other = place)) := by
  cases set <;> decide

variable {position : Nat}

theorem bitAt_modify (change : UInt8 → UInt8) (inside : position < 8 * encoded.length) (other : Nat) :
    bitAt (encoded.modify (position / 8) change) other = if other / 8 = position / 8 then
        (change (encoded.getD (other / 8) 0)).toNat.testBit (7 - other % 8)
      else bitAt encoded other := by
  unfold bitAt
  split
  · rename_i octet
    have here : position / 8 < encoded.length := by omega
    rw [octet, List.getD_eq_getElem?_getD, List.getD_eq_getElem?_getD, List.getElem?_modify_eq,
      List.getElem?_eq_getElem here]
    rfl
  · rename_i octet
    rw [List.getD_eq_getElem?_getD, List.getD_eq_getElem?_getD,
      List.getElem?_modify_ne _ _ (Ne.symm octet)]

theorem place_iff {other : Nat} (octet : other / 8 = position / 8) :
    other % 8 = position % 8 ↔ other = position := by omega

theorem bitAt_setBit (inside : position < 8 * encoded.length) (set : Bool) (other : Nat) :
    bitAt (setBit encoded position set) other =
      (bitAt encoded other || (set && decide (other = position))) := by
  rw [setBit, bitAt_modify _ inside]
  split
  · rename_i octet
    rw [UInt8.toNat_or, Nat.testBit_or, oneBit_octet set _ (Nat.mod_lt _ (by decide)) _
      (Nat.mod_lt _ (by decide)), decide_eq_decide.mpr (place_iff octet)]
    rfl
  · rename_i octet
    have differs : other ≠ position := fun same => octet (by rw [same])
    simp [differs]

theorem putCharacter_eq (encoded : Bytes) (index value : Nat) : putCharacter encoded index value =
      setBit (setBit (setBit (setBit (setBit encoded (index * 5 + 0) (charBit value 0))
        (index * 5 + 1) (charBit value 1)) (index * 5 + 2) (charBit value 2))
        (index * 5 + 3) (charBit value 3)) (index * 5 + 4) (charBit value 4) := rfl

theorem putCharacter_length (encoded : Bytes) (index value : Nat) :
    (putCharacter encoded index value).length = encoded.length := by
  simp only [putCharacter_eq, setBit_length]

theorem bitAt_putCharacter {index : Nat} (inside : index * 5 + 4 < 8 * encoded.length)
    (value position : Nat) : bitAt (putCharacter encoded index value) position =
      (bitAt encoded position || (charBit value (position % 5) && decide (position / 5 = index))) := by
  have size (encoded' : Bytes) (same : encoded'.length = encoded.length) (k : Nat) (small : k < 5) :
      index * 5 + k < 8 * encoded'.length := by omega
  rw [putCharacter_eq, bitAt_setBit (size _ (by simp only [setBit_length]) 4 (by decide)),
    bitAt_setBit (size _ (by simp only [setBit_length]) 3 (by decide)),
    bitAt_setBit (size _ (by simp only [setBit_length]) 2 (by decide)),
    bitAt_setBit (size _ (by simp only [setBit_length]) 1 (by decide)),
    bitAt_setBit (size _ rfl 0 (by decide))]
  by_cases here : position / 5 = index
  · have small : position % 5 < 5 := Nat.mod_lt _ (by decide)
    have place : position = index * 5 + position % 5 := by omega
    rw [decide_eq_true here]
    generalize position % 5 = bit at *
    subst place
    interval_cases bit <;> simp
  · have away (k : Nat) (small : k < 5) : decide (position = index * 5 + k) = false := by
      rw [decide_eq_false_iff_not]
      omega
    rw [away 0 (by decide), away 1 (by decide), away 2 (by decide), away 3 (by decide),
      away 4 (by decide), decide_eq_false here]
    simp only [Bool.and_false, Bool.or_false]

def slotAt (position : Nat) : Option Nat :=
  (List.range 9).find? fun f => firstOf f ≤ position && position < firstOf f + digitsOf f

def fieldAt : Nat → Nat
  | 0 => 0
  | position + 1 => fieldFrom position (fieldAt position)

theorem fieldAt_slot : ∀ i < 39,
    (if (fieldAt (i + 1) < 9 && i ≥ firstOf (fieldAt (i + 1))) = true then some (fieldAt (i + 1))
      else none) = slotAt i := by
  decide

def textOf (x : Fascn) (position : Nat) : Nat := match slotAt position with
  | some f => x.values f / 10 ^ (firstOf f + digitsOf f - 1 - position) % 10
  | none => delimiter position

def checksumOf (text : Nat → Nat) (count : Nat) : Nat :=
  (List.range count).foldl (fun sum i => sum ^^^ text i) 0

def charOf (x : Fascn) (position : Nat) : Nat :=
  if position = 39 then checksumOf (textOf x) 39 else textOf x position

def Fascn.Fits (x : Fascn) : Prop := ∀ f < 9, x.values f < 10 ^ digitsOf f

def Encodes (x : Fascn) (encoded : Bytes) : Prop :=
  encoded.length = fascnBytes ∧ ∀ i < 40, HoldsCharacter encoded i (charOf x i)

theorem xor_small {a b : Nat} (left : a < 16) (right : b < 16) : a ^^^ b < 16 :=
  @Nat.xor_lt_two_pow a b 4 left right

theorem checksumOf_succ (text : Nat → Nat) (count : Nat) :
    checksumOf text (count + 1) = checksumOf text count ^^^ text count := by
  simp [checksumOf, List.range_succ]

variable {text : Nat → Nat} {count : Nat}

theorem checksumOf_small (small : ∀ i < count, text i < 16) : checksumOf text count < 16 := by
  induction count with
  | zero => exact Nat.zero_lt_succ _
  | succ count ih =>
    rw [checksumOf_succ]
    exact xor_small (ih fun i less => small i (by omega)) (small count (by omega))

theorem checksumOf_congr {text text' : Nat → Nat} (same : ∀ i < count, text i = text' i) :
    checksumOf text count = checksumOf text' count := by
  induction count with
  | zero => rfl
  | succ count ih =>
    rw [checksumOf_succ, checksumOf_succ, ih fun i less => same i (by omega), same count (by omega)]

theorem textOf_small (x : Fascn) (position : Nat) : textOf x position < 16 := by
  unfold textOf
  cases slotAt position with
  | some f => exact Nat.lt_trans (Nat.mod_lt _ (by decide)) (by decide)
  | none =>
    dsimp only
    unfold delimiter
    split
    · decide
    · split <;> decide

theorem charOf_small (x : Fascn) (position : Nat) : charOf x position < 16 := by
  unfold charOf
  split
  · exact checksumOf_small fun i _ => textOf_small x i
  · exact textOf_small x position

theorem checksumOf_charOf (x : Fascn) : checksumOf (charOf x) 40 = 0 := by
  have before : checksumOf (charOf x) 39 = checksumOf (textOf x) 39 :=
    checksumOf_congr fun i less => by rw [charOf, if_neg (by omega)]
  rw [checksumOf_succ, before, charOf, if_pos rfl, Nat.xor_self]

variable {x : Fascn}

theorem Encodes.character (encodes : Encodes x encoded) {i : Nat} (inside : i < 40) :
    character encoded i = (charOf x i, true) :=
  (character_iff (charOf_small x i)).mpr (encodes.2 i inside)

theorem Encodes.unique {a b : Bytes} (left : Encodes x a) (right : Encodes x b) : a = b := by
  apply bitAt_injective left.1 right.1
  intro position inside
  have place : position = position / 5 * 5 + position % 5 := by omega
  rw [place, left.2 _ (by omega) _ (Nat.mod_lt _ (by decide)),
    right.2 _ (by omega) _ (Nat.mod_lt _ (by decide))]

def writeAll (state : WriteState) (cells : List (Nat × Nat)) : WriteState :=
  cells.foldl (fun state cell => writeCharacter state cell.1 cell.2) state

theorem writeAll_append (state : WriteState) (first second : List (Nat × Nat)) :
    writeAll state (first ++ second) = writeAll (writeAll state first) second := List.foldl_append

def delimiterCells (count : Nat) : List (Nat × Nat) :=
  ((List.range count).filter fun i => slotAt i = none).map fun i => (i, delimiter i)

def digitCells (first : Nat) : (digits value : Nat) → List (Nat × Nat)
  | 0, _ => []
  | digits + 1, value => (first + digits, value % 10) :: digitCells first digits (value / 10)

/-- The characters before the LRC in the order of `TC_FASCN_write`. -/
def cellsOf (x : Fascn) : List (Nat × Nat) :=
  delimiterCells 39 ++ (List.range 9).flatMap fun f => digitCells (firstOf f) (digitsOf f) (x.values f)

theorem digitsLoop_eq (first digits value : Nat) (state : WriteState) :
    digitsLoop first digits value state = writeAll state (digitCells first digits value) := by
  induction digits generalizing value state with
  | zero => rfl
  | succ digits ih => exact ih _ _

theorem delimiterCells_succ (count : Nat) : delimiterCells (count + 1) =
      delimiterCells count ++ if slotAt count = none then [(count, delimiter count)] else [] := by
  unfold delimiterCells
  rw [List.range_succ, List.filter_append, List.map_append]
  by_cases sentinel : slotAt count = none <;> simp [sentinel]

theorem delimiters_eq (start : WriteState) (inside : count ≤ 39) :
    (List.range count).foldl delimiterStep (start, 0) =
      (writeAll start (delimiterCells count), fieldAt count) := by
  induction count with
  | zero => rfl
  | succ count ih =>
    have slot := fieldAt_slot count (by omega)
    rw [List.range_succ, List.foldl_append, ih (by omega), delimiterCells_succ, ← slot]
    change (if (fieldAt (count + 1) < 9 && count ≥ firstOf (fieldAt (count + 1))) = true then _
      else _) = _
    split
    · rw [if_neg (by simp), List.append_nil]
      rfl
    · rw [if_pos rfl, writeAll_append]
      rfl

theorem fields_eq (x : Fascn) (start : WriteState) (order : List Nat) :
    order.foldl (fun state i => digitsLoop (firstOf i) (digitsOf i) (x.values i) state) start =
      writeAll start (order.flatMap fun f => digitCells (firstOf f) (digitsOf f) (x.values f)) := by
  induction order generalizing start with
  | nil => rfl
  | cons f order ih =>
    rw [List.foldl_cons, ih, digitsLoop_eq, List.flatMap_cons, writeAll_append]

theorem power_succ {digits j : Nat} (inside : j < digits) :
    10 ^ (digits + 1 - 1 - j) = 10 * 10 ^ (digits - 1 - j) := by
  rw [← Nat.pow_succ', show (digits - 1 - j).succ = digits + 1 - 1 - j by omega]

theorem mem_digitCells {first digits value : Nat} {cell : Nat × Nat}
    (member : cell ∈ digitCells first digits value) :
    ∃ j < digits, cell = (first + j, value / 10 ^ (digits - 1 - j) % 10) := by
  induction digits generalizing value with
  | zero => cases member
  | succ digits ih =>
    rcases List.mem_cons.mp member with rfl | member
    · exact ⟨digits, by omega, by simp⟩
    · obtain ⟨j, inside, rfl⟩ := ih member
      exact ⟨j, by omega, by rw [Nat.div_div_eq_div_mul, power_succ inside]⟩

theorem slotAt_digit : ∀ f < 9, ∀ j < digitsOf f, slotAt (firstOf f + j) = some f ∧ firstOf f + j < 39 := by
  decide

theorem textOf_digit (x : Fascn) {f j : Nat} (inField : f < 9) (inside : j < digitsOf f) :
    textOf x (firstOf f + j) = x.values f / 10 ^ (digitsOf f - 1 - j) % 10 := by
  rw [textOf, (slotAt_digit f inField j inside).1]
  dsimp only
  rw [show firstOf f + digitsOf f - 1 - (firstOf f + j) = digitsOf f - 1 - j by omega]

theorem cellsOf_text {cell : Nat × Nat} (member : cell ∈ cellsOf x) : cell.2 = textOf x cell.1 := by
  rcases List.mem_append.mp member with member | member
  · obtain ⟨i, listed, rfl⟩ := List.mem_map.mp member
    have sentinel : slotAt i = none := by simpa using (List.mem_filter.mp listed).2
    rw [textOf, sentinel]
  · obtain ⟨f, inField, member⟩ := List.mem_flatMap.mp member
    obtain ⟨j, inside, rfl⟩ := mem_digitCells member
    exact (textOf_digit x (List.mem_range.mp inField) inside).symm

theorem cellsOf_places (x : Fascn) : ((cellsOf x).map Prod.fst).Perm (List.range 39) := by
  have places : (cellsOf x).map Prod.fst =
      [0, 5, 10, 17, 19, 21, 38, 4, 3, 2, 1, 9, 8, 7, 6, 16, 15, 14, 13, 12, 11, 18, 20, 31, 30, 29,
        28, 27, 26, 25, 24, 23, 22, 32, 36, 35, 34, 33, 37] := rfl
  rw [places]
  decide

theorem cellsOf_perm (x : Fascn) :
    (cellsOf x).Perm ((List.range 39).map fun i => (i, textOf x i)) := by
  have own : (cellsOf x).map (fun cell => (cell.1, textOf x cell.1)) = cellsOf x := by
    conv_rhs => rw [← List.map_id (cellsOf x)]
    exact List.map_congr_left fun cell member => Prod.ext rfl (cellsOf_text member).symm
  rw [← own]
  have mapped := (cellsOf_places x).map fun i => (i, textOf x i)
  rwa [List.map_map] at mapped

theorem writeAll_length (state : WriteState) (cells : List (Nat × Nat)) :
    (writeAll state cells).1.length = state.1.length := by
  induction cells generalizing state with
  | nil => rfl
  | cons cell cells ih => exact (ih _).trans (putCharacter_length _ _ _)

theorem bitAt_writeAll {state : WriteState} {cells : List (Nat × Nat)} (length : state.1.length = fascnBytes)
    (inside : ∀ cell ∈ cells, cell.1 < 40) (position : Nat) :
    bitAt (writeAll state cells).1 position = true ↔ bitAt state.1 position = true ∨
        ∃ cell ∈ cells, charBit cell.2 (position % 5) = true ∧ position / 5 = cell.1 := by
  induction cells generalizing state with
  | nil => simp [writeAll]
  | cons cell cells ih =>
    have here := inside cell List.mem_cons_self
    have added := @bitAt_putCharacter state.1 cell.1 (by rw [length, fascnBytes]; omega) cell.2 position
    rw [show writeAll state (cell :: cells) = writeAll (writeCharacter state cell.1 cell.2) cells from rfl,
      @ih (writeCharacter state cell.1 cell.2) ((putCharacter_length _ _ _).trans length)
        (fun other member => inside other (List.mem_cons_of_mem _ member)), writeCharacter, added]
    simp [or_assoc]

theorem writeAll_checksum (state : WriteState) (cells : List (Nat × Nat)) :
    (writeAll state cells).2 = cells.foldl (fun sum cell => sum ^^^ cell.2) state.2 := by
  induction cells generalizing state with
  | nil => rfl
  | cons cell cells ih => exact ih _

theorem checksum_cells (x : Fascn) :
    (cellsOf x).foldl (fun sum cell => sum ^^^ cell.2) 0 = checksumOf (textOf x) 39 := by
  have swapped : ∀ a ∈ cellsOf x, ∀ b ∈ cellsOf x, ∀ sum : Nat,
      sum ^^^ a.2 ^^^ b.2 = sum ^^^ b.2 ^^^ a.2 := by
    intro a _ b _ sum
    rw [Nat.xor_assoc, Nat.xor_comm a.2, Nat.xor_assoc]
  rw [(cellsOf_perm x).foldl_eq' swapped, List.foldl_map]
  rfl

theorem bitAt_zeros (count position : Nat) : bitAt (List.replicate count 0) position = false := by
  have octet : (List.replicate count (0 : UInt8)).getD (position / 8) 0 = 0 := by
    simp [List.getD_eq_getElem?_getD, List.getElem?_replicate]
    split <;> rfl
  rw [bitAt, octet]
  exact Nat.zero_testBit _

theorem mem_cellsOf {i value : Nat} : (i, value) ∈ cellsOf x ↔ i < 39 ∧ value = textOf x i := by
  rw [(cellsOf_perm x).mem_iff]
  simp [eq_comm]

theorem bitAt_text (x : Fascn) (position : Nat) :
    bitAt (writeAll (List.replicate fascnBytes 0, 0) (cellsOf x)).1 position = true ↔
      position / 5 < 39 ∧ charBit (textOf x (position / 5)) (position % 5) = true := by
  have inside (cell : Nat × Nat) (member : cell ∈ cellsOf x) : cell.1 < 40 :=
    Nat.lt_trans (mem_cellsOf.mp member).1 (by decide)
  rw [bitAt_writeAll (List.length_replicate ..) inside, bitAt_zeros]
  constructor
  · rintro (clear | ⟨⟨i, value⟩, member, set, rfl⟩)
    · cases clear
    · obtain ⟨before, rfl⟩ := mem_cellsOf.mp member
      exact ⟨before, set⟩
  · rintro ⟨before, set⟩
    exact .inr ⟨(position / 5, textOf x (position / 5)), mem_cellsOf.mpr ⟨before, rfl⟩, set, rfl⟩

theorem written_encodes (x : Fascn) :
    Encodes x (putCharacter (writeAll (List.replicate fascnBytes 0, 0) (cellsOf x)).1 39
      (checksumOf (textOf x) 39)) := by
  have length : (writeAll (List.replicate fascnBytes 0, 0) (cellsOf x)).1.length = fascnBytes := by
    rw [writeAll_length, List.length_replicate]
  refine ⟨(putCharacter_length _ _ _).trans length, fun i inside bit small => ?_⟩
  rw [bitAt_putCharacter (by rw [length]; decide), show (i * 5 + bit) % 5 = bit by omega,
    show (i * 5 + bit) / 5 = i by omega, Bool.eq_iff_iff, Bool.or_eq_true, bitAt_text,
    show (i * 5 + bit) % 5 = bit by omega, show (i * 5 + bit) / 5 = i by omega, charOf]
  by_cases last : i = 39
  · simp [last]
  · have before : i < 39 := by omega
    simp [last, before]

/-- What `TC_FASCN_write` writes holds the characters of the value. -/
theorem fascnWrite_iff {capacity : Nat} :
    fascnWrite x capacity = .ok encoded ↔ x.Fits ∧ fascnBytes ≤ capacity ∧ Encodes x encoded := by
  have fits : ((List.range 9).any fun i => x.values i ≥ 10 ^ digitsOf i) = true ↔ ¬x.Fits := by
    simp only [List.any_eq_true, List.mem_range, ge_iff_le, decide_eq_true_eq, Fascn.Fits, not_forall,
      Nat.not_lt, exists_prop]
  unfold fascnWrite
  by_cases widths : x.Fits
  · rw [if_neg (by rw [fits, not_not]; exact widths)]
    by_cases room : capacity < fascnBytes
    · rw [if_pos room]
      simp [Nat.not_le.mpr room]
    · rw [if_neg room]
      dsimp only
      rw [delimiters_eq _ le_rfl, fields_eq, ← writeAll_append]
      change Except.ok (putCharacter (writeAll (List.replicate fascnBytes 0, 0) (cellsOf x)).1 39
        (writeAll (List.replicate fascnBytes 0, 0) (cellsOf x)).2) = _ ↔ _
      rw [writeAll_checksum, checksum_cells, Except.ok.injEq]
      constructor
      · rintro rfl
        exact ⟨widths, Nat.not_lt.mp room, written_encodes x⟩
      · exact fun given => (written_encodes x).unique given.2.2
  · rw [if_pos (fits.mpr widths)]
    simp [widths]

def valuesUpTo (text : Nat → Nat) : Nat → Nat → Nat
  | 0, _ => 0
  | position + 1, f =>
    if slotAt position = some f then valuesUpTo text position f * 10 + text position
    else valuesUpTo text position f

def decimalFrom (text : Nat → Nat) (first : Nat) : Nat → Nat
  | 0 => 0
  | digits + 1 => decimalFrom text first digits * 10 + text (first + digits)

theorem valuesUpTo_field (text : Nat → Nat) {f : Nat} (inside : f < 9) :
    valuesUpTo text 39 f = decimalFrom text (firstOf f) (digitsOf f) := by
  interval_cases f <;> rfl

theorem decimalFrom_digits {first digits : Nat} (decimal : ∀ j < digits, text (first + j) ≤ 9) :
    decimalFrom text first digits < 10 ^ digits ∧
      ∀ j < digits, decimalFrom text first digits / 10 ^ (digits - 1 - j) % 10 = text (first + j) := by
  induction digits with
  | zero => exact ⟨Nat.one_pos, nofun⟩
  | succ digits ih =>
    obtain ⟨bound, before⟩ := ih fun j less => decimal j (by omega)
    have last := decimal digits (by omega)
    refine ⟨?_, fun j less => ?_⟩
    · rw [decimalFrom, Nat.pow_succ]
      omega
    · rw [decimalFrom]
      by_cases final : j = digits
      · subst final
        rw [show j + 1 - 1 - j = 0 by omega, Nat.pow_zero, Nat.div_one]
        omega
      · rw [power_succ (by omega), ← Nat.div_div_eq_div_mul,
          show (decimalFrom text first digits * 10 + text (first + digits)) / 10 =
            decimalFrom text first digits by omega]
        exact before j (by omega)

theorem decimalFrom_value {first digits value : Nat} (bound : value < 10 ^ digits)
    (same : ∀ j < digits, text (first + j) = value / 10 ^ (digits - 1 - j) % 10) :
    decimalFrom text first digits = value := by
  induction digits generalizing value with
  | zero =>
    rw [Nat.pow_zero] at bound
    exact (Nat.lt_one_iff.mp bound).symm
  | succ digits ih =>
    have last := same digits (by omega)
    rw [show digits + 1 - 1 - digits = 0 by omega, Nat.pow_zero, Nat.div_one] at last
    have before : decimalFrom text first digits = value / 10 := by
      apply ih
      · rw [Nat.pow_succ] at bound
        omega
      · intro j less
        rw [same j (by omega), power_succ less, ← Nat.div_div_eq_div_mul]
    rw [decimalFrom, before, last]
    omega

def textIn (encoded : Bytes) (i : Nat) : Nat := (character encoded i).1

/-- A character that `TC_FASCN_read` admits before the LRC. -/
def Admitted (text : Nat → Nat) (position : Nat) : Prop := match slotAt position with
  | some _ => text position ≤ 9
  | none => text position = delimiter position

variable {state : ReadState}

theorem readStep_iff {values : Nat → Nat} {checksum i : Nat} (inside : i < 39) :
    readStep encoded ⟨values, checksum, fieldAt i⟩ i = .ok state ↔
      (character encoded i).2 = true ∧ Admitted (textIn encoded) i ∧
        state = ⟨fun f => if slotAt i = some f then values f * 10 + textIn encoded i else values f,
          checksum ^^^ textIn encoded i, fieldAt (i + 1)⟩ := by
  have slot := fieldAt_slot i inside
  have field : fieldFrom i (fieldAt i) = fieldAt (i + 1) := rfl
  simp only [readStep, Admitted, textIn, field, if_neg (show ¬i = 39 by omega)]
  rcases character encoded i with ⟨value, parity⟩
  cases parity with
  | false => simp
  | true =>
    simp only [Bool.not_true, Bool.false_eq_true, if_false, true_and]
    split
    · rename_i digit
      rw [if_pos digit] at slot
      rw [← slot]
      dsimp only
      by_cases decimal : value ≤ 9
      · rw [if_neg (Nat.not_lt.mpr decimal), Except.ok.injEq, eq_comm]
        have updated : Function.update values (fieldAt (i + 1)) (values (fieldAt (i + 1)) * 10 + value) =
            fun f => if some (fieldAt (i + 1)) = some f then values f * 10 + value else values f := by
          funext f
          by_cases same : f = fieldAt (i + 1)
          · subst same
            simp
          · rw [Function.update_of_ne same, if_neg fun equal => same (Option.some.inj equal).symm]
        rw [updated]
        simp [decimal]
      · rw [if_pos (Nat.not_le.mp decimal)]
        simp [decimal]
    · rename_i sentinel
      rw [if_neg sentinel] at slot
      rw [← slot]
      dsimp only
      by_cases delimited : value = delimiter i
      · rw [if_neg (not_not.mpr delimited), Except.ok.injEq, eq_comm]
        simp [delimited]
      · rw [if_pos delimited]
        simp [delimited]

theorem foldlM_snoc {S A E : Type} {f : S → A → Except E S} {list : List A} {last : A} {s s' : S} :
    (list ++ [last]).foldlM f s = .ok s' ↔ ∃ middle, list.foldlM f s = .ok middle ∧ f middle last = .ok s' := by
  rw [List.foldlM_append]
  cases list.foldlM f s with
  | error e => simp [bind, Except.bind]
  | ok middle =>
    cases step : f middle last <;> simp [bind, Except.bind, pure, Except.pure, step]

theorem readLoop_iff (inside : count ≤ 39) :
    (List.range count).foldlM (readStep encoded) ⟨fun _ => 0, 0, 0⟩ = .ok state ↔
      (∀ i < count, (character encoded i).2 = true ∧ Admitted (textIn encoded) i) ∧
        state = ⟨valuesUpTo (textIn encoded) count, checksumOf (textIn encoded) count, fieldAt count⟩ := by
  induction count generalizing state with
  | zero =>
    simp only [List.range_zero, List.foldlM_nil, pure, Except.pure, Except.ok.injEq, Nat.not_lt_zero,
      false_implies, implies_true, true_and, eq_comm]
    rfl
  | succ count ih =>
    rw [List.range_succ, foldlM_snoc, checksumOf_succ]
    constructor
    · rintro ⟨middle, before, step⟩
      obtain ⟨admitted, rfl⟩ := (ih (by omega)).mp before
      obtain ⟨odd, here, rfl⟩ := (readStep_iff (by omega)).mp step
      refine ⟨fun i less => ?_, rfl⟩
      rcases Nat.lt_succ_iff_lt_or_eq.mp less with less | rfl
      · exact admitted i less
      · exact ⟨odd, here⟩
    · rintro ⟨admitted, rfl⟩
      obtain ⟨odd, here⟩ := admitted count (by omega)
      exact ⟨_, (ih (by omega)).mpr ⟨fun i less => admitted i (by omega), rfl⟩,
        (readStep_iff (by omega)).mpr ⟨odd, here, rfl⟩⟩

theorem readLast_iff {values : Nat → Nat} {checksum field : Nat} :
    readStep encoded ⟨values, checksum, field⟩ 39 = .ok state ↔
      (character encoded 39).2 = true ∧ state = ⟨values, checksum ^^^ textIn encoded 39, field⟩ := by
  simp only [readStep, textIn]
  rcases character encoded 39 with ⟨value, parity⟩
  cases parity <;> simp [eq_comm]

theorem fascnRead_state : fascnRead encoded = .ok x ↔ encoded.length = fascnBytes ∧
        ∃ state, (List.range 40).foldlM (readStep encoded) ⟨fun _ => 0, 0, 0⟩ = .ok state ∧
          state.checksum = 0 ∧ x = .ofValues state.values := by
  unfold fascnRead
  by_cases length : encoded.length = fascnBytes
  · rw [if_neg (not_not.mpr length)]
    cases (List.range 40).foldlM (readStep encoded) ⟨fun _ => 0, 0, 0⟩ with
    | error e => simp [bind, Except.bind]
    | ok state =>
      by_cases sum : state.checksum = 0 <;>
        simp [bind, Except.bind, pure, Except.pure, throw, throwThe, MonadExceptOf.throw, length, sum, eq_comm]
  · simp [throw, throwThe, MonadExceptOf.throw, bind, Except.bind, length]

theorem fascnRead_values : fascnRead encoded = .ok x ↔
      encoded.length = fascnBytes ∧ (∀ i < 40, (character encoded i).2 = true) ∧
        (∀ i < 39, Admitted (textIn encoded) i) ∧ checksumOf (textIn encoded) 40 = 0 ∧
        x = .ofValues (valuesUpTo (textIn encoded) 39) := by
  rw [fascnRead_state, show List.range 40 = List.range 39 ++ [39] from rfl, checksumOf_succ]
  refine and_congr_right fun _ => ?_
  simp only [foldlM_snoc]
  constructor
  · rintro ⟨state, ⟨middle, loop, last⟩, sum, rfl⟩
    obtain ⟨admitted, rfl⟩ := (readLoop_iff le_rfl).mp loop
    obtain ⟨odd, rfl⟩ := readLast_iff.mp last
    refine ⟨fun i inside => ?_, fun i inside => (admitted i inside).2, sum, rfl⟩
    rcases Nat.lt_succ_iff_lt_or_eq.mp inside with before | rfl
    · exact (admitted i before).1
    · exact odd
  · rintro ⟨odd, admitted, sum, rfl⟩
    exact ⟨_, ⟨_, (readLoop_iff le_rfl).mpr ⟨fun i inside => ⟨odd i (by omega), admitted i inside⟩, rfl⟩,
      readLast_iff.mpr ⟨odd 39 (by decide), rfl⟩⟩, sum, rfl⟩

theorem Fascn.ext_values {y : Fascn} (same : ∀ f < 9, x.values f = y.values f) : x = y := by
  cases x
  cases y
  simp only [Fascn.mk.injEq]
  exact ⟨same 5 (by decide), same 2 (by decide), same 0 (by decide), same 1 (by decide),
    same 7 (by decide), same 3 (by decide), same 4 (by decide), same 6 (by decide), same 8 (by decide)⟩

theorem values_ofValues {v : Nat → Nat} (fits : ∀ f < 9, v f < 10 ^ digitsOf f) :
    ∀ f < 9, (Fascn.ofValues v).values f = v f := by
  intro f inside
  have bound := fits f inside
  interval_cases f <;> first
    | rfl
    | exact Nat.mod_eq_of_lt (Nat.lt_trans bound (by decide))

theorem slotAt_inside : ∀ i < 39, ∀ f, slotAt i = some f → f < 9 ∧ firstOf f ≤ i ∧
    i < firstOf f + digitsOf f := by
  intro i _ f found
  have holds := List.find?_some found
  rw [Bool.and_eq_true, decide_eq_true_eq, decide_eq_true_eq] at holds
  exact ⟨List.mem_range.mp (List.mem_of_find?_eq_some found), holds⟩

theorem ofValues_of_values {v : Nat → Nat} (fits : x.Fits) (same : ∀ f < 9, v f = x.values f) :
    x = .ofValues v :=
  Fascn.ext_values fun f inside =>
    ((values_ofValues (fun f inside => (same f inside).trans_lt (fits f inside)) f inside).trans
      (same f inside)).symm

theorem readStep_invalid {i : Nat} {e : Result} (failed : readStep encoded state i = .error e) :
    e = .invalid := by
  simp only [readStep] at failed
  split at failed
  · exact (Except.error.inj failed).symm
  · split at failed
    · cases failed
    · split at failed <;> split at failed
      · exact (Except.error.inj failed).symm
      · cases failed
      · exact (Except.error.inj failed).symm
      · cases failed

theorem readLoop_invalid {positions : List Nat} {e : Result}
    (failed : positions.foldlM (readStep encoded) state = .error e) : e = .invalid := by
  induction positions generalizing state with
  | nil => cases failed
  | cons i positions ih =>
    rw [List.foldlM_cons] at failed
    cases step : readStep encoded state i with
    | error e' =>
      rw [step] at failed
      exact (Except.error.inj failed) ▸ readStep_invalid step
    | ok next =>
      rw [step] at failed
      exact ih failed

theorem fascnRead_invalid {e : Result} (failed : fascnRead encoded = .error e) : e = .invalid := by
  unfold fascnRead at failed
  split at failed
  · exact (Except.error.inj failed).symm
  · cases loop : (List.range 40).foldlM (readStep encoded) ⟨fun _ => 0, 0, 0⟩ with
    | error e' =>
      simp only [bind, Except.bind, loop] at failed
      exact (Except.error.inj failed) ▸ readLoop_invalid loop
    | ok state =>
      simp only [pure, Except.pure, bind, Except.bind, loop] at failed
      split at failed
      · exact (Except.error.inj failed).symm
      · cases failed

theorem textOf_read (admitted : ∀ i < 39, Admitted text i) :
    (∀ f < 9, valuesUpTo text 39 f < 10 ^ digitsOf f) ∧
      ∀ x : Fascn, (∀ f < 9, x.values f = valuesUpTo text 39 f) → ∀ i < 39, text i = textOf x i := by
  have decimal (f : Nat) (inside : f < 9) : ∀ j < digitsOf f, text (firstOf f + j) ≤ 9 := by
    intro j less
    obtain ⟨slot, before⟩ := slotAt_digit f inside j less
    have here := admitted _ before
    rwa [Admitted, slot] at here
  refine ⟨fun f inside => ?_, fun x same i before => ?_⟩
  · rw [valuesUpTo_field text inside]
    exact (decimalFrom_digits (decimal f inside)).1
  · have here := admitted i before
    rw [Admitted] at here
    rw [textOf]
    cases slot : slotAt i with
    | none => simpa [slot] using here
    | some f =>
      obtain ⟨inside, after, before'⟩ := slotAt_inside i before f slot
      have digit := (decimalFrom_digits (decimal f inside)).2 (i - firstOf f) (by omega)
      rw [show firstOf f + (i - firstOf f) = i by omega] at digit
      dsimp only
      rw [same f inside, valuesUpTo_field text inside, ← digit]
      rw [show digitsOf f - 1 - (i - firstOf f) = firstOf f + digitsOf f - 1 - i by omega]

/-- `TC_FASCN_read` accepts exactly the encodings, and reads their value. -/
theorem fascnRead_iff : fascnRead encoded = .ok x ↔ x.Fits ∧ Encodes x encoded := by
  rw [fascnRead_values]
  constructor
  · rintro ⟨length, odd, admitted, sum, rfl⟩
    obtain ⟨fits, same⟩ := textOf_read admitted
    have values := values_ofValues fits
    have texts := same _ values
    refine ⟨fun f inside => (values f inside).trans_lt (fits f inside), length, fun i inside => ?_⟩
    rw [← character_iff (charOf_small _ i)]
    refine Prod.ext ?_ (odd i inside)
    by_cases last : i = 39
    · subst last
      rw [checksumOf_succ, Nat.xor_eq_zero_iff] at sum
      rw [charOf, if_pos rfl]
      exact sum.symm.trans (checksumOf_congr fun i before => texts i before)
    · rw [charOf, if_neg last]
      exact texts i (by omega)
  · rintro ⟨fits, encodes⟩
    have texts (i : Nat) (before : i < 39) : textIn encoded i = textOf x i := by
      rw [textIn, encodes.character (by omega), charOf, if_neg (by omega)]
    refine ⟨encodes.1, fun i inside => ?_, fun i before => ?_, ?_, ?_⟩
    · rw [encodes.character inside]
    · rw [Admitted, texts i before, textOf]
      cases slotAt i with
      | none => rfl
      | some f => exact Nat.le_of_lt_succ (Nat.mod_lt _ (by decide))
    · rw [← checksumOf_charOf x]
      exact checksumOf_congr fun i inside => by rw [textIn, encodes.character inside]
    · refine ofValues_of_values fits fun f inside => ?_
      rw [valuesUpTo_field _ inside]
      refine decimalFrom_value (fits f inside) fun j less => ?_
      rw [texts _ (slotAt_digit f inside j less).2, textOf_digit x inside less]

def flipBit (encoded : Bytes) (position : Nat) : Bytes :=
  encoded.modify (position / 8) (· ^^^ UInt8.ofNat (1 <<< (7 - position % 8)))

theorem bitAt_flipBit (inside : position < 8 * encoded.length) (other : Nat) :
    bitAt (flipBit encoded position) other = (bitAt encoded other ^^ decide (other = position)) := by
  rw [flipBit, bitAt_modify _ inside]
  split
  · rename_i octet
    have one := oneBit_octet true (position % 8) (Nat.mod_lt _ (by decide)) (other % 8)
      (Nat.mod_lt _ (by decide))
    rw [Bool.toNat_true, Bool.true_and, decide_eq_decide.mpr (place_iff octet)] at one
    rw [UInt8.toNat_xor, Nat.testBit_xor, one]
    rfl
  · rename_i octet
    have differs : other ≠ position := fun same => octet (by rw [same])
    simp [differs]

theorem character_parity (encoded : Bytes) (index : Nat) : (character encoded index).2 =
      (bitAt encoded (index * 5 + 0) ^^ bitAt encoded (index * 5 + 1) ^^ bitAt encoded (index * 5 + 2) ^^
        bitAt encoded (index * 5 + 3) ^^ bitAt encoded (index * 5 + 4)) := by
  change (((((false ^^ bitAt encoded (index * 5 + 0)) ^^ bitAt encoded (index * 5 + 1)) ^^
    bitAt encoded (index * 5 + 2)) ^^ bitAt encoded (index * 5 + 3)) ^^ bitAt encoded (index * 5 + 4)) = _
  rw [Bool.false_xor]

theorem parity_flipBit (inside : position < 8 * encoded.length) :
    (character (flipBit encoded position) (position / 5)).2 =
      !(character encoded (position / 5)).2 := by
  have place : position = position / 5 * 5 + position % 5 := by omega
  have small : position % 5 < 5 := Nat.mod_lt _ (by decide)
  simp only [character_parity, bitAt_flipBit inside]
  generalize position / 5 = index at *
  generalize position % 5 = bit at *
  subst place
  interval_cases bit <;> simp

/-- What fits is written and read back; what is read is written back; and no bit of an accepted
encoding is free. -/
theorem fascn_codec : (∀ x : Fascn, x.Fits → ∀ capacity, fascnBytes ≤ capacity →
        ∃ encoded, fascnWrite x capacity = .ok encoded ∧ encoded.length = fascnBytes ∧
          fascnRead encoded = .ok x) ∧ ∀ encoded x, fascnRead encoded = .ok x →
        (∀ capacity, fascnBytes ≤ capacity → fascnWrite x capacity = .ok encoded) ∧
          ∀ position < 8 * encoded.length, fascnRead (flipBit encoded position) = .error .invalid := by
  refine ⟨fun x fits capacity room => ?_, fun encoded x read => ⟨fun capacity room => ?_, ?_⟩⟩
  · have encodes := written_encodes x
    exact ⟨_, fascnWrite_iff.mpr ⟨fits, room, encodes⟩, encodes.1, fascnRead_iff.mpr ⟨fits, encodes⟩⟩
  · obtain ⟨fits, encodes⟩ := fascnRead_iff.mp read
    exact fascnWrite_iff.mpr ⟨fits, room, encodes⟩
  · intro position inside
    have odd := (fascnRead_values.mp read).2.1
    have length := (fascnRead_values.mp read).1
    have here : position / 5 < 40 := by
      rw [length, fascnBytes] at inside
      omega
    cases flipped : fascnRead (flipBit encoded position) with
    | error e => rw [fascnRead_invalid flipped]
    | ok y =>
      have even := (fascnRead_values.mp flipped).2.1 _ here
      rw [parity_flipBit inside, odd _ here] at even
      cases even

end TinyCrypto.Credential
