import Mathlib.Data.Nat.Log
import TinyCrypto.Library.ByteCounter
import TinyCrypto.Library.Incremental
import TinyCrypto.X509.Certificate

/-! # TWIC canceled card list

`twic_ccl.c`: rows of a list that arrives in chunks, and a binary search over its sorted keys.
-/

namespace TinyCrypto.Credential

open Library.ByteCounter (value value_cons value_lt value_injective)
open Library.Incremental (Decoder Next)
open X509 (calendarDate)

/-- `tc_credential_hex_digit`. -/
def hexDigit (v : UInt8) : Option Nat := if v ≥ 48 && v ≤ 57 then some (v.toNat - 48)
  else if v ≥ 65 && v ≤ 70 then some (v.toNat - 65 + 10)
  else if v ≥ 97 && v ≤ 102 then some (v.toNat - 97 + 10)
  else none

/-- `tc_credential_hex_decode`. -/
def hexDecode : Bytes → Option Bytes
  | high :: low :: text =>
    match hexDigit high, hexDigit low with
    | some high, some low => (hexDecode text).map (UInt8.ofNat (high * 16 + low) :: ·)
    | _, _ => none
  | _ => some []

/-- `tc_credential_decimal`. -/
def decimal (digits : Bytes) (maximum : Nat) : Option Nat :=
  if digits = [] || digits.any fun b => b < 48 || b > 57 then none
  else
    digits.foldlM
      (fun result b =>
        let digit := b.toNat - 48
        if digit > maximum || result > (maximum - digit) / 10 then none else some (10 * result + digit))
      0

/-- `JAN` to `DEC`. -/
def monthNames : List Bytes :=
  [[74, 65, 78], [70, 69, 66], [77, 65, 82], [65, 80, 82], [77, 65, 89], [74, 85, 78],
    [74, 85, 76], [65, 85, 71], [83, 69, 80], [79, 67, 84], [78, 79, 86], [68, 69, 67]]

/-- `tc_credential_month3`. -/
def month3 (text : Bytes) (titleCase : Bool) : Nat :=
  let spelled (name : Bytes) : Bytes :=
    if titleCase then name.take 1 ++ (name.drop 1).map (· + 32) else name
  match monthNames.findIdx? fun name => text.take 3 == spelled name with
  | none => 0
  | some month => month + 1

/-- `tc_credential_day_month_year`: the year, the month and the day. -/
def dayMonthYear (text : Bytes) (titleCase : Bool) : Option (Nat × Nat × Nat) := do
  let day ← decimal (text.take 2) 31
  let year ← decimal ((text.drop 5).take 4) 9999
  let month := month3 (text.drop 2) titleCase
  if calendarDate year month day then some (year, month, day) else none

/-- `TC_TWIC_CCL_FASCN_BYTES`. -/
def cclKeyBytes : Nat := 25

/-- `TC_TWIC_CCL_RECORD_BYTES`. -/
def cclRecordBytes : Nat := 60

/-- `TC_TWIC_CCL_record`. -/
structure CclRecord where
  fascn : Bytes
  year : Nat
  month : Nat
  day : Nat
  deriving DecidableEq

/-- `TC_TWIC_CCL_read`. -/
def cclRead (line : Bytes) : Except Result CclRecord :=
  if line.length ≠ cclRecordBytes then .error .invalid
  else if line.getD 50 0 ≠ 44 then .error .invalid
  else
    match hexDecode (line.take 50), dayMonthYear (line.drop 51) true with
    | some fascn, some (year, month, day) => .ok ⟨fascn, year, month, day⟩
    | _, _ => .error .invalid

/-- The row without its `'\r'`. -/
def stripReturn (line : Bytes) : Bytes := if line.getLast? = some 13 then line.dropLast else line

section

variable {C : Type}

/-- `TC_TWIC_CCL_visit`: whether the record is accepted. -/
abbrev CclVisit (C : Type) := C → CclRecord → Bool × C

/-- What `emit_record` changes. -/
structure CclSink (C : Type) where
  recordsLeft : Nat
  records : Nat
  context : C

/-- `TC_TWIC_CCL_stream`, with the used octets of `pending`. -/
structure CclStream (C : Type) where
  bytesLeft : Nat
  sink : CclSink C
  pending : Bytes
  error : Result
  finished : Bool

variable (visit : CclVisit C)

/-- `TC_TWIC_CCL_stream_init`. -/
def cclInit (maxBytes maxRecords : Nat) (context : C) : CclStream C :=
  ⟨maxBytes, ⟨maxRecords, 0, context⟩, [], .ok, false⟩

/-- `emit_record`: an error, or none. -/
def emitRecord (sink : CclSink C) (line : Bytes) : Option Result × CclSink C :=
  if sink.recordsLeft = 0 then (some .limit, sink)
  else
    match cclRead (stripReturn line) with
    | .error e => (some e, sink)
    | .ok record =>
      match visit sink.context record with
      | (false, context) => (some .sinkError, { sink with context })
      | (true, context) => (none, ⟨sink.recordsLeft - 1, sink.records + 1, context⟩)

/-- The size of `pending`. -/
def cclPendingBytes : Nat := cclRecordBytes + 1

/-- The loop of `TC_TWIC_CCL_stream_update`. -/
def updateLoop (stream : CclStream C) (chunk : Bytes) : CclStream C :=
  if _empty : chunk = [] then stream
  else
    let available := cclPendingBytes - stream.pending.length
    let scan := min chunk.length (available + 1)
    match (chunk.take scan).findIdx? (· = 10) with
    | none =>
      if scan > available then { stream with error := .invalid }
      else { stream with pending := stream.pending ++ chunk.take scan }
    | some length =>
      if length > available then { stream with error := .invalid }
      else
        let line := stream.pending ++ chunk.take length
        match emitRecord visit stream.sink line with
        | (some e, sink) => { stream with sink, error := e }
        | (none, sink) => updateLoop { stream with sink, pending := [] } (chunk.drop (length + 1))
termination_by chunk.length
decreasing_by
  have := List.length_pos_of_ne_nil _empty
  simp only [List.length_drop]
  omega

/-- `TC_TWIC_CCL_stream_update`; its result is the error that it leaves. -/
def cclUpdate (stream : CclStream C) (chunk : Bytes) : CclStream C :=
  if stream.error ≠ .ok then stream
  else if stream.finished then { stream with error := .argument }
  else if chunk.length > stream.bytesLeft then { stream with error := .limit }
  else updateLoop visit { stream with bytesLeft := stream.bytesLeft - chunk.length } chunk

/-- `TC_TWIC_CCL_stream_finish`; its result is the error that it leaves. -/
def cclFinish (stream : CclStream C) : CclStream C := if stream.error ≠ .ok then stream
  else if stream.pending ≠ [] || stream.sink.records = 0 then { stream with error := .invalid }
  else { stream with finished := true }

/-- `lookup_record`. -/
def lookupRecord (fascn : Bytes) : CclVisit Bool := fun listed record =>
  (true, listed || record.fascn = fascn)

/-- `TC_TWIC_CCL_contains`. -/
def cclContains (csv fascn : Bytes) (maxRecords : Nat) : Except Result Bool :=
  if fascn.length ≠ cclKeyBytes then .error .argument
  else
    let stream := cclFinish (cclUpdate (lookupRecord fascn) (cclInit csv.length maxRecords false) csv)
    if stream.error = .ok then .ok stream.sink.context else .error stream.error

end

/-- `TC_TWIC_CCL_source`, whose reads do not change. -/
structure CclSource where
  count : Nat
  read : Nat → Option Bytes

/-- `read_key`. -/
def readKey (source : CclSource) (position : Nat) : Except Result Bytes :=
  match source.read position with
  | none => .error .sourceError
  | some key => if key.length ≠ cclKeyBytes then .error .invalid else .ok key

/-- `memcmp` of two keys. -/
def memcmp : Bytes → Bytes → Ordering
  | a :: left, b :: right => if a = b then memcmp left right else compare a.toNat b.toNat
  | _, _ => .eq

/-- The loop of `TC_TWIC_CCL_index_prepare`, from a position, after a key. -/
def prepareLoop (source : CclSource) : (count position : Nat) → Option Bytes → Except Result Unit
  | 0, _, _ => .ok ()
  | count + 1, position, previous =>
    match readKey source position with
    | .error e => .error e
    | .ok key =>
      if previous.any fun previous => memcmp previous key = .gt then .error .invalid
      else prepareLoop source count (position + 1) (some key)

/-- `TC_TWIC_CCL_index_prepare`: the source of the index. -/
def indexPrepare (source : CclSource) (maxRecords : Nat) : Except Result CclSource :=
  if source.count = 0 then .error .invalid
  else if source.count > maxRecords then .error .limit
  else (prepareLoop source source.count 0 none).map fun _ => source

/-- The loop of `TC_TWIC_CCL_index_contains`. -/
def searchLoop (source : CclSource) (query : Bytes) : (maxReads first last : Nat) → Except Result Bool
  | 0, first, last => if first < last then .error .limit else .ok false
  | maxReads + 1, first, last =>
    if first < last then
      let middle := first + (last - first) / 2
      match readKey source middle with
      | .error e => .error e
      | .ok key =>
        match memcmp query key with
        | .eq => .ok true
        | .lt => searchLoop source query maxReads first middle
        | .gt => searchLoop source query maxReads (middle + 1) last
    else .ok false

/-- `TC_TWIC_CCL_index_contains`. -/
def indexContains (index : CclSource) (fascn : Bytes) (maxReads : Nat) : Except Result Bool :=
  if index.count = 0 || fascn.length ≠ cclKeyBytes then .error .argument
  else searchLoop index fascn maxReads 0 index.count

def rowFront (input : Bytes) : Next UInt8 Bytes Result :=
  match (input.take (cclPendingBytes + 1)).findIdx? (· = 10) with
  | some length => .item (input.take length) (input.drop (length + 1))
  | none => if cclPendingBytes < input.length then .failed .invalid else .more

variable {input : Bytes}

theorem newline_iff {length : Nat} : input.findIdx? (· = 10) = some length ↔
      ∃ row rest, row.length = length ∧ 10 ∉ row ∧ input = row ++ 10 :: rest := by
  induction input generalizing length with
  | nil =>
    simp only [List.findIdx?_nil, reduceCtorEq, false_iff]
    rintro ⟨row, rest, -, -, empty⟩
    cases row <;> cases empty
  | cons b input ih =>
    rw [List.findIdx?_cons]
    by_cases newline : b = 10
    · rw [if_pos (by simp [newline]), Option.some.injEq]
      constructor
      · rintro rfl
        exact ⟨[], input, rfl, nofun, by rw [newline, List.nil_append]⟩
      · rintro ⟨row, rest, rfl, outside, whole⟩
        cases row with
        | nil => rfl
        | cons c row =>
          cases whole
          exact absurd newline.symm (List.ne_of_not_mem_cons outside)
    · rw [if_neg (by simp [newline]), Option.map_eq_some_iff]
      constructor
      · rintro ⟨before, found, rfl⟩
        obtain ⟨row, rest, rfl, outside, rfl⟩ := ih.mp found
        exact ⟨b :: row, rest, rfl, by simp [Ne.symm newline, outside], rfl⟩
      · rintro ⟨row, rest, rfl, outside, whole⟩
        cases row with
        | nil =>
          cases whole
          exact absurd rfl newline
        | cons c row =>
          cases whole
          exact ⟨row.length, ih.mpr ⟨row, rest, rfl, fun member => outside (.tail _ member), rfl⟩,
            rfl⟩

theorem newline_none : input.findIdx? (· = 10) = none ↔ 10 ∉ input := by
  rw [List.findIdx?_eq_none_iff]
  simp only [decide_eq_false_iff_not]
  exact ⟨fun all member => all _ member rfl, fun outside b member same => outside (same ▸ member)⟩

theorem rowFront_item {input row rest : Bytes} : rowFront input = .item row rest ↔
      10 ∉ row ∧ row.length ≤ cclPendingBytes ∧ input = row ++ 10 :: rest := by
  unfold rowFront
  constructor
  · intro given
    split at given
    · rename_i length found
      obtain ⟨before, after, rfl, outside, whole⟩ := newline_iff.mp found
      have short := congrArg List.length whole
      simp only [List.length_take, List.length_append, List.length_cons] at short
      have input_eq : input = before ++ 10 :: (after ++ input.drop (cclPendingBytes + 1)) := by
        rw [← List.cons_append, ← List.append_assoc, ← whole, List.take_append_drop]
      generalize input.drop (cclPendingBytes + 1) = later at input_eq
      subst input_eq
      simp only [List.take_left', List.drop_append, Next.item.injEq] at given
      obtain ⟨rfl, rfl⟩ := given
      refine ⟨outside, by omega, ?_⟩
      simp
    · split at given <;> cases given
  · rintro ⟨outside, short, rfl⟩
    have found : ((row ++ 10 :: rest).take (cclPendingBytes + 1)).findIdx? (· = 10) =
        some row.length := by
      refine newline_iff.mpr ⟨row, rest.take (cclPendingBytes - row.length), rfl, outside, ?_⟩
      rw [List.take_append, List.take_of_length_le (by omega),
        show cclPendingBytes + 1 - row.length = cclPendingBytes - row.length + 1 by omega,
        List.take_succ_cons]
    rw [found]
    simp

theorem rowFront_failed {e : Result} : rowFront input = .failed e ↔
      e = .invalid ∧ cclPendingBytes < input.length ∧ 10 ∉ input.take (cclPendingBytes + 1) := by
  unfold rowFront
  rw [← newline_none]
  split
  · rename_i found
    simp [found]
  · rename_i none
    split <;> simp_all [eq_comm]

theorem rowFront_more : rowFront input = .more ↔ input.length ≤ cclPendingBytes ∧ 10 ∉ input := by
  unfold rowFront
  by_cases long : cclPendingBytes < input.length
  · simp only [if_pos long, Nat.not_le.mpr long, false_and, iff_false]
    split <;> nofun
  · rw [List.take_of_length_le (by omega), ← newline_none]
    split
    · rename_i found
      simp [found]
    · rename_i none
      simp [none, if_neg long, Nat.not_lt.mp long]

def rowDecoder : Decoder UInt8 Bytes Result where
  next := rowFront
  shorter found := by
    obtain ⟨-, -, rfl⟩ := rowFront_item.mp found
    simp only [List.length_append, List.length_cons]
    omega
  failed_append := by
    intro input e later failed
    obtain ⟨rfl, long, none⟩ := rowFront_failed.mp failed
    refine rowFront_failed.mpr ⟨rfl, ?_, ?_⟩
    · rw [List.length_append]
      omega
    · rwa [List.take_append_of_le_length long]
  item_append := by
    intro input row rest later found
    obtain ⟨inside, short, rfl⟩ := rowFront_item.mp found
    exact rowFront_item.mpr ⟨inside, short, by rw [List.append_assoc, List.cons_append]⟩

section

variable {C : Type} {visit : CclVisit C}

def CclStream.outcome (stream : CclStream C) : Except Result Bytes × CclSink C :=
  (if stream.error = .ok then .ok stream.pending else .error stream.error, stream.sink)

theorem cclRead_error {line : Bytes} {e : Result} (failed : cclRead line = .error e) : e = .invalid := by
  unfold cclRead at failed
  repeat' split at failed
  all_goals cases failed
  all_goals rfl

theorem emitRecord_error {sink after : CclSink C} {line : Bytes} {e : Result}
    (failed : emitRecord visit sink line = (some e, after)) : e ≠ .ok := by
  unfold emitRecord at failed
  repeat' split at failed
  all_goals cases failed
  · nofun
  · rename_i invalid
    rw [cclRead_error invalid]
    nofun
  · nofun

theorem rowFront_append {pending chunk : Bytes} (waiting : rowFront pending = .more) :
    rowFront (pending ++ chunk) =
      match (chunk.take (cclPendingBytes - pending.length + 1)).findIdx? (· = 10) with
      | some length => .item (pending ++ chunk.take length) (chunk.drop (length + 1))
      | none => if cclPendingBytes - pending.length < chunk.length then .failed .invalid else .more := by
  obtain ⟨short, outside⟩ := rowFront_more.mp waiting
  have search : (pending ++ chunk).take (cclPendingBytes + 1) =
      pending ++ chunk.take (cclPendingBytes - pending.length + 1) := by
    rw [List.take_append, List.take_of_length_le (by omega),
      show cclPendingBytes + 1 - pending.length = cclPendingBytes - pending.length + 1 by omega]
  unfold rowFront
  rw [search, List.findIdx?_append, newline_none.mpr outside, Option.none_or]
  cases (chunk.take (cclPendingBytes - pending.length + 1)).findIdx? (· = 10) with
  | some length =>
    simp only [Option.map_some, Next.item.injEq]
    rw [Nat.add_comm length, List.take_length_add_append, Nat.add_assoc, List.drop_length_add_append]
    exact ⟨rfl, rfl⟩
  | none =>
    have size : cclPendingBytes < (pending ++ chunk).length ↔
        cclPendingBytes - pending.length < chunk.length := by
      rw [List.length_append]
      omega
    simp only [Option.map_none, size]

/-- `TC_TWIC_CCL_stream_update` runs the rows of its pending octets and its chunk. -/
theorem updateLoop_eq {stream : CclStream C} (open_ : stream.error = .ok)
    (waiting : rowFront stream.pending = .more) (chunk : Bytes) :
    (updateLoop visit stream chunk).outcome =
        rowDecoder.run (emitRecord visit) (stream.pending ++ chunk) stream.sink ∧
      (updateLoop visit stream chunk).bytesLeft = stream.bytesLeft ∧
      (updateLoop visit stream chunk).finished = stream.finished := by
  induction size : chunk.length using Nat.strongRecOn generalizing stream chunk with
  | ind size ih =>
    have front := @rowFront_append stream.pending chunk waiting
    obtain ⟨short, -⟩ := rowFront_more.mp waiting
    rw [updateLoop]
    by_cases empty : chunk = []
    · rw [dif_pos empty, empty, List.append_nil, Decoder.run_more waiting, CclStream.outcome, if_pos open_]
      exact ⟨rfl, rfl, rfl⟩
    rw [dif_neg empty]
    have scan : chunk.take (min chunk.length (cclPendingBytes - stream.pending.length + 1)) =
        chunk.take (cclPendingBytes - stream.pending.length + 1) := by
      rw [Nat.min_comm, ← List.take_take, List.take_length]
    dsimp only
    rw [scan]
    cases found : (chunk.take (cclPendingBytes - stream.pending.length + 1)).findIdx? (· = 10) with
    | none =>
      simp only [found] at front
      dsimp only
      by_cases long : cclPendingBytes - stream.pending.length < chunk.length
      · rw [if_pos long] at front
        rw [if_pos (by omega), Decoder.run_failed front]
        exact ⟨rfl, rfl, rfl⟩
      · rw [if_neg long] at front
        rw [if_neg (by omega), Decoder.run_more front, CclStream.outcome, if_pos open_,
          List.take_of_length_le (by omega)]
        exact ⟨rfl, rfl, rfl⟩
    | some length =>
      simp only [found] at front
      have inside := (List.findIdx?_eq_some_iff_getElem.mp found).1
      rw [List.length_take] at inside
      dsimp only
      rw [if_neg (by omega), Decoder.run_item front]
      cases emitted : emitRecord visit stream.sink (stream.pending ++ chunk.take length) with
      | mk outcome sink =>
        cases outcome with
        | some e =>
          have failed := emitRecord_error emitted
          rw [CclStream.outcome, if_neg failed]
          exact ⟨rfl, rfl, rfl⟩
        | none =>
          exact @ih (chunk.drop (length + 1)).length (by rw [← size, List.length_drop]; omega)
            { stream with sink, pending := [] } open_ rfl _ rfl

theorem cclUpdate_eq {stream : CclStream C} (open_ : stream.error = .ok) (live : stream.finished = false)
    (waiting : rowFront stream.pending = .more) {chunk : Bytes} (room : chunk.length ≤ stream.bytesLeft) :
    (cclUpdate visit stream chunk).outcome =
        rowDecoder.run (emitRecord visit) (stream.pending ++ chunk) stream.sink ∧
      (cclUpdate visit stream chunk).bytesLeft = stream.bytesLeft - chunk.length ∧
      (cclUpdate visit stream chunk).finished = false := by
  rw [cclUpdate, if_neg (not_not.mpr open_), if_neg (by simp [live]), if_neg (Nat.not_lt.mpr room)]
  rw [← live]
  exact @updateLoop_eq C visit { stream with bytesLeft := stream.bytesLeft - chunk.length } open_
    waiting chunk

theorem cclUpdates_failed {stream : CclStream C} (failed : stream.error ≠ .ok) (chunks : List Bytes) :
    chunks.foldl (cclUpdate visit) stream = stream := by
  induction chunks with
  | nil => rfl
  | cons chunk chunks ih => rwa [List.foldl_cons, cclUpdate, if_pos failed]

theorem cclUpdates_eq {stream : CclStream C} (open_ : stream.error = .ok) (live : stream.finished = false)
    (waiting : rowFront stream.pending = .more) {chunks : List Bytes}
    (room : chunks.flatten.length ≤ stream.bytesLeft) :
    (chunks.foldl (cclUpdate visit) stream).outcome =
      rowDecoder.runPieces (emitRecord visit) stream.pending chunks stream.sink := by
  induction chunks generalizing stream with
  | nil => rw [List.foldl_nil, CclStream.outcome, if_pos open_, Decoder.runPieces]
  | cons chunk chunks ih =>
    rw [List.flatten_cons, List.length_append] at room
    obtain ⟨ran, left, live'⟩ := @cclUpdate_eq C visit stream open_ live waiting chunk
      (show chunk.length ≤ stream.bytesLeft by omega)
    rw [List.foldl_cons, Decoder.runPieces, ← ran]
    by_cases failed : (cclUpdate visit stream chunk).error = .ok
    · rw [ih failed live' ?_ (by rw [left]; omega), CclStream.outcome, if_pos failed]
      rw [CclStream.outcome, if_pos failed] at ran
      exact Decoder.run_left ran.symm
    · rw [cclUpdates_failed failed, CclStream.outcome, if_neg failed]

theorem cclFinish_eq (stream : CclStream C) : ((cclFinish stream).error, (cclFinish stream).sink) =
      match stream.outcome with
      | (.ok left, sink) => (if left ≠ [] || sink.records = 0 then .invalid else .ok, sink)
      | (.error e, sink) => (e, sink) := by
  unfold cclFinish CclStream.outcome
  by_cases open_ : stream.error = .ok
  · rw [if_neg (not_not.mpr open_), if_pos open_]
    dsimp only
    split
    · rfl
    · rw [open_]
  · rw [if_pos open_, if_neg open_]

theorem cclFinish_chunks {maxBytes maxRecords : Nat} {context : C} {chunks : List Bytes}
    (room : chunks.flatten.length ≤ maxBytes) :
    ((cclFinish (chunks.foldl (cclUpdate visit) (cclInit maxBytes maxRecords context))).error,
        (cclFinish (chunks.foldl (cclUpdate visit) (cclInit maxBytes maxRecords context))).sink) =
      match rowDecoder.run (emitRecord visit) chunks.flatten ⟨maxRecords, 0, context⟩ with
      | (.ok left, sink) => (if left ≠ [] || sink.records = 0 then .invalid else .ok, sink)
      | (.error e, sink) => (e, sink) := by
  rw [cclFinish_eq, @cclUpdates_eq C visit (cclInit maxBytes maxRecords context) rfl rfl rfl chunks room,
    Decoder.runPieces_eq (show rowDecoder.next (cclInit maxBytes maxRecords context).pending = .more from rfl)]
  rfl

end

def Names (fascn row : Bytes) : Prop := ∃ record, cclRead (stripReturn row) = .ok record ∧ record.fascn = fascn

/-- Rows, each with its `'\n'`. -/
def ofRows (rows : List Bytes) : Bytes := rows.flatMap (· ++ [10])

theorem emitRecord_lookup {fascn row : Bytes} {sink after : CclSink Bool} :
    emitRecord (lookupRecord fascn) sink row = (none, after) ↔
      sink.recordsLeft ≠ 0 ∧ ∃ record, cclRead (stripReturn row) = .ok record ∧
        after = ⟨sink.recordsLeft - 1, sink.records + 1, sink.context || record.fascn = fascn⟩ := by
  unfold emitRecord lookupRecord
  split
  · rename_i none
    simp [none]
  · rename_i some
    cases cclRead (stripReturn row) with
    | error e => simp
    | ok record => simp [some, eq_comm]

theorem row_short {row : Bytes} {record : CclRecord} (read : cclRead (stripReturn row) = .ok record) :
    row.length ≤ cclPendingBytes := by
  have length : (stripReturn row).length = cclRecordBytes := by
    unfold cclRead at read
    split at read
    · cases read
    · rename_i whole
      exact not_not.mp whole
  have strip : row.length ≤ (stripReturn row).length + 1 := by
    unfold stripReturn
    split
    · rw [List.length_dropLast]
      omega
    · omega
  rw [length] at strip
  exact strip

theorem run_lookup {fascn csv : Bytes} {sink after : CclSink Bool} :
    rowDecoder.run (emitRecord (lookupRecord fascn)) csv sink = (.ok [], after) ↔
      ∃ rows : List Bytes, (∀ row ∈ rows, 10 ∉ row ∧ ∃ record, cclRead (stripReturn row) = .ok record) ∧
        csv = ofRows rows ∧ rows.length ≤ sink.recordsLeft ∧
        after.recordsLeft = sink.recordsLeft - rows.length ∧ after.records = sink.records + rows.length ∧
        (after.context = true ↔ sink.context = true ∨ ∃ row ∈ rows, Names fascn row) := by
  constructor
  · intro given
    induction size : csv.length using Nat.strongRecOn generalizing csv sink with
    | ind size ih =>
      cases found : rowDecoder.next csv with
      | more =>
        rw [Decoder.run_more found] at given
        cases given
        exact ⟨[], nofun, rfl, Nat.zero_le _, rfl, rfl, by simp⟩
      | failed e =>
        rw [Decoder.run_failed found] at given
        cases given
      | item row rest =>
        rw [Decoder.run_item found] at given
        cases emitted : emitRecord (lookupRecord fascn) sink row with
        | mk outcome sink' =>
          cases outcome with
          | some e => simp [emitted] at given
          | none =>
            rw [emitted] at given
            obtain ⟨outside, -, rfl⟩ := rowFront_item.mp found
            obtain ⟨some, record, read, rfl⟩ := emitRecord_lookup.mp emitted
            have shorter := rowDecoder.shorter found
            rw [size] at shorter
            obtain ⟨rows, valid, rfl, room, left, count, listed⟩ := ih _ shorter given rfl
            dsimp only at room left count listed
            refine ⟨row :: rows, ?_, by simp [ofRows], by rw [List.length_cons]; omega,
              by rw [List.length_cons]; omega, by rw [List.length_cons]; omega, ?_⟩
            · simp only [List.mem_cons, forall_eq_or_imp]
              exact ⟨⟨outside, record, read⟩, valid⟩
            · have names : Names fascn row ↔ record.fascn = fascn := by
                simp [Names, read]
              rw [listed]
              simp [names, or_assoc]
  · rintro ⟨rows, valid, rfl, room, left, count, listed⟩
    induction rows generalizing sink with
    | nil =>
      rw [show ofRows [] = [] from rfl, Decoder.run_more rfl]
      rcases sink with ⟨_, _, context⟩
      rcases after with ⟨_, _, context'⟩
      simp only [List.not_mem_nil, false_and, exists_false, or_false, List.length_nil, Nat.sub_zero,
        Nat.add_zero, ← Bool.eq_iff_iff] at left count listed
      rw [left, count, listed]
    | cons row rows ih =>
      simp only [List.mem_cons, forall_eq_or_imp] at valid
      obtain ⟨⟨outside, record, read⟩, others⟩ := valid
      rw [List.length_cons] at room left count
      have found : rowDecoder.next (ofRows (row :: rows)) = .item row (ofRows rows) :=
        rowFront_item.mpr ⟨outside, row_short read, by simp [ofRows]⟩
      have emitted := (@emitRecord_lookup fascn row sink _).mpr
        ⟨show sink.recordsLeft ≠ 0 by omega, record, read, rfl⟩
      rw [Decoder.run_item found, emitted]
      have names : Names fascn row ↔ record.fascn = fascn := by simp [Names, read]
      refine ih others ?_ ?_ ?_ ?_
      · dsimp only
        omega
      · dsimp only
        omega
      · dsimp only
        omega
      · rw [listed]
        simp [names, or_assoc]

variable {maxRecords : Nat}

/-- `TC_TWIC_CCL_contains` accepts rows that end, at least one and no more than the limit, and
tells whether one of them names the FASC-N. -/
theorem cclContains_iff {csv fascn : Bytes} {listed : Bool} (query : fascn.length = cclKeyBytes) :
    cclContains csv fascn maxRecords = .ok listed ↔
      ∃ rows : List Bytes, rows ≠ [] ∧ rows.length ≤ maxRecords ∧ csv = ofRows rows ∧
        (∀ row ∈ rows, 10 ∉ row ∧ ∃ record, cclRead (stripReturn row) = .ok record) ∧
        (listed = true ↔ ∃ row ∈ rows, Names fascn row) := by
  have whole := @cclFinish_chunks Bool (lookupRecord fascn) csv.length maxRecords false [csv] (by simp)
  simp only [List.foldl_cons, List.foldl_nil, List.flatten_cons, List.flatten_nil, List.append_nil] at whole
  rw [cclContains, if_neg (not_not.mpr query)]
  generalize cclFinish (cclUpdate (lookupRecord fascn) (cclInit csv.length maxRecords false) csv) =
    stream at whole ⊢
  dsimp only
  constructor
  · intro given
    split at given
    · rename_i accepted
      cases ran : rowDecoder.run (emitRecord (lookupRecord fascn)) csv ⟨maxRecords, 0, false⟩ with
      | mk outcome sink =>
        cases outcome with
        | error e =>
          rw [ran] at whole
          have same : stream.error = e := (Prod.ext_iff.mp whole).1
          have failed : e ≠ .ok := Decoder.run_error (P := (· ≠ .ok))
            (fun _ _ failed => by rw [(rowFront_failed.mp failed).1]; nofun)
            (fun _ _ _ _ refused => emitRecord_error refused) ran
          exact absurd (same.symm.trans accepted) failed
        | ok left =>
          rw [ran] at whole
          have same := (Prod.ext_iff.mp whole).1
          have sinks : stream.sink = sink := (Prod.ext_iff.mp whole).2
          dsimp only at same
          rw [accepted] at same
          split at same
          · cases same
          · rename_i complete
            simp only [ne_eq, Bool.or_eq_true, decide_eq_true_eq, not_or, not_not] at complete
            obtain ⟨rfl, some⟩ := complete
            obtain ⟨rows, valid, rfl, room, -, count, names⟩ := run_lookup.mp ran
            cases given
            refine ⟨rows, ?_, room, rfl, valid, ?_⟩
            · rintro rfl
              exact some count
            · rw [sinks, names]
              simp
    · cases given
  · rintro ⟨rows, some, room, rfl, valid, names⟩
    have ran := (@run_lookup fascn (ofRows rows) ⟨maxRecords, 0, false⟩
      ⟨maxRecords - rows.length, rows.length, listed⟩).mpr
      ⟨rows, valid, rfl, room, rfl, (Nat.zero_add _).symm, by simp [names]⟩
    rw [ran] at whole
    have count : rows.length ≠ 0 := fun none => some (List.length_eq_zero_iff.mp none)
    simp only [ne_eq, not_true_eq_false, decide_false, decide_eq_false count, Bool.or_self,
      Bool.false_eq_true, if_false, Prod.mk.injEq] at whole
    rw [if_pos whole.1, whole.2]

theorem memcmp_value {left right : Bytes} (length : left.length = right.length) :
    memcmp left right = compare (value left) (value right) := by
  induction left generalizing right with
  | nil =>
    cases right with
    | nil => rfl
    | cons b right => cases length
  | cons a left ih =>
    cases right with
    | nil => cases length
    | cons b right =>
      have rest : left.length = right.length := Nat.succ.inj length
      have low := value_lt left
      have low' := value_lt right
      rw [memcmp, value_cons, value_cons, rest]
      rw [rest] at low
      rcases Nat.lt_trichotomy a.toNat b.toNat with less | same | more
      · have step := Nat.mul_le_mul_right (256 ^ right.length) (Nat.succ_le_of_lt less)
        rw [Nat.succ_mul] at step
        rw [if_neg (fun same => less.ne (congrArg _ same)), Nat.compare_eq_lt.mpr less,
          Nat.compare_eq_lt.mpr (by omega)]
      · rw [if_pos (UInt8.toNat_inj.mp same), ih rest, same]
        simp only [Nat.compare_eq_ite_lt, Nat.add_lt_add_iff_left]
      · have step := Nat.mul_le_mul_right (256 ^ right.length) (Nat.succ_le_of_lt more)
        rw [Nat.succ_mul] at step
        rw [if_neg (fun same => more.ne' (congrArg _ same)), Nat.compare_eq_gt.mpr more,
          Nat.compare_eq_gt.mpr (by omega)]

def keyAt (source : CclSource) (position : Nat) : Bytes := match readKey source position with
  | .ok key => key
  | .error _ => []

variable {source : CclSource}

theorem readKey_ok {position : Nat} {key : Bytes} (read : readKey source position = .ok key) :
    keyAt source position = key ∧ key.length = cclKeyBytes := by
  refine ⟨by rw [keyAt, read], ?_⟩
  unfold readKey at read
  split at read
  · cases read
  · split at read
    · cases read
    · rename_i size
      cases read
      exact not_not.mp size

/-- Every key of the source can be read, and they ascend. -/
structure Prepared (source : CclSource) : Prop where
  read : ∀ i < source.count, readKey source i = .ok (keyAt source i)
  ascends : ∀ i, i + 1 < source.count → value (keyAt source i) ≤ value (keyAt source (i + 1))

theorem Prepared.sorted (prepared : Prepared source) {i j : Nat} (le : i ≤ j)
    (inside : j < source.count) : value (keyAt source i) ≤ value (keyAt source j) := by
  induction j, le using Nat.le_induction with
  | base => exact le_rfl
  | succ j le ih => exact (ih (by omega)).trans (prepared.ascends j inside)

theorem prepareLoop_ok {count position : Nat} {previous : Option Bytes}
    (given : prepareLoop source count position previous = .ok ()) :
    (∀ i < count, readKey source (position + i) = .ok (keyAt source (position + i))) ∧
      (∀ i, i + 1 < count →
        value (keyAt source (position + i)) ≤ value (keyAt source (position + i + 1))) ∧
      ∀ key, previous = some key → key.length = cclKeyBytes → 0 < count →
        value key ≤ value (keyAt source position) := by
  induction count generalizing position previous with
  | zero => exact ⟨nofun, nofun, nofun⟩
  | succ count ih =>
    rw [prepareLoop] at given
    cases read : readKey source position with
    | error e => simp [read] at given
    | ok key =>
      obtain ⟨rfl, size⟩ := readKey_ok read
      simp only [read] at given
      split at given
      · cases given
      · rename_i order
        obtain ⟨reads, ascends, first⟩ := ih given
        refine ⟨fun i inside => ?_, fun i inside => ?_, ?_⟩
        · cases i with
          | zero => exact read
          | succ i =>
            have next := reads i (by omega)
            rwa [Nat.add_right_comm] at next
        · cases i with
          | zero => exact first _ rfl size (by omega)
          | succ i =>
            have next := ascends i (by omega)
            rwa [Nat.add_right_comm position 1 i] at next
        · rintro previous rfl length _
          rw [Option.any_some, decide_eq_true_eq, memcmp_value (length.trans size.symm),
            Nat.compare_eq_gt] at order
          exact Nat.not_lt.mp order

theorem indexPrepare_ok {source index : CclSource}
    (given : indexPrepare source maxRecords = .ok index) :
    index = source ∧ source.count ≠ 0 ∧ Prepared source := by
  unfold indexPrepare at given
  split at given
  · cases given
  · rename_i some
    split at given
    · cases given
    · cases looped : prepareLoop source source.count 0 none with
      | error e => simp [looped, Except.map] at given
      | ok done =>
        rw [looped] at given
        cases given
        obtain ⟨reads, ascends, -⟩ := prepareLoop_ok looped
        simp only [Nat.zero_add] at reads ascends
        exact ⟨rfl, some, reads, ascends⟩

/-- What the search knows: the query is not before `first` and not from `last` on. -/
structure Narrowed (source : CclSource) (query : Bytes) (first last : Nat) : Prop where
  le : first ≤ last
  inside : last ≤ source.count
  below : ∀ i < first, value (keyAt source i) < value query
  above : ∀ i, last ≤ i → i < source.count → value query < value (keyAt source i)

theorem Narrowed.empty {query : Bytes} {first last : Nat}
    (narrowed : Narrowed source query first last) (done : ¬first < last) :
    ¬∃ i < source.count, readKey source i = .ok query := by
  rintro ⟨i, inside, read⟩
  obtain ⟨same, -⟩ := readKey_ok read
  rcases Nat.lt_or_ge i first with before | after
  · exact (narrowed.below i before).ne (congrArg value same)
  · exact (narrowed.above i (by omega) inside).ne' (congrArg value same)

theorem searchLoop_eq {source : CclSource} {query : Bytes} {maxReads first last : Nat}
    (prepared : Prepared source) (size : query.length = cclKeyBytes)
    (narrowed : Narrowed source query first last) :
    (∀ listed, searchLoop source query maxReads first last = .ok listed →
        (listed = true ↔ ∃ i < source.count, readKey source i = .ok query)) ∧
      (last - first < 2 ^ maxReads →
        ∃ listed, searchLoop source query maxReads first last = .ok listed) := by
  induction maxReads generalizing first last with
  | zero =>
    rw [searchLoop]
    by_cases some : first < last
    · rw [if_pos some]
      exact ⟨nofun, fun few => absurd few (by omega)⟩
    · rw [if_neg some]
      refine ⟨fun listed given => ?_, fun _ => ⟨_, rfl⟩⟩
      cases given
      simpa using narrowed.empty some
  | succ maxReads ih =>
    rw [searchLoop]
    by_cases some : first < last
    · rw [if_pos some]
      have before := narrowed.inside
      have middle : first + (last - first) / 2 < source.count := by omega
      have read := prepared.read _ middle
      dsimp only
      rw [read]
      dsimp only
      have order := memcmp_value (size.trans (readKey_ok read).2.symm)
      cases found : memcmp query (keyAt source (first + (last - first) / 2)) with
      | eq =>
        rw [found] at order
        have same := value_injective (size.trans (readKey_ok read).2.symm)
          (Nat.compare_eq_eq.mp order.symm)
        refine ⟨fun listed given => ?_, fun _ => ⟨_, rfl⟩⟩
        cases given
        exact ⟨fun _ => ⟨_, middle, by rw [read, ← same]⟩, fun _ => rfl⟩
      | lt =>
        rw [found] at order
        have less := Nat.compare_eq_lt.mp order.symm
        have next : Narrowed source query first (first + (last - first) / 2) :=
          ⟨by omega, by omega, narrowed.below, fun i after inside =>
            less.trans_le (prepared.sorted after inside)⟩
        refine ⟨(ih next).1, fun few => (ih next).2 ?_⟩
        rw [Nat.pow_succ] at few
        omega
      | gt =>
        rw [found] at order
        have more := Nat.compare_eq_gt.mp order.symm
        have next : Narrowed source query (first + (last - first) / 2 + 1) last :=
          ⟨by omega, narrowed.inside, fun i inside =>
            (prepared.sorted (by omega) middle).trans_lt more, narrowed.above⟩
        refine ⟨(ih next).1, fun few => (ih next).2 ?_⟩
        rw [Nat.pow_succ] at few
        omega
    · rw [if_neg some]
      refine ⟨fun listed given => ?_, fun _ => ⟨_, rfl⟩⟩
      cases given
      simpa using narrowed.empty some

theorem indexContains_eq {source index : CclSource}
    (given : indexPrepare source maxRecords = .ok index) {fascn : Bytes}
    (query : fascn.length = cclKeyBytes) (maxReads : Nat) :
    (∀ listed, indexContains index fascn maxReads = .ok listed →
        (listed = true ↔ ∃ i < source.count, readKey source i = .ok fascn)) ∧
      (Nat.log 2 source.count + 1 ≤ maxReads →
        ∃ listed, indexContains index fascn maxReads = .ok listed) := by
  obtain ⟨rfl, some, prepared⟩ := indexPrepare_ok given
  have whole : Narrowed index fascn 0 index.count :=
    ⟨Nat.zero_le _, le_rfl, nofun, fun i after inside => absurd inside (Nat.not_lt.mpr after)⟩
  have search := @searchLoop_eq _ fascn maxReads 0 index.count prepared query whole
  rw [indexContains, if_neg (by simp [some, query])]
  refine ⟨search.1, fun enough => search.2 ?_⟩
  rw [Nat.sub_zero]
  exact (Nat.lt_pow_succ_log_self (by decide) _).trans_le (Nat.pow_le_pow_right (by decide) enough)

/-- Chunks do not matter; a list is accepted when its rows are, with at least one and no more than
the limit; and the index tells membership within its reads. -/
theorem canceled_cards :
    (∀ (C : Type) (visit : CclVisit C) (maxBytes maxRecords : Nat) (context : C) (chunks : List Bytes),
        chunks.flatten.length ≤ maxBytes →
          let pieces := cclFinish (chunks.foldl (cclUpdate visit) (cclInit maxBytes maxRecords context))
          let whole := cclFinish (cclUpdate visit (cclInit maxBytes maxRecords context) chunks.flatten)
          pieces.error = whole.error ∧ pieces.sink = whole.sink) ∧
      (∀ (csv fascn : Bytes) (maxRecords : Nat), fascn.length = cclKeyBytes → ∀ listed,
        (cclContains csv fascn maxRecords = .ok listed ↔
          ∃ rows : List Bytes, rows ≠ [] ∧ rows.length ≤ maxRecords ∧ csv = ofRows rows ∧
            (∀ row ∈ rows, 10 ∉ row ∧ ∃ record, cclRead (stripReturn row) = .ok record) ∧
            (listed = true ↔ ∃ row ∈ rows, Names fascn row))) ∧
      ∀ (source index : CclSource) (maxRecords : Nat), indexPrepare source maxRecords = .ok index →
        ∀ fascn : Bytes, fascn.length = cclKeyBytes → ∀ maxReads,
          (∀ listed, indexContains index fascn maxReads = .ok listed →
              (listed = true ↔ ∃ i < source.count, readKey source i = .ok fascn)) ∧
            (Nat.log 2 source.count + 1 ≤ maxReads →
              ∃ listed, indexContains index fascn maxReads = .ok listed) := by
  refine ⟨fun C visit maxBytes maxRecords context chunks room => ?_, fun csv fascn maxRecords query listed =>
    cclContains_iff query, fun source index maxRecords given fascn query maxReads =>
    indexContains_eq given query maxReads⟩
  have pieces := @cclFinish_chunks _ visit maxBytes maxRecords context chunks room
  have whole := @cclFinish_chunks _ visit maxBytes maxRecords context [chunks.flatten]
    (by simpa using room)
  simp only [List.foldl_cons, List.foldl_nil, List.flatten_cons, List.flatten_nil,
    List.append_nil] at whole
  exact Prod.ext_iff.mp (pieces.trans whole.symm)

/-- `0000…,29Feb2024`. -/
def sampleRow : Bytes := List.replicate 50 48 ++ [44, 50, 57, 70, 101, 98, 50, 48, 50, 52]

/-- Valid rows alone are not enough: there may be more of them than the limit. -/
theorem valid_rows_over_limit :
    ¬∀ (rows : List Bytes) (fascn : Bytes) (maxRecords : Nat), fascn.length = cclKeyBytes →
      (∀ row ∈ rows, 10 ∉ row) →
        ((∃ listed, cclContains (ofRows rows) fascn maxRecords = .ok listed) ↔
          ∀ row ∈ rows, ∃ record, cclRead (stripReturn row) = .ok record) := by
  intro claimed
  have valid : ∃ record, cclRead (stripReturn sampleRow) = .ok record := by
    refine ⟨⟨List.replicate 25 0, 2024, 2, 29⟩, ?_⟩
    decide
  obtain ⟨listed, accepted⟩ := (claimed [sampleRow] (List.replicate 25 0) 0 rfl (by decide)).mpr (by
    rintro row (_ | ⟨_, ⟨⟩⟩)
    exact valid)
  obtain ⟨rows, some, room, -⟩ := (cclContains_iff rfl).mp accepted
  exact some (List.length_eq_zero_iff.mp (Nat.le_zero.mp room))

end TinyCrypto.Credential
