import TinyCrypto.Tlv.Grammar

/-! # Windowed reads of a source

`source.c` and `source_der.c`: a reader keeps a window of a source whose reads are limited in
number and in bytes, and reads headers through it.
-/

namespace TinyCrypto.Windowed

open Tlv (Header Profile headerRead headerRead_eq_error headerParse profileTag profileTag_ok profileLength
  tagOctets tagBytes)

/-- `TC_source`: its bytes do not change, and `serve` tells whether a read succeeds. -/
structure Source (E : Type) where
  bytes : Bytes
  serve : E → (offset length : Nat) → Bool × E

variable {E : Type}

def Source.slice (source : Source E) (offset length : Nat) : Bytes := (source.bytes.drop offset).take length

/-- `tc_source_reader`, the environment of its source and the reads that were made. -/
structure SourceReader (E : Type) where
  window : Bytes
  room : window ≠ []
  offset : Nat
  available : Nat
  filled : available ≤ window.length
  bytesRemaining : Nat
  readsRemaining : Nat
  env : E
  reads : List (Nat × Nat)

/-- `tc_source_reader_init`, with a window of at least one byte. -/
def sourceReaderInit (window : Bytes) (room : window ≠ []) (maxBytes maxReads : Nat) (env : E) :
    SourceReader E :=
  ⟨window, room, 0, 0, Nat.zero_le _, maxBytes, maxReads, env, []⟩

/-- `memcpy` to the start of the window. -/
def fillWindow (window loaded : Bytes) : Bytes := loaded.take window.length ++ window.drop loaded.length

theorem fillWindow_length (window loaded : Bytes) : (fillWindow window loaded).length = window.length := by
  simp only [fillWindow, List.length_append, List.length_take, List.length_drop]
  omega

def SourceReader.refused (reader : SourceReader E) (offset transfer : Nat) (env : E) : SourceReader E where
  window := List.replicate reader.window.length 0
  room := by
    have := List.length_pos_of_ne_nil reader.room
    exact List.ne_nil_of_length_pos (by simpa using this)
  offset := reader.offset
  available := 0
  filled := Nat.zero_le _
  bytesRemaining := reader.bytesRemaining - transfer
  readsRemaining := reader.readsRemaining - 1
  env := env
  reads := reader.reads ++ [(offset, transfer)]

def SourceReader.loaded (reader : SourceReader E) (offset transfer : Nat) (inside : transfer ≤ reader.window.length)
    (bytes : Bytes) (env : E) : SourceReader E where
  window := fillWindow reader.window bytes
  room := by
    have := List.length_pos_of_ne_nil reader.room
    exact List.ne_nil_of_length_pos (by rwa [fillWindow_length])
  offset := offset
  available := transfer
  filled := by rwa [fillWindow_length]
  bytesRemaining := reader.bytesRemaining - transfer
  readsRemaining := reader.readsRemaining - 1
  env := env
  reads := reader.reads ++ [(offset, transfer)]

variable (source : Source E)

def SourceReader.load (offset transfer : Nat) (reader : SourceReader E)
    (inside : transfer ≤ reader.window.length) : Bool × SourceReader E :=
  match source.serve reader.env offset transfer with
  | (false, env) => (false, reader.refused offset transfer env)
  | (true, env) => (true, reader.loaded offset transfer inside (source.slice offset transfer) env)

/-- `tc_source_reader_view`. -/
def view (offset length : Nat) (reader : SourceReader E) : Except Result Bytes × SourceReader E :=
  if offset > source.bytes.length || length > source.bytes.length - offset then (.error .argument, reader)
  else if length = 0 then (.ok [], reader)
  else if offset ≥ reader.offset && offset - reader.offset < reader.available then
    let skip := offset - reader.offset
    let available := reader.available - skip
    (.ok ((reader.window.drop skip).take (min length available)), reader)
  else if reader.readsRemaining = 0 || reader.bytesRemaining = 0 then (.error .limit, reader)
  else
    let remaining := min (source.bytes.length - offset) reader.bytesRemaining
    let transfer := min remaining reader.window.length
    match reader.load source offset transfer (Nat.min_le_right _ _) with
    | (false, reader) => (.error .error, reader)
    | (true, reader) => (.ok (reader.window.take (min length transfer)), reader)

variable {offset length : Nat}

theorem view_positive {reader after : SourceReader E} {chunk : Bytes}
    (given : view source offset length reader = (.ok chunk, after)) (some : length ≠ 0) :
    0 < chunk.length := by
  have filled := reader.filled
  have size := List.length_pos_of_ne_nil reader.room
  unfold view at given
  split at given
  · cases given
  · rename_i inside
    simp only [gt_iff_lt, Bool.or_eq_true, decide_eq_true_eq, not_or, Nat.not_lt] at inside
    split at given
    · rename_i cached
      simp only [ge_iff_le, Bool.and_eq_true, decide_eq_true_eq] at cached
      cases given
      simp only [List.length_take, List.length_drop]
      omega
    · split at given
      · cases given
      · rename_i budget
        simp only [Bool.or_eq_true, decide_eq_true_eq, not_or] at budget
        dsimp only at given
        split at given
        · cases given
        · rename_i loading
          cases given
          have kept : after.window.length = reader.window.length := by
            unfold SourceReader.load at loading
            split at loading
            · cases loading
            · cases loading
              exact fillWindow_length _ _
          simp only [List.length_take, kept]
          omega

/-- `tc_source_status`. -/
def sourceStatus : Result → Result
  | .ok => .ok
  | .limit => .limit
  | .argument => .argument
  | .unsupported => .unsupported
  | _ => .io

/-- `tc_source_reader_copy`. -/
def copy (offset length : Nat) (reader : SourceReader E) : Except Result Bytes × SourceReader E :=
  if some : length = 0 then (.ok [], reader)
  else
    match viewed : view source offset length reader with
    | (.error e, reader) => (.error (sourceStatus e), reader)
    | (.ok chunk, reader) =>
      have _progress := view_positive source viewed some
      let (rest, reader) := copy (offset + chunk.length) (length - chunk.length) reader
      (rest.map (chunk ++ ·), reader)
termination_by length

/-- `tc_source_der_element`. -/
structure DerElement where
  header : Header
  offset : Nat
  valueOffset : Nat
  last : Nat
  deriving DecidableEq

/-- `HEADER_CAPACITY` of `tc_source_der_read`. -/
def headerCapacity : Nat := tagBytes + 1 + 8

/-- The loop of `tc_source_der_read`. -/
def headerLoop (maxValue offset available : Nat) (encoded : Bytes) (reader : SourceReader E) :
    Except Result Header × SourceReader E :=
  if some : available - encoded.length = 0 then (.error .more, reader)
  else
    match viewed : view source (offset + encoded.length) (available - encoded.length) reader with
    | (.error e, reader) => (.error (sourceStatus e), reader)
    | (.ok chunk, reader) =>
      have _progress := view_positive source viewed some
      match headerRead 8 maxValue (encoded ++ chunk) with
      | .error .more => headerLoop maxValue offset available (encoded ++ chunk) reader
      | result => (result, reader)
termination_by available - encoded.length
decreasing_by
  simp only [List.length_append]
  omega

def elementOf (offset last : Nat) (header : Header) : Except Result DerElement :=
  let valueOffset := offset + header.headerLength
  if header.length > last - valueOffset then .error .invalid
  else .ok ⟨header, offset, valueOffset, valueOffset + header.length⟩

/-- `tc_source_der_read`. -/
def derRead (offset last maxValue : Nat) (reader : SourceReader E) :
    Except Result DerElement × SourceReader E :=
  if offset > last || last > source.bytes.length then (.error .argument, reader)
  else if offset = last then (.error .end, reader)
  else
    let available := min (last - offset) headerCapacity
    match headerLoop source maxValue offset available [] reader with
    | (.error .more, reader) =>
      (.error (if available < headerCapacity then .invalid else .limit), reader)
    | (.error e, reader) => (.error e, reader)
    | (.ok header, reader) => (elementOf offset last header, reader)

def derInMemory (bytes : Bytes) (offset last maxValue : Nat) : Except Result DerElement :=
  if offset > last || last > bytes.length then .error .argument
  else if offset = last then .error .end
  else
    match headerRead 8 maxValue ((bytes.take last).drop offset) with
    | .error .more => .error .invalid
    | .error e => .error e
    | .ok header => elementOf offset last header

structure Valid (reader : SourceReader E) : Prop where
  cached : reader.window.take reader.available = source.slice reader.offset reader.available
  inside : reader.offset + reader.available ≤ source.bytes.length

def SourceReader.Holds (reader : SourceReader E) (i : Nat) : Prop :=
  reader.offset ≤ i ∧ i < reader.offset + reader.available

/-- The byte at `i` is not in the window, and no reads or no bytes are left. -/
def SourceReader.Exhausted (reader : SourceReader E) (i : Nat) : Prop :=
  ¬reader.Holds i ∧ (reader.readsRemaining = 0 ∨ reader.bytesRemaining = 0)

/-- The budgets pay for the reads that were made, and each lies in the source. -/
def Spent (before after : SourceReader E) : Prop :=
  ∃ made : List (Nat × Nat), after.reads = before.reads ++ made ∧
    after.readsRemaining + made.length = before.readsRemaining ∧
    after.bytesRemaining + (made.map Prod.snd).sum = before.bytesRemaining ∧
    ∀ read ∈ made, read.1 + read.2 ≤ source.bytes.length

/-- The reads of one call for the bytes of a range: they go forward from a byte that the window
does not hold, and a call that makes none leaves the reader as it was. -/
structure Fetches (before after : SourceReader E) (low high : Nat) (made : List (Nat × Nat)) :
    Prop where
  log : after.reads = before.reads ++ made
  calls : after.readsRemaining + made.length = before.readsRemaining
  bytes : after.bytesRemaining + (made.map Prod.snd).sum = before.bytesRemaining
  inside : ∀ read ∈ made, read.1 + read.2 ≤ source.bytes.length
  range : ∀ read ∈ made, low ≤ read.1 ∧ read.1 < high
  forward : made.Pairwise fun first second => first.1 < second.1
  missed : ∀ read ∈ made.head?, ¬before.Holds read.1
  kept : made = [] → after = before

/-- The last read of a call was refused. -/
def Failed (before after : SourceReader E) : Prop :=
  ∃ earlier env read, after.reads = before.reads ++ (earlier ++ [read]) ∧
    source.serve env read.1 read.2 = (false, after.env)

variable {source}

theorem Spent.refl (reader : SourceReader E) : Spent source reader reader :=
  ⟨[], by simp, rfl, rfl, nofun⟩

variable {a b c : SourceReader E}

theorem Spent.trans (first : Spent source a b) (second : Spent source b c) : Spent source a c := by
  obtain ⟨made, log, reads, bytes, inside⟩ := first
  obtain ⟨made', log', reads', bytes', inside'⟩ := second
  refine ⟨made ++ made', by rw [log', log, List.append_assoc], ?_, ?_, fun read member => ?_⟩
  · rw [List.length_append]
    omega
  · rw [List.map_append, List.sum_append]
    omega
  · rcases List.mem_append.mp member with member | member
    · exact inside read member
    · exact inside' read member

theorem Fetches.spent {before after : SourceReader E} {low high : Nat} {made : List (Nat × Nat)}
    (fetches : Fetches source before after low high made) : Spent source before after :=
  ⟨made, fetches.log, fetches.calls, fetches.bytes, fetches.inside⟩

theorem Fetches.none (reader : SourceReader E) (low high : Nat) :
    Fetches source reader reader low high [] :=
  ⟨by simp, rfl, rfl, by simp, by simp, .nil, by simp, fun _ => rfl⟩

theorem Fetches.trans {low middle high : Nat} {made made' : List (Nat × Nat)}
    (first : Fetches source a b low middle made) (second : Fetches source b c middle high made')
    (up : low ≤ middle) (down : middle ≤ high) : Fetches source a c low high (made ++ made') := by
  obtain ⟨made'', log, reads, bytes, inside⟩ := first.spent.trans second.spent
  have same : made'' = made ++ made' := by
    rw [second.log, first.log, List.append_assoc] at log
    exact (List.append_cancel_left log).symm
  subst same
  refine ⟨log, reads, bytes, inside, fun read member => ?_, ?_, fun read member => ?_, fun empty => ?_⟩
  · rcases List.mem_append.mp member with member | member
    · have := first.range read member
      omega
    · have := second.range read member
      omega
  · refine List.pairwise_append.mpr ⟨first.forward, second.forward, fun one early two late => ?_⟩
    exact Nat.lt_of_lt_of_le (first.range one early).2 (second.range two late).1
  · cases made with
    | nil => exact first.kept rfl ▸ second.missed read member
    | cons head rest => exact first.missed read member
  · obtain ⟨none, none'⟩ := List.append_eq_nil_iff.mp empty
    rw [second.kept none', first.kept none]

theorem Failed.after {low high : Nat} {made : List (Nat × Nat)}
    (fetches : Fetches source a b low high made) (failed : Failed source b c) :
    Failed source a c := by
  obtain ⟨earlier, env, read, log, refused⟩ := failed
  exact ⟨made ++ earlier, env, read, by rw [log, fetches.log]; simp, refused⟩

theorem slice_length (inside : offset + length ≤ source.bytes.length) :
    (source.slice offset length).length = length := by
  rw [Source.slice, List.length_take, List.length_drop]
  omega

theorem slice_slice (offset skip available length : Nat) (inside : skip + length ≤ available) :
    ((source.slice offset available).drop skip).take length = source.slice (offset + skip) length := by
  simp only [Source.slice]
  rw [List.drop_take, List.drop_drop, List.take_take, Nat.min_eq_left (by omega)]

theorem slice_append (offset first second : Nat) :
    source.slice offset first ++ source.slice (offset + first) second =
      source.slice offset (first + second) := by
  rw [Source.slice, Source.slice, Source.slice, ← List.drop_drop, List.take_add]

/-- A call that reads for a range leaves a valid reader. -/
structure Serves (source : Source E) (before after : SourceReader E) (low high : Nat) : Prop where
  valid : Valid source after
  fetches : ∃ made, Fetches source before after low high made

variable {reader : SourceReader E}

theorem Serves.none (valid : Valid source reader) (low high : Nat) :
    Serves source reader reader low high :=
  ⟨valid, [], .none reader low high⟩

theorem Serves.trans {low middle high : Nat}
    (first : Serves source a b low middle) (second : Serves source b c middle high)
    (up : low ≤ middle) (down : middle ≤ high) : Serves source a c low high := by
  obtain ⟨made, fetches⟩ := first.fetches
  obtain ⟨made', fetches'⟩ := second.fetches
  exact ⟨second.valid, _, fetches.trans fetches' up down⟩

theorem Serves.widen {after : SourceReader E} {low high high' : Nat}
    (serves : Serves source reader after low high) (wider : high ≤ high') :
    Serves source reader after low high' := by
  obtain ⟨made, fetches⟩ := serves.fetches
  exact ⟨serves.valid, made, { fetches with
    range := fun read member => ⟨(fetches.range read member).1,
      Nat.lt_of_lt_of_le (fetches.range read member).2 wider⟩ }⟩

def Views (source : Source E) (before after : SourceReader E) (offset length : Nat) :
    Except Result Bytes → Prop
  | .ok out =>
    offset + length ≤ source.bytes.length ∧ out = source.slice offset out.length ∧
      out.length ≤ length ∧ (length ≠ 0 → 0 < out.length)
  | .error e =>
    (e = .argument ∧ source.bytes.length < offset + length) ∨
      offset + length ≤ source.bytes.length ∧ length ≠ 0 ∧
        ((e = .limit ∧ after.Exhausted offset) ∨ (e = .error ∧ Failed source before after))

theorem load_spec (valid : Valid source reader) {offset transfer : Nat}
    (inside : transfer ≤ reader.window.length) (within : offset + transfer ≤ source.bytes.length)
    (paid : transfer ≤ reader.bytesRemaining) (some : reader.readsRemaining ≠ 0)
    (missed : ¬reader.Holds offset) :
    Serves source reader (reader.load source offset transfer inside).2 offset (offset + 1) ∧
      ((reader.load source offset transfer inside).1 = false →
        Failed source reader (reader.load source offset transfer inside).2) ∧
      ((reader.load source offset transfer inside).1 = true → ∀ count ≤ transfer,
        (reader.load source offset transfer inside).2.window.take count = source.slice offset count) := by
  have fetches (after : SourceReader E) (log : after.reads = reader.reads ++ [(offset, transfer)])
      (left : after.readsRemaining = reader.readsRemaining - 1)
      (left' : after.bytesRemaining = reader.bytesRemaining - transfer) :
      Fetches source reader after offset (offset + 1) [(offset, transfer)] := by
    refine ⟨log, ?_, ?_, by simpa using within, by simp, by simp, by simpa using missed, by simp⟩
    · rw [left, List.length_singleton]
      omega
    · rw [left', List.map_singleton, List.sum_singleton]
      omega
  unfold SourceReader.load
  cases served : source.serve reader.env offset transfer with
  | mk success env =>
    cases success with
    | false =>
      refine ⟨⟨⟨?_, ?_⟩, _, fetches _ rfl rfl rfl⟩, fun _ => ?_, by simp⟩
      · simp [SourceReader.refused, Source.slice]
      · have := valid.inside
        simp only [SourceReader.refused]
        omega
      · exact ⟨[], reader.env, (offset, transfer), rfl, served⟩
    | true =>
      have whole := @slice_length E source _ _ within
      have held (count : Nat) (few : count ≤ transfer) :
          (fillWindow reader.window (source.slice offset transfer)).take count =
            source.slice offset count := by
        have fits : (source.slice offset transfer).length ≤ reader.window.length := by omega
        rw [fillWindow, List.take_of_length_le fits, List.take_append_of_le_length (by omega)]
        have part := @slice_slice E source offset 0 transfer count (by omega)
        rwa [List.drop_zero] at part
      exact ⟨⟨⟨held transfer (Nat.le_refl _), within⟩, _, fetches _ rfl rfl rfl⟩, by simp,
        fun _ => held⟩

theorem view_spec (valid : Valid source reader) (offset length : Nat) :
    Serves source reader (view source offset length reader).2 offset (offset + 1) ∧
      Views source reader (view source offset length reader).2 offset length
        (view source offset length reader).1 := by
  have same : Serves source reader reader offset (offset + 1) := .none valid _ _
  have filled := reader.filled
  have size := List.length_pos_of_ne_nil reader.room
  unfold view
  by_cases outside : source.bytes.length < offset + length
  · rw [if_pos (by simp; omega)]
    exact ⟨same, .inl ⟨rfl, outside⟩⟩
  have inside : offset + length ≤ source.bytes.length := Nat.not_lt.mp outside
  rw [if_neg (by simp; omega)]
  by_cases none : length = 0
  · rw [if_pos none]
    subst none
    exact ⟨same, inside, by simp [Source.slice], (Nat.le_refl _), by simp⟩
  rw [if_neg none]
  by_cases cached : (offset ≥ reader.offset && offset - reader.offset < reader.available) = true
  · rw [if_pos cached]
    simp only [Bool.and_eq_true, decide_eq_true_eq] at cached
    obtain ⟨after, before⟩ := cached
    have held : (reader.window.drop (offset - reader.offset)).take
        (min length (reader.available - (offset - reader.offset))) =
          source.slice offset (min length (reader.available - (offset - reader.offset))) := by
      have part := @slice_slice E source reader.offset (offset - reader.offset) reader.available
        (min length (reader.available - (offset - reader.offset))) (by omega)
      rw [← valid.cached, Nat.add_sub_cancel' after, List.drop_take, List.take_take,
        Nat.min_eq_left (by omega)] at part
      exact part
    have within := valid.inside
    have count := @slice_length E source offset
      (min length (reader.available - (offset - reader.offset))) (by omega)
    dsimp only
    rw [held]
    exact ⟨same, inside, by rw [count], by rw [count]; omega, fun _ => by rw [count]; omega⟩
  rw [if_neg cached]
  have missed : ¬reader.Holds offset := by
    rintro ⟨after, before⟩
    exact cached (by simp; omega)
  by_cases spent : (reader.readsRemaining = 0 || reader.bytesRemaining = 0) = true
  · rw [if_pos spent]
    exact ⟨same, .inr ⟨inside, none, .inl ⟨rfl, missed, by simpa using spent⟩⟩⟩
  rw [if_neg spent]
  simp only [Bool.or_eq_true, decide_eq_true_eq, not_or] at spent
  obtain ⟨reads, bytes⟩ := spent
  dsimp only
  have transferred := @load_spec E source reader valid offset
    (min (min (source.bytes.length - offset) reader.bytesRemaining) reader.window.length)
    (Nat.min_le_right _ _) (by omega) (by omega) reads missed
  obtain ⟨serves, failed, held⟩ := transferred
  cases loading : reader.load source offset
      (min (min (source.bytes.length - offset) reader.bytesRemaining) reader.window.length)
      (Nat.min_le_right _ _) with
  | mk success after =>
    rw [loading] at serves failed held
    cases success with
    | false => exact ⟨serves, .inr ⟨inside, none, .inr ⟨rfl, failed rfl⟩⟩⟩
    | true =>
      dsimp only
      refine ⟨serves, ?_⟩
      rw [held rfl _ (Nat.min_le_right _ _)]
      have count := @slice_length E source offset
        (min length (min (min (source.bytes.length - offset) reader.bytesRemaining)
          reader.window.length)) (by omega)
      exact ⟨inside, by rw [count], by rw [count]; omega, fun _ => by rw [count]; omega⟩

/-- What a call of `tc_source_reader_copy` or `tc_source_der_read` may come to: its answer, or no
budget for a byte that it needs, or a read that failed. -/
def Answers {A : Type} (source : Source E) (before after : SourceReader E) (needs : Nat → Prop)
    (answer result : Except Result A) : Prop :=
  result = answer ∨ (result = .error .limit ∧ ∃ i, needs i ∧ after.Exhausted i) ∨
    (result = .error .io ∧ Failed source before after)

theorem Answers.later {A B : Type} {before middle after : SourceReader E} {low high : Nat}
    {needs needs' : Nat → Prop} {answer result : Except Result A}
    (given : Answers source middle after needs' answer result)
    (first : Serves source before middle low high) (wider : ∀ i, needs' i → needs i) (f : A → B) :
    Answers source before after needs (answer.map f) (result.map f) := by
  rcases given with rfl | ⟨rfl, i, need, exhausted⟩ | ⟨rfl, failed⟩
  · exact .inl rfl
  · exact .inr (.inl ⟨rfl, i, wider i need, exhausted⟩)
  · obtain ⟨made, fetches⟩ := first.fetches
    exact .inr (.inr ⟨rfl, failed.after fetches⟩)

theorem copy_spec (valid : Valid source reader) (offset length : Nat) :
    Serves source reader (copy source offset length reader).2 offset (offset + length) ∧
      Answers source reader (copy source offset length reader).2
        (fun i => offset ≤ i ∧ i < offset + length)
        (if length ≠ 0 ∧ source.bytes.length < offset + length then .error .argument
          else .ok (source.slice offset length)) (copy source offset length reader).1 := by
  induction length using Nat.strongRecOn generalizing offset reader with
  | ind length ih =>
    rw [copy]
    by_cases none : length = 0
    · rw [dif_pos none]
      subst none
      exact ⟨.none valid _ _, .inl (by simp [Source.slice])⟩
    rw [dif_neg none]
    obtain ⟨serves, views⟩ := view_spec valid offset length
    split
    · rename_i e after viewed
      rw [viewed] at serves views
      refine ⟨serves.widen (by omega), ?_⟩
      rcases views with ⟨rfl, outside⟩ | ⟨inside, -, ⟨rfl, exhausted⟩ | ⟨rfl, failed⟩⟩
      · exact .inl (by rw [if_pos ⟨none, outside⟩]; rfl)
      · exact .inr (.inl ⟨rfl, offset, ⟨Nat.le_refl _, by omega⟩, exhausted⟩)
      · exact .inr (.inr ⟨rfl, failed⟩)
    · rename_i chunk after viewed
      rw [viewed] at serves views
      obtain ⟨inside, whole, short, pos⟩ := views
      have some := pos none
      obtain ⟨serves', rest⟩ := ih (length - chunk.length) (by omega) serves.valid (offset + chunk.length)
      rw [if_neg (by omega)] at rest ⊢
      have joined : chunk ++ source.slice (offset + chunk.length) (length - chunk.length) =
          source.slice offset length := by
        have parts := @slice_append E source offset chunk.length (length - chunk.length)
        rwa [← whole, Nat.add_sub_cancel' short] at parts
      refine ⟨?_, ?_⟩
      · have all := (serves.widen (by omega)).trans serves' (by omega) (by omega)
        rwa [show offset + chunk.length + (length - chunk.length) = offset + length by omega] at all
      · have whole := @Answers.later E source _ _ _ _ _ _ _
          (fun i => offset ≤ i ∧ i < offset + length) _ _ _ rest serves
          (fun i need => ⟨by omega, by omega⟩) (chunk ++ ·)
        rwa [Except.map, joined] at whole

variable {rest : Bytes}

theorem tagOctets_append {limit p number : Nat} (later : Bytes)
    (complete : tagOctets limit p number rest ≠ .error .more) :
    tagOctets limit p number (rest ++ later) = tagOctets limit p number rest := by
  induction rest generalizing p number with
  | nil => exact absurd rfl complete
  | cons b rest ih =>
    rw [tagOctets] at complete
    rw [List.cons_append, tagOctets, tagOctets]
    split
    · rfl
    split
    · rfl
    split
    · rfl
    split
    · split <;> rfl
    · rename_i notFull nonzero small continued
      rw [if_neg notFull, if_neg nonzero, if_neg small, if_neg continued] at complete
      exact ih complete

theorem tagOctets_more {limit p number : Nat} (bound : p ≤ limit)
    (more : tagOctets limit p number rest = .error .more) : p + rest.length ≤ limit := by
  induction rest generalizing p number with
  | nil => exact bound
  | cons b rest ih =>
    rw [tagOctets] at more
    split at more
    · cases more
    · rename_i notFull
      repeat' split at more
      all_goals try cases more
      have := ih (by omega) more
      rw [List.length_cons]
      omega

variable {first : UInt8}

theorem profileTag_append (later : Bytes) (complete : profileTag .der first rest ≠ .error .more) :
    profileTag .der first (rest ++ later) = profileTag .der first rest := by
  unfold profileTag at complete ⊢
  split
  · rfl
  rename_i started
  split
  · rename_i high
    rw [if_neg started, if_pos high] at complete
    exact tagOctets_append later complete
  · rfl

theorem profileTag_more (more : profileTag .der first rest = .error .more) :
    rest.length < tagBytes := by
  unfold profileTag at more
  split at more
  · cases more
  split at more
  · have := tagOctets_more (by decide) more
    rw [show Profile.der.tagLimit = tagBytes from rfl] at this
    omega
  · split at more <;> cases more

theorem profileTag_taken {taken number : Nat}
    (given : profileTag .der first rest = .ok (taken, number)) :
    taken ≤ tagBytes ∧ taken ≤ (first :: rest).length := by
  obtain ⟨more, tail, rfl, rfl, valid⟩ := profileTag_ok given
  have size := valid.size
  simp only [List.length_cons, List.length_append] at size ⊢
  omega

variable {input : Bytes}

variable {maxOctets maxValue : Nat}

theorem profileLength_append {constructed : Bool} (later : Bytes)
    (complete : profileLength .der constructed maxOctets input ≠ .error .more) :
    profileLength .der constructed maxOctets (input ++ later) =
      profileLength .der constructed maxOctets input := by
  cases input with
  | nil => exact absurd rfl complete
  | cons b rest =>
    unfold profileLength at complete
    rw [List.cons_append, profileLength, profileLength]
    split
    · rfl
    split
    · rfl
    split
    · rfl
    rename_i indefinite long
    dsimp only at complete ⊢
    split
    · rfl
    split
    · rfl
    rename_i iso wide
    rw [if_neg indefinite, if_neg long, if_neg iso, if_neg wide] at complete
    by_cases cut : b.toNat % 128 > rest.length
    · rw [if_neg (by assumption), if_pos cut] at complete
      exact absurd rfl complete
    · have some : 0 < b.toNat % 128 := by
        have := b.toNat_lt
        have : b.toNat ≠ 128 := fun same => indefinite (UInt8.toNat_inj.mp same)
        omega
      obtain ⟨c, rest, rfl⟩ := List.exists_cons_of_length_pos (l := rest) (by omega)
      rw [if_neg cut, if_neg (by rw [List.length_append]; omega),
        List.take_append_of_le_length (by omega)]
      rfl

theorem profileLength_more {constructed : Bool}
    (more : profileLength .der constructed maxOctets input = .error .more) :
    input.length ≤ maxOctets := by
  cases input with
  | nil => exact Nat.zero_le _
  | cons b rest =>
    unfold profileLength at more
    dsimp only at more
    split at more
    · cases more
    split at more
    · split at more <;> cases more
    split at more
    · cases more
    split at more
    · cases more
    split at more
    · cases more
    split at more
    · rw [List.length_cons]
      omega
    split at more
    · cases more
    split at more
    · rename_i failed
      cases more
      cases Tlv.lengthOctets_error failed
    · split at more <;> cases more

theorem headerParse_more
    (more : headerParse maxOctets .der maxValue (first :: rest) = .error .more) :
    profileTag .der first rest = .error .more ∨
      ∃ taken number constructed, profileTag .der first rest = .ok (taken, number) ∧
        profileLength .der constructed maxOctets ((first :: rest).drop taken) = .error .more := by
  rw [headerParse] at more
  split at more
  · rename_i failed
    cases more
    exact .inl failed
  · rename_i taken number tag
    dsimp only at more
    split at more
    · rename_i failed
      cases more
      exact .inr ⟨taken, number, _, tag, failed⟩
    · split at more <;> cases more

theorem headerRead_append (later : Bytes)
    (complete : headerRead maxOctets maxValue input ≠ .error .more) :
    headerRead maxOctets maxValue (input ++ later) = headerRead maxOctets maxValue input := by
  rw [headerRead, headerRead]
  congr 1
  have complete : headerParse maxOctets .der maxValue input ≠ .error .more :=
    fun more => complete (headerRead_eq_error.mpr more)
  cases input with
  | nil => exact absurd rfl complete
  | cons first rest =>
    rw [headerParse] at complete
    rw [List.cons_append, headerParse, headerParse]
    have tag : profileTag .der first (rest ++ later) = profileTag .der first rest := by
      refine profileTag_append later fun more => complete ?_
      rw [more]
    rw [tag]
    cases read : profileTag .der first rest with
    | error e => rfl
    | ok found =>
      obtain ⟨taken, number⟩ := found
      have inside := (profileTag_taken read).2
      simp only [read] at complete ⊢
      rw [← List.cons_append, List.drop_append_of_le_length inside,
        List.take_append_of_le_length inside,
        profileLength_append later fun more => complete (by rw [more])]

theorem headerRead_complete (long : headerCapacity ≤ input.length) :
    headerRead 8 maxValue input ≠ .error .more := by
  intro more
  cases input with
  | nil => exact absurd long (by decide)
  | cons first rest =>
    unfold headerCapacity at long
    rw [List.length_cons] at long
    rcases headerParse_more (headerRead_eq_error.mp more) with short | ⟨taken, _, _, tag, short⟩
    · have := profileTag_more short
      omega
    · have := (profileTag_taken tag).1
      have := profileLength_more short
      rw [List.length_drop, List.length_cons] at this
      omega

/-- The header needs the byte at `i`: it lies before `high`, and those before it are not enough. -/
def HeaderNeeds (source : Source E) (maxValue offset high i : Nat) : Prop :=
  offset ≤ i ∧ i < high ∧ headerRead 8 maxValue (source.slice offset (i - offset)) = .error .more

theorem headerLoop_spec (valid : Valid source reader) {maxValue offset available : Nat}
    {encoded : Bytes} (inside : offset + available ≤ source.bytes.length)
    (held : encoded = source.slice offset encoded.length) (short : encoded.length ≤ available)
    (waiting : headerRead 8 maxValue encoded = .error .more) :
    Serves source reader (headerLoop source maxValue offset available encoded reader).2
        (offset + encoded.length) (offset + available) ∧
      Answers source reader (headerLoop source maxValue offset available encoded reader).2
        (HeaderNeeds source maxValue offset (offset + available))
        (headerRead 8 maxValue (source.slice offset available))
        (headerLoop source maxValue offset available encoded reader).1 := by
  induction left : available - encoded.length using Nat.strongRecOn generalizing encoded reader with
  | ind left' ih =>
    rw [headerLoop]
    by_cases none : available - encoded.length = 0
    · rw [dif_pos none]
      have whole : encoded.length = available := by omega
      rw [whole] at held
      rw [← held, waiting]
      exact ⟨.none valid _ _, .inl rfl⟩
    rw [dif_neg none]
    obtain ⟨serves, views⟩ := view_spec valid (offset + encoded.length) (available - encoded.length)
    split
    · rename_i e after viewed
      rw [viewed] at serves views
      refine ⟨serves.widen (by omega), ?_⟩
      rcases views with ⟨rfl, outside⟩ | ⟨-, -, ⟨rfl, exhausted⟩ | ⟨rfl, failed⟩⟩
      · exact absurd outside (by omega)
      · refine .inr (.inl ⟨rfl, _, ⟨Nat.le_add_right _ _, by omega, ?_⟩, exhausted⟩)
        rw [Nat.add_sub_cancel_left, ← held, waiting]
      · exact .inr (.inr ⟨rfl, failed⟩)
    · rename_i chunk after viewed
      rw [viewed] at serves views
      obtain ⟨-, whole, few, pos⟩ := views
      have some := pos none
      have held' : encoded ++ chunk = source.slice offset (encoded ++ chunk).length := by
        have parts := @slice_append E source offset encoded.length chunk.length
        rwa [← held, ← whole, ← List.length_append] at parts
      have count : (encoded ++ chunk).length = encoded.length + chunk.length := List.length_append
      dsimp only at serves ⊢
      split
      · rename_i more
        obtain ⟨serves', answers⟩ := ih (available - (encoded ++ chunk).length) (by omega) serves.valid
          held' (by omega) more rfl
        refine ⟨(serves.widen (by omega)).trans serves' (by omega) (by omega), ?_⟩
        have later := @Answers.later E source _ _ _ _ _ _ _ _ _ _ _ answers serves (fun _ need => need) id
        simpa [Except.map_id] using later
      · rename_i result complete
        refine ⟨serves.widen (by omega), .inl ?_⟩
        have parts := @slice_append E source offset (encoded ++ chunk).length
          (available - (encoded ++ chunk).length)
        rw [← held', Nat.add_sub_cancel' (by omega)] at parts
        rw [← parts, headerRead_append _ complete]

theorem slice_eq (offset last : Nat) :
    (source.bytes.take last).drop offset = source.slice offset (last - offset) := List.drop_take

theorem derRead_spec (valid : Valid source reader) (offset last maxValue : Nat) :
    Serves source reader (derRead source offset last maxValue reader).2 offset last ∧
      Answers source reader (derRead source offset last maxValue reader).2
        (HeaderNeeds source maxValue offset last)
        (derInMemory source.bytes offset last maxValue) (derRead source offset last maxValue reader).1 := by
  have same : Serves source reader reader offset last := .none valid _ _
  unfold derRead derInMemory
  by_cases outside : (offset > last || last > source.bytes.length) = true
  · rw [if_pos outside, if_pos outside]
    exact ⟨same, .inl rfl⟩
  rw [if_neg outside, if_neg outside]
  simp only [gt_iff_lt, Bool.or_eq_true, decide_eq_true_eq, not_or, Nat.not_lt] at outside
  by_cases ended : offset = last
  · rw [if_pos ended, if_pos ended]
    exact ⟨same, .inl rfl⟩
  rw [if_neg ended, if_neg ended, slice_eq]
  have inside : offset + min (last - offset) headerCapacity ≤ source.bytes.length := by omega
  obtain ⟨serves, answers⟩ := @headerLoop_spec E source _ valid maxValue _ _ [] inside
    (by simp [Source.slice]) (Nat.zero_le _) rfl
  have whole : headerRead 8 maxValue (source.slice offset (last - offset)) =
      headerRead 8 maxValue (source.slice offset (min (last - offset) headerCapacity)) := by
    rcases Nat.le_total (last - offset) headerCapacity with few | many
    · rw [Nat.min_eq_left few]
    · rw [Nat.min_eq_right many]
      have parts := @slice_append E source offset headerCapacity (last - offset - headerCapacity)
      rw [Nat.add_sub_cancel' many] at parts
      rw [← parts, headerRead_append]
      exact headerRead_complete (Nat.le_of_eq (slice_length (by omega)).symm)
  have missing (more : headerRead 8 maxValue
      (source.slice offset (min (last - offset) headerCapacity)) = .error .more) :
      min (last - offset) headerCapacity < headerCapacity := by
    by_contra full
    exact headerRead_complete (by rw [slice_length inside]; omega) more
  rw [whole]
  rw [List.length_nil, Nat.add_zero] at serves
  replace serves := serves.widen (show offset + min (last - offset) headerCapacity ≤ last by omega)
  dsimp only
  cases looped : headerLoop source maxValue offset (min (last - offset) headerCapacity) [] reader with
  | mk result after =>
    rw [looped] at serves answers
    dsimp only at answers
    rcases answers with rfl | ⟨rfl, i, ⟨above, below, short⟩, exhausted⟩ | ⟨rfl, failed⟩
    · cases read : headerRead 8 maxValue (source.slice offset (min (last - offset) headerCapacity)) with
      | ok header => exact ⟨serves, .inl rfl⟩
      | error e =>
        by_cases more : e = .more
        · subst more
          rw [if_pos (missing read)]
          exact ⟨serves, .inl rfl⟩
        · cases e <;> first
            | exact ⟨serves, .inl rfl⟩
            | exact absurd rfl more
    · exact ⟨serves, .inr (.inl ⟨rfl, i, ⟨above, by omega, short⟩, exhausted⟩)⟩
    · exact ⟨serves, .inr (.inr ⟨rfl, failed⟩)⟩

variable (source) in
theorem view_refused {reader after : SourceReader E}
    (given : view source offset length reader = (.error .error, after)) :
    after.available = 0 ∧ after.window = List.replicate reader.window.length 0 := by
  unfold view at given
  repeat' split at given
  all_goals try cases given
  dsimp only at given
  split at given
  · rename_i loading
    cases given
    unfold SourceReader.load at loading
    split at loading
    · cases loading
      exact ⟨rfl, rfl⟩
    · cases loading
  · cases given

inductive Call where
  | view (offset length : Nat)
  | copy (offset length : Nat)
  | der (offset last maxValue : Nat)

variable (source) in
def Call.after : Call → SourceReader E → SourceReader E
  | .view offset length, reader => (Windowed.view source offset length reader).2
  | .copy offset length, reader => (Windowed.copy source offset length reader).2
  | .der offset last maxValue, reader => (derRead source offset last maxValue reader).2

variable (source) in
inductive Reaches (start : SourceReader E) : SourceReader E → Prop where
  | start : Reaches start start
  | call {reader : SourceReader E} (before : Reaches start reader) (call : Call) :
      Reaches start (call.after source reader)

theorem Call.serves (valid : Valid source reader) (call : Call) :
    Valid source (call.after source reader) ∧ Spent source reader (call.after source reader) := by
  have kept {low high : Nat} (serves : Serves source reader (call.after source reader) low high) :
      Valid source (call.after source reader) ∧ Spent source reader (call.after source reader) := by
    obtain ⟨made, fetches⟩ := serves.fetches
    exact ⟨serves.valid, fetches.spent⟩
  cases call with
  | view offset length => exact kept (view_spec valid offset length).1
  | copy offset length => exact kept (copy_spec valid offset length).1
  | der offset last maxValue => exact kept (derRead_spec valid offset last maxValue).1

theorem Reaches.serves {start reader : SourceReader E} (valid : Valid source start)
    (reaches : Reaches source start reader) : Valid source reader ∧ Spent source start reader := by
  induction reaches with
  | start => exact ⟨valid, .refl _⟩
  | call before call ih =>
    have step := call.serves ih.1
    exact ⟨step.1, ih.2.trans step.2⟩

/-- After any calls, views, copies and headers are those of the whole source in memory. A call
fails for want of a budget only at a byte that it needs and the window does not hold, when no reads
or no bytes are left, and otherwise only with a read that was refused. It reads forward and only
when the window misses a byte; every read was paid for and lies in the source; and a failed read
leaves nothing in the window. -/
theorem windowed_reads (source : Source E) (window : Bytes) (room : window ≠ [])
    (maxBytes maxReads : Nat) (env : E) (reader : SourceReader E)
    (reaches : Reaches source (sourceReaderInit window room maxBytes maxReads env) reader) :
    Spent source (sourceReaderInit window room maxBytes maxReads env) reader ∧
      (∀ offset length, let (result, after) := view source offset length reader
        Serves source reader after offset (offset + 1) ∧
          Views source reader after offset length result) ∧
      (∀ offset length, let (result, after) := copy source offset length reader
        Serves source reader after offset (offset + length) ∧
          Answers source reader after (fun i => offset ≤ i ∧ i < offset + length)
            (if length ≠ 0 ∧ source.bytes.length < offset + length then .error .argument
              else .ok (source.slice offset length)) result) ∧
      (∀ offset last maxValue, let (result, after) := derRead source offset last maxValue reader
        Serves source reader after offset last ∧
          Answers source reader after (HeaderNeeds source maxValue offset last)
            (derInMemory source.bytes offset last maxValue) result) ∧
      ∀ offset length after, view source offset length reader = (.error .error, after) →
        after.available = 0 ∧ after.window = List.replicate reader.window.length 0 := by
  have start : Valid source (sourceReaderInit window room maxBytes maxReads env) :=
    ⟨by simp [sourceReaderInit, Source.slice], Nat.zero_le _⟩
  obtain ⟨valid, spent⟩ := reaches.serves start
  exact ⟨spent, view_spec valid, copy_spec valid, derRead_spec valid,
    fun offset length after given => view_refused source given⟩

def sampleSource : Source Unit := ⟨[2, 1, 7], fun env _ _ => (true, env)⟩

def sampleReader : SourceReader Unit :=
  (Call.der 0 3 5).after sampleSource (sourceReaderInit [0] (by decide) 10 10 ())

/-- It is read again after a first call, through a window of one byte. -/
theorem windowed_reads_integer :
    Answers sampleSource sampleReader (derRead sampleSource 0 3 5 sampleReader).2
        (HeaderNeeds sampleSource 5 0 3) (derInMemory sampleSource.bytes 0 3 5)
        (derRead sampleSource 0 3 5 sampleReader).1 ∧
      derInMemory sampleSource.bytes 0 3 5 = .ok ⟨⟨1, 2, [2], 2, 0, false⟩, 0, 2, 3⟩ :=
  ⟨((windowed_reads sampleSource [0] (by decide) 10 10 () sampleReader
    (.call .start (.der 0 3 5))).2.2.2.1 0 3 5).2, by decide⟩

end TinyCrypto.Windowed
