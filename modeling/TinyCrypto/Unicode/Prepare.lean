import TinyCrypto.Common.Bytes
import TinyCrypto.Library.Metered

/-! # ASN.1 strings

`tc_asn1_string_next`: one scalar from the rest of a string.
-/

namespace TinyCrypto.Unicode

/-- `string_tag`. -/
def stringTag (tag : Nat) : Bool :=
  tag = 0x0c || tag = 0x13 || tag = 0x16 || tag = 0x1a || tag = 0x1c || tag = 0x1e

/-- A first octet of UTF-8: the octets after it, the least scalar that needs them, and the
    bits it holds. -/
def utf8Lead (code : Nat) : Option (Nat × Nat × Nat) := if code < 128 then some (0, 0, code)
  else if code ≥ 0xc2 && code ≤ 0xdf then some (1, 128, code % 32)
  else if code ≥ 0xe0 && code ≤ 0xef then some (2, 2048, code % 16)
  else if code ≥ 0xf0 && code ≤ 0xf4 then some (3, 65536, code % 8)
  else none

def utf8Rest : (code : Nat) → Bytes → Option Nat
  | code, [] => some code
  | code, b :: rest => if b.toNat / 64 ≠ 2 then none else utf8Rest (code * 64 + b.toNat % 64) rest

def printable (code : Nat) : Bool :=
  (code ≥ 0x41 && code ≤ 0x5a) || (code ≥ 0x61 && code ≤ 0x7a) || (code ≥ 0x30 && code ≤ 0x39) ||
    code = 0x20 || code = 0x27 || code = 0x28 || code = 0x29 || code = 0x2b || code = 0x2c ||
    code = 0x2d || code = 0x2e || code = 0x2f || code = 0x3a || code = 0x3d || code = 0x3f

/-- The scalar at the start of a string and the octets it takes, before its range is checked. -/
def stringCode (tag : Nat) (first : UInt8) (rest : Bytes) : Except Result (Nat × Nat) :=
  if tag = 0x0c then
    match utf8Lead first.toNat with
    | none => .error .invalid
    | some (extra, minimum, code) =>
      if extra > rest.length then .error .more
      else
        match utf8Rest code (rest.take extra) with
        | none => .error .invalid
        | some code => if code < minimum then .error .invalid else .ok (code, extra + 1)
  else if tag = 0x1e || tag = 0x1c then
    let width := if tag = 0x1e then 2 else 4
    if width > rest.length + 1 then .error .more
    else .ok (((first :: rest).take width).foldl (fun code b => code * 256 + b.toNat) 0, width)
  else
    let code := first.toNat
    if tag = 0x13 then if printable code then .ok (code, 1) else .error .invalid
    else if tag = 0x1a then
      if code < 0x20 || code > 0x7e then .error .invalid else .ok (code, 1)
    else if code > 127 then .error .invalid
    else .ok (code, 1)

def scalarOk (code : Nat) : Bool := !(code > 0x10ffff || (code ≥ 0xd800 && code ≤ 0xdfff))

/-- `string_next`: the scalar and the octets after it. -/
def stringRead (tag : Nat) (input : Bytes) : Except Result (Nat × Bytes) :=
  if !stringTag tag then .error .invalid
  else
    match input with
    | [] => .error .end
    | first :: rest =>
      match stringCode tag first rest with
      | .error e => .error e
      | .ok (code, width) =>
        if scalarOk code then .ok (code, (first :: rest).drop width) else .error .invalid

/-- `tc_asn1_string_next`. -/
def stringNext (tag : Nat) (input : Bytes) : Except Result (Nat × Bytes) :=
  match stringRead tag input with
  | .error .more => .error .invalid
  | outcome => outcome

theorem stringCode_width {tag : Nat} {first : UInt8} {rest : Bytes} {code width : Nat}
    (given : stringCode tag first rest = .ok (code, width)) : 0 < width := by
  unfold stringCode at given
  split at given
  · split at given
    · cases given
    · split at given
      · cases given
      · split at given
        · cases given
        · split at given
          · cases given
          · cases given
            omega
  · split at given
    · have pos : 0 < if tag = 0x1e then 2 else 4 := by split <;> omega
      dsimp only at given
      generalize (if tag = 0x1e then 2 else 4) = unit at *
      split at given
      · cases given
      · cases given
        exact pos
    · dsimp only at given
      split at given
      · split at given <;> cases given
        omega
      · split at given
        · split at given <;> cases given
          omega
        · split at given <;> cases given
          omega

theorem stringNext_shorter {tag : Nat} {input rest : Bytes} {point : Nat}
    (given : stringNext tag input = .ok (point, rest)) : rest.length < input.length := by
  have read : stringRead tag input = .ok (point, rest) := by
    unfold stringNext at given
    split at given
    · cases given
    · exact given
  unfold stringRead at read
  split at read
  · cases read
  · cases input with
    | nil => cases read
    | cons first tail =>
      dsimp only at read
      split at read
      · cases read
      · rename_i code width coded
        have pos := stringCode_width coded
        split at read
        · cases read
          rw [List.length_drop, List.length_cons]
          omega
        · cases read

open Library Library.Program Library.Metered

/-- `unicode_data.inc`. -/
structure Tables where
  decompositionKeys : Array Nat
  decompositionOffsets : Array Nat
  decompositionLengths : Array Nat
  decompositionPool : Array Nat
  classKeys : Array Nat
  classValues : Array Nat
  compositionFirst : Array Nat
  compositionSecond : Array Nat
  compositionValues : Array Nat
  foldingKeys : Array Nat
  foldingOffsets : Array Nat
  foldingLengths : Array Nat
  foldingPool : Array Nat
  allowedStarts : Array Nat
  allowedEnds : Array Nat
  marksStarts : Array Nat
  marksEnds : Array Nat

/-- The loop of a binary search: the first place in `[low, high)` that is not below. -/
def searchFrom (below : Nat → Bool) : (passes low high : Nat) → Nat
  | 0, low, _ => low
  | passes + 1, low, high =>
    if low < high then
      let middle := low + (high - low) / 2
      if below middle then searchFrom below passes (middle + 1) high
      else searchFrom below passes low middle
    else low

/-- `SEARCH`. -/
def search (table : Array Nat) (point : Nat) : Nat :=
  searchFrom (fun middle => table.getD middle 0 < point) table.size 0 table.size

def keyed (keys : Array Nat) (point : Nat) : Bool :=
  search keys point < keys.size && keys.getD (search keys point) 0 = point

/-- The values from `offset` on in a pool. -/
def pooled (pool : Array Nat) (offset count : Nat) : List Nat :=
  (List.range count).map fun i => pool.getD (offset + i) 0

section

variable (t : Tables)

/-- `tc_unicode_allowed`. -/
def allowed (point : Nat) : Bool :=
  let index := search t.allowedEnds point
  index < t.allowedStarts.size && t.allowedStarts.getD index 0 ≤ point

/-- `tc_unicode_mark`. -/
def mark (point : Nat) : Bool :=
  let index := search t.marksEnds point
  index < t.marksStarts.size && t.marksStarts.getD index 0 ≤ point

def mapsToSpace (point : Nat) : Bool :=
  (point ≥ 9 && point ≤ 13) || point = 0x85 || point = 0x20 || point = 0xa0 || point = 0x1680 ||
    (point ≥ 0x2000 && point ≤ 0x200a) || point = 0x2028 || point = 0x2029 || point = 0x202f ||
    point = 0x205f || point = 0x3000

def mapsToNothing (point : Nat) : Bool :=
  point < 0x20 || (point ≥ 0x7f && point ≤ 0x9f) || point = 0xad || point = 0x34f ||
    point = 0x6dd || point = 0x70f || point = 0x1806 || (point ≥ 0x180b && point ≤ 0x180e) ||
    (point ≥ 0x200b && point ≤ 0x200f) || (point ≥ 0x202a && point ≤ 0x202e) ||
    (point ≥ 0x2060 && point ≤ 0x2063) || (point ≥ 0x206a && point ≤ 0x206f) ||
    (point ≥ 0xfe00 && point ≤ 0xfe0f) || point = 0xfeff ||
    (point ≥ 0xfff9 && point ≤ 0xfffc) || (point ≥ 0x1d173 && point ≤ 0x1d17a) ||
    point = 0xe0001 || (point ≥ 0xe0020 && point ≤ 0xe007f)

/-- `tc_unicode_map`. -/
def map (point : Nat) : List Nat := if mapsToSpace point then [0x20]
  else if mapsToNothing point then []
  else if keyed t.foldingKeys point then
    let index := search t.foldingKeys point
    pooled t.foldingPool (t.foldingOffsets.getD index 0) (t.foldingLengths.getD index 0)
  else [point]

/-- `combining_class`. -/
def combiningClass (point : Nat) : Nat :=
  if keyed t.classKeys point then t.classValues.getD (search t.classKeys point) 0 else 0

/-- `composition`. -/
def composition (first second : Nat) : Nat :=
  if first ≥ 0x1100 && first < 0x1113 && second ≥ 0x1161 && second < 0x1176 then
    0xac00 + (first - 0x1100) * 588 + (second - 0x1161) * 28
  else if first ≥ 0xac00 && first < 0xd7a4 && (first - 0xac00) % 28 = 0 && second > 0x11a7 &&
      second < 0x11c3 then
    first + second - 0x11a7
  else
    let size := t.compositionFirst.size
    let low := searchFrom (fun middle =>
      let a := t.compositionFirst.getD middle 0
      let b := t.compositionSecond.getD middle 0
      a < first || (a = first && b < second)) size 0 size
    if low < size && t.compositionFirst.getD low 0 = first &&
        t.compositionSecond.getD low 0 = second then
      t.compositionValues.getD low 0
    else 0

/-- What `decompose` appends for a point. -/
def decomposition (point : Nat) : List Nat := if point ≥ 0xac00 && point < 0xd7a4 then
    let syllable := point - 0xac00
    let hangul := [0x1100 + syllable / 588, 0x1161 + syllable % 588 / 28, 0x11a7 + syllable % 28]
    hangul.take (if syllable % 28 ≠ 0 then 3 else 2)
  else if keyed t.decompositionKeys point then
    let index := search t.decompositionKeys point
    pooled t.decompositionPool (t.decompositionOffsets.getD index 0)
      (t.decompositionLengths.getD index 0)
  else [point]

variable {D : Type}

structure Storage where
  points : List Nat
  used : Nat
  deriving DecidableEq

/-- The loop of `append`: the place that it frees. -/
def shiftUp (combining : Nat) : (offset : Nat) → List Nat → Metered Result D (Nat × List Nat)
  | 0, storage => pure (0, storage)
  | offset + 1, storage =>
    if combiningClass t (storage.getD offset 0) > combining then do
      charge .limit 1
      shiftUp combining offset (storage.set (offset + 1) (storage.getD offset 0))
    else pure (offset + 1, storage)

/-- `append`. -/
def append (point : Nat) (storage : Storage) : Metered Result D Storage := do
  let combining := combiningClass t point
  if storage.used = storage.points.length then throw .limit
  else
    charge .limit 1
    let (offset, points) ←
      if combining ≠ 0 then shiftUp t combining storage.used storage.points
      else pure (storage.used, storage.points)
    return ⟨points.set offset point, storage.used + 1⟩

/-- The loop of `decompose`. -/
def appendAll : List Nat → Storage → Metered Result D Storage
  | [], storage => pure storage
  | child :: rest, storage => do
    let storage ← append t child storage
    appendAll rest storage

/-- `decompose`. -/
def decompose (point : Nat) (storage : Storage) : Metered Result D Storage := do
  charge .limit 1
  if !scalarOk point then throw .invalid
  else appendAll t (decomposition t point) storage

/-- The variables of `recompose`. -/
structure Composing where
  points : List Nat
  output : Nat
  starter : Option Nat
  previousClass : Nat
  deriving DecidableEq

/-- One point of `recompose`. -/
def recomposeStep (state : Composing) (i : Nat) : Composing :=
  let point := state.points.getD i 0
  let combining := combiningClass t point
  let keep : Composing := ⟨state.points.set state.output point, state.output + 1,
      if combining = 0 then some state.output else state.starter, combining⟩
  match state.starter with
  | none => keep
  | some starter =>
    if state.previousClass = 0 || state.previousClass < combining then
      let composite := composition t (state.points.getD starter 0) point
      if composite ≠ 0 then { state with points := state.points.set starter composite } else keep
    else keep

/-- The loop of `recompose`. -/
def recomposeLoop : (i count : Nat) → Composing → Metered Result D Composing
  | _, 0, state => pure state
  | i, count + 1, state => do
    charge .limit 1
    recomposeLoop (i + 1) count (recomposeStep t state i)

/-- `recompose`. -/
def recompose (storage : Storage) : Metered Result D Storage := do
  let state ← recomposeLoop t 0 storage.used ⟨storage.points, 0, none, 0⟩
  return ⟨state.points, state.output⟩

/-- The points of `tc_unicode_nfkc`. -/
def decomposeAll : List Nat → Storage → Metered Result D Storage
  | [], storage => pure storage
  | point :: rest, storage => do
    let storage ← decompose t point storage
    decomposeAll rest storage

/-- The variables of the first loop of `tc_unicode_finish_name`. -/
structure Compacting where
  points : List Nat
  compacted : Nat
  spaces : Nat
  pending : Bool
  deriving DecidableEq

def compactStep (length : Nat) (state : Compacting) (i : Nat) : Compacting :=
  let point := state.points.getD i 0
  if point = 0x20 && (i + 1 = length || !mark t (state.points.getD (i + 1) 0)) then
    { state with pending := true }
  else
    let spaced : Compacting := if state.pending && state.compacted ≠ 0 then
        { state with
          points := state.points.set state.compacted 0x20
          compacted := state.compacted + 1
          spaces := state.spaces + 1 }
      else state
    ⟨spaced.points.set spaced.compacted point, spaced.compacted + 1, spaced.spaces, false⟩

/-- The first loop of `tc_unicode_finish_name`. -/
def compactLoop (length : Nat) : (i count : Nat) → Compacting → Metered Result D Compacting
  | _, 0, state => pure state
  | i, count + 1, state => do
    charge .limit 1
    if !allowed t (state.points.getD i 0) then throw .invalid
    else compactLoop length (i + 1) count (compactStep t length state i)

/-- The variables of the second loop of `tc_unicode_finish_name`. -/
structure Expanding where
  offset : Nat
  next : Nat
  points : List Nat
  deriving DecidableEq

def copies (point next : Nat) : Nat := if point = 0x20 && !mark t next then 2 else 1

/-- `buffer[--offset] = point`, so many times. -/
def writeDown (point : Nat) : (count offset : Nat) → List Nat → Nat × List Nat
  | 0, offset, points => (offset, points)
  | count + 1, offset, points => writeDown point count (offset - 1) (points.set (offset - 1) point)

def expandStep (state : Expanding) (i : Nat) : Expanding :=
  let point := state.points.getD i 0
  let written := writeDown point (copies t point state.next) state.offset state.points
  ⟨written.1, point, written.2⟩

/-- The second loop of `tc_unicode_finish_name`, from the end. -/
def expandLoop : (i : Nat) → Expanding → Metered Result D (List Nat)
  | 0, state => pure state.points
  | i + 1, state => do
    charge .limit (copies t (state.points.getD i 0) state.next)
    expandLoop i (expandStep t state i)

/-- `tc_unicode_finish_name`. -/
def finishName (storage : Storage) : Metered Result D (List Nat) := do
  let capacity := storage.points.length
  let state ← compactLoop t storage.used 0 storage.used ⟨storage.points, 0, 0, false⟩
  if capacity < 2 || state.compacted > capacity - 2 ||
      state.spaces > capacity - 2 - state.compacted then
    throw .limit
  else
    let required := state.compacted + state.spaces + 2
    charge .limit 1
    let points ← expandLoop t state.compacted
      ⟨required - 1, 0, state.points.set (required - 1) 0x20⟩
    charge .limit 1
    return (points.set 0 0x20).take required

/-- `tc_unicode_prepare_point`. -/
def preparePoint (point : Nat) (storage : Storage) : Metered Result D Storage :=
  decomposeAll t (map t point) storage

/-- `tc_unicode_prepare_point`, for each point. -/
def preparePoints : List Nat → Storage → Metered Result D Storage
  | [], storage => pure storage
  | point :: rest, storage => do
    let storage ← preparePoint t point storage
    preparePoints rest storage

/-- `tc_unicode_prepare_finish`. -/
def prepareFinish (storage : Storage) : Metered Result D (List Nat) := do
  let storage ← recompose t storage
  finishName t storage

def prepareScalars (points storage : List Nat) : Metered Result D (List Nat) := do
  let storage ← preparePoints t points ⟨storage, 0⟩
  prepareFinish t storage

/-- The loop of `tc_unicode_prepare`. -/
def prepareLoop (tag : Nat) (input : Bytes) (storage : Storage) : Metered Result D Storage := do
  charge .limit (if input = [] then 0 else 1)
  match read : stringNext tag input with
  | .error .end => return storage
  | .error e => throw e
  | .ok (point, rest) =>
    have _shorter := stringNext_shorter read
    let storage ← preparePoint t point storage
    prepareLoop tag rest storage
termination_by input.length

/-- `tc_unicode_prepare`, into a buffer. -/
def prepare (tag : Nat) (input : Bytes) (storage : List Nat) : Metered Result D (List Nat) := do
  let storage ← prepareLoop t tag input ⟨storage, 0⟩
  prepareFinish t storage

end

variable {t : Tables} {D : Type}

theorem limit_supported (amount : Nat) :
    Excludes .unsupported (charge .limit amount : Metered Result D Unit) :=
  .of_charge (by decide) amount

theorem shiftUp_supported (combining offset : Nat) (points : List Nat) :
    Excludes .unsupported (shiftUp t combining offset points : Metered Result D (Nat × List Nat)) := by
  induction offset generalizing points with
  | zero => exact .of_pure _
  | succ offset ih =>
    rw [shiftUp]
    split
    · exact (limit_supported 1).bind fun _ => ih _
    · exact .of_pure _

theorem append_supported (point : Nat) (storage : Storage) :
    Excludes .unsupported (append t point storage : Metered Result D Storage) := by
  rw [append]
  dsimp only
  split
  · exact .of_throw (by decide)
  · refine (limit_supported 1).bind fun _ => ?_
    split
    · exact (shiftUp_supported _ _ _).bind fun _ => .of_pure _
    · exact (Excludes.of_pure _).bind fun _ => .of_pure _

theorem appendAll_supported (children : List Nat) (storage : Storage) :
    Excludes .unsupported (appendAll t children storage : Metered Result D Storage) := by
  induction children generalizing storage with
  | nil => exact .of_pure _
  | cons child rest ih => exact (append_supported child storage).bind fun _ => ih _

theorem decomposeAll_supported (points : List Nat) (storage : Storage) :
    Excludes .unsupported (decomposeAll t points storage : Metered Result D Storage) := by
  induction points generalizing storage with
  | nil => exact .of_pure _
  | cons point rest ih =>
    refine Excludes.bind ?_ fun _ => ih _
    refine (limit_supported 1).bind fun _ => ?_
    split
    · exact .of_throw (by decide)
    · exact appendAll_supported _ _

theorem recomposeLoop_supported (i count : Nat) (state : Composing) :
    Excludes .unsupported (recomposeLoop t i count state : Metered Result D Composing) := by
  induction count generalizing i state with
  | zero => exact .of_pure _
  | succ count ih => exact (limit_supported 1).bind fun _ => ih _ _

theorem compactLoop_supported (length i count : Nat) (state : Compacting) :
    Excludes .unsupported (compactLoop t length i count state : Metered Result D Compacting) := by
  induction count generalizing i state with
  | zero => exact .of_pure _
  | succ count ih =>
    refine (limit_supported 1).bind fun _ => ?_
    split
    · exact .of_throw (by decide)
    · exact ih _ _

theorem expandLoop_supported (i : Nat) (state : Expanding) :
    Excludes .unsupported (expandLoop t i state : Metered Result D (List Nat)) := by
  induction i generalizing state with
  | zero => exact .of_pure _
  | succ i ih => exact (limit_supported _).bind fun _ => ih _

theorem prepareFinish_supported (storage : Storage) :
    Excludes .unsupported (prepareFinish t storage : Metered Result D (List Nat)) := by
  refine Excludes.bind ((recomposeLoop_supported _ _ _).bind fun _ => .of_pure _) fun storage => ?_
  refine (compactLoop_supported _ _ _ _).bind fun state => ?_
  split
  · exact .of_throw (by decide)
  · refine (limit_supported 1).bind fun _ => ?_
    refine (expandLoop_supported _ _).bind fun _ => ?_
    exact (limit_supported 1).bind fun _ => .of_pure _

theorem stringCode_supported (tag : Nat) (first : UInt8) (rest : Bytes) :
    stringCode tag first rest ≠ .error .unsupported := by
  unfold stringCode
  split
  · split
    · nofun
    · split
      · nofun
      · split
        · nofun
        · split <;> nofun
  · split
    · dsimp only
      generalize (if tag = 0x1e then 2 else 4) = width
      split <;> nofun
    · dsimp only
      split
      · split <;> nofun
      · split
        · split <;> nofun
        · split <;> nofun

theorem stringRead_supported (tag : Nat) (input : Bytes) :
    stringRead tag input ≠ .error .unsupported := by
  unfold stringRead
  split
  · nofun
  · cases input with
    | nil => nofun
    | cons first rest =>
      dsimp only
      split
      · rename_i inner
        intro failed
        cases failed
        exact stringCode_supported _ _ _ inner
      · split <;> nofun

theorem stringNext_supported (tag : Nat) (input : Bytes) :
    stringNext tag input ≠ .error .unsupported := by
  unfold stringNext
  split
  · nofun
  · exact stringRead_supported tag input

theorem prepareLoop_supported (tag : Nat) (input : Bytes) (storage : Storage) :
    Excludes .unsupported (prepareLoop t tag input storage : Metered Result D Storage) := by
  induction size : input.length using Nat.strong_induction_on generalizing input storage with
  | _ size ih =>
    rw [prepareLoop]
    refine (limit_supported _).bind fun _ => ?_
    split
    · exact .of_pure _
    · rename_i e _ failed
      refine .of_throw ?_
      rintro rfl
      exact stringNext_supported tag input failed
    · rename_i point rest next
      refine (decomposeAll_supported _ _).bind fun storage => ?_
      exact ih rest.length (by rw [← size]; exact stringNext_shorter next) rest storage rfl

theorem prepare_supported (tag : Nat) (input : Bytes) (buffer : List Nat) :
    Excludes .unsupported (prepare t tag input buffer : Metered Result D (List Nat)) :=
  (prepareLoop_supported _ _ _).bind fun _ => prepareFinish_supported _

end TinyCrypto.Unicode
