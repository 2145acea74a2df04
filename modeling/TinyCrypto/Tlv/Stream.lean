import TinyCrypto.Tlv.Reader

/-! # The TLV stream

`tlv_walk.c`: an incremental decoder over chunks of input, with a frame for each
open constructed object, and the walk over one complete input. The build has
`TC_TLV_ENABLE_BER`; without it `tc_tlv_config` refuses the BER profile.
-/

namespace TinyCrypto.Tlv

/-- `TC_TLV_event_kind`. -/
inductive EventKind where
  | begin
  | value
  | close
  deriving DecidableEq

/-- `TC_TLV_event`. The header is there for BEGIN only. -/
structure Event where
  kind : EventKind
  offset : Nat
  depth : Nat
  header : Option ProfileHeader
  bytes : Bytes
  deriving DecidableEq

/-- `TC_TLV_frame`. -/
structure Frame where
  stop : Nat
  bound : Nat
  start : Nat
  indefinite : Bool
  resourceBound : Bool
  deriving DecidableEq

/-- `TC_TLV_stream`. `frames` are the open ones, the innermost first, and
    `header` the used bytes of the accumulator. -/
structure Stream where
  profile : Profile
  limits : Limits
  capacity : Nat
  frames : List Frame
  offset : Nat
  elements : Nat
  remaining : Nat
  error : Result
  header : Bytes
  primitive : Bool
  finished : Bool
  deriving DecidableEq

namespace Stream

/-- `fail`. -/
def fail (s : Stream) (result : Result) : Stream := { s with error := result }

/-- `bound`. -/
def bound (s : Stream) : Nat := match s.frames with
  | [] => s.limits.maxInput
  | frame :: _ => frame.bound

/-- `boundary_error`. -/
def boundaryError (s : Stream) : Result := match s.frames with
  | [] => .limit
  | frame :: _ => if frame.resourceBound then .limit else .invalid

/-- The loop of `close_definite`. -/
def closeFrames (offset : Nat) : List Frame → List Frame × List Event
  | [] => ([], [])
  | frame :: rest =>
    if !frame.indefinite && offset = frame.stop then
      let (frames, events) := closeFrames offset rest
      (frames, ⟨.close, offset, rest.length, none, []⟩ :: events)
    else (frame :: rest, [])

/-- `close_definite`, after the events `before`. -/
def closeDefinite (s : Stream) (before : List Event) : Stream × List Event :=
  let (frames, events) := closeFrames s.offset s.frames
  ({ s with frames }, before ++ events)

def close (s : Stream) (offset : Nat) (bytes : Bytes) (before : List Event) : Stream × List Event :=
  s.closeDefinite (before ++ [⟨.close, offset, s.frames.length, none, bytes⟩])

def deliver (s : Stream) (bytes : Bytes) : Stream × List Event :=
  let event : Event := ⟨.value, s.offset, s.frames.length, none, bytes⟩
  let s := { s with offset := s.offset + bytes.length, remaining := s.remaining - bytes.length }
  if s.remaining = 0 then close { s with primitive := false } s.offset [] [event]
  else (s, [event])

def frame (s : Stream) (h : ProfileHeader) : Frame := if h.indefinite then
    let available := s.bound - s.offset
    if available > 2 && s.limits.maxValue < available - 2 then
      { stop := 0, bound := s.offset + s.limits.maxValue + 2, start := s.offset,
        indefinite := true, resourceBound := true }
    else
      { stop := 0, bound := s.bound, start := s.offset, indefinite := true,
        resourceBound := s.boundaryError = .limit }
  else
    { stop := s.offset + h.length, bound := s.offset + h.length, start := s.offset,
      indefinite := false, resourceBound := false }

def enter (s : Stream) (h : ProfileHeader) (bytes : Bytes) : Stream × List Event :=
  if s.elements ≥ s.limits.maxElements then (s.fail .limit, [])
  else if h.length > s.bound - s.offset then (s.fail s.boundaryError, [])
  else if h.constructed &&
      (s.frames.length ≥ s.limits.maxDepth || s.frames.length ≥ s.capacity) then
    (s.fail .limit, [])
  else
    let event : Event := ⟨.begin, s.offset - s.header.length, s.frames.length, some h, bytes⟩
    let s := { s with elements := s.elements + 1, header := [] }
    if h.constructed then closeDefinite { s with frames := s.frame h :: s.frames } [event]
    else if h.length ≠ 0 then ({ s with remaining := h.length, primitive := true }, [event])
    else s.close s.offset [] [event]

def endOfContents (s : Stream) (bytes : Bytes) : Stream × List Event := match s.frames with
  | [] => (s.fail .invalid, [])
  | frame :: rest =>
    if s.profile ≠ .ber || !frame.indefinite then (s.fail .invalid, [])
    else if s.header.length = 1 then (s, [])
    else if s.header.getD 1 0 ≠ 0 then (s.fail .invalid, [])
    else if s.offset - 2 - frame.start > s.limits.maxValue then (s.fail .limit, [])
    else close { s with frames := rest, header := [] } (s.offset - 2) bytes []

section

variable (sizeT : Nat)

/-- One header byte. `view` gives the bytes of the accumulated header as the
    event borrows them. -/
def headerByte (view : Bytes → Bytes) (s : Stream) (b : UInt8) : Stream × List Event :=
  if s.header.length = tagBytes + 1 + sizeT then (s.fail .limit, [])
  else
    let s := { s with header := s.header ++ [b], offset := s.offset + 1 }
    if s.header.head? = some 0 then s.endOfContents (view s.header)
    else
      match headerParse sizeT s.profile s.limits.maxValue s.header with
      | .error .more => (s, [])
      | .error e => (s.fail e, [])
      | .ok h => s.enter h (view s.header)

/-- `header_bytes`, for a header that ended at chunk position `p`. -/
def headerBytes (chunk : Bytes) (p : Nat) (header : Bytes) : Bytes :=
  if header.length ≤ p then (chunk.drop (p - header.length)).take header.length else header

/-- One pass of the loop in `feed`: the next position in the chunk, and what the
    pass left. -/
def feedPass (chunk : Bytes) (p : Nat) (s : Stream) : Nat × Stream × List Event :=
  if s.offset ≥ s.bound then (p, s.fail s.boundaryError, [])
  else if s.primitive then
    let n := min (chunk.length - p) s.remaining
    if n > s.bound - s.offset then (p, s.fail s.boundaryError, [])
    else (p + n, s.deliver ((chunk.drop p).take n))
  else if s.frames.length = 0 && s.header.length = 0 && padding s.profile (chunk.getD p 0) then
    (p + 1, { s with offset := s.offset + 1 }, [])
  else (p + 1, s.headerByte sizeT (headerBytes chunk (p + 1)) (chunk.getD p 0))

/-- The loop of `feed`. A pass consumes a byte, so `passes` need not exceed the
    length of the chunk. -/
def feedLoop (chunk : Bytes) : (passes p : Nat) → Stream → Stream × List Event
  | 0, _, s => (s, [])
  | passes + 1, p, s =>
    if p < chunk.length then
      let (p, s, events) := feedPass sizeT chunk p s
      if s.error ≠ .ok then (s, events)
      else
        let (s, later) := feedLoop chunk passes p s
        (s, events ++ later)
    else (s, [])

def unfinished (s : Stream) : Bool := s.header ≠ [] || s.primitive || s.frames ≠ []

/-- `feed`. -/
def feed (s : Stream) (chunk : Bytes) : Result × Stream × List Event :=
  if s.error ≠ .ok then (s.error, s, [])
  else if s.finished then (.argument, s, [])
  else if s.offset > s.limits.maxInput || chunk.length > s.limits.maxInput - s.offset then
    (.limit, s.fail .limit, [])
  else
    let (s, events) := feedLoop sizeT chunk chunk.length 0 s
    if s.error ≠ .ok then (s.error, s, events)
    else if s.unfinished then (.more, s, events)
    else (.ok, s, events)

end

/-- `finish`. -/
def finish (s : Stream) : Result × Stream := if s.error ≠ .ok then (s.error, s)
  else if s.unfinished then (.invalid, s.fail .invalid)
  else (.ok, { s with finished := true })

end Stream

/-- `tc_tlv_config`, for a known profile. -/
def config (ber : Bool) (profile : Profile) : Result :=
  if profile = .ber && !ber then .unsupported else .ok

/-- A stream that `initialize` just set up. -/
def Stream.fresh (profile : Profile) (limits : Limits) (capacity : Nat) : Stream where
  profile := profile
  limits := limits
  capacity := capacity
  frames := []
  offset := 0
  elements := 0
  remaining := 0
  error := .ok
  header := []
  primitive := false
  finished := false

/-- `initialize`. `ber` is `TC_TLV_ENABLE_BER`. -/
def streamInit (ber : Bool) (profile : Profile) (limits : Limits) (capacity : Nat) :
    Except Result Stream :=
  match config ber profile with
  | .ok => .ok (Stream.fresh profile limits capacity)
  | failure => .error failure

/-- `TC_TLV_walk`: its result and the events it emits. -/
def walk (ber : Bool) (sizeT : Nat) (profile : Profile) (limits : Limits) (capacity : Nat)
    (input : Bytes) : Result × List Event :=
  match streamInit ber profile limits capacity with
  | .error e => (e, [])
  | .ok s =>
    let (result, s, events) := s.feed sizeT input
    if result ≠ .ok && result ≠ .more then (result, events) else (s.finish.1, events)

end TinyCrypto.Tlv
