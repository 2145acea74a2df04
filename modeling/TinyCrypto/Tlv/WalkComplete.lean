import TinyCrypto.Tlv.WalkSound
import TinyCrypto.Tlv.StreamChunks

/-! # The walk accepts what is well formed

A stream between objects runs over the encoding of a tree and stands after it,
with the frames closed that end there, and its BEGIN and CLOSE events are the
traversal of the tree.
-/

namespace TinyCrypto.Tlv

def framing (events : List Event) : List Event := events.filter fun e => e.kind ≠ .value

@[simp] theorem framing_append (first second : List Event) :
    framing (first ++ second) = framing first ++ framing second :=
  List.filter_append ..

theorem framing_of_no_value {events : List Event} (plain : ∀ e ∈ events, e.kind ≠ .value) :
    framing events = events :=
  List.filter_eq_self.mpr fun e member => by simpa using plain e member

theorem framing_cut {event : Event} (value : event.kind = .value) (offset : Nat) (bytes : Bytes) :
    framing (event.cut offset bytes) = [] := by
  induction bytes generalizing offset with
  | nil => rfl
  | cons b rest ih =>
    rw [Event.cut]
    change framing ([_] ++ event.cut (offset + 1) rest) = []
    rw [framing_append, ih, List.append_nil]
    simp [framing, value]

theorem framing_splits (events : List Event) : framing (splits events) = framing events := by
  induction events with
  | nil => rfl
  | cons e rest ih =>
    change framing (e.split ++ splits rest) = framing ([e] ++ rest)
    rw [framing_append, framing_append, ih]
    congr 1
    by_cases value : e.kind = .value
    · rw [Event.split, if_pos value, framing_cut value]
      simp [framing, value]
    · rw [Event.split, if_neg value]

mutual

/-- The events of a run over an object: those of its traversal, and each byte of a value. -/
def Tree.delivered (offset depth : Nat) : Tree → List Event
  | .primitive h head value =>
    ⟨.begin, offset, depth, some h, head⟩ ::
      (Event.cut ⟨.value, offset + head.length, depth, none, value⟩ (offset + head.length) value ++
        [⟨.close, offset + head.length + value.length, depth, none, []⟩])
  | .constructed h head children =>
    ⟨.begin, offset, depth, some h, head⟩ ::
      (deliveredAll (offset + head.length) (depth + 1) children ++
        [⟨.close, offset + head.length + (encodeAll children).length, depth, none, endOctets h⟩])

def deliveredAll (offset depth : Nat) : List Tree → List Event
  | [] => []
  | t :: rest => t.delivered offset depth ++ deliveredAll (offset + t.encode.length) depth rest

end

theorem framing_begin (e : Event) (kind : e.kind ≠ .value) (events : List Event) :
    framing (e :: events) = e :: framing events :=
  List.filter_cons_of_pos (by simpa using kind)

mutual

theorem framing_delivered (offset depth : Nat) : (t : Tree) →
    framing (t.delivered offset depth) = t.events offset depth
  | .primitive h head value => by
    rw [Tree.delivered, framing_begin _ (by simp), framing_append, framing_cut rfl, Tree.events]
    rfl
  | .constructed h head children => by
    rw [Tree.delivered, framing_begin _ (by simp), framing_append, framing_deliveredAll, Tree.events]
    rfl

theorem framing_deliveredAll (offset depth : Nat) : (trees : List Tree) →
    framing (deliveredAll offset depth trees) = eventsAll offset depth trees
  | [] => rfl
  | t :: rest => by
    rw [deliveredAll, framing_append, framing_delivered, framing_deliveredAll, eventsAll]

end

namespace Stream

structure Idle (s : Stream) : Prop where
  error : s.error = .ok
  header : s.header = []
  primitive : s.primitive = false
  remaining : s.remaining = 0

/-- After `size` more bytes with `count` more objects. -/
def advance (s : Stream) (size count : Nat) : Stream :=
  { s with offset := s.offset + size, elements := s.elements + count }

/-- Room for `size` bytes with `count` objects and `height` nested levels. -/
structure Room (s : Stream) (size count height : Nat) : Prop where
  size : s.offset + size ≤ s.bound
  count : s.elements + count ≤ s.limits.maxElements
  depth : s.frames.length + height ≤ s.limits.maxDepth
  capacity : s.frames.length + height ≤ s.capacity

/-- The stream runs over `bytes`, and stands `size` bytes and `count` objects
    further with the frames closed that end there. -/
structure Runs (sizeT : Nat) (s : Stream) (bytes : Bytes) (count : Nat) (events : List Event) :
    Prop where
  stream : (run sizeT s bytes).1 = ((s.advance bytes.length count).closeDefinite []).1
  events : framing (run sizeT s bytes).2 =
    events ++ (closeFrames (s.offset + bytes.length) s.frames).2

variable {sizeT : Nat} {s : Stream} {h : ProfileHeader} {head : Bytes}

theorem unpadded {profile : Profile} {b : UInt8} (nonzero : b ≠ 0)
    (iso : ¬ (profile.iso = true ∧ b = 0xff)) : padding profile b = false := by
  cases profile <;> simp_all [padding, Profile.iso]

theorem byteStep_header {b : UInt8} (ok : s.error = .ok) (early : s.offset < s.bound)
    (fresh : s.primitive = false)
    (unpadded : ¬ (decide (s.frames.length = 0) && decide (s.header.length = 0) &&
      padding s.profile b) = true) : s.byteStep sizeT b = s.headerByte sizeT id b := by
  rw [byteStep, if_neg (not_not.mpr ok), if_neg (Nat.not_le.mpr early), if_neg (by simp [fresh]),
    if_neg unpadded]

theorem header_byte_step (idle : s.Idle)
    (valid : ValidHeader sizeT s.profile s.limits.maxValue head h)
    (room : s.offset + head.length ≤ s.bound) (count : Nat) (part : count < head.length) :
    byteStep sizeT { s with header := head.take count, offset := s.offset + count }
        (head.get ⟨count, part⟩) =
      if count + 1 < head.length then
        ({ s with header := head.take (count + 1), offset := s.offset + (count + 1) }, [])
      else enter { s with header := head, offset := s.offset + head.length } h head := by
  obtain ⟨first, rest, shape, nonzero, iso⟩ := valid.first
  have size := valid.size
  have early : s.offset + count < s.bound := by omega
  have unpadded : ¬ (decide (s.frames.length = 0) && decide ((head.take count).length = 0) &&
      padding s.profile (head.get ⟨count, part⟩)) = true := by
    cases count with
    | zero =>
      have byte : head.get ⟨0, part⟩ = first := by simp [shape]
      rw [byte, unpadded nonzero iso]
      simp
    | succ count =>
      have full : (head.take (count + 1)).length ≠ 0 := by
        rw [List.length_take]
        omega
      simp only [decide_eq_false full, Bool.and_false, Bool.false_and]
      decide
  have pushed : head.take count ++ [head.get ⟨count, part⟩] = head.take (count + 1) :=
    List.take_append_getElem part
  have short : ¬ (head.take count).length = tagBytes + 1 + sizeT := by
    rw [List.length_take]
    omega
  have nonzero' : ¬ (head.take (count + 1)).head? = some 0 := by
    rw [shape]
    simpa using nonzero
  rw [@byteStep_header sizeT
    { s with header := head.take count, offset := s.offset + count } _ idle.error early
    idle.primitive unpadded, headerByte]
  simp only
  rw [if_neg short, pushed, if_neg nonzero']
  by_cases more : count + 1 < head.length
  · rw [if_pos more, headerParse_part valid more]
    rfl
  · have all : count + 1 = head.length := by omega
    have whole := headerParse_valid valid []
    rw [List.append_nil] at whole
    rw [if_neg more, all, List.take_length, whole, ← all]
    rfl

theorem header_part_run (idle : s.Idle)
    (valid : ValidHeader sizeT s.profile s.limits.maxValue head h)
    (room : s.offset + head.length ≤ s.bound) (count : Nat) (part : count < head.length) :
    run sizeT s (head.take count) =
      ({ s with header := head.take count, offset := s.offset + count }, []) := by
  induction count with
  | zero =>
    have same : s = { s with header := [], offset := s.offset + 0 } := by
      rw [← idle.header]
      rfl
    rw [List.take_zero]
    exact Prod.ext same rfl
  | succ count ih =>
    have before : count < head.length := by omega
    have pushed : head.take (count + 1) = head.take count ++ [head.get ⟨count, before⟩] :=
      (List.take_append_getElem before).symm
    rw [pushed, run_append, ih before, run_cons, header_byte_step idle valid room count before,
      if_pos part, pushed]
    rfl

theorem header_run (idle : s.Idle) (valid : ValidHeader sizeT s.profile s.limits.maxValue head h)
    (room : s.offset + head.length ≤ s.bound) : run sizeT s head =
      enter { s with header := head, offset := s.offset + head.length } h head := by
  have size := valid.size
  have last : head.length - 1 < head.length := by omega
  have parts : head.take (head.length - 1) ++ [head.get ⟨head.length - 1, last⟩] = head := by
    refine (List.take_append_getElem last).trans ?_
    rw [Nat.sub_add_cancel size.1, List.take_length]
  have ran := @run_append sizeT (head.take (head.length - 1)) [head.get ⟨head.length - 1, last⟩] s
  rw [parts, header_part_run idle valid room _ last, run_cons,
    header_byte_step idle valid room _ last, if_neg (by omega)] at ran
  rw [ran]
  simp [run]

theorem enter_eq {bytes : Bytes} (few : s.elements < s.limits.maxElements)
    (fits : s.offset + h.length ≤ s.bound) (shallow : h.constructed = true →
      s.frames.length < s.limits.maxDepth ∧ s.frames.length < s.capacity) : s.enter h bytes =
      let event : Event := ⟨.begin, s.offset - s.header.length, s.frames.length, some h, bytes⟩
      if h.constructed then
        closeDefinite { s with
          elements := s.elements + 1, header := [], frames := s.frame h :: s.frames } [event]
      else if h.length ≠ 0 then
        ({ s with
            elements := s.elements + 1, header := [], remaining := h.length, primitive := true },
          [event])
      else close { s with elements := s.elements + 1, header := [] } s.offset [] [event] := by
  have shallow' : ¬ (h.constructed && (decide (s.frames.length ≥ s.limits.maxDepth) ||
      decide (s.frames.length ≥ s.capacity))) = true := by
    simp only [Bool.and_eq_true, Bool.or_eq_true, decide_eq_true_eq, not_and, not_or, Nat.not_le]
    exact shallow
  rw [enter, if_neg (by omega), if_neg (by omega), if_neg shallow']
  rfl

/-- The stream runs over `bytes` with `count` objects and these events, and closes the frames
    that end there. -/
def Delivers (sizeT : Nat) (s : Stream) (bytes : Bytes) (count : Nat) (events : List Event) :
    Prop :=
  run sizeT s bytes = (s.advance bytes.length count).closeDefinite events

theorem closeDefinite_append (before events : List Event) :
    ((s.closeDefinite events).1, before ++ (s.closeDefinite events).2) =
      s.closeDefinite (before ++ events) := by
  rw [closeDefinite_eq, closeDefinite_eq, List.append_assoc]

theorem primitive_delivers {value : Bytes} (idle : s.Idle)
    (valid : ValidHeader sizeT s.profile s.limits.maxValue head h)
    (plain : h.constructed = false) (size : value.length = h.length)
    (room : s.Room (head ++ value).length 1 0) : Delivers sizeT s (head ++ value) 1
      (Tree.delivered s.offset s.frames.length (.primitive h head value)) := by
  have fits := room.size
  have few := room.count
  rw [List.length_append] at fits
  have entered := @enter_eq { s with header := head, offset := s.offset + head.length } h head few
    (by change s.offset + head.length + h.length ≤ s.bound; omega)
    (fun constructed => absurd (plain.symm.trans constructed) (by decide))
  have start : s.offset + head.length - head.length = s.offset := Nat.add_sub_cancel ..
  rw [if_neg (by simp [plain]), start] at entered
  by_cases empty : h.length = 0
  · have none : value = [] := List.length_eq_zero_iff.mp (size.trans empty)
    rw [if_neg (not_not.mpr empty)] at entered
    subst none
    rw [Delivers, List.append_nil, header_run idle valid (by omega), entered]
    simp only [close, advance, idle.header]
    rfl
  · have full : value ≠ [] := by
      rintro rfl
      exact empty size.symm
    rw [if_pos empty] at entered
    have ran := (header_run idle valid (by omega)).trans entered
    have inside : Inside { s with
        offset := s.offset + head.length, elements := s.elements + 1, header := [],
        remaining := h.length, primitive := true } := by
      intro _
      change 0 < h.length ∧ s.offset + head.length + h.length ≤ s.bound ∧ _
      exact ⟨by omega, by omega, rfl⟩
    have delivered := @deliver_run sizeT
      { s with
        offset := s.offset + head.length, elements := s.elements + 1, header := [],
        remaining := h.length, primitive := true }
      value idle.error inside rfl full (Nat.le_of_eq size)
    have done : h.length - value.length = 0 := by omega
    have total : s.offset + head.length + value.length = s.offset + (head ++ value).length := by
      rw [List.length_append, Nat.add_assoc]
    rw [Delivers, run_append, ran]
    simp only [delivered, splits_deliver, if_pos done]
    rw [deliver_eq, if_pos done]
    simp only [close, closeDefinite_eq, advance, total, done, ← idle.header, ← idle.remaining,
      ← idle.primitive, Tree.delivered, List.append_assoc, List.cons_append, List.nil_append]

def Framed (s : Stream) : Prop :=
  ∀ frame ∈ s.frames.head?, frame.indefinite = false → frame.bound = frame.stop

def Settled (s : Stream) : Prop := closeFrames s.offset s.frames = (s.frames, [])

theorem settled_of_indefinite {frame : Frame} {rest : List Frame} (top : s.frames = frame :: rest)
    (indefinite : frame.indefinite = true) : s.Settled := by
  rw [Settled, top, closeFrames, if_neg (by simp [indefinite])]

theorem settled_of_before (framed : s.Framed) (before : s.offset < s.bound) : s.Settled := by
  cases top : s.frames with
  | nil => simp [Settled, top, closeFrames]
  | cons frame rest =>
    have bound : s.bound = frame.bound := by
      rw [Stream.bound, top]
    rw [Settled, top, closeFrames, if_neg]
    intro ends
    simp only [Bool.and_eq_true, Bool.not_eq_true', decide_eq_true_eq] at ends
    have stop := framed frame (by rw [top]; rfl) ends.1
    omega

theorem Idle.advance (idle : s.Idle) (size count : Nat) : (s.advance size count).Idle :=
  ⟨idle.error, idle.header, idle.primitive, idle.remaining⟩

theorem closeDefinite_settled (settled : s.Settled) (before : List Event) :
    s.closeDefinite before = (s, before) := by
  rw [closeDefinite_eq, settled, List.append_nil]

theorem Delivers.cons {first second : Bytes} {count count' : Nat} {events events' : List Event}
    (here : Delivers sizeT s first count events) (settled : (s.advance first.length count).Settled)
    (later : Delivers sizeT (s.advance first.length count) second count' events') :
    Delivers sizeT s (first ++ second) (count + count') (events ++ events') := by
  rw [Delivers, closeDefinite_settled settled] at here
  rw [Delivers, run_append, here]
  simp only [later.symm ▸ closeDefinite_append events events']
  simp only [advance, List.length_append, Nat.add_assoc]

def TreeRuns (sizeT : Nat) (t : Tree) : Prop :=
  ∀ s : Stream, s.Idle → s.Room t.encode.length t.count t.height →
    t.WellFormed sizeT s.profile s.limits.maxValue →
    Runs sizeT s t.encode t.count (t.events s.offset s.frames.length)

def TreeDelivers (sizeT : Nat) (t : Tree) : Prop :=
  ∀ s : Stream, s.Idle → s.Room t.encode.length t.count t.height →
    t.WellFormed sizeT s.profile s.limits.maxValue →
    Delivers sizeT s t.encode t.count (t.delivered s.offset s.frames.length)

def ForestDelivers (sizeT : Nat) (trees : List Tree) : Prop :=
  ∀ s : Stream, s.Idle → s.Framed → s.Settled →
    s.Room (encodeAll trees).length (countAll trees) (heightAll trees) →
    AllWellFormed sizeT s.profile s.limits.maxValue trees →
    Delivers sizeT s (encodeAll trees) (countAll trees)
      (deliveredAll s.offset s.frames.length trees)

def opened (s : Stream) (h : ProfileHeader) (head : Bytes) : Stream :=
  { s with
    offset := s.offset + head.length, elements := s.elements + 1, header := [],
    frames := frame { s with header := head, offset := s.offset + head.length } h :: s.frames }

theorem opened_run (idle : s.Idle) (valid : ValidHeader sizeT s.profile s.limits.maxValue head h)
    (constructed : h.constructed = true) (fits : s.offset + head.length + h.length ≤ s.bound)
    (few : s.elements < s.limits.maxElements)
    (shallow : s.frames.length < s.limits.maxDepth ∧ s.frames.length < s.capacity) :
    run sizeT s head =
      (s.opened h head).closeDefinite [⟨.begin, s.offset, s.frames.length, some h, head⟩] := by
  have entered := @enter_eq { s with header := head, offset := s.offset + head.length } h head few
    fits (fun _ => shallow)
  have start : s.offset + head.length - head.length = s.offset := Nat.add_sub_cancel ..
  rw [if_pos constructed, start] at entered
  exact (header_run idle valid (by omega)).trans entered

theorem Idle.opened (idle : s.Idle) : (s.opened h head).Idle :=
  ⟨idle.error, rfl, idle.primitive, idle.remaining⟩

theorem opened_definite (definite : h.indefinite = false) : (s.opened h head).frames =
      ⟨s.offset + head.length + h.length, s.offset + head.length + h.length,
        s.offset + head.length, false, false⟩ :: s.frames := by
  simp [opened, frame, definite]

variable {maxValue : Nat} {children : List Tree}

theorem tree_length {sizeT : Nat} {profile : Profile} {t : Tree}
    (wellFormed : t.WellFormed sizeT profile maxValue) : 0 < t.encode.length := by
  cases t with
  | primitive h head value =>
    rw [Tree.WellFormed] at wellFormed
    have := wellFormed.1.size
    simp only [Tree.encode, List.length_append]
    omega
  | constructed h head children =>
    rw [Tree.WellFormed] at wellFormed
    have := wellFormed.1.size
    simp only [Tree.encode, List.length_append]
    omega

theorem Room.opened {n : Nat} (room : s.Room n (1 + countAll children) (1 + heightAll children))
    (inside : s.offset + head.length + (encodeAll children).length ≤ (s.opened h head).bound) :
    (s.opened h head).Room (encodeAll children).length (countAll children) (heightAll children) := by
  obtain ⟨_, few, depth, capacity⟩ := room
  refine ⟨inside, ?_, ?_, ?_⟩
  · change s.elements + 1 + _ ≤ s.limits.maxElements
    omega
  · change s.frames.length + 1 + _ ≤ s.limits.maxDepth
    omega
  · change s.frames.length + 1 + _ ≤ s.capacity
    omega

theorem definite_ready (definite : h.indefinite = false)
    (size : (encodeAll children).length = h.length) (some : 0 < (encodeAll children).length)
    (room : s.Room (head ++ encodeAll children).length (1 + countAll children) (1 + heightAll children)) :
    (s.opened h head).Framed ∧ (s.opened h head).Settled ∧
      (s.opened h head).Room (encodeAll children).length (countAll children)
        (heightAll children) := by
  have fits := room.size
  rw [List.length_append] at fits
  have bound : (s.opened h head).bound = s.offset + head.length + h.length := by
    rw [Stream.bound, opened_definite definite]
  have framed : (s.opened h head).Framed := by
    intro frame member _
    rw [opened_definite definite] at member
    cases member
    rfl
  refine ⟨framed, settled_of_before framed ?_, room.opened ?_⟩
  · rw [bound]
    change s.offset + head.length < _
    omega
  · rw [bound]
    omega

theorem closeDefinite_stop {frame : Frame} {rest : List Frame} (top : s.frames = frame :: rest)
    (definite : frame.indefinite = false) (stop : frame.stop = s.offset) (before : List Event) :
    s.closeDefinite before = closeDefinite { s with frames := rest }
        (before ++ [⟨.close, s.offset, rest.length, none, []⟩]) := by
  rw [closeDefinite_eq, closeDefinite_eq, top, closeFrames, if_pos (by simp [definite, stop]),
    List.append_assoc]
  rfl

theorem definite_delivers (forest : ForestDelivers sizeT children)
    (definite : h.indefinite = false) : TreeDelivers sizeT (.constructed h head children) := by
  intro s idle room wellFormed
  rw [Tree.WellFormed] at wellFormed
  obtain ⟨valid, constructed, size, -, inner⟩ := wellFormed
  have size := size definite
  have bytes : (Tree.constructed h head children).encode = head ++ encodeAll children := by
    simp [Tree.encode, endOctets, definite]
  have room' : s.Room (head ++ encodeAll children).length (1 + countAll children)
      (1 + heightAll children) := by
    rw [← bytes]
    exact room
  obtain ⟨fits, few, depth, capacity⟩ := id room'
  rw [List.length_append] at fits
  have ran := opened_run idle valid constructed (by omega) (by omega) (by omega)
  have closes : ∀ count, ((s.opened h head).advance (encodeAll children).length count).closeDefinite
      (⟨.begin, s.offset, s.frames.length, some h, head⟩ ::
        deliveredAll (s.offset + head.length) (s.frames.length + 1) children) =
      (s.advance (head ++ encodeAll children).length (1 + count)).closeDefinite
        (Tree.delivered s.offset s.frames.length (.constructed h head children)) := by
    intro count
    rw [@closeDefinite_stop ((s.opened h head).advance (encodeAll children).length count) _ _
      (opened_definite definite) rfl (congrArg (s.offset + head.length + ·) size.symm)]
    simp only [advance, opened, Tree.delivered, endOctets, definite, ← idle.header,
      List.length_append, Nat.add_assoc]
    rfl
  rw [Delivers, bytes, Tree.count, ← closes, run_append, ran]
  cases children with
  | nil => simp only [encodeAll, run, deliveredAll, List.append_nil]; rfl
  | cons t rest =>
    have pos : 0 < (encodeAll (t :: rest)).length := by
      have := tree_length inner.1
      simp only [encodeAll, List.length_append]
      omega
    obtain ⟨framed, settled, room'⟩ := definite_ready definite size pos room'
    have runs := forest (s.opened h head) idle.opened framed settled room' inner
    rw [Delivers] at runs
    rw [closeDefinite_settled settled]
    simp only [runs]
    exact closeDefinite_append _ _

theorem end_run {frame : Frame} {rest : List Frame} (idle : s.Idle) (ber : s.profile = .ber)
    (top : s.frames = frame :: rest) (indefinite : frame.indefinite = true)
    (room : s.offset + 2 ≤ frame.bound) (short : s.offset - frame.start ≤ s.limits.maxValue) :
    run sizeT s [0, 0] =
      close { s with frames := rest, offset := s.offset + 2 } s.offset [0, 0] [] := by
  have bound : s.bound = frame.bound := by rw [Stream.bound, top]
  have closed : ¬ (decide (s.profile ≠ .ber) || !frame.indefinite) = true := by
    simp [ber, indefinite]
  have first : s.byteStep sizeT 0 = ({ s with header := [0], offset := s.offset + 1 }, []) := by
    rw [byteStep_header idle.error (by omega) idle.primitive (by simp [top]), headerByte,
      if_neg (by rw [idle.header, List.length_nil]; omega)]
    simp only [idle.header, List.nil_append, List.head?_cons, if_true]
    rw [endOfContents]
    simp only [top]
    rw [if_neg closed, if_pos (by rfl)]
  have second : byteStep sizeT { s with header := [0], offset := s.offset + 1 } 0 =
      close { s with frames := rest, offset := s.offset + 2 } s.offset [0, 0] [] := by
    rw [@byteStep_header sizeT { s with header := [0], offset := s.offset + 1 } 0 idle.error
      (by change s.offset + 1 < s.bound; omega) idle.primitive (by simp [top]), headerByte,
      if_neg (by simp only [List.length_singleton, tagBytes]; omega)]
    simp only [List.cons_append, List.nil_append, List.head?_cons, if_true]
    rw [endOfContents]
    simp only [top]
    rw [if_neg closed, if_neg (by simp), if_neg (by simp), if_neg (by omega)]
    simp [← idle.header]
  rw [run_cons, first, run_cons, second]
  simp [run]

theorem ValidHeader.indefinite_ber {profile : Profile}
    (valid : ValidHeader sizeT profile maxValue head h) (indefinite : h.indefinite = true) :
    profile = .ber ∧ h.length = 0 := by
  obtain ⟨field, stated, -, length, size, kind⟩ := valid.fields
  rw [indefinite] at kind
  have none : stated = none := by simpa using kind
  subst none
  cases length with
  | indefinite ber inner => exact ⟨ber, size⟩

theorem indefinite_ready {children : List Tree} (indefinite : h.indefinite = true)
    (content : (encodeAll children).length ≤ s.limits.maxValue)
    (room : s.Room (head ++ (encodeAll children ++ [0, 0])).length (1 + countAll children)
      (1 + heightAll children)) :
    (∃ frame, (s.opened h head).frames = frame :: s.frames ∧ frame.indefinite = true ∧
      frame.start = s.offset + head.length ∧
      s.offset + head.length + (encodeAll children).length + 2 ≤ frame.bound) ∧
      (s.opened h head).Framed ∧ (s.opened h head).Settled ∧
      (s.opened h head).Room (encodeAll children).length (countAll children)
        (heightAll children) := by
  have fits := room.size
  simp only [List.length_append, List.length_cons, List.length_nil] at fits
  obtain ⟨frame, top, kind, start, bound⟩ : ∃ frame, (s.opened h head).frames = frame :: s.frames ∧
      frame.indefinite = true ∧ frame.start = s.offset + head.length ∧
      s.offset + head.length + (encodeAll children).length + 2 ≤ frame.bound := by
    refine ⟨_, rfl, (frame_indefinite _ h).trans indefinite, frame_start _ h, ?_⟩
    simp only [Stream.frame, indefinite, if_true]
    split
    · change _ ≤ s.offset + head.length + s.limits.maxValue + 2
      omega
    · change _ ≤ s.bound
      omega
  have bound' : (s.opened h head).bound = frame.bound := by rw [Stream.bound, top]
  refine ⟨⟨frame, top, kind, start, bound⟩, ?_, settled_of_indefinite top kind,
    room.opened (by rw [bound']; omega)⟩
  intro frame' member definite
  rw [top] at member
  cases member
  exact absurd (kind.symm.trans definite) (by decide)

theorem indefinite_delivers (forest : ForestDelivers sizeT children)
    (indefinite : h.indefinite = true) : TreeDelivers sizeT (.constructed h head children) := by
  intro s idle room wellFormed
  rw [Tree.WellFormed] at wellFormed
  obtain ⟨valid, constructed, -, content, inner⟩ := wellFormed
  have content := content indefinite
  obtain ⟨ber, zero⟩ := ValidHeader.indefinite_ber valid indefinite
  have bytes : (Tree.constructed h head children).encode =
      head ++ (encodeAll children ++ [0, 0]) := by
    simp [Tree.encode, endOctets, indefinite]
  obtain ⟨fits, few, depth, capacity⟩ := id room
  simp only [bytes, Tree.count, Tree.height, List.length_append, List.length_cons,
    List.length_nil] at fits few depth capacity
  have ran := opened_run idle valid constructed (by omega) (by omega) (by omega)
  obtain ⟨⟨frame, top, kind, start, bound⟩, framed, settled, room'⟩ :=
    @indefinite_ready s h head children indefinite content (by rw [← bytes]; exact room)
  have runs := forest (s.opened h head) idle.opened framed settled room' inner
  have settled' : ((s.opened h head).advance (encodeAll children).length
      (countAll children)).Settled := settled_of_indefinite top kind
  rw [Delivers, closeDefinite_settled settled'] at runs
  rw [closeDefinite_settled settled] at ran
  have ends := @end_run sizeT
    ((s.opened h head).advance (encodeAll children).length (countAll children)) frame s.frames
    (idle.opened.advance _ _) ber top kind
    (by change s.offset + head.length + (encodeAll children).length + 2 ≤ _; omega)
    (by
      change s.offset + head.length + (encodeAll children).length - frame.start ≤ _
      rw [start]
      change _ ≤ s.limits.maxValue
      omega)
  have total : (head ++ (encodeAll children ++ [0, 0])).length =
      head.length + ((encodeAll children).length + 2) := by simp
  rw [Delivers, bytes, total, run_append, ran, run_append]
  simp only [runs, ends]
  simp only [close, closeDefinite_eq, advance, opened, Tree.count, Tree.delivered, endOctets,
    indefinite, ← idle.header, Nat.add_assoc, List.cons_append, List.nil_append,
    List.append_assoc, if_true]
  rfl

theorem forest_cons {t : Tree} {rest : List Tree} (here : TreeDelivers sizeT t)
    (later : ForestDelivers sizeT rest) : ForestDelivers sizeT (t :: rest) := by
  intro s idle framed settled room wellFormed
  rw [AllWellFormed] at wellFormed
  obtain ⟨fits, few, depth, capacity⟩ := room
  simp only [encodeAll, countAll, heightAll, List.length_append] at fits few depth capacity
  have first := here s idle ⟨by omega, by omega, by omega, by omega⟩ wellFormed.1
  cases rest with
  | nil => simpa [encodeAll, countAll, deliveredAll] using first
  | cons next rest =>
    have pos : 0 < (encodeAll (next :: rest)).length := by
      have := tree_length wellFormed.2.1
      rw [encodeAll, List.length_append]
      omega
    have framed' : (s.advance t.encode.length t.count).Framed := framed
    have settled' : (s.advance t.encode.length t.count).Settled := by
      refine settled_of_before framed' ?_
      change s.offset + t.encode.length < s.bound
      omega
    have second := later (s.advance t.encode.length t.count) (idle.advance _ _) framed' settled'
      ⟨by change s.offset + t.encode.length + _ ≤ s.bound; omega,
        by change s.elements + t.count + _ ≤ s.limits.maxElements; omega,
        by change s.frames.length + _ ≤ s.limits.maxDepth; omega,
        by change s.frames.length + _ ≤ s.capacity; omega⟩ wellFormed.2
    exact first.cons settled' second

mutual

theorem tree_delivers (sizeT : Nat) : (t : Tree) → TreeDelivers sizeT t
  | .primitive h head value => by
    intro s idle room wellFormed
    rw [Tree.WellFormed] at wellFormed
    exact primitive_delivers idle wellFormed.1 wellFormed.2.1 wellFormed.2.2 room
  | .constructed h head children => by
    have forest := forest_delivers sizeT children
    cases kind : h.indefinite with
    | false => exact definite_delivers forest kind
    | true => exact indefinite_delivers forest kind

theorem forest_delivers (sizeT : Nat) : (trees : List Tree) → ForestDelivers sizeT trees
  | [] => fun _ _ _ settled _ _ => (closeDefinite_settled settled []).symm
  | t :: rest => forest_cons (tree_delivers sizeT t) (forest_delivers sizeT rest)

end

theorem tree_runs (sizeT : Nat) (t : Tree) : TreeRuns sizeT t := by
  intro s idle room wellFormed
  have ran := tree_delivers sizeT t s idle room wellFormed
  rw [Delivers] at ran
  refine ⟨(congrArg Prod.fst ran).trans rfl, ?_⟩
  rw [ran, closeDefinite_eq, framing_append, framing_delivered,
    framing_of_no_value (closeFrames_no_value _ _)]
  rfl

theorem items_run {items : List Item} (idle : s.Idle) (root : s.frames = [])
    (wellFormed : ∀ item ∈ items, item.WellFormed sizeT s.profile s.limits.maxValue)
    (size : s.offset + (encodeItems items).length ≤ s.limits.maxInput)
    (few : s.elements + countItems items ≤ s.limits.maxElements)
    (depth : ∀ item ∈ items, item.height ≤ s.limits.maxDepth ∧ item.height ≤ s.capacity) :
    (run sizeT s (encodeItems items)).1 = s.advance (encodeItems items).length (countItems items) ∧
      framing (run sizeT s (encodeItems items)).2 = eventsItems s.offset items := by
  induction items generalizing s with
  | nil => exact ⟨rfl, rfl⟩
  | cons item rest ih =>
    have bytes : encodeItems (item :: rest) = item.encode ++ encodeItems rest := rfl
    have count : countItems (item :: rest) = item.count + countItems rest := rfl
    rw [bytes, List.length_append] at size
    rw [count] at few
    have bound : s.bound = s.limits.maxInput := by rw [Stream.bound, root]
    have here : (run sizeT s item.encode).1 = s.advance item.encode.length item.count ∧
        framing (run sizeT s item.encode).2 = eventsItems s.offset [item] := by
      have shallow := depth item (by simp)
      have valid := wellFormed item (by simp)
      cases item with
      | object t =>
        simp only [Item.encode, Item.count, Item.height] at size few shallow ⊢
        have runs := tree_runs sizeT t s idle
          ⟨by omega, by omega, by simpa [root] using shallow.1, by simpa [root] using shallow.2⟩
          valid
        have stream := runs.stream
        have events := runs.events
        rw [closeDefinite_settled (by simp [Settled, advance, root, closeFrames])] at stream
        rw [root] at events
        refine ⟨stream, events.trans ?_⟩
        simp [eventsItems, closeFrames]
      | pad b =>
        have padded : (decide (s.frames.length = 0) && decide (s.header.length = 0) &&
            padding s.profile b) = true := by
          have blank : padding s.profile b = true := valid
          simp [root, idle.header, blank]
        simp only [Item.encode, List.length_singleton] at size
        have step : s.byteStep sizeT b = ({ s with offset := s.offset + 1 }, []) := by
          rw [byteStep, if_neg (not_not.mpr idle.error), if_neg (by omega),
            if_neg (by simp [idle.primitive]), if_pos padded]
        simp only [Item.encode, run_cons, step]
        exact ⟨rfl, rfl⟩
    obtain ⟨stream, events⟩ := @ih (s.advance item.encode.length item.count) (idle.advance _ _)
      root (fun item' member => wellFormed item' (by simp [member]))
      (by change s.offset + item.encode.length + _ ≤ s.limits.maxInput; omega)
      (by change s.elements + item.count + _ ≤ s.limits.maxElements; omega)
      (fun item' member => depth item' (by simp [member]))
    rw [bytes, count, run_append, here.1]
    refine ⟨?_, ?_⟩
    · refine stream.trans ?_
      simp only [advance, List.length_append, Nat.add_assoc]
    · simp only [framing_append, here.2, events]
      cases item with
      | object t => simp [eventsItems, advance, Item.encode]
      | pad b => simp [eventsItems, advance, Item.encode]

end Stream

variable {ber : Bool} {sizeT : Nat} {profile : Profile} {limits : Limits} {capacity : Nat}
  {input : Bytes}

theorem streamInit_ok (configured : config ber profile = .ok) :
    streamInit ber profile limits capacity = .ok (Stream.fresh profile limits capacity) := by
  rw [streamInit, configured]

/-- The walk of an input within `max_input` is the run over its bytes. -/
theorem walk_run (configured : config ber profile = .ok) (size : input.length ≤ limits.maxInput) :
    (walk ber sizeT profile limits capacity input).1 =
        (Stream.run sizeT (Stream.fresh profile limits capacity) input).1.finish.1 ∧
      framing (walk ber sizeT profile limits capacity input).2 =
        framing (Stream.run sizeT (Stream.fresh profile limits capacity) input).2 := by
  obtain ⟨verdict, split, -⟩ := @Stream.feedAll_run sizeT
    (Stream.fresh profile limits capacity) [input] (Stream.fresh_inside profile limits capacity) rfl
    (by intro _; simpa [Stream.fresh] using size)
  have whole : [input].flatten = input := by simp
  rw [whole] at verdict split
  rw [walk_eq_streamChunks, streamChunks, streamInit_ok configured]
  exact ⟨verdict, by rw [← split, framing_splits]⟩

theorem walk_oversized (configured : config ber profile = .ok)
    (size : limits.maxInput < input.length) :
    (walk ber sizeT profile limits capacity input).1 = .limit := by
  have fed : (Stream.fresh profile limits capacity).feed sizeT input =
      (.limit, (Stream.fresh profile limits capacity).fail .limit, []) := by
    simp [Stream.feed, Stream.fresh, size]
  simp [walk, streamInit_ok configured, fed]

theorem parses_run {items : List Item} (parses : Parses sizeT profile limits capacity input items) :
    (Stream.run sizeT (Stream.fresh profile limits capacity) input).1.finish.1 = .ok ∧
      framing (Stream.run sizeT (Stream.fresh profile limits capacity) input).2 =
        eventsItems 0 items := by
  have size := parses.size
  rw [← parses.encoded] at size ⊢
  obtain ⟨stream, events⟩ := @Stream.items_run sizeT (Stream.fresh profile limits capacity)
    items ⟨rfl, rfl, rfl, rfl⟩ rfl parses.wellFormed
    (by simpa [Stream.fresh] using size)
    (by simpa [Stream.fresh] using parses.elements) parses.depth
  refine ⟨?_, events⟩
  rw [stream]
  rfl

theorem walk_ok_iff (ber : Bool) (sizeT : Nat) (profile : Profile) (limits : Limits)
    (capacity : Nat) (input : Bytes) : (walk ber sizeT profile limits capacity input).1 = .ok ↔
      config ber profile = .ok ∧ ∃ items, Parses sizeT profile limits capacity input items := by
  by_cases configured : config ber profile = .ok
  · by_cases size : input.length ≤ limits.maxInput
    · rw [(walk_run configured size).1]
      refine ⟨fun ok => ⟨configured, finished_parses ok size⟩, ?_⟩
      rintro ⟨-, items, parses⟩
      exact (parses_run parses).1
    · have oversized := @walk_oversized ber sizeT profile limits capacity input configured
        (by omega)
      refine ⟨fun ok => absurd (oversized.symm.trans ok) (by decide), ?_⟩
      rintro ⟨-, items, parses⟩
      exact absurd parses.size size
  · have failed : streamInit ber profile limits capacity = .error (config ber profile) := by
      unfold streamInit
      split
      · rename_i ok
        exact absurd ok configured
      · rfl
    exact ⟨fun ok => absurd ok (by simpa [walk, failed] using configured),
      fun both => absurd both.1 configured⟩

theorem walk_framing {items : List Item}
    (accepted : (walk ber sizeT profile limits capacity input).1 = .ok)
    (parses : Parses sizeT profile limits capacity input items) :
    framing (walk ber sizeT profile limits capacity input).2 = eventsItems 0 items := by
  have configured := ((walk_ok_iff _ _ _ _ _ _).mp accepted).1
  rw [(walk_run configured parses.size).2]
  exact (parses_run parses).2

/-- `TC_TLV_walk` accepts exactly the inputs that parse within the limits, and its
    BEGIN and CLOSE events are the traversal of the parse. -/
theorem walk_accepts_exactly (ber : Bool) (sizeT : Nat) (profile : Profile) (limits : Limits)
    (capacity : Nat) (input : Bytes) : ((walk ber sizeT profile limits capacity input).1 = .ok ↔
        config ber profile = .ok ∧ ∃ items, Parses sizeT profile limits capacity input items) ∧
      ((walk ber sizeT profile limits capacity input).1 = .ok →
        ∀ items, Parses sizeT profile limits capacity input items →
          framing (walk ber sizeT profile limits capacity input).2 = eventsItems 0 items) := by
  refine ⟨walk_ok_iff ber sizeT profile limits capacity input, ?_⟩
  intro accepted items parses
  exact walk_framing accepted parses

end TinyCrypto.Tlv
