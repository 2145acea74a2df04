import TinyCrypto.Tlv.Grammar
import TinyCrypto.Tlv.StreamBytes

/-! # What the walk accepts is well formed

`Zipper` reads the open frames of a stream as a partial parse of the bytes that
were consumed. Every step keeps it, and without open frames it is a parse.
-/

namespace TinyCrypto.Tlv

section

variable (sizeT : Nat) (profile : Profile) (limits : Limits) (capacity : Nat)

/-- The bytes before and inside the open frames, and the objects in them: complete
    root items, and for each frame a header and complete children. -/
inductive Zipper : List Frame → Bytes → Nat → Prop
  | root {items : List Item}
      (wellFormed : ∀ item ∈ items, item.WellFormed sizeT profile limits.maxValue)
      (depth : ∀ item ∈ items, item.height ≤ limits.maxDepth ∧ item.height ≤ capacity) :
      Zipper [] (encodeItems items) (countItems items)
  | inside {frames : List Frame} {consumed : Bytes} {count : Nat} {frame : Frame}
      {h : ProfileHeader} {head : Bytes} {children : List Tree}
      (outer : Zipper frames consumed count)
      (header : ValidHeader sizeT profile limits.maxValue head h)
      (constructed : h.constructed = true)
      (wellFormed : AllWellFormed sizeT profile limits.maxValue children)
      (depth : frames.length + (1 + heightAll children) ≤ limits.maxDepth ∧
        frames.length + (1 + heightAll children) ≤ capacity)
      (start : frame.start = consumed.length + head.length)
      (kind : frame.indefinite = h.indefinite)
      (stop : h.indefinite = false → frame.stop = frame.start + h.length) :
      Zipper (frame :: frames) (consumed ++ head ++ encodeAll children)
        (count + (1 + countAll children))

end

variable {sizeT : Nat} {profile : Profile} {limits : Limits} {capacity : Nat}
  {frames : List Frame} {consumed : Bytes} {count : Nat}

theorem Zipper.depth (zipper : Zipper sizeT profile limits capacity frames consumed count) :
    frames.length ≤ limits.maxDepth ∧ frames.length ≤ capacity := by
  cases zipper with
  | root wellFormed depth => exact ⟨Nat.zero_le _, Nat.zero_le _⟩
  | inside outer header constructed wellFormed depth start kind stop =>
    rw [List.length_cons]
    omega

theorem Zipper.add {t : Tree} (zipper : Zipper sizeT profile limits capacity frames consumed count)
    (wellFormed : t.WellFormed sizeT profile limits.maxValue)
    (depth : frames.length + t.height ≤ limits.maxDepth ∧ frames.length + t.height ≤ capacity) :
    Zipper sizeT profile limits capacity frames (consumed ++ t.encode) (count + t.count) := by
  cases zipper with
  | @root items valid shallow =>
    have encoded : encodeItems items ++ t.encode = encodeItems (items ++ [.object t]) := by
      simp [encodeItems, Item.encode]
    have counted : countItems items + t.count = countItems (items ++ [.object t]) := by
      simp [countItems, Item.count]
    rw [encoded, counted]
    refine .root ?_ ?_
    · intro item member
      rcases List.mem_append.mp member with member | member
      · exact valid item member
      · rw [List.mem_singleton.mp member]
        exact wellFormed
    · intro item member
      rcases List.mem_append.mp member with member | member
      · exact shallow item member
      · rw [List.mem_singleton.mp member]
        simpa [Item.height] using depth
  | @inside frames consumed count frame h head children outer header constructed valid shallow
      start kind stop =>
      have encoded : consumed ++ head ++ encodeAll children ++ t.encode =
          consumed ++ head ++ encodeAll (children ++ [t]) := by
        simp [encodeAll_append, encodeAll]
      have counted : count + (1 + countAll children) + t.count =
          count + (1 + countAll (children ++ [t])) := by
        simp only [countAll_append, countAll]
        omega
      rw [encoded, counted]
      refine .inside outer header constructed ?_ ?_ start kind stop
      · exact allWellFormed_append.mpr ⟨valid, wellFormed, trivial⟩
      · simp only [heightAll_append, heightAll]
        simp only [List.length_cons] at depth
        omega

theorem Zipper.finish {h : ProfileHeader} {head : Bytes} {children : List Tree}
    (outer : Zipper sizeT profile limits capacity frames consumed count)
    (header : ValidHeader sizeT profile limits.maxValue head h) (constructed : h.constructed = true)
    (wellFormed : AllWellFormed sizeT profile limits.maxValue children)
    (depth : frames.length + (1 + heightAll children) ≤ limits.maxDepth ∧
      frames.length + (1 + heightAll children) ≤ capacity)
    (definite : h.indefinite = false → (encodeAll children).length = h.length)
    (indefinite : h.indefinite = true → (encodeAll children).length ≤ limits.maxValue) :
    Zipper sizeT profile limits capacity frames
      (consumed ++ head ++ encodeAll children ++ endOctets h)
      (count + (1 + countAll children)) := by
  have added := @Zipper.add sizeT profile limits capacity frames consumed count
    (.constructed h head children) outer
    (by
      simp only [Tree.WellFormed]
      exact ⟨header, constructed, definite, indefinite, wellFormed⟩)
    (by simpa [Tree.height] using depth)
  simpa [Tree.encode, Tree.count] using added

theorem Zipper.close (zipper : Zipper sizeT profile limits capacity frames consumed count) :
    Zipper sizeT profile limits capacity (Stream.closeFrames consumed.length frames).1 consumed
      count := by
  induction frames generalizing consumed count with
  | nil => exact zipper
  | cons frame frames ih =>
    rw [Stream.closeFrames]
    split
    · rename_i ends
      simp only [Bool.and_eq_true, Bool.not_eq_true', decide_eq_true_eq] at ends
      cases zipper with
      | @inside _ consumed count _ h head children outer header constructed wellFormed depth start
          kind stop =>
          have definite : h.indefinite = false := kind.symm.trans ends.1
          have size : (encodeAll children).length = h.length := by
            have total := ends.2
            rw [stop definite, start] at total
            simp only [List.length_append] at total
            omega
          have closed := @Zipper.finish sizeT profile limits capacity frames consumed count
            h head children outer header constructed wellFormed depth (fun _ => size)
            (fun open' => absurd (definite.symm.trans open') (by decide))
          rw [endOctets, if_neg (by simp [definite]), List.append_nil] at closed
          exact ih closed
    · exact zipper

/-- What the accumulator holds: nothing, half of the end-of-contents octets inside
    an indefinite frame, or a part of a header. -/
inductive Pending (sizeT : Nat) (s : Stream) : Prop
  | none (empty : s.header = [])
  | half {frame : Frame} {rest : List Frame} (zero : s.header = [0]) (top : s.frames = frame :: rest)
      (inner : frame.indefinite = true)
  | part (first : s.header.head? ≠ some 0)
      (more : headerParse sizeT s.profile s.limits.maxValue s.header = .error .more)

/-- The stream as a partial parse of the consumed bytes: the zipper, then the
    accumulated header or a primitive in progress. -/
structure Parsed (sizeT : Nat) (s : Stream) (base current : Bytes) (count : Nat) : Prop where
  zipper : Zipper sizeT s.profile s.limits s.capacity s.frames base count
  offset : s.offset = (base ++ current).length
  elements : s.elements ≤ s.limits.maxElements
  header : s.primitive = false → s.elements = count ∧ current = s.header ∧ Pending sizeT s
  value : s.primitive = true → s.elements = count + 1 ∧ s.header = [] ∧ ∃ h head value,
    ValidHeader sizeT s.profile s.limits.maxValue head h ∧ h.constructed = false ∧
    current = head ++ value ∧ value.length + s.remaining = h.length

def Reads (sizeT : Nat) (s : Stream) (consumed : Bytes) : Prop :=
  ∃ base current count, consumed = base ++ current ∧ Parsed sizeT s base current count

theorem reads_close {s : Stream} {before : List Event}
    (zipper : Zipper sizeT s.profile s.limits s.capacity s.frames consumed count)
    (offset : s.offset = consumed.length) (elements : s.elements = count)
    (within : s.elements ≤ s.limits.maxElements) (empty : s.header = [])
    (idle : s.primitive = false) : Reads sizeT (s.closeDefinite before).1 consumed := by
  refine ⟨consumed, [], count, (List.append_nil _).symm, ?_⟩
  rw [Stream.closeDefinite_eq]
  refine ⟨?_, ?_, within, fun _ => ⟨elements, empty.symm, .none empty⟩,
    fun busy => absurd (idle.symm.trans busy) (by decide)⟩
  · have closed := zipper.close
    rw [← offset] at closed
    exact closed
  · rw [List.append_nil]
    exact offset

theorem Zipper.primitive {h : ProfileHeader} {head value : Bytes}
    (zipper : Zipper sizeT profile limits capacity frames consumed count)
    (header : ValidHeader sizeT profile limits.maxValue head h)
    (plain : h.constructed = false) (size : value.length = h.length) :
    Zipper sizeT profile limits capacity frames (consumed ++ (head ++ value)) (count + 1) := by
  have depth := zipper.depth
  have added := @Zipper.add sizeT profile limits capacity frames consumed count
    (.primitive h head value) zipper
    (by
      simp only [Tree.WellFormed]
      exact ⟨header, plain, size⟩)
    (by simpa [Tree.height] using depth)
  simpa [Tree.encode, Tree.count] using added

variable {s : Stream} {b : UInt8}

theorem deliver_reads (reads : Reads sizeT s consumed) (inside : s.Inside)
    (busy : s.primitive = true) : Reads sizeT (s.deliver [b]).1 (consumed ++ [b]) := by
  obtain ⟨base, current, count, rfl, parsed⟩ := reads
  obtain ⟨elements, empty, h, head, value, valid, plain, rfl, size⟩ := parsed.value busy
  obtain ⟨left, -, -⟩ := inside busy
  have offset := parsed.offset
  simp only [List.length_append] at offset
  have same : base ++ (head ++ value) ++ [b] = base ++ (head ++ (value ++ [b])) := by simp
  rw [Stream.deliver_eq, same]
  simp only [List.length_singleton]
  split
  · rename_i last
    refine reads_close (parsed.zipper.primitive valid plain ?_) ?_ elements parsed.elements empty rfl
    · simp only [List.length_append, List.length_singleton]
      omega
    · simp only [List.length_append, List.length_singleton]
      omega
  · rename_i more
    refine ⟨base, head ++ (value ++ [b]), count, rfl, parsed.zipper, ?_, parsed.elements,
      fun idle => absurd (busy.symm.trans idle) (by decide), ?_⟩
    · simp only [List.length_append, List.length_singleton]
      omega
    · intro _
      refine ⟨elements, empty, h, head, value ++ [b], valid, plain, rfl, ?_⟩
      simp only [List.length_append, List.length_singleton]
      omega

theorem padding_reads (reads : Reads sizeT s consumed) (idle : s.primitive = false)
    (root : s.frames = []) (empty : s.header = []) (padded : padding s.profile b = true) :
    Reads sizeT { s with offset := s.offset + 1 } (consumed ++ [b]) := by
  obtain ⟨base, current, count, rfl, parsed⟩ := reads
  obtain ⟨elements, rfl, -⟩ := parsed.header idle
  have zipper := parsed.zipper
  have offset := parsed.offset
  rw [root] at zipper
  rw [empty, List.append_nil] at offset ⊢
  cases zipper with
  | @root items wellFormed depth =>
    have encoded : encodeItems items ++ [b] = encodeItems (items ++ [.pad b]) := by
      simp [encodeItems, Item.encode]
    have counted : countItems items = countItems (items ++ [.pad b]) := by
      simp [countItems, Item.count]
    refine ⟨encodeItems items ++ [b], [], countItems items, by simp, ?_, ?_, parsed.elements, ?_,
      fun busy => absurd (idle.symm.trans busy) (by decide)⟩
    · rw [encoded, counted]
      change Zipper _ _ _ _ s.frames _ _
      rw [root]
      refine .root ?_ ?_
      · intro item member
        rcases List.mem_append.mp member with member | member
        · exact wellFormed item member
        · rw [List.mem_singleton.mp member]
          exact padded
      · intro item member
        rcases List.mem_append.mp member with member | member
        · exact depth item member
        · rw [List.mem_singleton.mp member]
          exact ⟨Nat.zero_le _, Nat.zero_le _⟩
    · simp only [List.append_nil, List.length_append, List.length_singleton]
      omega
    · intro _
      exact ⟨elements, rfl, .none rfl⟩

theorem frame_start (s : Stream) (h : ProfileHeader) : (s.frame h).start = s.offset := by
  simp only [Stream.frame]
  split
  · split
    · rfl
    · rfl
  · rfl

theorem frame_indefinite (s : Stream) (h : ProfileHeader) :
    (s.frame h).indefinite = h.indefinite := by
  simp only [Stream.frame]
  split
  · rename_i indefinite
    rw [indefinite]
    split
    · rfl
    · rfl
  · rename_i definite
    exact (Bool.eq_false_iff.mpr definite).symm

theorem frame_stop (s : Stream) (h : ProfileHeader) (definite : h.indefinite = false) :
    (s.frame h).stop = (s.frame h).start + h.length := by
  simp [Stream.frame, definite]

theorem enter_reads {h : ProfileHeader} {bytes base : Bytes}
    (zipper : Zipper sizeT s.profile s.limits s.capacity s.frames base count)
    (offset : s.offset = (base ++ s.header).length) (elements : s.elements = count)
    (idle : s.primitive = false) (valid : ValidHeader sizeT s.profile s.limits.maxValue s.header h)
    (good : (s.enter h bytes).1.error = .ok) :
    Reads sizeT (s.enter h bytes).1 (base ++ s.header) := by
  unfold Stream.enter at good ⊢
  split at good
  · cases good
  rename_i few
  rw [if_neg few]
  split at good
  · exact absurd good (Stream.boundaryError_ne s)
  rename_i fits
  rw [if_neg fits]
  split at good
  · cases good
  rename_i shallow
  rw [if_neg shallow]
  simp only [Bool.and_eq_true, Bool.or_eq_true, decide_eq_true_eq, not_and, not_or,
    Nat.not_le] at shallow
  rw [List.length_append] at offset
  simp only
  split
  · rename_i constructed
    have depth := shallow constructed
    have opened : Zipper sizeT s.profile s.limits s.capacity (s.frame h :: s.frames)
        (base ++ s.header ++ encodeAll []) (count + (1 + countAll [])) :=
      .inside zipper valid constructed trivial ⟨depth.1, depth.2⟩ ((frame_start s h).trans offset)
        (frame_indefinite s h) (frame_stop s h)
    simp only [encodeAll, countAll, List.append_nil] at opened
    refine reads_close opened ?_ ?_ ?_ rfl idle
    · rw [List.length_append]
      exact offset
    · change s.elements + 1 = _
      omega
    · change s.elements + 1 ≤ s.limits.maxElements
      omega
  · rename_i plain
    have plain' : h.constructed = false := by simpa using plain
    split
    · rename_i full
      refine ⟨base, s.header, count, rfl, zipper, ?_, ?_, fun free => absurd free (by simp), ?_⟩
      · rw [List.length_append]
        exact offset
      · change s.elements + 1 ≤ s.limits.maxElements
        omega
      · intro _
        refine ⟨by rw [← elements], rfl, h, s.header, [], valid, plain', by simp, ?_⟩
        simp
    · rename_i empty
      have size : ([] : Bytes).length = h.length := by
        rw [List.length_nil]
        omega
      have added := zipper.primitive valid plain' size
      rw [List.append_nil] at added
      refine reads_close added ?_ ?_ ?_ rfl idle
      · rw [List.length_append]
        exact offset
      · change s.elements + 1 = _
        omega
      · change s.elements + 1 ≤ s.limits.maxElements
        omega

theorem endOfContents_reads {bytes base : Bytes}
    (zipper : Zipper sizeT s.profile s.limits s.capacity s.frames base count)
    (offset : s.offset = (base ++ s.header).length) (elements : s.elements = count)
    (within : s.elements ≤ s.limits.maxElements) (idle : s.primitive = false)
    (shape : s.header = [0] ∨ ∃ c, s.header = [0, c])
    (good : (s.endOfContents bytes).1.error = .ok) :
    Reads sizeT (s.endOfContents bytes).1 (base ++ s.header) := by
  unfold Stream.endOfContents at good ⊢
  cases top : s.frames with
  | nil =>
    simp only [top] at good
    cases good
  | cons frame rest =>
    simp only [top] at good ⊢
    split at good
    · cases good
    rename_i allowed
    simp only [Bool.or_eq_true, decide_eq_true_eq, Bool.not_eq_true', not_or, not_not,
      Bool.not_eq_false] at allowed
    rcases shape with half | ⟨c, full⟩
    · have one : s.header.length = 1 := by rw [half]; rfl
      rw [if_neg (by simp [allowed]), if_pos one]
      exact ⟨base, s.header, count, rfl, zipper, offset, within,
        fun _ => ⟨elements, rfl, .half half top allowed.2⟩,
        fun busy => absurd (idle.symm.trans busy) (by decide)⟩
    · have two : ¬ s.header.length = 1 := by
        rw [full]
        simp
      rw [if_neg two] at good
      rw [if_neg (by simp [allowed]), if_neg two]
      split at good
      · cases good
      rename_i zero
      rw [if_neg zero]
      split at good
      · cases good
      rename_i short
      rw [if_neg short]
      have second : c = 0 := by simpa [full] using zero
      rw [second] at full
      rw [top] at zipper
      rw [full] at offset ⊢
      cases zipper with
      | @inside _ consumed count _ h head children outer header constructed wellFormed depth start
          kind stop =>
          have indefinite : h.indefinite = true := kind.symm.trans allowed.2
          rw [start] at short
          simp only [List.length_append, List.length_cons, List.length_nil] at offset
          have closed := outer.finish header constructed wellFormed depth
            (fun definite => absurd (indefinite.symm.trans definite) (by decide))
            (fun _ => by omega)
          rw [endOctets, if_pos indefinite] at closed
          refine reads_close closed ?_ elements within rfl idle
          simp only [List.length_append, List.length_cons, List.length_nil]
          omega

theorem headerByte_reads (reads : Reads sizeT s consumed) (idle : s.primitive = false)
    (good : (s.headerByte sizeT id b).1.error = .ok) :
    Reads sizeT (s.headerByte sizeT id b).1 (consumed ++ [b]) := by
  obtain ⟨base, current, count, rfl, parsed⟩ := reads
  obtain ⟨elements, rfl, pending⟩ := parsed.header idle
  have offset := parsed.offset
  unfold Stream.headerByte at good ⊢
  split at good
  · cases good
  rename_i short
  rw [if_neg short]
  have offset' : s.offset + 1 = (base ++ (s.header ++ [b])).length := by
    rw [offset]
    simp only [List.length_append, List.length_singleton]
    omega
  rw [List.append_assoc]
  simp only at good ⊢
  split at good
  · rename_i zero
    rw [if_pos zero]
    refine endOfContents_reads parsed.zipper offset' elements parsed.elements idle ?_ good
    cases pending with
    | none empty =>
      rw [empty] at zero ⊢
      left
      simpa using zero
    | half half top inner =>
      right
      exact ⟨b, by rw [half]; rfl⟩
    | part first more =>
      cases full : s.header with
      | nil =>
        rw [full] at zero
        left
        simpa using zero
      | cons c rest =>
        rw [full] at zero first
        exact absurd zero first
  · rename_i nonzero
    rw [if_neg nonzero]
    cases read : headerParse sizeT s.profile s.limits.maxValue (s.header ++ [b]) with
    | error e =>
      by_cases more : e = .more
      · subst more
        exact ⟨base, s.header ++ [b], count, rfl, parsed.zipper, offset', parsed.elements,
          fun _ => ⟨elements, rfl, .part nonzero read⟩,
          fun busy => absurd (idle.symm.trans busy) (by decide)⟩
      · simp only [read] at good
        have failed : e = .ok := good
        exact absurd (failed ▸ read) (Stream.headerParse_failed _ _ _)
    | ok h =>
      simp only [read] at good
      refine enter_reads parsed.zipper offset' elements idle ?_ good
      obtain ⟨head, tail, same, valid⟩ := headerParse_ok read
      rcases List.eq_nil_or_concat tail with rfl | ⟨tail, c, rfl⟩
      · rw [List.append_nil] at same
        change ValidHeader _ _ _ (s.header ++ [b]) h
        rw [same]
        exact valid
      · rw [List.concat_eq_append, ← List.append_assoc] at same
        have before : s.header = head ++ tail := (List.append_inj' same rfl).1
        have again := headerParse_valid valid tail
        rw [← before] at again
        cases pending with
        | none empty =>
          rw [empty] at again
          cases again
        | half half top inner =>
          rw [half] at nonzero
          exact absurd rfl nonzero
        | part first more =>
          rw [more] at again
          cases again

theorem byteStep_reads (reads : Reads sizeT s consumed) (inside : s.Inside)
    (good : (s.byteStep sizeT b).1.error = .ok) :
    Reads sizeT (s.byteStep sizeT b).1 (consumed ++ [b]) := by
  unfold Stream.byteStep at good ⊢
  split at good
  · rename_i failed
    exact absurd good failed
  rename_i ok
  rw [if_neg ok]
  split at good
  · exact absurd good (Stream.boundaryError_ne s)
  rename_i early
  rw [if_neg early]
  split at good
  · rename_i busy
    rw [if_pos busy]
    exact deliver_reads reads inside busy
  rename_i idle
  rw [if_neg idle]
  split at good
  · rename_i padded
    rw [if_pos padded]
    simp only [Bool.and_eq_true, decide_eq_true_eq, List.length_eq_zero_iff] at padded
    exact padding_reads reads (by simpa using idle) padded.1.1 padded.1.2 padded.2
  · rename_i unpadded
    rw [if_neg unpadded]
    exact headerByte_reads reads (by simpa using idle) good

theorem run_reads {bytes : Bytes} (reads : Reads sizeT s consumed) (inside : s.Inside)
    (good : (Stream.run sizeT s bytes).1.error = .ok) :
    Reads sizeT (Stream.run sizeT s bytes).1 (consumed ++ bytes) := by
  induction bytes generalizing s consumed with
  | nil =>
    rw [List.append_nil]
    exact reads
  | cons b rest ih =>
    rw [Stream.run_cons] at good ⊢
    have first : (s.byteStep sizeT b).1.error = .ok := by
      by_contra failed
      rw [Stream.run_failed failed] at good
      exact failed good
    have later := ih (byteStep_reads reads inside first) (Stream.byteStep_inside inside b) good
    rw [List.append_assoc] at later
    exact later

theorem fresh_reads (sizeT : Nat) (profile : Profile) (limits : Limits) (capacity : Nat) :
    Reads sizeT (Stream.fresh profile limits capacity) [] :=
  ⟨[], [], 0, rfl, @Zipper.root _ _ _ _ [] (by simp) (by simp), rfl, Nat.zero_le _,
    fun _ => ⟨rfl, rfl, .none rfl⟩, fun busy => absurd busy (by simp [Stream.fresh])⟩

theorem finished_parses {input : Bytes}
    (finished : (Stream.run sizeT (Stream.fresh profile limits capacity) input).1.finish.1 = .ok)
    (size : input.length ≤ limits.maxInput) :
    ∃ items, Parses sizeT profile limits capacity input items := by
  have follows := @Stream.run_follows sizeT (Stream.fresh profile limits capacity) input
  unfold Stream.finish at finished
  split at finished
  · rename_i failed
    exact absurd finished failed
  rename_i ok
  split at finished
  · cases finished
  rename_i complete
  simp only [Stream.unfinished, Bool.or_eq_true, decide_eq_true_eq, not_or, not_not,
    Bool.not_eq_true] at complete
  obtain ⟨base, current, count, same, parsed⟩ := run_reads
    (fresh_reads sizeT profile limits capacity)
    (fun busy => absurd busy (by simp [Stream.fresh])) (not_not.mp ok)
  obtain ⟨elements, empty, -⟩ := parsed.header complete.1.2
  have zipper := parsed.zipper
  have within := parsed.elements
  rw [complete.2, follows.profile, follows.limits, follows.capacity] at zipper
  rw [elements, follows.limits] at within
  rw [empty, complete.1.1, List.append_nil, List.nil_append] at same
  cases zipper with
  | @root items wellFormed depth => exact ⟨items, same.symm, wellFormed, within, depth, size⟩

end TinyCrypto.Tlv
