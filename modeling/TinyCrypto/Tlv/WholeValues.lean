import TinyCrypto.Tlv.WalkValues

/-! # Whole values

A walk over one complete input delivers each value that is not empty as one VALUE
event: the values delivered are the primitive contents, in order.
-/

namespace TinyCrypto.Tlv

mutual

def Tree.contents : Tree → List Bytes
  | .primitive _ _ value => [value]
  | .constructed _ _ children => contentsAll children

def contentsAll : List Tree → List Bytes
  | [] => []
  | t :: rest => t.contents ++ contentsAll rest

end

mutual

theorem contents_flatten : (t : Tree) → t.contents.flatten = t.octets
  | .primitive _ _ value => by simp [Tree.contents, Tree.octets]
  | .constructed _ _ children => by
    rw [Tree.contents, Tree.octets]
    exact contentsAll_flatten children

theorem contentsAll_flatten : (trees : List Tree) → (contentsAll trees).flatten = octetsAll trees
  | [] => rfl
  | t :: rest => by
    rw [contentsAll, octetsAll, List.flatten_append, contents_flatten t, contentsAll_flatten rest]

end

mutual

theorem octets_length : (t : Tree) → t.octets.length ≤ t.encode.length
  | .primitive _ head value => by simp [Tree.octets, Tree.encode]
  | .constructed h head children => by
    have inner := octetsAll_length children
    simp only [Tree.octets, Tree.encode, List.length_append]
    omega

theorem octetsAll_length : (trees : List Tree) → (octetsAll trees).length ≤ (encodeAll trees).length
  | [] => Nat.le_refl _
  | t :: rest => by
    have here := octets_length t
    have later := octetsAll_length rest
    simp only [octetsAll, encodeAll, List.length_append]
    omega

end

def announced (e : Event) : Option Nat := match e.kind, e.header with
  | .begin, some h => if h.constructed = false ∧ h.length ≠ 0 then some h.length else none
  | _, _ => none

def lengths (events : List Event) : List Nat := events.filterMap announced

def sizes (events : List Event) : List Nat := (values events).map List.length

@[simp] theorem lengths_append (first second : List Event) :
    lengths (first ++ second) = lengths first ++ lengths second := List.filterMap_append

@[simp] theorem sizes_append (first second : List Event) :
    sizes (first ++ second) = sizes first ++ sizes second := by
  simp [sizes, values]

theorem announced_value {e : Event} (value : e.kind = .value) : announced e = none := by
  simp [announced, value]

theorem lengths_framing (events : List Event) : lengths (framing events) = lengths events := by
  induction events with
  | nil => rfl
  | cons e rest ih =>
    by_cases value : e.kind = .value
    · rw [framing, List.filter_cons_of_neg (by simp [value]), lengths, lengths,
        List.filterMap_cons_none (announced_value value)]
      exact ih
    · rw [framing, List.filter_cons_of_pos (by simp [value]), lengths, lengths, List.filterMap_cons,
        List.filterMap_cons]
      rw [lengths, lengths, framing] at ih
      rw [ih]

mutual

theorem lengths_events {sizeT maxValue : Nat} {profile : Profile} :
    (t : Tree) → t.WellFormed sizeT profile maxValue → (offset depth : Nat) →
    lengths (t.events offset depth) = (t.contents.filter (· ≠ [])).map List.length
  | .primitive h head value, wellFormed, offset, depth => by
    rw [Tree.WellFormed] at wellFormed
    obtain ⟨-, plain, size⟩ := wellFormed
    by_cases empty : value = []
    · have none : h.length = 0 := by rw [← size, empty, List.length_nil]
      simp [Tree.events, Tree.contents, lengths, announced, empty, none]
    · have some : h.length ≠ 0 := by
        rw [← size]
        exact fun zero => empty (List.length_eq_zero_iff.mp zero)
      simp [Tree.events, Tree.contents, lengths, announced, plain, some, empty, size]
  | .constructed h head children, wellFormed, offset, depth => by
    rw [Tree.WellFormed] at wellFormed
    obtain ⟨-, constructed, -, -, inner⟩ := wellFormed
    have forest := lengthsAll_events children inner (offset + head.length) (depth + 1)
    rw [Tree.events, Tree.contents, ← forest, ← List.singleton_append, lengths_append, lengths_append]
    simp [lengths, announced, constructed]

theorem lengthsAll_events {sizeT maxValue : Nat} {profile : Profile} :
    (trees : List Tree) → AllWellFormed sizeT profile maxValue trees → (offset depth : Nat) →
    lengths (eventsAll offset depth trees) = ((contentsAll trees).filter (· ≠ [])).map List.length
  | [], _, _, _ => rfl
  | t :: rest, wellFormed, offset, depth => by
    rw [AllWellFormed] at wellFormed
    rw [eventsAll, contentsAll, lengths_append, lengths_events t wellFormed.1 offset depth,
      lengthsAll_events rest wellFormed.2 _ depth, List.filter_append, List.map_append]

end

namespace Stream

variable {sizeT : Nat} {chunk : Bytes} {s : Stream}

def pending (s : Stream) : List Nat := if s.primitive then [s.remaining] else []

theorem lengths_closeFrames (offset : Nat) (frames : List Frame) :
    lengths (closeFrames offset frames).2 = [] := by
  induction frames with
  | nil => rfl
  | cons frame rest ih =>
    rw [closeFrames]
    split
    · exact ih
    · rfl

theorem sizes_no_value {events : List Event} (plain : ∀ e ∈ events, e.kind ≠ .value) :
    sizes events = [] := by
  have none : events.filter (fun e => e.kind = .value) = [] :=
    List.filter_eq_nil_iff.mpr fun e member => by simpa using plain e member
  rw [sizes, values, none]
  rfl

theorem sizes_closeFrames (offset : Nat) (frames : List Frame) :
    sizes (closeFrames offset frames).2 = [] := sizes_no_value (closeFrames_no_value offset frames)

theorem closeDefinite_lengths (s : Stream) (before : List Event) :
    lengths (s.closeDefinite before).2 = lengths before ∧
      sizes (s.closeDefinite before).2 = sizes before ∧
      (s.closeDefinite before).1.pending = s.pending := by
  rw [closeDefinite_eq, lengths_append, sizes_append, lengths_closeFrames, sizes_closeFrames,
    List.append_nil, List.append_nil]
  exact ⟨rfl, rfl, rfl⟩

theorem close_lengths (s : Stream) (offset : Nat) (bytes : Bytes) (before : List Event) :
    lengths (s.close offset bytes before).2 = lengths before ∧
      sizes (s.close offset bytes before).2 = sizes before ∧
      (s.close offset bytes before).1.pending = s.pending := by
  obtain ⟨announces, delivers, left⟩ :=
    closeDefinite_lengths s (before ++ [⟨.close, offset, s.frames.length, none, bytes⟩])
  refine ⟨announces.trans ?_, delivers.trans ?_, left⟩
  · simp [lengths, announced]
  · simp [sizes, values]

theorem headerByte_lengths {view : Bytes → Bytes} {b : UInt8} (fresh : s.primitive = false)
    (ok : (s.headerByte sizeT view b).1.error = .ok) : sizes (s.headerByte sizeT view b).2 = [] ∧
      (s.headerByte sizeT view b).1.pending = lengths (s.headerByte sizeT view b).2 := by
  refine ⟨sizes_no_value (headerByte_headed fresh).plain, ?_⟩
  revert ok
  rw [headerByte]
  split
  · intro ok
    cases ok
  dsimp only
  split
  · rw [endOfContents]
    split
    · intro ok
      cases ok
    split
    · intro ok
      cases ok
    split
    · intro _
      simp [pending, fresh, lengths]
    split
    · intro ok
      cases ok
    split
    · intro ok
      cases ok
    · intro _
      obtain ⟨announces, -, left⟩ := close_lengths
        { s with offset := s.offset + 1, frames := _, header := [] } (s.offset + 1 - 2)
        (view (s.header ++ [b])) []
      rw [announces, left]
      simp [pending, fresh, lengths]
  · split
    · intro _
      simp [pending, fresh, lengths]
    · rename_i e _ failed
      intro ok
      have none : e = .ok := ok
      exact absurd (none ▸ failed) (headerParse_failed _ _ _)
    · rename_i h parsed
      rw [enter]
      split
      · intro ok
        cases ok
      split
      · intro ok
        exact absurd ok (boundaryError_ne _)
      split
      · intro ok
        cases ok
      split
      · rename_i constructed
        intro _
        obtain ⟨announces, -, left⟩ := closeDefinite_lengths _ _
        rw [announces, left]
        simp [pending, fresh, lengths, announced, constructed]
      · rename_i plain
        split
        · rename_i some
          intro _
          simp [pending, lengths, announced, plain, some]
        · rename_i none
          intro _
          obtain ⟨announces, -, left⟩ := close_lengths _ _ _ _
          rw [announces, left]
          simp [pending, fresh, lengths, announced, none]

theorem feedPass_lengths {p : Nat} (ok : (s.feedPass sizeT chunk p).2.1.error = .ok) :
    sizes (s.feedPass sizeT chunk p).2.2 ++ (s.feedPass sizeT chunk p).2.1.pending =
        s.pending ++ lengths (s.feedPass sizeT chunk p).2.2 ∨
      chunk.length ≤ (s.feedPass sizeT chunk p).1 ∧
        (s.feedPass sizeT chunk p).2.1.primitive = true := by
  revert ok
  rw [feedPass]
  split
  · exact fun ok => absurd ok (boundaryError_ne s)
  split
  · rename_i busy
    dsimp only
    split
    · exact fun ok => absurd ok (boundaryError_ne s)
    intro _
    have size : ((chunk.drop p).take (min (chunk.length - p) s.remaining)).length =
        min (chunk.length - p) s.remaining := by
      rw [List.length_take, List.length_drop]
      omega
    rw [deliver]
    dsimp only
    split
    · rename_i whole
      refine .inl ?_
      obtain ⟨announces, delivers, left⟩ := close_lengths _ _ _ _
      rw [announces, delivers, left]
      have all : s.remaining ≤ chunk.length - p := by omega
      simp [pending, busy, sizes, values, lengths, announced, all]
    · rename_i part
      exact .inr ⟨by omega, busy⟩
  · rename_i fresh
    have idle : s.primitive = false := by simpa using fresh
    split
    · intro _
      exact .inl (by simp [sizes, values, pending, idle, lengths])
    · intro ok
      obtain ⟨delivers, left⟩ := headerByte_lengths idle ok
      refine .inl ?_
      rw [delivers, left]
      simp [pending, idle]

theorem feedLoop_done {passes p : Nat} (ended : chunk.length ≤ p) :
    s.feedLoop sizeT chunk passes p = (s, []) := by
  cases passes with
  | zero => rfl
  | succ passes => rw [feedLoop, if_neg (Nat.not_lt.mpr ended)]

theorem feedLoop_lengths {passes p : Nat} (ok : (s.feedLoop sizeT chunk passes p).1.error = .ok)
    (idle : (s.feedLoop sizeT chunk passes p).1.primitive = false) :
    sizes (s.feedLoop sizeT chunk passes p).2 =
      s.pending ++ lengths (s.feedLoop sizeT chunk passes p).2 := by
  induction passes generalizing p s with
  | zero =>
    rw [feedLoop] at idle ⊢
    have idle : s.primitive = false := idle
    simp [sizes, values, lengths, pending, idle]
  | succ passes ih =>
    revert ok idle
    rw [feedLoop]
    split
    · dsimp only
      split
      · rename_i failed
        exact fun ok => absurd ok failed
      rename_i going
      intro ok idle
      have pass := feedPass_lengths (not_not.mp going)
      rw [sizes_append, lengths_append, ih ok idle]
      obtain begun | ⟨ended, busy⟩ := pass
      · rw [← List.append_assoc, begun, List.append_assoc]
      · rw [feedLoop_done ended] at idle
        exact absurd (idle.symm.trans busy) (by decide)
    · intro _ idle
      have idle : s.primitive = false := idle
      simp [sizes, values, lengths, pending, idle]

end Stream

theorem walk_lengths {ber : Bool} {sizeT : Nat} {profile : Profile} {limits : Limits}
    {capacity : Nat} {input : Bytes} (accepted : (walk ber sizeT profile limits capacity input).1 = .ok) :
    sizes (walk ber sizeT profile limits capacity input).2 =
      lengths (walk ber sizeT profile limits capacity input).2 := by
  have configured := ((walk_ok_iff ber sizeT profile limits capacity input).mp accepted).1
  revert accepted
  rw [walk, streamInit_ok configured]
  dsimp only
  rw [Stream.feed]
  split
  · rename_i failed
    exact absurd rfl failed
  split
  · intro accepted
    cases accepted
  split
  · exact fun _ => rfl
  dsimp only
  have loop := @Stream.feedLoop_lengths sizeT input (Stream.fresh profile limits capacity) input.length 0
  generalize (Stream.fresh profile limits capacity).feedLoop sizeT input input.length 0 = fed at loop
  obtain ⟨s, events⟩ := fed
  dsimp only at loop ⊢
  split
  · rename_i failed
    intro accepted
    split at accepted
    · exact absurd accepted failed
    · rw [Stream.finish, if_pos failed] at accepted
      exact absurd accepted failed
  rename_i ok
  split
  · rename_i unfinished
    intro accepted
    rw [if_neg (by simp), Stream.finish, if_neg ok, if_pos unfinished] at accepted
    exact absurd accepted (by simp)
  · rename_i finished
    intro _
    have idle : s.primitive = false := by
      simp only [Stream.unfinished, Bool.or_eq_true, not_or] at finished
      simpa using finished.1.2
    rw [if_neg (by simp)]
    exact loop (not_not.mp ok) idle

theorem walk_values {ber : Bool} {sizeT : Nat} {profile : Profile} {limits : Limits}
    {capacity : Nat} {input : Bytes} {t : Tree}
    (accepted : (walk ber sizeT profile limits capacity input).1 = .ok)
    (parses : Parses sizeT profile limits capacity input [.object t]) :
    values (walk ber sizeT profile limits capacity input).2 = t.contents.filter (· ≠ []) := by
  have framed := walk_framing accepted parses
  have joined := (walk_object accepted parses).1
  rw [List.eq_iff_flatten_eq]
  refine ⟨?_, ?_⟩
  · rw [List.flatten_filter_ne_nil, contents_flatten]
    exact joined
  · have events : lengths (walk ber sizeT profile limits capacity input).2 =
        (t.contents.filter (· ≠ [])).map List.length := by
      rw [← lengths_framing, framed, eventsItems, eventsItems, List.append_nil]
      exact lengths_events t (parses.wellFormed (.object t) (by simp)) 0 0
    rw [← events]
    exact walk_lengths accepted

end TinyCrypto.Tlv
