import TinyCrypto.Tlv.StreamBytes

/-! # Chunks of a stream

Feeding chunks and feeding their bytes leave the same stream and, merged, the
same events. The final result of a stream and its events do not depend on where
its input is cut.
-/

namespace TinyCrypto.Tlv

def Filled (events : List Event) : Prop := ∀ e ∈ events, e.kind = .value → e.bytes ≠ []

namespace Stream

variable {sizeT : Nat} {s : Stream} {chunk : Bytes}

theorem filled_plain {events : List Event} (plain : ∀ e ∈ events, e.kind ≠ .value) :
    Filled events := fun e member value => absurd value (plain e member)

theorem filled_append {first second : List Event} (here : Filled first) (later : Filled second) :
    Filled (first ++ second) := by
  intro e member
  rcases List.mem_append.mp member with member | member
  · exact here e member
  · exact later e member

theorem deliver_filled {bytes : Bytes} (full : bytes ≠ []) : Filled (s.deliver bytes).2 := by
  have value : Filled [⟨.value, s.offset, s.frames.length, none, bytes⟩] := by
    intro e member _
    rw [List.mem_singleton.mp member]
    exact full
  rw [deliver_eq]
  split
  · rw [close, closeDefinite_eq]
    refine filled_append (filled_append value (filled_plain ?_))
      (filled_plain (closeFrames_no_value _ _))
    intro e member
    rw [List.mem_singleton.mp member]
    simp
  · exact value

theorem deliver_header (bytes : Bytes) : (s.deliver bytes).1.header = s.header := by
  rw [deliver_eq]
  split
  · rfl
  · rfl

/-- What a pass over the chunk at `p` leaves. -/
structure Passed (sizeT : Nat) (chunk : Bytes) (p : Nat) (s : Stream)
    (pass : Nat × Stream × List Event) : Prop where
  run : run sizeT s (chunk.drop p) = ((run sizeT pass.2.1 (chunk.drop pass.1)).1,
      splits pass.2.2 ++ (Stream.run sizeT pass.2.1 (chunk.drop pass.1)).2)
  advance : pass.2.1.error = .ok → p < pass.1 ∧ pass.1 ≤ chunk.length ∧
    Matches chunk pass.1 pass.2.1.header
  filled : Filled pass.2.2

theorem Passed.failed {p next : Nat} {e : Result} {s' : Stream} (here : p < chunk.length)
    (step : s.byteStep sizeT (chunk.getD p 0) = (s'.fail e, [])) (failed : e ≠ .ok) :
    Passed sizeT chunk p s (next, s'.fail e, []) := by
  refine ⟨?_, fun ok => absurd ok failed, by simp [Filled]⟩
  have bad : (s'.fail e).error ≠ .ok := failed
  have cons : chunk.drop p = chunk.getD p 0 :: chunk.drop (p + 1) := by
    rw [List.drop_eq_getElem_cons here, List.getD_eq_getElem?_getD, List.getElem?_eq_getElem here]
    rfl
  rw [cons, run_cons, step, run_failed bad, run_failed bad]
  rfl

theorem Passed.byte {p : Nat} {after : Stream × List Event} (here : p < chunk.length)
    (step : s.byteStep sizeT (chunk.getD p 0) = after) (plain : ∀ e ∈ after.2, e.kind ≠ .value)
    (matched : after.1.error = .ok → Matches chunk (p + 1) after.1.header) :
    Passed sizeT chunk p s (p + 1, after) := by
  refine ⟨?_, fun ok => ⟨Nat.lt_succ_self p, here, matched ok⟩, filled_plain plain⟩
  have cons : chunk.drop p = chunk.getD p 0 :: chunk.drop (p + 1) := by
    rw [List.drop_eq_getElem_cons here, List.getD_eq_getElem?_getD, List.getElem?_eq_getElem here]
    rfl
  rw [cons, run_cons, step, splits_of_no_value plain]

theorem feedPass_passed {p : Nat} (here : p < chunk.length) (ok : s.error = .ok)
    (inside : s.Inside) (matched : Matches chunk p s.header) :
    Passed sizeT chunk p s (s.feedPass sizeT chunk p) := by
  unfold feedPass
  split
  · rename_i late
    refine Passed.failed here ?_ (boundaryError_ne s)
    rw [byteStep, if_neg (not_not.mpr ok), if_pos late]
  rename_i early
  split
  · rename_i busy
    obtain ⟨left, fits, bare⟩ := inside busy
    have room : ¬ min (chunk.length - p) s.remaining > s.bound - s.offset := by omega
    simp only [if_neg room]
    have size : ((chunk.drop p).take (min (chunk.length - p) s.remaining)).length =
        min (chunk.length - p) s.remaining := by
      rw [List.length_take, List.length_drop]
      omega
    have full : (chunk.drop p).take (min (chunk.length - p) s.remaining) ≠ [] := by
      intro empty
      rw [empty, List.length_nil] at size
      omega
    refine ⟨?_, ?_, deliver_filled full⟩
    · have parts : chunk.drop p = (chunk.drop p).take (min (chunk.length - p) s.remaining) ++
          chunk.drop (p + min (chunk.length - p) s.remaining) := by
        rw [← List.drop_drop, List.take_append_drop]
      rw [parts, run_append, deliver_run ok inside busy full (by rw [size]; exact Nat.min_le_right _ _)]
      simp
    · intro _
      refine ⟨by omega, by omega, ?_⟩
      rw [deliver_header, bare]
      exact matches_nil _ _
  split
  · rename_i fresh padded
    refine Passed.byte here ?_ (by simp) ?_
    · rw [byteStep, if_neg (not_not.mpr ok), if_neg early, if_neg fresh, if_pos padded]
    · intro _
      simp only [Bool.and_eq_true, decide_eq_true_eq] at padded
      rw [List.length_eq_zero_iff.mp padded.1.2]
      exact matches_nil _ _
  · rename_i fresh unpadded
    have viewed := matches_push here matched
    have headed := @headerByte_headed sizeT s (chunk.getD p 0)
      (headerBytes chunk (p + 1)) (by simpa using fresh)
    refine Passed.byte here ?_ headed.plain ?_
    · rw [byteStep, if_neg (not_not.mpr ok), if_neg early, if_neg fresh, if_neg unpadded]
      exact (headerByte_view (headerBytes_matches viewed)).symm
    · intro good
      rcases headed.header good with empty | pushed
      · rw [empty]
        exact matches_nil _ _
      · rw [pushed]
        exact viewed

theorem feedPass_inside {p : Nat} (inside : s.Inside) : (s.feedPass sizeT chunk p).2.1.Inside := by
  unfold feedPass
  split
  · exact inside
  split
  · rename_i busy
    simp only
    split
    · exact inside
    · refine deliver_inside inside busy ?_
      rw [List.length_take]
      omega
  split
  · rename_i fresh _
    intro busy
    exact absurd busy fresh
  · rename_i fresh _
    exact (headerByte_headed (by simpa using fresh)).inside

theorem feedLoop_run {passes p : Nat} (enough : chunk.length - p ≤ passes) (ok : s.error = .ok)
    (inside : s.Inside) (matched : Matches chunk p s.header) :
    (s.feedLoop sizeT chunk passes p).1 = (run sizeT s (chunk.drop p)).1 ∧
      splits (s.feedLoop sizeT chunk passes p).2 = (run sizeT s (chunk.drop p)).2 ∧
      Filled (s.feedLoop sizeT chunk passes p).2 := by
  induction passes generalizing p s with
  | zero =>
    have done : chunk.drop p = [] := List.drop_eq_nil_of_le (by omega)
    rw [done]
    exact ⟨rfl, rfl, by simp [feedLoop, Filled]⟩
  | succ passes ih =>
    rw [feedLoop]
    split
    · rename_i here
      have passed := @feedPass_passed sizeT s chunk p here ok inside matched
      have inside' := @feedPass_inside sizeT s chunk p inside
      generalize s.feedPass sizeT chunk p = pass at passed inside'
      obtain ⟨next, s', events⟩ := pass
      rw [passed.run]
      simp only
      split
      · rename_i failed
        rw [run_failed failed]
        exact ⟨rfl, (List.append_nil _).symm, passed.filled⟩
      · rename_i good
        obtain ⟨further, within, matched'⟩ := passed.advance (not_not.mp good)
        obtain ⟨same, later, filled⟩ := @ih s' next (by omega) (not_not.mp good) inside' matched'
        refine ⟨same, ?_, filled_append passed.filled filled⟩
        rw [splits_append, later]
    · rename_i done
      rw [List.drop_eq_nil_of_le (by omega)]
      exact ⟨rfl, rfl, by simp [Filled]⟩

/-- The answer of `feed` on the stream it left. -/
def status (s : Stream) : Result :=
  if s.error ≠ .ok then s.error else if s.unfinished then .more else .ok

theorem feed_run (inside : s.Inside) (going : s.finished = false)
    (room : s.error = .ok → s.offset + chunk.length ≤ s.limits.maxInput) :
    (s.feed sizeT chunk).1 = (run sizeT s chunk).1.status ∧
      (s.feed sizeT chunk).2.1 = (run sizeT s chunk).1 ∧
      splits (s.feed sizeT chunk).2.2 = (run sizeT s chunk).2 ∧
      Filled (s.feed sizeT chunk).2.2 := by
  unfold feed
  split
  · rename_i failed
    rw [run_failed failed]
    refine ⟨?_, rfl, rfl, by simp [Filled]⟩
    rw [status, if_pos failed]
  rename_i good
  have ok := not_not.mp good
  have fits := room ok
  have within : ¬ (decide (s.offset > s.limits.maxInput) ||
      decide (chunk.length > s.limits.maxInput - s.offset)) = true := by
    simp only [Bool.or_eq_true, decide_eq_true_eq, not_or, Nat.not_lt]
    omega
  have going' : ¬ s.finished = true := by
    rw [going]
    decide
  rw [if_neg going', if_neg within]
  obtain ⟨same, later, filled⟩ :=
    @feedLoop_run sizeT s chunk chunk.length 0 (by omega) ok inside (by
      intro short
      rw [List.length_eq_zero_iff.mp (Nat.le_zero.mp short)]
      rfl)
  rw [List.drop_zero] at same later
  rw [← same, ← later]
  simp only [status]
  split
  · rename_i failed
    exact ⟨rfl, rfl, rfl, filled⟩
  · split
    · exact ⟨rfl, rfl, rfl, filled⟩
    · exact ⟨rfl, rfl, rfl, filled⟩

def feedAll (sizeT : Nat) : Stream → List Bytes → List Result × Stream × List Event
  | s, [] => ([], s, [])
  | s, chunk :: rest =>
    let (result, s, events) := s.feed sizeT chunk
    let (results, s, later) := feedAll sizeT s rest
    (result :: results, s, events ++ later)

/-- The first error of the feeds, or the result of `finish`. -/
def verdict (results : List Result) (s : Stream) : Result :=
  (results.find? fun result => result ≠ .ok && result ≠ .more).getD s.finish.1

theorem finish_failed (failed : s.error ≠ .ok) : s.finish.1 = s.error := by
  rw [finish, if_pos failed]

theorem feedAll_run {chunks : List Bytes} (inside : s.Inside) (going : s.finished = false)
    (room : s.error = .ok → s.offset + chunks.flatten.length ≤ s.limits.maxInput) :
    verdict (s.feedAll sizeT chunks).1 (s.feedAll sizeT chunks).2.1 =
        (run sizeT s chunks.flatten).1.finish.1 ∧
      splits (s.feedAll sizeT chunks).2.2 = (run sizeT s chunks.flatten).2 ∧
      Filled (s.feedAll sizeT chunks).2.2 := by
  induction chunks generalizing s with
  | nil => exact ⟨rfl, rfl, by simp [feedAll, Filled]⟩
  | cons chunk rest ih =>
    simp only [List.flatten_cons, List.length_append] at room
    have begun : (run sizeT s chunk).1.error = .ok → s.error = .ok := by
      intro ok
      by_contra failed
      rw [run_failed failed] at ok
      exact failed ok
    obtain ⟨told, same, split, filled⟩ :=
      @feed_run sizeT s chunk inside going fun ok => by have := room ok; omega
    have follows := @run_follows sizeT s chunk
    obtain ⟨final, later, filled'⟩ := @ih (run sizeT s chunk).1 (run_inside inside chunk)
      (follows.finished.trans going) (by
        intro ok
        have fits := room (begun ok)
        rw [follows.offset ok, follows.limits]
        omega)
    have step : s.feedAll sizeT (chunk :: rest) = ((run sizeT s chunk).1.status ::
            ((run sizeT s chunk).1.feedAll sizeT rest).1,
          ((run sizeT s chunk).1.feedAll sizeT rest).2.1,
          (s.feed sizeT chunk).2.2 ++ ((run sizeT s chunk).1.feedAll sizeT rest).2.2) := by
      rw [← told, ← same]
      rfl
    rw [step, List.flatten_cons, run_append]
    refine ⟨?_, ?_, filled_append filled filled'⟩
    · by_cases failed : (run sizeT s chunk).1.error = .ok
      · have passes : ((run sizeT s chunk).1.status ≠ .ok &&
            (run sizeT s chunk).1.status ≠ .more) = false := by
          rw [status, if_neg (not_not.mpr failed)]
          split <;> rfl
        simp only [verdict, List.find?_cons, passes]
        exact final
      · have stays := @run_failed sizeT (run sizeT s chunk).1 failed rest.flatten
        simp only [stays]
        rw [finish_failed failed]
        rw [stays, finish_failed failed] at final
        simp only [verdict, List.find?_cons, status, if_pos failed] at final ⊢
        split
        · rfl
        · exact final
    · simp only [splits_append, split, later]

theorem fresh_inside (profile : Profile) (limits : Limits) (capacity : Nat) :
    (fresh profile limits capacity).Inside := fun busy => absurd busy (by simp [fresh])

end Stream

/-- A stream over chunks from its start to `TC_TLV_stream_finish`: the final
    result and the events. -/
def streamChunks (ber : Bool) (sizeT : Nat) (profile : Profile) (limits : Limits)
    (capacity : Nat) (chunks : List Bytes) : Result × List Event :=
  match streamInit ber profile limits capacity with
  | .error e => (e, [])
  | .ok s =>
    let (results, s, events) := s.feedAll sizeT chunks
    (s.verdict results, events)

theorem walk_eq_streamChunks (ber : Bool) (sizeT : Nat) (profile : Profile) (limits : Limits)
    (capacity : Nat) (input : Bytes) : walk ber sizeT profile limits capacity input =
      streamChunks ber sizeT profile limits capacity [input] := by
  unfold walk streamChunks
  cases streamInit ber profile limits capacity with
  | error e => rfl
  | ok s =>
    simp only [Stream.feedAll, Stream.verdict, List.find?_cons, List.append_nil]
    cases (s.feed sizeT input).1 ≠ .ok && (s.feed sizeT input).1 ≠ .more with
    | true => rfl
    | false => rfl

/-- Where the input is cut changes neither the result nor the events, once
    consecutive VALUE events are concatenated. -/
theorem stream_chunks_invariant (ber : Bool) (sizeT : Nat) (profile : Profile)
    (limits : Limits) (capacity : Nat) (input : Bytes) (chunks : List Bytes)
    (cut : chunks.flatten = input) (fits : input.length ≤ limits.maxInput) :
    (streamChunks ber sizeT profile limits capacity chunks).1 =
        (walk ber sizeT profile limits capacity input).1 ∧
      merge (streamChunks ber sizeT profile limits capacity chunks).2 =
        merge (walk ber sizeT profile limits capacity input).2 := by
  rw [walk_eq_streamChunks]
  unfold streamChunks
  cases start : streamInit ber profile limits capacity with
  | error e => exact ⟨rfl, rfl⟩
  | ok s =>
    obtain rfl : Stream.fresh profile limits capacity = s := by
      unfold streamInit at start
      split at start
      · exact Except.ok.inj start
      · cases start
    have inside := Stream.fresh_inside profile limits capacity
    have room : ∀ chunks : List Bytes, chunks.flatten = input →
        (Stream.fresh profile limits capacity).offset + chunks.flatten.length ≤
          (Stream.fresh profile limits capacity).limits.maxInput := by
      intro chunks same
      rw [same]
      simpa [Stream.fresh] using fits
    have whole : [input].flatten = input := by simp
    obtain ⟨verdict, split, filled⟩ :=
      @Stream.feedAll_run sizeT _ chunks inside rfl fun _ => room chunks cut
    obtain ⟨verdict', split', filled'⟩ :=
      @Stream.feedAll_run sizeT _ [input] inside rfl fun _ => room [input] whole
    rw [cut] at verdict split
    rw [whole] at verdict' split'
    simp only
    refine ⟨verdict.trans verdict'.symm, ?_⟩
    rw [← merge_splits filled, ← merge_splits filled', split, split']

/-- An indefinite object whose header, value and end-of-contents octets are all cut. -/
theorem stream_chunks_invariant_cut :
    (streamChunks true 8 .ber ⟨16, 16, 4, 4⟩ 2 [[0x30], [0x80, 0x04], [], [0x02, 0], [0, 0], [0]]).1 =
        (walk true 8 .ber ⟨16, 16, 4, 4⟩ 2 [0x30, 0x80, 0x04, 0x02, 0, 0, 0, 0]).1 ∧
      merge (streamChunks true 8 .ber ⟨16, 16, 4, 4⟩ 2
          [[0x30], [0x80, 0x04], [], [0x02, 0], [0, 0], [0]]).2 =
        merge (walk true 8 .ber ⟨16, 16, 4, 4⟩ 2 [0x30, 0x80, 0x04, 0x02, 0, 0, 0, 0]).2 :=
  stream_chunks_invariant true 8 .ber ⟨16, 16, 4, 4⟩ 2 _ _ rfl (by decide)

end TinyCrypto.Tlv
