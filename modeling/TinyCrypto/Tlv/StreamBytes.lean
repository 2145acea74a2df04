import TinyCrypto.Tlv.Stream

/-! # The stream one byte at a time

`run` feeds single bytes. A chunk leaves the stream that its bytes leave, with
the same events when each VALUE is cut into its bytes, so the cuts between
chunks do not matter.
-/

namespace TinyCrypto.Tlv

namespace Stream

def byteStep (sizeT : Nat) (s : Stream) (b : UInt8) : Stream × List Event :=
  if s.error ≠ .ok then (s, [])
  else if s.offset ≥ s.bound then (s.fail s.boundaryError, [])
  else if s.primitive then s.deliver [b]
  else if s.frames.length = 0 && s.header.length = 0 && padding s.profile b then
    ({ s with offset := s.offset + 1 }, [])
  else s.headerByte sizeT id b

def run (sizeT : Nat) : Stream → Bytes → Stream × List Event
  | s, [] => (s, [])
  | s, b :: rest =>
    let (s, events) := s.byteStep sizeT b
    let (s, later) := run sizeT s rest
    (s, events ++ later)

/-- A primitive in progress lies inside the innermost frame, and no header is
    accumulated. -/
def Inside (s : Stream) : Prop :=
  s.primitive = true → 0 < s.remaining ∧ s.offset + s.remaining ≤ s.bound ∧ s.header = []

structure Follows (count : Nat) (s s' : Stream) : Prop where
  profile : s'.profile = s.profile
  limits : s'.limits = s.limits
  capacity : s'.capacity = s.capacity
  finished : s'.finished = s.finished
  offset : s'.error = .ok → s'.offset = s.offset + count

end Stream

def Event.cut (event : Event) : Nat → Bytes → List Event
  | _, [] => []
  | offset, b :: rest =>
    { event with offset := offset, bytes := [b] } :: event.cut (offset + 1) rest

def Event.split (event : Event) : List Event :=
  if event.kind = .value then event.cut event.offset event.bytes else [event]

def splits (events : List Event) : List Event := events.flatMap Event.split

def Event.join (event : Event) : List Event → List Event
  | next :: rest =>
    if event.kind = .value && next.kind = .value then
      { event with bytes := event.bytes ++ next.bytes } :: rest
    else event :: next :: rest
  | [] => [event]

def merge : List Event → List Event
  | [] => []
  | event :: rest => event.join (merge rest)

@[simp] theorem splits_nil : splits [] = [] := rfl

variable {sizeT : Nat}

@[simp] theorem splits_append (first second : List Event) :
    splits (first ++ second) = splits first ++ splits second :=
  List.flatMap_append

theorem splits_of_no_value {events : List Event} (plain : ∀ e ∈ events, e.kind ≠ .value) :
    splits events = events := by
  induction events with
  | nil => rfl
  | cons e rest ih =>
    have here : e.split = [e] := if_neg (plain e (by simp))
    have later := ih fun e' member => plain e' (by simp [member])
    change e.split ++ splits rest = _
    rw [here, later]
    rfl

theorem merge_cut {event : Event} (value : event.kind = .value) (bytes : Bytes) (b : UInt8)
    (offset : Nat) (rest : List Event) :
    List.foldr Event.join rest (event.cut offset (b :: bytes)) =
      Event.join { event with offset := offset, bytes := b :: bytes } rest := by
  induction bytes generalizing b offset with
  | nil => rfl
  | cons c bytes ih =>
    rw [Event.cut, List.foldr_cons, ih]
    cases rest with
    | nil => simp [Event.join, value]
    | cons next rest =>
      by_cases more : next.kind = .value
      · simp [Event.join, value, more]
      · simp [Event.join, value, more]

theorem merge_eq_foldr (events : List Event) : merge events = List.foldr Event.join [] events := by
  induction events with
  | nil => rfl
  | cons e rest ih =>
    rw [merge, ih]
    rfl

theorem merge_splits {events : List Event} (filled : ∀ e ∈ events, e.kind = .value → e.bytes ≠ []) :
    merge (splits events) = merge events := by
  induction events with
  | nil => rfl
  | cons e rest ih =>
    have later := ih fun e' member => filled e' (by simp [member])
    rw [merge_eq_foldr] at later ⊢
    change List.foldr Event.join [] (e.split ++ splits rest) = _
    rw [List.foldr_append, later]
    by_cases value : e.kind = .value
    · obtain ⟨b, bytes, shape⟩ := List.exists_cons_of_ne_nil (filled e (by simp) value)
      have cut : e.split = e.cut e.offset (b :: bytes) := by
        rw [Event.split, if_pos value, shape]
      rw [cut, merge_cut value, ← shape]
      rfl
    · rw [show e.split = [e] from if_neg value]
      rfl

namespace Stream

theorem closeFrames_no_value (offset : Nat) (frames : List Frame) :
    ∀ e ∈ (closeFrames offset frames).2, e.kind ≠ .value := by
  induction frames with
  | nil => simp [closeFrames]
  | cons frame rest ih =>
    simp only [closeFrames]
    split
    · intro e member
      rcases List.mem_cons.mp member with rfl | member
      · simp
      · exact ih e member
    · simp

theorem closeDefinite_eq (s : Stream) (before : List Event) : s.closeDefinite before =
      ({ s with frames := (closeFrames s.offset s.frames).1 },
        before ++ (closeFrames s.offset s.frames).2) := rfl

variable {bytes : Bytes}

variable {before : List Event} {rest chunk : Bytes}

theorem splits_close {s : Stream} {offset : Nat} : splits (s.close offset bytes before).2 =
      splits before ++ (⟨.close, offset, s.frames.length, none, bytes⟩ ::
        (closeFrames s.offset s.frames).2) := by
  have plain : splits (closeFrames s.offset s.frames).2 = (closeFrames s.offset s.frames).2 :=
    splits_of_no_value (closeFrames_no_value _ _)
  rw [close, closeDefinite_eq]
  simp only [splits_append, plain, List.append_assoc]
  rfl

theorem Follows.refl (s : Stream) : Follows 0 s s := ⟨rfl, rfl, rfl, rfl, fun _ => rfl⟩

variable {e : Result}

theorem Follows.fail {s s' : Stream} {count count' : Nat} (follows : Follows count s s')
    (failed : e ≠ .ok) : Follows count' s (s'.fail e) :=
  ⟨follows.profile, follows.limits, follows.capacity, follows.finished, fun ok => absurd ok failed⟩

theorem boundaryError_ne (s : Stream) : s.boundaryError ≠ .ok := by
  unfold boundaryError
  split
  · decide
  · split <;> decide

structure Headed (s : Stream) (b : UInt8) (after : Stream × List Event) : Prop where
  follows : Follows 1 s after.1
  inside : after.1.Inside
  plain : ∀ e ∈ after.2, e.kind ≠ .value
  header : after.1.error = .ok → after.1.header = [] ∨ after.1.header = s.header ++ [b]

variable {s : Stream} {b : UInt8}

theorem Headed.failed {s' : Stream} {e : Result} {count : Nat} (follows : Follows count s s')
    (fresh : s'.primitive = false) (failed : e ≠ .ok) : Headed s b (s'.fail e, []) :=
  ⟨follows.fail failed, fun busy => absurd (fresh.symm.trans busy) (by decide), by simp,
    fun ok => absurd ok failed⟩

variable {s' : Stream}

theorem Headed.closed (follows : Follows 1 s s') (fresh : s'.primitive = false)
    (plain : ∀ e ∈ before, e.kind ≠ .value) (header : s'.header = []) :
    Headed s b (s'.closeDefinite before) := by
  rw [closeDefinite_eq]
  refine ⟨⟨follows.profile, follows.limits, follows.capacity, follows.finished, follows.offset⟩,
    fun busy => absurd (fresh.symm.trans busy) (by decide), ?_, fun _ => .inl header⟩
  intro e member
  rcases List.mem_append.mp member with member | member
  · exact plain e member
  · exact closeFrames_no_value _ _ e member

theorem enter_headed {h : ProfileHeader} (follows : Follows 1 s s') (fresh : s'.primitive = false) :
    Headed s b (s'.enter h bytes) := by
  unfold enter
  split
  · exact Headed.failed follows fresh (by decide)
  split
  · exact Headed.failed follows fresh (boundaryError_ne _)
  rename_i fits
  split
  · exact Headed.failed follows fresh (by decide)
  have follows' : ∀ frames remaining primitive, Follows 1 s
      { s' with
        elements := s'.elements + 1, header := [], frames := frames, remaining := remaining,
        primitive := primitive } := fun frames remaining primitive =>
    ⟨follows.profile, follows.limits, follows.capacity, follows.finished, follows.offset⟩
  simp only
  split
  · exact Headed.closed (follows' _ _ _) fresh (by simp) rfl
  split
  · rename_i full
    refine ⟨follows' _ _ _, ?_, by simp, fun _ => .inl rfl⟩
    intro _
    change 0 < h.length ∧ s'.offset + h.length ≤ s'.bound ∧ [] = []
    exact ⟨by omega, by omega, rfl⟩
  · exact Headed.closed (follows' _ _ _) fresh (by simp) rfl

theorem endOfContents_headed (follows : Follows 1 s s') (fresh : s'.primitive = false)
    (header : s'.header = s.header ++ [b]) : Headed s b (s'.endOfContents bytes) := by
  unfold endOfContents
  split
  · exact Headed.failed follows fresh (by decide)
  split
  · exact Headed.failed follows fresh (by decide)
  split
  · exact ⟨follows, fun busy => absurd (fresh.symm.trans busy) (by decide), by simp,
      fun _ => .inr header⟩
  split
  · exact Headed.failed follows fresh (by decide)
  split
  · exact Headed.failed follows fresh (by decide)
  · exact Headed.closed
      ⟨follows.profile, follows.limits, follows.capacity, follows.finished, follows.offset⟩
      fresh (by simp) rfl

def Misread (e : Result) : Prop := e = .more ∨ e = .limit ∨ e = .invalid

theorem tagOctets_error {limit p number : Nat} (failed : tagOctets limit p number rest = .error e) :
    Misread e := by
  induction rest generalizing p number with
  | nil =>
    cases failed
    exact .inl rfl
  | cons b rest ih =>
    simp only [tagOctets] at failed
    split at failed
    · cases failed
      exact .inr (.inl rfl)
    split at failed
    · cases failed
      exact .inr (.inr rfl)
    split at failed
    · cases failed
      exact .inr (.inl rfl)
    split at failed
    · split at failed
      · cases failed
        exact .inr (.inr rfl)
      · cases failed
    · exact ih failed

variable {profile : Profile}

theorem profileTag_error {first : UInt8} (failed : profileTag profile first rest = .error e) :
    Misread e := by
  unfold profileTag at failed
  split at failed
  · cases failed
    exact .inr (.inr rfl)
  split at failed
  · exact tagOctets_error failed
  split at failed
  · cases failed
    exact .inr (.inr rfl)
  · cases failed

theorem profileLength_error {constructed : Bool} {maxOctets : Nat} {input : Bytes}
    (failed : profileLength profile constructed maxOctets input = .error e) : Misread e := by
  cases input with
  | nil =>
    cases failed
    exact .inl rfl
  | cons b rest =>
    simp only [profileLength] at failed
    split at failed
    · cases failed
      exact .inr (.inr rfl)
    split at failed
    · split at failed
      · cases failed
        exact .inr (.inr rfl)
      · cases failed
    split at failed
    · cases failed
    split at failed
    · cases failed
      exact .inr (.inr rfl)
    split at failed
    · cases failed
      exact .inr (.inl rfl)
    split at failed
    · cases failed
      exact .inl rfl
    split at failed
    · cases failed
      exact .inr (.inr rfl)
    split at failed
    · rename_i octets
      cases failed
      exact .inr (.inl (lengthOctets_error octets))
    · split at failed
      · cases failed
        exact .inr (.inr rfl)
      · cases failed

theorem headerParse_error {maxValue : Nat} {input : Bytes}
    (failed : headerParse sizeT profile maxValue input = .error e) : Misread e := by
  cases input with
  | nil =>
    cases failed
    exact .inl rfl
  | cons first rest =>
    simp only [headerParse] at failed
    split at failed
    · rename_i tag
      cases failed
      exact profileTag_error tag
    split at failed
    · rename_i length
      cases failed
      exact profileLength_error length
    split at failed
    · cases failed
      exact .inr (.inl rfl)
    · cases failed

theorem headerParse_failed (profile : Profile) (maxValue : Nat) (input : Bytes) :
    headerParse sizeT profile maxValue input ≠ .error .ok := by
  intro failed
  have misread := headerParse_error failed
  simp [Misread] at misread

theorem headerByte_headed {view : Bytes → Bytes} (fresh : s.primitive = false) :
    Headed s b (s.headerByte sizeT view b) := by
  have follows : Follows 1 s { s with header := s.header ++ [b], offset := s.offset + 1 } :=
    ⟨rfl, rfl, rfl, rfl, fun _ => rfl⟩
  unfold headerByte
  split
  · exact Headed.failed (Follows.refl s) fresh (by decide)
  simp only
  split
  · exact endOfContents_headed follows fresh rfl
  split
  · exact ⟨follows, fun busy => absurd (fresh.symm.trans busy) (by decide), by simp,
      fun _ => .inr rfl⟩
  · rename_i e failed
    exact Headed.failed follows fresh fun ok => headerParse_failed _ _ _ (ok ▸ failed)
  · exact enter_headed follows fresh

theorem headerByte_view {view : Bytes → Bytes} (same : view (s.header ++ [b]) = s.header ++ [b]) :
    s.headerByte sizeT view b = s.headerByte sizeT id b := by
  simp only [headerByte, same, id]

theorem deliver_eq (s : Stream) (bytes : Bytes) : s.deliver bytes =
      if s.remaining - bytes.length = 0 then
        close { s with
            offset := s.offset + bytes.length, remaining := s.remaining - bytes.length,
            primitive := false } (s.offset + bytes.length) []
          [⟨.value, s.offset, s.frames.length, none, bytes⟩]
      else
        ({ s with
            offset := s.offset + bytes.length, remaining := s.remaining - bytes.length },
          [⟨.value, s.offset, s.frames.length, none, bytes⟩]) := rfl

theorem deliver_follows (bytes : Bytes) : Follows bytes.length s (s.deliver bytes).1 := by
  rw [deliver_eq]
  split
  · exact ⟨rfl, rfl, rfl, rfl, fun _ => rfl⟩
  · exact ⟨rfl, rfl, rfl, rfl, fun _ => rfl⟩

theorem deliver_inside (inside : s.Inside) (busy : s.primitive = true)
    (short : bytes.length ≤ s.remaining) : (s.deliver bytes).1.Inside := by
  rw [deliver_eq]
  split
  · intro primitive
    exact absurd primitive (by simp [close, closeDefinite_eq])
  · rename_i left
    intro _
    obtain ⟨_, fits, bare⟩ := inside busy
    change 0 < s.remaining - bytes.length ∧
      s.offset + bytes.length + (s.remaining - bytes.length) ≤ s.bound ∧ s.header = []
    exact ⟨by omega, by omega, bare⟩

theorem byteStep_follows (b : UInt8) : Follows 1 s (s.byteStep sizeT b).1 := by
  unfold byteStep
  split
  · rename_i failed
    exact ⟨rfl, rfl, rfl, rfl, fun ok => absurd ok failed⟩
  split
  · exact (Follows.refl s).fail (boundaryError_ne s)
  split
  · exact deliver_follows [b]
  split
  · exact ⟨rfl, rfl, rfl, rfl, fun _ => rfl⟩
  · rename_i fresh _
    exact (headerByte_headed (by simpa using fresh)).follows

theorem byteStep_inside (inside : s.Inside) (b : UInt8) : (s.byteStep sizeT b).1.Inside := by
  unfold byteStep
  split
  · exact inside
  split
  · exact inside
  split
  · rename_i busy
    exact deliver_inside inside busy (inside busy).1
  split
  · rename_i fresh _
    intro busy
    exact absurd busy fresh
  · rename_i fresh _
    exact (headerByte_headed (by simpa using fresh)).inside

theorem run_cons (s : Stream) (b : UInt8) (rest : Bytes) : run sizeT s (b :: rest) =
      ((run sizeT (s.byteStep sizeT b).1 rest).1,
        (s.byteStep sizeT b).2 ++ (run sizeT (s.byteStep sizeT b).1 rest).2) := rfl

theorem run_append (first second : Bytes) (s : Stream) : run sizeT s (first ++ second) =
      ((run sizeT (run sizeT s first).1 second).1,
        (run sizeT s first).2 ++ (run sizeT (run sizeT s first).1 second).2) := by
  induction first generalizing s with
  | nil => rfl
  | cons b rest ih => simp only [List.cons_append, run_cons, ih, List.append_assoc]

theorem run_failed (failed : s.error ≠ .ok) (bytes : Bytes) : run sizeT s bytes = (s, []) := by
  induction bytes with
  | nil => rfl
  | cons b rest ih =>
    have stays : s.byteStep sizeT b = (s, []) := if_pos failed
    rw [run_cons, stays, ih]
    rfl

theorem run_inside (inside : s.Inside) (bytes : Bytes) : (run sizeT s bytes).1.Inside := by
  induction bytes generalizing s with
  | nil => exact inside
  | cons b rest ih =>
    rw [run_cons]
    exact ih (byteStep_inside inside b)

theorem run_follows (bytes : Bytes) : Follows bytes.length s (run sizeT s bytes).1 := by
  induction bytes generalizing s with
  | nil => exact Follows.refl s
  | cons b rest ih =>
    have here := @byteStep_follows sizeT s b
    have later := @ih (s.byteStep sizeT b).1
    rw [run_cons]
    refine ⟨later.profile.trans here.profile, later.limits.trans here.limits,
      later.capacity.trans here.capacity, later.finished.trans here.finished, ?_⟩
    intro ok
    by_cases first : (s.byteStep sizeT b).1.error = .ok
    · rw [later.offset ok, here.offset first, List.length_cons]
      omega
    · rw [run_failed first] at ok
      exact absurd ok first

theorem byteStep_deliver (ok : s.error = .ok) (inside : s.Inside) (busy : s.primitive = true)
    (b : UInt8) : s.byteStep sizeT b = s.deliver [b] := by
  obtain ⟨left, fits, -⟩ := inside busy
  have early : ¬ s.offset ≥ s.bound := by omega
  rw [byteStep, if_neg (not_not.mpr ok), if_neg early, if_pos busy]

theorem splits_deliver (s : Stream) (bytes : Bytes) : splits (s.deliver bytes).2 =
      Event.cut ⟨.value, s.offset, s.frames.length, none, bytes⟩ s.offset bytes ++
        if s.remaining - bytes.length = 0 then
          ⟨.close, s.offset + bytes.length, s.frames.length, none, []⟩ ::
            (closeFrames (s.offset + bytes.length) s.frames).2 else [] := by
  rw [deliver_eq]
  split
  · rw [splits_close]
    simp [splits, Event.split]
  · simp [splits, Event.split]

theorem cut_bytes {event : Event} (offset : Nat) (bytes other : Bytes) (place : Nat) :
    Event.cut { event with offset := place, bytes := other } offset bytes =
      event.cut offset bytes := by
  induction bytes generalizing offset with
  | nil => rfl
  | cons b rest ih =>
    rw [Event.cut, Event.cut, ih]

theorem deliver_run {bytes : Bytes} (ok : s.error = .ok) (inside : s.Inside)
    (busy : s.primitive = true) (full : bytes ≠ []) (short : bytes.length ≤ s.remaining) :
    run sizeT s bytes = ((s.deliver bytes).1, splits (s.deliver bytes).2) := by
  induction bytes generalizing s with
  | nil => exact absurd rfl full
  | cons b rest ih =>
    rw [run_cons, byteStep_deliver ok inside busy]
    cases rest with
    | nil =>
      rw [splits_deliver, deliver_eq]
      refine Prod.ext rfl ?_
      split
      · simp [run, close, closeDefinite_eq, Event.cut]
      · simp [run, Event.cut]
    | cons c rest =>
      have left : s.remaining - [b].length ≠ 0 := by
        simp only [List.length_cons, List.length_nil] at short ⊢
        omega
      have inside' := deliver_inside inside busy
        (show [b].length ≤ s.remaining from (inside busy).1)
      rw [deliver_eq s [b], if_neg left] at inside' ⊢
      have short' : (c :: rest).length ≤ s.remaining - [b].length := by
        simp only [List.length_cons, List.length_nil] at short ⊢
        omega
      have later := @ih
        { s with offset := s.offset + [b].length, remaining := s.remaining - [b].length }
        ok inside' busy (by simp) short'
      simp only [later]
      rw [splits_deliver, splits_deliver, deliver_eq, deliver_eq]
      have offset : s.offset + [b].length + (c :: rest).length =
          s.offset + (b :: c :: rest).length := by
        simp only [List.length_cons, List.length_nil]
        omega
      have remaining : s.remaining - [b].length - (c :: rest).length =
          s.remaining - (b :: c :: rest).length := by
        simp only [List.length_cons, List.length_nil]
        omega
      simp only [offset, remaining]
      refine Prod.ext ?_ ?_
      · split
        · rfl
        · rfl
      · have same : Event.cut ⟨.value, s.offset + [b].length, s.frames.length, none, c :: rest⟩
            (s.offset + [b].length) (c :: rest) =
            Event.cut ⟨.value, s.offset, s.frames.length, none, b :: c :: rest⟩
              (s.offset + 1) (c :: rest) :=
          @cut_bytes ⟨.value, s.offset, s.frames.length, none, b :: c :: rest⟩ _ _ _ _
        simp only [same]
        rfl

/-- The header bytes that came with this chunk are the last ones before `p`. -/
def Matches (chunk : Bytes) (p : Nat) (header : Bytes) : Prop :=
  header.length ≤ p → (chunk.drop (p - header.length)).take header.length = header

theorem matches_nil (chunk : Bytes) (p : Nat) : Matches chunk p [] := by
  intro _
  simp

theorem matches_push {p : Nat} {header : Bytes} (inside : p < chunk.length)
    (matched : Matches chunk p header) : Matches chunk (p + 1) (header ++ [chunk.getD p 0]) := by
  intro short
  simp only [List.length_append, List.length_singleton] at short
  have matched := matched (by omega)
  have place : p + 1 - (header ++ [chunk.getD p 0]).length = p - header.length := by
    simp only [List.length_append, List.length_singleton]
    omega
  rw [place, List.length_append, List.take_add, matched, List.drop_drop]
  congr 1
  rw [show p - header.length + header.length = p by omega, List.drop_eq_getElem_cons inside,
    List.length_singleton, List.take_succ_cons, List.take_zero, List.getD_eq_getElem?_getD,
      List.getElem?_eq_getElem inside]
  rfl

theorem headerBytes_matches {p : Nat} {header : Bytes} (matched : Matches chunk p header) :
    headerBytes chunk p header = header := by
  unfold headerBytes
  split
  · rename_i short
    exact matched short
  · rfl

end Stream

end TinyCrypto.Tlv
