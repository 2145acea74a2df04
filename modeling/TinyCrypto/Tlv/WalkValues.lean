import TinyCrypto.Tlv.WalkComplete

/-! # The values a walk delivers

The VALUE events of an accepted input, joined, are the values of its primitive
objects in order, whatever the nesting.
-/

namespace TinyCrypto.Tlv

def values (events : List Event) : List Bytes :=
  (events.filter fun e => e.kind = .value).map Event.bytes

def payload (events : List Event) : Bytes := (values events).flatten

mutual

def Tree.octets : Tree → Bytes
  | .primitive _ _ value => value
  | .constructed _ _ children => octetsAll children

def octetsAll : List Tree → Bytes
  | [] => []
  | t :: rest => t.octets ++ octetsAll rest

end

def Tree.header : Tree → ProfileHeader
  | .primitive h _ _ => h
  | .constructed h _ _ => h

def Tree.head : Tree → Bytes
  | .primitive _ head _ => head
  | .constructed _ head _ => head

@[simp] theorem payload_append (first second : List Event) :
    payload (first ++ second) = payload first ++ payload second := by
  simp [payload, values]

theorem payload_of_no_value {events : List Event} (plain : ∀ e ∈ events, e.kind ≠ .value) :
    payload events = [] := by
  have none : events.filter (fun e => e.kind = .value) = [] :=
    List.filter_eq_nil_iff.mpr fun e member => by simpa using plain e member
  rw [payload, values, none]
  rfl

theorem payload_cut {event : Event} (value : event.kind = .value) (offset : Nat) (bytes : Bytes) :
    payload (event.cut offset bytes) = bytes := by
  induction bytes generalizing offset with
  | nil => rfl
  | cons b rest ih =>
    rw [Event.cut]
    change payload ([_] ++ event.cut (offset + 1) rest) = b :: rest
    rw [payload_append, ih]
    simp [payload, values, value]

theorem payload_splits (events : List Event) : payload (splits events) = payload events := by
  induction events with
  | nil => rfl
  | cons e rest ih =>
    change payload (e.split ++ splits rest) = payload ([e] ++ rest)
    rw [payload_append, payload_append, ih]
    congr 1
    by_cases value : e.kind = .value
    · rw [Event.split, if_pos value, payload_cut value]
      simp [payload, values, value]
    · rw [Event.split, if_neg value]

mutual

theorem payload_delivered (offset depth : Nat) : (t : Tree) →
    payload (t.delivered offset depth) = t.octets
  | .primitive h head value => by
    change payload ([_] ++ (_ ++ [_])) = _
    rw [payload_append, payload_append, payload_cut rfl, payload_of_no_value (by simp),
      payload_of_no_value (by simp), List.nil_append, List.append_nil]
    rfl
  | .constructed h head children => by
    change payload ([_] ++ (_ ++ [_])) = _
    rw [payload_append, payload_append, payload_deliveredAll, payload_of_no_value (by simp),
      payload_of_no_value (by simp), List.nil_append, List.append_nil]
    rfl

theorem payload_deliveredAll (offset depth : Nat) : (trees : List Tree) →
    payload (deliveredAll offset depth trees) = octetsAll trees
  | [] => rfl
  | t :: rest => by
    rw [deliveredAll, payload_append, payload_delivered, payload_deliveredAll, octetsAll]

end

namespace Stream

variable {sizeT : Nat} {s : Stream}

theorem payload_closeDefinite {before : List Event} (s : Stream) :
    payload (s.closeDefinite before).2 = payload before := by
  rw [closeDefinite_eq, payload_append, payload_of_no_value (closeFrames_no_value _ _),
    List.append_nil]

def TreePayload (sizeT : Nat) (t : Tree) : Prop :=
  ∀ s : Stream, s.Idle → s.Room t.encode.length t.count t.height →
    t.WellFormed sizeT s.profile s.limits.maxValue →
    payload (run sizeT s t.encode).2 = t.octets

theorem tree_payload (sizeT : Nat) (t : Tree) : TreePayload sizeT t := by
  intro s idle room wellFormed
  have ran := tree_delivers sizeT t s idle room wellFormed
  rw [Delivers] at ran
  rw [ran, payload_closeDefinite, payload_delivered]

theorem tree_begins {t : Tree} (idle : s.Idle) (room : s.Room t.encode.length t.count t.height)
    (wellFormed : t.WellFormed sizeT s.profile s.limits.maxValue) :
    ∃ later, (run sizeT s t.encode).2 =
      ⟨.begin, s.offset, s.frames.length, some t.header, t.head⟩ :: later := by
  have ran := tree_delivers sizeT t s idle room wellFormed
  rw [Delivers] at ran
  rw [ran, closeDefinite_eq]
  cases t <;> exact ⟨_, rfl⟩

end Stream

theorem splits_begin {events later : List Event} {e : Event} (filled : Filled events)
    (kind : e.kind ≠ .value) (begins : splits events = e :: later) :
    ∃ rest, events = e :: rest := by
  cases events with
  | nil => simp at begins
  | cons first rest =>
    change first.split ++ splits rest = _ at begins
    by_cases value : first.kind = .value
    · obtain ⟨b, bytes, shape⟩ := List.exists_cons_of_ne_nil (filled first (by simp) value)
      rw [Event.split, if_pos value, shape, Event.cut] at begins
      rw [← (List.cons.inj begins).1] at kind
      exact absurd value kind
    · rw [Event.split, if_neg value] at begins
      rw [(List.cons.inj begins).1]
      exact ⟨rest, rfl⟩

variable {ber : Bool} {sizeT : Nat} {profile : Profile} {limits : Limits} {capacity : Nat}
  {input : Bytes}

theorem walk_object {t : Tree} (accepted : (walk ber sizeT profile limits capacity input).1 = .ok)
    (parses : Parses sizeT profile limits capacity input [.object t]) :
    payload (walk ber sizeT profile limits capacity input).2 = t.octets ∧
      Filled (walk ber sizeT profile limits capacity input).2 ∧
      ∃ later, (walk ber sizeT profile limits capacity input).2 =
        ⟨.begin, 0, 0, some t.header, t.head⟩ :: later := by
  have configured := ((walk_ok_iff ber sizeT profile limits capacity input).mp
    accepted).1
  have encoded : t.encode = input := by
    have := parses.encoded
    simpa [encodeItems, Item.encode] using this
  subst encoded
  obtain ⟨_, split, filled⟩ := @Stream.feedAll_run sizeT (Stream.fresh profile limits capacity)
    [t.encode] (Stream.fresh_inside profile limits capacity) rfl
    (by intro _; simpa [Stream.fresh] using parses.size)
  have whole : [t.encode].flatten = t.encode := by simp
  rw [whole] at split
  have size := parses.size
  have few := parses.elements
  have depth := parses.depth (.object t) (by simp)
  have room : (Stream.fresh profile limits capacity).Room t.encode.length t.count t.height := by
    refine ⟨?_, ?_, ?_, ?_⟩
    · simpa [Stream.fresh, Stream.bound] using size
    · simpa [Stream.fresh, countItems, Item.count] using few
    · simpa [Stream.fresh, Item.height] using depth.1
    · simpa [Stream.fresh, Item.height] using depth.2
  have wellFormed := parses.wellFormed (.object t) (by simp)
  have idle : (Stream.fresh profile limits capacity).Idle := ⟨rfl, rfl, rfl, rfl⟩
  have joined := Stream.tree_payload sizeT t _ idle room wellFormed
  obtain ⟨later, begins⟩ := Stream.tree_begins idle room wellFormed
  rw [walk_eq_streamChunks, streamChunks, streamInit_ok configured]
  refine ⟨?_, filled, ?_⟩
  · rw [← payload_splits]
    exact (congrArg payload split).trans joined
  · rw [← split] at begins
    exact splits_begin filled (by simp) begins

end TinyCrypto.Tlv
