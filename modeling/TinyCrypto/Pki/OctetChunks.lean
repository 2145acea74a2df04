import TinyCrypto.Pki.Octets
import TinyCrypto.Tlv.WholeValues

/-! # Octets borrowed, joined or compared

An octet string in chunks is borrowed from the input where at most one chunk has
bytes, joined in the scratch storage otherwise, and compared without being joined.
-/

namespace TinyCrypto.Pki

open Tlv
open Library Library.Program Library.Metered

/-- `tc_pki_octets_comparison` without its constants. -/
structure Comparison where
  offset : Nat
  equal : Bool
  deriving DecidableEq

/-- What `tc_pki_octets_compare_chunk` does to its state. -/
def Comparison.step (expected : Bytes) (state : Comparison) (bytes : Bytes) : Comparison :=
  let remaining := expected.length - state.offset
  let count := min bytes.length remaining
  ⟨state.offset + count, state.equal &&
    !(bytes.length > remaining || bytes.take count ≠ (expected.drop state.offset).take count)⟩

/-- `tc_pki_octets_compare_chunk`. -/
def compareChunk (expected bytes : Bytes) : Metered Result Comparison Unit := do
  charge .limit bytes.length
  update fun state => state.step expected bytes

section

variable {D : Type} (tree : Workspace) (profile : Profile) (rootTag : UInt8)

/-- `tc_pki_octets_equal`. -/
def octetsEqual (expected encoded : Bytes) : Metered Result D Bool := do
  if !rootAllowed rootTag then throw .argument
  let (_, state) ← locally id ⟨0, true⟩
    (octetsImplicit tree profile rootTag (compareChunk expected) encoded)
  return state.equal && state.offset = expected.length

end

variable {D : Type} {tree : Workspace} {profile : Profile} {rootTag : UInt8}

theorem storeChunk_completes {sizeMax : Nat} {buffer : Option Nat} {bytes : Bytes} {state : Storage}
    (room : state.length + bytes.length ≤ sizeMax)
    (fits : ∀ size, buffer = some size → state.length + bytes.length ≤ size) :
    Completes (if buffer.isSome then bytes.length else 0) (storeChunk sizeMax buffer bytes) state
      (.ok ()) (state.store buffer bytes) := by
  have short : ¬bytes.length > sizeMax - state.length := by omega
  intro work enough
  cases buffer with
  | none =>
    refine ⟨work, ?_, Nat.le_add_right _ _⟩
    simp [storeChunk, storeBuffer, Storage.store, short, exec_bind]
  | some size =>
    have inside : ¬bytes.length > size - state.length := by
      have := fits size rfl
      omega
    have paid : ¬bytes.length > work := Nat.not_lt.mpr enough
    refine ⟨work - bytes.length, ?_, by simp; omega⟩
    simp [storeChunk, storeBuffer, Storage.store, short, inside, paid, exec_bind, exec_charge]

theorem storeAll_completes {sizeMax : Nat} {buffer : Option Nat} {chunks : List Bytes} {state : Storage}
    (room : state.length + chunks.flatten.length ≤ sizeMax)
    (fits : ∀ size, buffer = some size → state.length + chunks.flatten.length ≤ size) :
    Completes (if buffer.isSome then chunks.flatten.length else 0)
      (consumeAll (storeChunk sizeMax buffer) chunks) state (.ok ())
      (chunks.foldl (Storage.store buffer) state) := by
  induction chunks generalizing state with
  | nil => exact completes_pure.mono (Nat.zero_le _)
  | cons chunk rest ih =>
    rw [List.flatten_cons, List.length_append] at room fits ⊢
    have first := @storeChunk_completes sizeMax buffer chunk state (by omega)
      fun size is => by have := fits size is; omega
    have later := @ih (state.store buffer chunk) (by simp only [Storage.store]; omega)
      fun size is => by have := fits size is; simp only [Storage.store]; omega
    refine (completes_bind first later).mono ?_
    cases buffer with
    | none => exact le_rfl
    | some size => exact le_rfl

theorem compareChunk_throws (expected bytes : Bytes) :
    Throws (· ≠ .ok) (compareChunk expected bytes) :=
  Throws.bind (throws_charge (by decide)) fun _ _ _ _ => throws_update

theorem compareAll_completes (expected : Bytes) (chunks : List Bytes) (state : Comparison) :
    Completes chunks.flatten.length (consumeAll (compareChunk expected) chunks) state (.ok ())
      (chunks.foldl (Comparison.step expected) state) := by
  induction chunks generalizing state with
  | nil => exact completes_pure
  | cons chunk rest ih =>
    rw [List.flatten_cons, List.length_append]
    exact completes_bind (completes_bind_free completes_charge completes_update) (ih _)

theorem compareAll_iff {expected : Bytes} {chunks : List Bytes} {state : Comparison}
    (inside : state.offset ≤ expected.length) :
    ((chunks.foldl (Comparison.step expected) state).equal = true ∧
        (chunks.foldl (Comparison.step expected) state).offset = expected.length) ↔
      state.equal = true ∧ chunks.flatten = expected.drop state.offset := by
  induction chunks generalizing state with
  | nil =>
    rw [List.foldl_nil, List.flatten_nil, eq_comm (a := []), List.drop_eq_nil_iff]
    exact and_congr_right fun _ => ⟨fun same => Nat.le_of_eq same.symm, fun all => by omega⟩
  | cons chunk rest ih =>
    rw [List.foldl_cons, ih (by simp only [Comparison.step]; omega), List.flatten_cons]
    have left : (expected.drop state.offset).length = expected.length - state.offset :=
      List.length_drop
    by_cases long : chunk.length > expected.length - state.offset
    · have differ : chunk ++ rest.flatten ≠ expected.drop state.offset := by
        intro same
        have count := congrArg List.length same
        rw [List.length_append, left] at count
        omega
      simp [Comparison.step, long, differ]
    · have count : min chunk.length (expected.length - state.offset) = chunk.length := by omega
      simp only [Comparison.step, count, List.take_length, decide_eq_false long, Bool.false_or,
        Bool.and_eq_true, Bool.not_eq_true', decide_eq_false_iff_not, ne_eq, not_not]
      rw [and_assoc]
      refine and_congr_right fun _ => ?_
      rw [← List.drop_drop]
      constructor
      · rintro ⟨here, later⟩
        rw [later]
        nth_rewrite 1 [here]
        exact List.take_append_drop _ _
      · intro same
        rw [← same]
        exact ⟨by simp, by simp⟩

section

variable {encoded : Bytes} {t : Tree} (configured : config tree.ber profile = .ok)
  (parses : Parses tree.sizeT profile tree.limits tree.capacity encoded [.object t])
  (valid : OctetTree profile rootTag t)

include configured parses valid

theorem octetsImplicit_contents {consume : Bytes → Metered Result D Unit}
    (failures : ∀ bytes, Throws (· ≠ .ok) (consume bytes)) :
    octetsImplicit tree profile rootTag consume encoded = (do
        charge .limit encoded.length
        consumeAll consume (t.contents.filter (· ≠ []))) := by
  have accepted := (walk_ok_iff tree.ber tree.sizeT profile tree.limits tree.capacity
    encoded).mpr ⟨configured, _, parses⟩
  rw [octetsImplicit_values configured valid parses failures, walk_values accepted parses]

theorem storePass_completes {buffer : Option Nat} {state : Storage}
    (room : state.length + t.contents.flatten.length ≤ tree.sizeMax)
    (fits : ∀ size, buffer = some size → state.length + t.contents.flatten.length ≤ size) :
    Completes (encoded.length + if buffer.isSome then t.contents.flatten.length else 0)
      (octetsImplicit tree profile rootTag (storeChunk tree.sizeMax buffer) encoded) state (.ok ())
      ((t.contents.filter (· ≠ [])).foldl (Storage.store buffer) state) := by
  rw [octetsImplicit_contents configured parses valid (storeChunk_throws tree.sizeMax buffer)]
  rw [← List.flatten_filter_ne_nil] at room fits ⊢
  exact completes_bind completes_charge (storeAll_completes room fits)

theorem comparePass_ends (expected : Bytes) (state : Comparison) :
    Ends .limit (octetsImplicit tree profile rootTag (compareChunk expected) encoded) state
      (.ok ((), (t.contents.filter (· ≠ [])).foldl (Comparison.step expected) state)) := by
  rw [octetsImplicit_contents configured parses valid (compareChunk_throws expected)]
  exact ends_bind (ends_charge _) (consumeAll_ends
    (fun bytes _ => ends_bind (ends_charge _)
      (ends_update fun state : Comparison => state.step expected bytes)) _ state)

theorem comparePass_completes (expected : Bytes) (state : Comparison) :
    Completes (encoded.length + t.contents.flatten.length)
      (octetsImplicit tree profile rootTag (compareChunk expected) encoded) state (.ok ())
      ((t.contents.filter (· ≠ [])).foldl (Comparison.step expected) state) := by
  rw [octetsImplicit_contents configured parses valid (compareChunk_throws expected),
    ← List.flatten_filter_ne_nil]
  exact completes_bind completes_charge (compareAll_completes expected _ state)

omit configured parses valid in
theorem compared (expected : Bytes) :
    ((((t.contents.filter (· ≠ [])).foldl (Comparison.step expected) ⟨0, true⟩).equal &&
        ((t.contents.filter (· ≠ [])).foldl (Comparison.step expected) ⟨0, true⟩).offset =
          expected.length) : Bool) = decide (t.contents.flatten = expected) := by
  have all := @compareAll_iff expected (t.contents.filter (· ≠ [])) ⟨0, true⟩ (Nat.zero_le _)
  rw [List.flatten_filter_ne_nil, List.drop_zero] at all
  rw [Bool.eq_iff_iff, Bool.and_eq_true, decide_eq_true_iff, decide_eq_true_iff, all]
  simp

theorem octetsEqual_ends (allowed : rootAllowed rootTag = true) (expected : Bytes) (d : D) :
    Ends .limit (octetsEqual tree profile rootTag expected encoded) d
      (.ok (decide (t.contents.flatten = expected), d)) := by
  rw [octetsEqual, if_neg (by simp [allowed]), ← compared]
  exact ends_bind (ends_locally (comparePass_ends configured parses valid expected ⟨0, true⟩)) ends_pure

theorem octetsEqual_completes (allowed : rootAllowed rootTag = true) (expected : Bytes) (d : D) :
    Completes (encoded.length + t.contents.flatten.length)
      (octetsEqual tree profile rootTag expected encoded) d
      (.ok (decide (t.contents.flatten = expected))) d := by
  rw [octetsEqual, if_neg (by simp [allowed]), ← compared]
  exact completes_bind_free (completes_locally
    (comparePass_completes configured parses valid expected ⟨0, true⟩)) completes_pure

def octetSpan (t : Tree) : Span :=
  if (t.contents.filter (· ≠ [])).length < 2 then .borrowed t.contents.flatten
  else .joined t.contents.flatten

omit configured parses valid in
theorem filled (t : Tree) : ∀ chunk ∈ t.contents.filter (· ≠ []), chunk ≠ [] :=
  fun chunk member => by simpa using (List.mem_filter.mp member).2

theorem octetsSpan_ends (allowed : rootAllowed rootTag = true) (scratch : Nat) (d : D) :
    Ends .limit (octetsSpan tree profile rootTag scratch encoded) d (.ok (octetSpan t, d)) := by
  rw [octetSpan, ← @List.flatten_filter_ne_nil _ _ t.contents]
  exact octetsSpan_chunks allowed (filled t)
    (fun _ failures => octetsImplicit_contents configured parses valid failures) d

theorem octetsSpan_completes (allowed : rootAllowed rootTag = true)
    (addressable : encoded.length ≤ tree.sizeMax) (scratch : Nat) (d : D) :
    ((t.contents.filter (· ≠ [])).length < 2 →
        Completes encoded.length (octetsSpan tree profile rootTag scratch encoded) d
          (.ok (.borrowed t.contents.flatten)) d) ∧
      (2 ≤ (t.contents.filter (· ≠ [])).length → t.contents.flatten.length ≤ scratch →
        Completes (2 * encoded.length + t.contents.flatten.length)
          (octetsSpan tree profile rootTag scratch encoded) d (.ok (.joined t.contents.flatten)) d) ∧
      (2 ≤ (t.contents.filter (· ≠ [])).length → scratch < t.contents.flatten.length →
        Completes encoded.length (octetsSpan tree profile rootTag scratch encoded) d
          (.error .limit) d) := by
  obtain ⟨counts, borrows, joins⟩ := storeAll_fresh (filled t)
  rw [List.flatten_filter_ne_nil] at borrows joins
  have whole : encodeItems [.object t] = t.encode := by simp [encodeItems, Item.encode]
  have room : t.contents.flatten.length ≤ tree.sizeMax := by
    rw [contents_flatten]
    rw [← parses.encoded, whole] at addressable
    exact Nat.le_trans (octets_length t) addressable
  have first := completes_locally (d := d) (f := id) <|
    @storePass_completes tree profile rootTag encoded t configured parses valid none ⟨[], 0, 0, []⟩
      (by simpa using room) (by simp)
  rw [octetsSpan, if_neg (by simp [allowed])]
  generalize (t.contents.filter (· ≠ [])).foldl (Storage.store none) ⟨[], 0, 0, []⟩ = state
    at first counts borrows joins
  refine ⟨fun few => ?_, fun several fits => ?_, fun several short => ?_⟩
  · refine completes_bind_free first ?_
    dsimp only
    rw [if_pos (counts.mpr few), borrows few]
    exact completes_pure
  · have many := fun less => Nat.not_lt.mpr several (counts.mp less)
    obtain ⟨two, length, empty⟩ := joins (Nat.not_lt.mpr several)
    refine (completes_bind first ?_).mono (Nat.le_of_eq (show encoded.length + 0 +
      (encoded.length + t.contents.flatten.length) = _ by omega))
    dsimp only
    rw [if_neg many, if_neg (by rw [length]; omega)]
    have second := @storePass_completes tree profile rootTag encoded t configured parses valid
      (some t.contents.flatten.length)
      { state with length := 0 } (by simpa using room) (by simp)
    rw [storeAll_later (show ({ state with length := 0 } : Storage).chunks = 2 from two)] at second
    rw [length]
    refine completes_bind_free (completes_locally second) ?_
    simp only [Option.isSome_some, if_true, empty, List.nil_append, List.flatten_filter_ne_nil]
    exact completes_pure
  · have many := fun less => Nat.not_lt.mpr several (counts.mp less)
    obtain ⟨-, length, -⟩ := joins (Nat.not_lt.mpr several)
    refine completes_bind_free first ?_
    dsimp only
    rw [if_neg many, if_pos (by rw [length]; exact short)]
    exact completes_throw

end

variable {encoded : Bytes} {s s' : Budgeted D}

theorem OctetTree.der {t : Tree} (shape : OctetTree .der rootTag t) : t.header.constructed = false := by
  have header := shape.header
  simp only [octetHeader, Bool.and_eq_true] at header
  simpa using header.2

def OneOctetString (tree : Workspace) (profile : Profile) (rootTag : UInt8) (encoded : Bytes) : Prop :=
  (walk tree.ber tree.sizeT profile tree.limits tree.capacity encoded).1 = .ok ∧
    ∀ items, Parses tree.sizeT profile tree.limits tree.capacity encoded items →
      ∃ t, items = [.object t] ∧ OctetTree profile rootTag t ∧
        (profile = .der → t.header.constructed = false)

theorem octetsImplicit_one {consume : Bytes → Metered Result D Unit} (plain : profile.iso = false)
    (given : Gives (octetsImplicit tree profile rootTag consume encoded) s () s') :
    OneOctetString tree profile rootTag encoded := by
  obtain ⟨accepted, single⟩ := octetsImplicit_items plain given
  refine ⟨accepted, fun items parses => ?_⟩
  obtain ⟨t, rfl, shape⟩ := single items parses
  refine ⟨t, rfl, shape, ?_⟩
  rintro rfl
  exact shape.der

theorem octetsEqual_gives {expected : Bytes} {equal : Bool} (plain : profile.iso = false)
    (given : Gives (octetsEqual tree profile rootTag expected encoded) s equal s') :
    OneOctetString tree profile rootTag encoded := by
  rw [octetsEqual] at given
  split at given
  · exact absurd given gives_throw
  simp only [gives_bind] at given
  obtain ⟨⟨done, state⟩, _, pass, -⟩ := given
  obtain ⟨_, visited, -⟩ := gives_locally.mp pass
  exact octetsImplicit_one plain visited

theorem octetsSpan_gives {scratch : Nat} {span : Span} (plain : profile.iso = false)
    (given : Gives (octetsSpan tree profile rootTag scratch encoded) s span s') :
    OneOctetString tree profile rootTag encoded := by
  rw [octetsSpan] at given
  split at given
  · exact absurd given gives_throw
  simp only [gives_bind] at given
  obtain ⟨⟨done, state⟩, _, pass, -⟩ := given
  obtain ⟨_, visited, -⟩ := gives_locally.mp pass
  exact octetsImplicit_one plain visited

/-- Octet strings in chunks are borrowed, joined and compared as one, and nothing else is. -/
theorem octet_chunks (plain : profile.iso = false) (allowed : rootAllowed rootTag = true)
    (addressable : encoded.length ≤ tree.sizeMax) (d : D) :
    (∀ t, (walk tree.ber tree.sizeT profile tree.limits tree.capacity encoded).1 = .ok →
      Parses tree.sizeT profile tree.limits tree.capacity encoded [.object t] →
      OctetTree profile rootTag t → (∀ scratch,
          Ends .limit (octetsSpan tree profile rootTag scratch encoded) d (.ok (octetSpan t, d)) ∧
          ((t.contents.filter (· ≠ [])).length < 2 →
            Completes encoded.length (octetsSpan tree profile rootTag scratch encoded) d
              (.ok (.borrowed t.contents.flatten)) d) ∧
          (2 ≤ (t.contents.filter (· ≠ [])).length → t.contents.flatten.length ≤ scratch →
            Completes (2 * encoded.length + t.contents.flatten.length)
              (octetsSpan tree profile rootTag scratch encoded) d
              (.ok (.joined t.contents.flatten)) d) ∧
          (2 ≤ (t.contents.filter (· ≠ [])).length → scratch < t.contents.flatten.length →
            Completes encoded.length (octetsSpan tree profile rootTag scratch encoded) d
              (.error .limit) d)) ∧ ∀ expected,
          Ends .limit (octetsEqual tree profile rootTag expected encoded) d
            (.ok (decide (t.contents.flatten = expected), d)) ∧
          Completes (encoded.length + t.contents.flatten.length)
            (octetsEqual tree profile rootTag expected encoded) d
            (.ok (decide (t.contents.flatten = expected))) d) ∧
      (∀ (scratch : Nat) (span : Span) (s s' : Budgeted D),
        Gives (octetsSpan tree profile rootTag scratch encoded) s span s' →
          OneOctetString tree profile rootTag encoded) ∧
      ∀ (expected : Bytes) (equal : Bool) (s s' : Budgeted D),
        Gives (octetsEqual tree profile rootTag expected encoded) s equal s' →
          OneOctetString tree profile rootTag encoded := by
  refine ⟨fun t accepted parses valid => ?_, fun scratch span s s' given => octetsSpan_gives plain given,
    fun expected equal s s' given => octetsEqual_gives plain given⟩
  have configured := ((walk_ok_iff tree.ber tree.sizeT profile tree.limits tree.capacity
    encoded).mp accepted).1
  refine ⟨fun scratch => ⟨octetsSpan_ends configured parses valid allowed scratch d,
    octetsSpan_completes configured parses valid allowed addressable scratch d⟩, fun expected =>
      ⟨octetsEqual_ends configured parses valid allowed expected d,
        octetsEqual_completes configured parses valid allowed expected d⟩⟩

def chunkTree : Workspace where
  ber := true
  sizeT := 8
  sizeMax := 2 ^ 64 - 1
  limits := ⟨64, 64, 4, 8⟩
  capacity := 4

def nestedChunks : Bytes := [0x24, 0x80, 0x04, 0x01, 0xaa, 0x04, 0x00, 0x24, 0x03, 0x04, 0x01, 0xbb, 0x00, 0x00]

theorem octet_chunks_nested :
    ∃ t, Parses 8 .ber chunkTree.limits 4 nestedChunks [.object t] ∧ OctetTree .ber 4 t ∧
      t.contents.flatten = [0xaa, 0xbb] ∧
      Completes 30 (octetsSpan chunkTree .ber 4 2 nestedChunks) () (.ok (.joined [0xaa, 0xbb])) () := by
  obtain ⟨strings, spans, -⟩ := @octet_chunks Unit chunkTree .ber 4 nestedChunks rfl (by decide)
    (by decide) ()
  have run : Gives (octetsSpan chunkTree .ber 4 2 nestedChunks) (⟨30, ()⟩ : Budgeted Unit)
      (.joined [0xaa, 0xbb]) ⟨0, ()⟩ := rfl
  obtain ⟨accepted, single⟩ := spans 2 _ _ _ run
  obtain ⟨-, items, parses⟩ := (walk_ok_iff true 8 .ber chunkTree.limits 4 nestedChunks).mp
    accepted
  obtain ⟨t, rfl, valid, -⟩ := single items parses
  obtain ⟨contiguous, -⟩ := strings t accepted parses valid
  obtain ⟨ends, -, joins, -⟩ := contiguous 2
  have span := Ends.gives ends run
  rw [octetSpan] at span
  split at span
  · cases span
  · rename_i several
    have octets : t.contents.flatten = [0xaa, 0xbb] := (Span.joined.inj span).symm
    have paid := joins (Nat.not_lt.mp several) (by rw [octets]; decide)
    rw [octets] at paid
    exact ⟨t, parses, valid, octets, paid⟩

end TinyCrypto.Pki
