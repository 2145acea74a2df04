import TinyCrypto.Gzip.InflateBlocks

/-! # Whole streams -/

namespace TinyCrypto.Gzip

open Library Library.Program
open Library.BitString (ofBytes ofBytes_length ofBytes_append ofBytes_drop ofBytes_injective)

variable {input : Bytes} {capacity cost cost' : Nat} {s s' s'' : Inflating}
  {bits rest middle last : List Bool} {before out final : Bytes}

variable {u : Unit} {distances literals : List Nat} {limit : Nat}

theorem align_moved (cursor : At input s bits) (run : Gives align s u s') :
    Moved input 0 s (skipToByte bits) s' := by
  have whole := cursor.length_eq
  have low := cursor.bit_lt
  rw [Inflating.position] at whole
  obtain rfl := gives_change.mp run
  by_cases aligned : s.bit = 0
  · have none : bits.length % 8 = 0 := by omega
    rw [if_neg (not_not.mpr aligned), skipToByte, none, List.drop_zero]
    exact ⟨cursor, rfl, rfl⟩
  · have skipped : bits.length % 8 = 8 - s.bit := by omega
    have next := cursor.seek (show bits.length % 8 ≤ bits.length from Nat.mod_le _ _)
    have place : s.seek (s.position + bits.length % 8) =
        { s with offset := s.offset + 1, bit := 0 } := by
      rw [skipped, Inflating.seek, Inflating.position]
      congr 1 <;> omega
    rw [place] at next
    rw [if_pos aligned]
    exact ⟨next, rfl, rfl⟩

theorem align_enough (cursor : At input s bits) :
    ∃ s', Gives align s () s' ∧ Moved input 0 s (skipToByte bits) s' := by
  have run : Gives align s () _ := gives_change.mpr rfl
  exact ⟨_, run, align_moved cursor run⟩

theorem xor_complement {length complement : Nat} (low : length < 2 ^ 16) :
    length ^^^ complement = 0xffff ↔ complement = 65535 - length := by
  have negated : length ^^^ 65535 = 65535 - length := by
    have word := congrArg BitVec.toNat (BitVec.xor_allOnes (x := BitVec.ofNat 16 length))
    rwa [BitVec.toNat_xor, BitVec.toNat_not, BitVec.toNat_ofNat, Nat.mod_eq_of_lt low,
      BitVec.toNat_allOnes] at word
  constructor
  · intro equal
    rw [← negated, ← equal, ← Nat.xor_assoc, Nat.xor_self, Nat.zero_xor]
  · intro equal
    rw [equal, ← negated, ← Nat.xor_assoc, Nat.xor_self, Nat.zero_xor]

theorem skipToByte_length (bits : List Bool) : (skipToByte bits).length % 8 = 0 := by
  rw [skipToByte, List.length_drop]
  omega

theorem Number.length_eq {width number : Nat} (read : Number width bits number rest) :
    bits.length = width + rest.length := by
  obtain ⟨word, rfl, rfl, _⟩ := read
  exact List.length_append

theorem At.aligned (cursor : At input s bits) (whole : bits.length % 8 = 0) : s.bit = 0 := by
  have length := cursor.length_eq
  have low := cursor.bit_lt
  rw [Inflating.position] at length
  omega

theorem At.bytes (cursor : At input s bits) (aligned : s.bit = 0) :
    bits = ofBytes (input.drop s.offset) := by
  rw [cursor.unread, Inflating.position, aligned, Nat.add_zero, ofBytes_drop]

theorem At.skip_bytes (cursor : At input s bits) (aligned : s.bit = 0) {count : Nat}
    (fits : count ≤ input.length - s.offset) :
    At input { s with offset := s.offset + count } (ofBytes (input.drop (s.offset + count))) := by
  have inside := cursor.inside
  rw [Inflating.position, aligned, Nat.add_zero] at inside
  refine ⟨cursor.bit_lt, ?_, ?_⟩
  · rw [Inflating.position, aligned]
    dsimp only
    omega
  · rw [Inflating.position, aligned, Nat.add_zero, ofBytes_drop]

theorem stored_wrote (cursor : At input s bits) (same : s.output = before ++ out)
    (run : Gives (stored input capacity) s u s') :
    ∃ cost length data middle rest, Number 16 (skipToByte bits) length middle ∧
      Number 16 middle (65535 - length) (ofBytes data ++ rest) ∧ data.length = length ∧
      Wrote input cost s (before ++ (out ++ data)) rest s' := by
  simp only [stored, gives_bind, gives_state] at run
  obtain ⟨_, s₁, r₁, length, s₂, r₂, complement, s₃, r₃, _, _, ⟨rfl, rfl⟩, run⟩ := run
  have m₁ := align_moved cursor r₁
  obtain ⟨_, h₂, m₂⟩ := bitsRead_moved m₁.cursor r₂
  obtain ⟨_, h₃, m₃⟩ := bitsRead_moved m₂.cursor r₃
  split at run
  · exact absurd run gives_throw
  · rename_i checked
    rw [not_or, not_not, Nat.not_lt, xor_complement h₂.lt] at checked
    obtain ⟨rfl, fits⟩ := checked
    simp only [gives_bind, gives_change] at run
    obtain ⟨_, s₄, r₄, rfl⟩ := run
    have aligned : s₃.bit = 0 := m₃.cursor.aligned (by
      have := skipToByte_length bits
      have := h₂.length_eq
      have := h₃.length_eq
      omega)
    have parts := m₃.cursor.bytes aligned
    rw [← List.take_append_drop length (input.drop s₃.offset), ofBytes_append, List.drop_drop] at parts
    rw [parts] at h₃
    have next := m₃.cursor.skip_bytes aligned fits
    have moved := ((m₁.trans m₂).trans m₃).trans (reserve_moved m₃.cursor r₄)
    obtain ⟨_, rfl⟩ := reserve_gives.mp r₄
    refine ⟨_, length, (input.drop s₃.offset).take length, _, _, h₂, h₃,
      List.length_take_of_le (by rwa [List.length_drop]), next.of_position rfl rfl, ?_, moved.work⟩
    rw [← List.append_assoc, ← same, ← moved.output]

theorem stored_enough {data : Bytes} (h₂ : Number 16 (skipToByte bits) data.length middle)
    (h₃ : Number 16 middle (65535 - data.length) (ofBytes data ++ rest)) :
    ∃ cost, ∀ {input : Bytes} capacity before out s, At input s bits → s.output = before ++ out →
      before.length + (out.length + data.length) ≤ capacity → cost ≤ s.work →
      ∃ s', Gives (stored input capacity) s () s' ∧
        Wrote input cost s (before ++ (out ++ data)) rest s' := by
  refine ⟨16 + 16 + data.length, fun {input} capacity before out s cursor same room enough => ?_⟩
  obtain ⟨s₁, r₁, m₁⟩ := align_enough cursor
  have w₁ := m₁.work
  obtain ⟨s₂, r₂, m₂⟩ := bitsRead_enough m₁.cursor h₂ (by omega)
  have w₂ := m₂.work
  obtain ⟨s₃, r₃, m₃⟩ := bitsRead_enough m₂.cursor h₃ (by omega)
  have w₃ := m₃.work
  have read := (m₁.trans m₂).trans m₃
  have aligned : s₃.bit = 0 := m₃.cursor.aligned (by
    have := skipToByte_length bits
    have := h₂.length_eq
    have := h₃.length_eq
    omega)
  have parts := m₃.cursor.bytes aligned
  have fits : data.length ≤ input.length - s₃.offset := by
    have lengths := congrArg List.length parts
    rw [List.length_append, ofBytes_length, ofBytes_length, List.length_drop] at lengths
    omega
  rw [← List.take_append_drop data.length (input.drop s₃.offset), ofBytes_append,
    List.drop_drop] at parts
  obtain ⟨first, second⟩ := List.append_inj parts (by
    rw [ofBytes_length, ofBytes_length, List.length_take_of_le (by rwa [List.length_drop])])
  have found := ofBytes_injective first
  obtain ⟨s₄, r₄, m₄⟩ := @reserve_enough _ capacity s₃ _ data.length m₃.cursor
    (by rw [read.output, same, List.length_append]; omega) (by omega)
  have moved := read.trans m₄
  have next := m₃.cursor.skip_bytes aligned fits
  rw [← second] at next
  have place := (reserve_gives.mp r₄).2
  refine ⟨{ s₄ with output := s₄.output ++ data, offset := s₄.offset + data.length }, ?_,
    ?_, ?_, moved.work⟩
  · simp only [stored, gives_bind, gives_state]
    refine ⟨(), s₁, r₁, data.length, s₂, r₂, _, s₃, r₃, s₃, s₃, ⟨rfl, rfl⟩, ?_⟩
    rw [if_neg (by rw [not_or, not_not, Nat.not_lt, xor_complement h₂.lt]; exact ⟨rfl, fits⟩)]
    simp only [gives_bind, gives_change]
    refine ⟨(), s₄, r₄, ?_⟩
    rw [place]
    dsimp only
    rw [← found]
  · rw [place]
    exact next.of_position rfl rfl
  · rw [moved.output, same, List.append_assoc]

theorem block_wrote (cursor : At input s bits) (same : s.output = before ++ out)
    (run : Gives (block input capacity before.length) s u s') :
    ∃ cost final rest, Block 30 out bits final rest ∧ Wrote input cost s (before ++ final) rest s' := by
  simp only [block, gives_bind] at run
  obtain ⟨type, s₁, r₁, run⟩ := run
  obtain ⟨_, typeRead, m₁⟩ := bitsRead_moved cursor r₁
  have wrote := m₁.wrote same
  split at run
  · rename_i isStored
    subst isStored
    obtain ⟨_, length, data, _, rest, h₂, h₃, size, last⟩ := stored_wrote m₁.cursor wrote.output run
    exact ⟨_, _, rest, .stored typeRead h₂ h₃ size, wrote.trans last⟩
  · split at run
    · exact absurd run gives_throw
    · have four : type < 2 ^ 2 := typeRead.lt
      simp only [gives_bind] at run
      obtain ⟨_, s₂, r₂, run⟩ := run
      rw [compressed, gives_bind] at run
      obtain ⟨_, _, started, run⟩ := run
      obtain ⟨rfl, rfl⟩ := gives_state.mp started
      obtain rfl | rfl : type = 1 ∨ type = 2 := by omega
      · obtain ⟨built, built', _, m₂⟩ := tablesRead_fixed_moved m₁.cursor r₂
        have wrote := (m₁.trans m₂).wrote same
        obtain ⟨_, final, rest, tokens, last⟩ :=
          compressedLoop_wrote built built' wrote.cursor wrote.output run
        exact ⟨_, final, rest, .fixed typeRead tokens, wrote.trans last⟩
      · obtain ⟨_, _, _, _, header, built, built', m₂⟩ := tablesRead_dynamic_moved m₁.cursor r₂
        have wrote := (m₁.trans m₂).wrote same
        obtain ⟨_, final, rest, tokens, last⟩ :=
          compressedLoop_wrote built built' wrote.cursor wrote.output run
        exact ⟨_, final, rest, .dynamic typeRead header tokens, wrote.trans last⟩

theorem Tokens.ends (tokens : Tokens literals distances out bits final rest) :
    ∃ length, literals[256]? = some length ∧ length ≠ 0 := by
  induction tokens with
  | endOfBlock read =>
    obtain ⟨word, ⟨found, nonempty, _⟩, _⟩ := read
    exact ⟨word.length, found, fun none => nonempty (List.length_eq_zero_iff.mp none)⟩
  | literal _ _ _ ih => exact ih
  | copy _ _ _ ih => exact ih

theorem compressed_enough (tokens : Tokens literals distances out bits final rest) :
    ∃ cost, ∀ {input : Bytes} capacity before s, Built literals s.tables.literal → Built distances s.tables.distance →
      At input s bits → s.output = before ++ out → before.length + final.length ≤ capacity →
      cost ≤ s.work → ∃ s', Gives (compressed input capacity before.length) s () s' ∧
        Wrote input cost s (before ++ final) rest s' := by
  obtain ⟨cost, run⟩ := compressedLoop_enough tokens
  refine ⟨cost, fun capacity before s built built' cursor same room enough => ?_⟩
  obtain ⟨s', r, wrote⟩ := run capacity s.tables before s (s.work + 1) built built' cursor same room enough
    (by omega)
  refine ⟨s', ?_, wrote⟩
  rw [compressed, gives_bind]
  exact ⟨s, s, gives_state.mpr ⟨rfl, rfl⟩, r⟩

theorem coded_enough {type : Nat} {afterType afterHeader : List Bool}
    (typeRead : Number 2 bits type afterType) (coded : type ≠ 0 ∧ type ≠ 3)
    (tables : TablesEnough type literals distances afterType afterHeader)
    (tokens : Tokens literals distances out afterHeader final rest) :
    ∃ cost, ∀ {input : Bytes} capacity before s, At input s bits → s.output = before ++ out →
      before.length + final.length ≤ capacity → cost ≤ s.work →
      ∃ s', Gives (block input capacity before.length) s () s' ∧
        Wrote input cost s (before ++ final) rest s' := by
  obtain ⟨c₂, reading⟩ := tables
  obtain ⟨c₃, decoding⟩ := compressed_enough tokens
  refine ⟨2 + c₂ + c₃, fun capacity before s cursor same room enough => ?_⟩
  obtain ⟨s₁, r₁, m₁⟩ := bitsRead_enough cursor typeRead (by omega)
  have w₁ := m₁.work
  obtain ⟨s₂, r₂, built, built', m₂⟩ := reading s₁ m₁.cursor (by omega)
  have w₂ := m₂.work
  have wrote := (m₁.trans m₂).wrote same
  obtain ⟨s₃, r₃, m₃⟩ := decoding capacity before s₂ built built' wrote.cursor wrote.output room (by omega)
  refine ⟨s₃, ?_, wrote.trans m₃⟩
  simp only [block, gives_bind]
  refine ⟨type, s₁, r₁, ?_⟩
  rw [if_neg coded.1, if_neg coded.2, gives_bind]
  exact ⟨(), s₂, r₂, r₃⟩

theorem block_enough (given : Block 30 out bits final rest) :
    ∃ cost, ∀ {input : Bytes} capacity before s, At input s bits → s.output = before ++ out →
      before.length + final.length ≤ capacity → cost ≤ s.work →
      ∃ s', Gives (block input capacity before.length) s () s' ∧
        Wrote input cost s (before ++ final) rest s' := by
  cases given with
  | stored typeRead h₂ h₃ size =>
    subst size
    obtain ⟨cost, storing⟩ := stored_enough h₂ h₃
    refine ⟨2 + cost, fun capacity before s cursor same room enough => ?_⟩
    rw [List.length_append] at room
    obtain ⟨s₁, r₁, m₁⟩ := bitsRead_enough cursor typeRead (by omega)
    have w₁ := m₁.work
    obtain ⟨s₂, r₂, m₂⟩ := storing capacity before out s₁ m₁.cursor (m₁.output.trans same) room (by omega)
    refine ⟨s₂, ?_, (m₁.wrote rfl).trans m₂⟩
    simp only [block, gives_bind]
    exact ⟨0, s₁, r₁, r₂⟩
  | fixed typeRead tokens => exact coded_enough typeRead (by decide) tablesRead_fixed_enough tokens
  | dynamic typeRead header tokens =>
    exact coded_enough typeRead (by decide) (tablesRead_dynamic_enough header tokens.ends) tokens

theorem Block.length_le (given : Block limit out bits final rest) : out.length ≤ final.length := by
  cases given with
  | stored _ _ _ _ =>
    rw [List.length_append]
    omega
  | fixed _ tokens => exact tokens.length_le
  | dynamic _ _ tokens => exact tokens.length_le

theorem Stream.length_le (given : Stream limit out bits final rest) :
    out.length ≤ final.length := by
  induction given with
  | final _ block => exact block.length_le
  | more _ block _ ih => exact block.length_le.trans ih

theorem decodeLoop_wrote {passes : Nat} (cursor : At input s bits) (same : s.output = before ++ out)
    (run : Gives (decodeLoop input capacity before.length passes) s u s') :
    ∃ cost all rest, Stream 30 out bits all rest ∧ Wrote input cost s (before ++ all) rest s' := by
  induction passes generalizing s bits out with
  | zero => exact absurd run gives_throw
  | succ passes ih =>
    simp only [decodeLoop, gives_bind] at run
    obtain ⟨mark, s₁, r₁, _, s₂, r₂, run⟩ := run
    obtain ⟨_, markRead, m₁⟩ := bitsRead_moved cursor r₁
    obtain ⟨_, all, rest, isBlock, m₂⟩ := block_wrote m₁.cursor (m₁.output.trans same) r₂
    have wrote := (m₁.wrote rfl).trans m₂
    split at run
    · rename_i zero
      subst zero
      obtain ⟨_, all', rest', stream, last⟩ := ih wrote.cursor wrote.output run
      exact ⟨_, all', rest', .more markRead isBlock stream, wrote.trans last⟩
    · have low : mark < 2 ^ 1 := markRead.lt
      obtain rfl : mark = 1 := by omega
      obtain ⟨_, rfl⟩ := gives_pure.mp run
      exact ⟨_, all, rest, .final markRead isBlock, wrote⟩

theorem decodeLoop_enough (stream : Stream 30 out bits final rest) :
    ∃ cost, ∀ {input : Bytes} capacity before s passes, At input s bits → s.output = before ++ out →
      before.length + final.length ≤ capacity → cost ≤ s.work → cost ≤ passes →
      ∃ s', Gives (decodeLoop input capacity before.length passes) s () s' ∧
        Wrote input cost s (before ++ final) rest s' := by
  induction stream with
  | final markRead isBlock =>
    obtain ⟨cost, decoding⟩ := block_enough isBlock
    refine ⟨1 + cost, fun capacity before s passes cursor same room enough more => ?_⟩
    obtain ⟨s₁, r₁, m₁⟩ := bitsRead_enough cursor markRead (by omega)
    have w₁ := m₁.work
    obtain ⟨s₂, r₂, m₂⟩ := decoding capacity before s₁ m₁.cursor (m₁.output.trans same) room (by omega)
    obtain ⟨passes, rfl⟩ : ∃ fewer, passes = fewer + 1 := ⟨passes - 1, by omega⟩
    refine ⟨s₂, ?_, (m₁.wrote rfl).trans m₂⟩
    simp only [decodeLoop, gives_bind]
    exact ⟨1, s₁, r₁, (), s₂, r₂, gives_pure.mpr ⟨rfl, rfl⟩⟩
  | more markRead isBlock stream ih =>
    obtain ⟨c₂, decoding⟩ := block_enough isBlock
    obtain ⟨c₃, loop⟩ := ih
    have longer := stream.length_le
    refine ⟨1 + c₂ + c₃, fun capacity before s passes cursor same room enough more => ?_⟩
    obtain ⟨s₁, r₁, m₁⟩ := bitsRead_enough cursor markRead (by omega)
    have w₁ := m₁.work
    obtain ⟨s₂, r₂, m₂⟩ := decoding capacity before s₁ m₁.cursor (m₁.output.trans same) (by omega)
      (by omega)
    have w₂ := m₂.work
    obtain ⟨passes, rfl⟩ : ∃ fewer, passes = fewer + 1 := ⟨passes - 1, by omega⟩
    obtain ⟨s₃, r₃, m₃⟩ := loop capacity before s₂ passes m₂.cursor m₂.output room (by omega) (by omega)
    refine ⟨s₃, ?_, ((m₁.wrote rfl).trans m₂).trans m₃⟩
    simp only [decodeLoop, gives_bind]
    exact ⟨0, s₁, r₁, (), s₂, r₂, r₃⟩

theorem decode_wrote (cursor : At input s bits) (run : Gives (decode input capacity) s u s') :
    ∃ cost all rest, Stream 30 [] bits all rest ∧
      Wrote input cost s (s.output ++ all) (skipToByte rest) s' := by
  simp only [decode, gives_bind, gives_state] at run
  obtain ⟨_, _, ⟨rfl, rfl⟩, _, s₁, r₁, r₂⟩ := run
  obtain ⟨_, all, rest, stream, wrote⟩ := decodeLoop_wrote cursor (List.append_nil s.output).symm r₁
  have aligned := align_moved wrote.cursor r₂
  exact ⟨_, all, rest, stream, wrote.trans (aligned.wrote wrote.output)⟩

theorem decode_enough (stream : Stream 30 [] bits final rest) :
    ∃ cost, ∀ {input : Bytes} capacity s, At input s bits → s.output.length + final.length ≤ capacity → cost ≤ s.work →
      ∃ s', Gives (decode input capacity) s () s' ∧
        Wrote input cost s (s.output ++ final) (skipToByte rest) s' := by
  obtain ⟨cost, loop⟩ := decodeLoop_enough stream
  refine ⟨cost, fun capacity s cursor room enough => ?_⟩
  obtain ⟨s₁, r₁, m₁⟩ := loop capacity s.output s (s.work + 1) cursor (List.append_nil s.output).symm room
    enough (by omega)
  obtain ⟨s₂, r₂, m₂⟩ := align_enough m₁.cursor
  refine ⟨s₂, ?_, m₁.trans (m₂.wrote m₁.output)⟩
  simp only [decode, gives_bind, gives_state]
  exact ⟨s, s, ⟨rfl, rfl⟩, (), s₁, r₁, r₂⟩

end TinyCrypto.Gzip
