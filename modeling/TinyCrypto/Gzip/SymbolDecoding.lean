import TinyCrypto.Gzip.InflateTrees

/-! # Decoding one symbol

Which code length vectors the tree builder accepts, and what `tc_inflate_symbol` does
with the tree of any of them.
-/

namespace TinyCrypto.Gzip

open Library Library.Program
open Library.CanonicalCode

variable {input : Bytes} {s s' : Inflating} {bits rest : List Bool}

/-- A cursor after `count` bits that were paid for. -/
def Inflating.skip (s : Inflating) (count : Nat) : Inflating :=
  { s.seek (s.position + count) with work := s.work - count }

def SameTables (s s' : Inflating) : Prop := s'.tables = s.tables

instance : Std.Refl SameTables := ⟨fun _ => rfl⟩

instance : IsTrans Inflating SameTables := ⟨fun _ _ _ first second => second.trans first⟩

theorem spend_tables {amount : Nat} : Moves SameTables (spend amount) := by
  unfold spend
  refine .bind Moves.state ?_
  intro s
  split
  · exact .throw _
  · exact Moves.change fun _ => rfl

theorem bitsLoop_tables (passes count value shift : Nat) :
    Moves SameTables (bitsLoop input passes count value shift) := by
  induction passes generalizing count value shift with
  | zero => exact .pure _
  | succ passes ih =>
    unfold bitsLoop
    split
    · exact .pure _
    refine .bind Moves.state ?_
    intro s
    split
    · exact .throw _
    · refine .bind (Moves.change fun s => ?_) fun _ => ih _ _ _
      simp only [SameTables, apply_ite Inflating.tables, ite_self]

theorem symbolLoop_tables {tree : Tree} (passes length code first index : Nat) :
    Moves SameTables (symbolLoop input tree passes length code first index) := by
  induction passes generalizing length code first index with
  | zero => exact .throw _
  | succ passes ih =>
    unfold symbolLoop
    refine .bind (.bind spend_tables fun _ => bitsLoop_tables _ _ _ _) ?_
    intro bit
    simp only
    split
    · exact .pure _
    · exact ih _ _ _ _

theorem Moved.eq_skip {word : List Bool} (cursor : At input s (word ++ rest))
    (moved : Moved input word.length s rest s') (tables : SameTables s s') :
    s' = s.skip word.length := by
  have start := cursor.length_eq
  have reached := moved.cursor.length_eq
  have low := moved.cursor.bit_lt
  have worked := moved.work
  rw [List.length_append] at start
  have position : s'.position = s.position + word.length := by omega
  have place : s' = { s'.seek s'.position with work := s'.work } := by
    rw [moved.cursor.seek_self]
  have rebuilt : s' = ⟨s'.position / 8, s'.position % 8, s'.work, s'.output, s'.tables⟩ := place
  rw [rebuilt, position, moved.output, tables, show s'.work = s.work - word.length by omega]
  rfl

section

variable {lengths : List Nat} {tree : Tree} {v : Nat}

theorem symbol_gives (built : Built lengths tree) (cursor : At input s bits) :
    Gives (symbol input tree) s v s' ↔
      ∃ word rest, bits = word ++ rest ∧ IsCode lengths v word ∧ word.length ≤ s.work ∧
        s' = s.skip word.length := by
  have kept : Moves SameTables (symbol input tree) := symbolLoop_tables _ _ _ _ _
  constructor
  · intro given
    obtain ⟨word, rest, rfl, isCode, moved⟩ := symbolLoop_moved built [] cursor given
    exact ⟨word, rest, rfl, isCode, moved.le, moved.eq_skip cursor (kept.of_gives given)⟩
  · rintro ⟨word, rest, rfl, isCode, enough, rfl⟩
    have short := built.bounded _ (List.mem_of_getElem? isCode.1)
    obtain ⟨final, given, moved⟩ := symbolLoop_enough built [] cursor isCode isCode.2.1
      (by simpa using short) enough
    rw [← moved.eq_skip cursor (kept.of_gives given)]
    exact given

theorem symbolLoop_congr (built : Built lengths tree) {other : Tree}
    (counts : other.counts = tree.counts)
    (symbols : ∀ i < (lengths.filter (· ≠ 0)).length, other.symbols i = tree.symbols i)
    (passes : Nat) {length : Nat} (pos : 0 < length) (last : length + passes = codeBits + 1)
    (code first : Nat) : symbolLoop input other passes length code first (below lengths length) =
      symbolLoop input tree passes length code first (below lengths length) := by
  induction passes generalizing length code first with
  | zero => rfl
  | succ passes ih =>
    have count : tree.counts length = CanonicalCode.count lengths length := by
      rw [built.counts length pos, count_of_pos pos]
    have fits : below lengths length + CanonicalCode.count lengths length ≤
        (lengths.filter (· ≠ 0)).length := by
      rw [← below_all built.bounded]
      exact below_ge (by omega)
    unfold symbolLoop
    congr 1
    funext bit
    simp only [counts]
    split
    · rename_i inside
      rw [symbols _ (by omega)]
    · rw [count]
      exact ih (Nat.succ_pos length) (by omega) _ _

end

theorem symbol_unpaid {tree : Tree} (none : s.work = 0) :
    ((symbol input tree).exec s).1 = .error .limit := by
  have refused : (bitsRead input 1).exec s = (.error .limit, s) := by
    rw [bitsRead, spend, exec_bind, exec_bind]
    simp [none]
  rw [symbol, codeBits, symbolLoop, exec_bind, refused]

/-- The incomplete codes that the source admits: no distance code, and a single code of one bit
    outside the code length alphabet. -/
def AdmittedIncomplete (kind : TreeKind) (lengths : List Nat) : Prop :=
  kind = .distanceTree ∧ (∀ length ∈ lengths, length = 0) ∨
    kind ≠ .completeTree ∧ lengths.filter (· ≠ 0) = [1]

theorem permitted_iff (kind : TreeKind) (lengths : List Nat) : Permitted kind.alphabet lengths ↔
      (∀ length ∈ lengths, length ≤ codeBits) ∧
        (Complete lengths codeBits ∨ AdmittedIncomplete kind lengths) := by
  have kinds : (kind ≠ .completeTree ↔ kind.alphabet ≠ .codeLengths) ∧
      (kind = .distanceTree ↔ kind.alphabet = .distances) := by
    cases kind <;> decide
  refine and_congr_right fun bounded => ?_
  have complete : Complete lengths codeBits ↔ kraft lengths 15 = 2 ^ 15 := complete_iff bounded
  rw [complete, AdmittedIncomplete, kinds.1, kinds.2]
  exact or_congr_right or_comm

/-- With the work for it the builder accepts the complete codes and the admitted incomplete ones.
    With the tree of an accepted code, and with work for the bits, a symbol is read exactly where
    its canonical code word is, over exactly that word. Entries of the symbol table past those of
    the coded symbols are never looked at. -/
theorem canonical_decoding (lengths : Row) (total : Nat) (kind : TreeKind) (old : Row)
    (s : Inflating) (enough : 2 * total + codeBits ≤ s.work) :
    ((∃ tree s', Gives (treeBuild lengths total kind old) s tree s') ↔
      (∀ length ∈ lengths.list total, length ≤ codeBits) ∧ (Complete (lengths.list total) codeBits ∨
          AdmittedIncomplete kind (lengths.list total))) ∧
    ∀ tree s', Gives (treeBuild lengths total kind old) s tree s' →
      ∀ (input : Bytes) (cursor : Inflating) (bits : List Bool), At input cursor bits →
        (∀ v after, Gives (symbol input tree) cursor v after ↔
          ∃ word rest, bits = word ++ rest ∧ IsCode (lengths.list total) v word ∧
            word.length ≤ cursor.work ∧ after = cursor.skip word.length) ∧
        ∀ other : Tree, other.counts = tree.counts →
          (∀ i < ((lengths.list total).filter (· ≠ 0)).length, other.symbols i = tree.symbols i) →
          (symbol input other).exec cursor = (symbol input tree).exec cursor := by
  obtain ⟨permitted, tree, built, equal⟩ | ⟨refused, equal⟩ := treeBuild_cases lengths total kind old
  · have given : Gives (treeBuild lengths total kind old) s tree
        { s with work := s.work - (2 * total + codeBits) } := by
      rw [equal, gives_bind]
      exact ⟨(), _, spend_gives.mpr ⟨enough, rfl⟩, gives_pure.mpr ⟨rfl, rfl⟩⟩
    refine ⟨⟨fun _ => (permitted_iff _ _).mp permitted, fun _ => ⟨tree, _, given⟩⟩, ?_⟩
    intro tree' s' given' input cursor bits unread
    rw [equal, gives_bind] at given'
    obtain ⟨_, _, _, given'⟩ := given'
    obtain ⟨rfl, _⟩ := gives_pure.mp given'
    refine ⟨fun v after => symbol_gives built unread, ?_⟩
    intro other counts symbols
    exact congrArg (Program.exec · cursor)
      (symbolLoop_congr built counts symbols codeBits Nat.one_pos (by decide) 0 0)
  · have never : ∀ tree s', ¬ Gives (treeBuild lengths total kind old) s tree s' := by
      intro tree s' given
      rw [equal, gives_bind] at given
      obtain ⟨_, _, _, given⟩ := given
      exact gives_throw given
    refine ⟨⟨?_, ?_⟩, fun tree s' given => absurd given (never tree s')⟩
    · rintro ⟨tree, s', given⟩
      exact absurd given (never tree s')
    · intro accepted
      exact absurd ((permitted_iff _ _).mpr accepted) refused

/-- A complete code of two one-bit words, and its first symbol. -/
theorem canonical_decoding_pair :
    let start : Inflating :=
      ⟨0, 0, 20, [], ⟨⟨fun _ => 0, fun _ => 0⟩, ⟨fun _ => 0, fun _ => 0⟩, fun _ => 0⟩⟩
    ∃ tree s', Gives (treeBuild (fun _ => 1) 2 .completeTree fun _ => 0) start tree s' ∧
      Gives (symbol [0] tree) start 0 (start.skip 1) := by
  intro start
  have decoding := canonical_decoding (fun _ => 1) 2 .completeTree (fun _ => 0) start (by decide)
  obtain ⟨tree, s', given⟩ :=
    decoding.1.mpr ⟨by decide, .inl ((complete_iff (by decide)).mpr (by decide))⟩
  have unread : At [0] start (BitString.ofBytes [0]) := ⟨by decide, by decide, rfl⟩
  exact ⟨tree, s', given, ((decoding.2 tree s' given [0] start _ unread).1 0 _).mpr
    ⟨[false], List.replicate 7 false, by decide, by decide, by decide, rfl⟩⟩

/-- The code word of the first symbol comes next, but no work is left for its bit. -/
theorem symbol_without_work :
    let lengths : Row := fun _ => 1
    let s : Inflating :=
      ⟨0, 0, 19, [], ⟨⟨fun _ => 0, fun _ => 0⟩, ⟨fun _ => 0, fun _ => 0⟩, fun _ => 0⟩⟩
    ∃ tree s', Gives (treeBuild lengths 2 .completeTree fun _ => 0) s tree s' ∧
      At [0] s' (BitString.ofBytes [0]) ∧ IsCode (lengths.list 2) 0 [false] ∧
      [false] <+: BitString.ofBytes [0] ∧
      ((symbol [0] tree).exec s').1 = .error .limit := by
  intro lengths s
  have start : At [0] s (BitString.ofBytes [0]) := ⟨by decide, by decide, rfl⟩
  have permitted : Permitted .codeLengths (lengths.list 2) := ⟨by decide, .inl (by decide)⟩
  obtain ⟨tree, s', given, _, moved⟩ :=
    treeBuild_enough lengths 2 .completeTree (fun _ => 0) start permitted (by decide)
  have spent : s'.work = 0 := by
    have worked : s'.work + 19 = 19 := moved.work
    omega
  exact ⟨tree, s', given, moved.cursor, by decide, by decide, symbol_unpaid spent⟩

end TinyCrypto.Gzip
