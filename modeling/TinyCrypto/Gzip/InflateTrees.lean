import TinyCrypto.Gzip.Deflate
import TinyCrypto.Gzip.Inflate

/-! # The bit cursor

Reading through the byte and bit cursor is taking bits from a bit string.
-/

namespace TinyCrypto.Gzip

open Library Library.Program
open Library.BitString (value ofBytes lowBits ofBytes_length value_append value_lowBits lowBits_slice
  lowBits_length)

section

variable {input : Bytes} {s s' : Inflating} {bits : List Bool}

def Inflating.position (s : Inflating) : Nat := 8 * s.offset + s.bit

def Inflating.seek (s : Inflating) (position : Nat) : Inflating :=
  { s with offset := position / 8, bit := position % 8 }

structure At (input : Bytes) (s : Inflating) (bits : List Bool) : Prop where
  bit_lt : s.bit < 8
  inside : s.position ≤ 8 * input.length
  unread : bits = (ofBytes input).drop s.position

theorem At.length_eq (cursor : At input s bits) : s.position + bits.length = 8 * input.length := by
  have inside := cursor.inside
  rw [cursor.unread, List.length_drop, ofBytes_length]
  omega

theorem At.seek_self (cursor : At input s bits) : s.seek s.position = s := by
  have low := cursor.bit_lt
  have offset : (8 * s.offset + s.bit) / 8 = s.offset := by omega
  have bit : (8 * s.offset + s.bit) % 8 = s.bit := by omega
  rw [Inflating.seek, Inflating.position, offset, bit]

@[simp] theorem position_seek (position : Nat) : (s.seek position).position = position := by
  simp only [Inflating.position, Inflating.seek]
  omega

@[simp] theorem seek_seek (first second : Nat) : (s.seek first).seek second = s.seek second := rfl

theorem At.seek (cursor : At input s bits) {count : Nat} (fits : count ≤ bits.length) :
    At input (s.seek (s.position + count)) (bits.drop count) := by
  have whole := cursor.length_eq
  refine ⟨Nat.mod_lt _ (by omega), by rw [position_seek]; omega, ?_⟩
  rw [position_seek, cursor.unread, List.drop_drop]

theorem byte_slice {offset bit take : Nat} (inside : offset < input.length) (fits : bit + take ≤ 8) :
    value (((ofBytes input).drop (8 * offset + bit)).take take) =
      (input.getD offset 0).toNat / 2 ^ bit % 2 ^ take := by
  have parts : ofBytes input = ofBytes (input.take offset) ++ lowBits 8 (input.getD offset 0).toNat ++
      ofBytes (input.drop (offset + 1)) := by
    have byte : input.getD offset 0 = input[offset] := by simp [inside]
    conv_lhs => rw [← List.take_append_drop offset input, List.drop_eq_getElem_cons inside]
    rw [byte, BitString.ofBytes_append, List.append_assoc]
    rfl
  have skipped : (ofBytes (input.take offset)).length = 8 * offset := by
    rw [ofBytes_length, List.length_take_of_le (Nat.le_of_lt inside)]
  rw [parts, List.append_assoc, ← List.drop_drop, ← skipped, List.drop_left,
    List.drop_append_of_le_length (by rw [lowBits_length]; omega),
    List.take_append_of_le_length (by rw [List.length_drop, lowBits_length]; omega),
    lowBits_slice _ fits, value_lowBits]

theorem value_take_add (bits : List Bool) (first second : Nat) (fits : first ≤ bits.length) :
    value (bits.take (first + second)) =
      value (bits.take first) + 2 ^ first * value ((bits.drop first).take second) := by
  rw [List.take_add, value_append, List.length_take_of_le fits]

theorem bitsLoop_gives {passes count start shift v : Nat} (cursor : At input s bits)
    (enough : count ≤ passes) : Gives (bitsLoop input passes count start shift) s v s' ↔
      count ≤ bits.length ∧ v = start + value (bits.take count) * 2 ^ shift ∧
        s' = s.seek (s.position + count) := by
  induction passes generalizing count start shift s bits with
  | zero =>
    have zero : count = 0 := by omega
    simp only [bitsLoop, gives_pure, zero, Nat.add_zero, cursor.seek_self, List.take_zero]
    simp [eq_comm]
  | succ passes ih =>
    rw [bitsLoop]
    split
    · rename_i zero
      simp only [gives_pure, zero, Nat.add_zero, cursor.seek_self, List.take_zero]
      simp [eq_comm]
    · rename_i pos
      have whole := cursor.length_eq
      have low := cursor.bit_lt
      have inside := cursor.inside
      simp only [gives_bind, gives_state]
      by_cases finished : s.offset = input.length
      · have none : ¬ count ≤ bits.length := by
          rw [Inflating.position] at *
          omega
        simp [finished, none]
      · have before : s.offset < input.length := by
          rw [Inflating.position] at *
          omega
        generalize taken : (if 8 - s.bit > count then count else 8 - s.bit) = take
        have bounds : 0 < take ∧ take ≤ count ∧ s.bit + take ≤ 8 := by
          split at taken <;> omega
        have room : take ≤ bits.length := by
          rw [Inflating.position] at *
          omega
        have moved : (if s.bit + take = 8 then { s with bit := 0, offset := s.offset + 1 }
            else { s with bit := s.bit + take }) = s.seek (s.position + take) := by
          rw [Inflating.seek, Inflating.position]
          split
          · congr 1 <;> omega
          · congr 1 <;> omega
        have slice := byte_slice before bounds.2.2
        change value (((ofBytes input).drop s.position).take take) = _ at slice
        rw [← cursor.unread] at slice
        have next := @ih (s.seek (s.position + take)) (bits.drop take) (count - take)
          (start + value (bits.take take) * 2 ^ shift) (shift + take) (cursor.seek room) (by omega)
        have split := value_take_add bits take (count - take) room
        rw [Nat.add_sub_cancel' bounds.2.1] at split
        have total : s.position + take + (count - take) = s.position + count := by omega
        rw [position_seek, seek_seek, total, List.length_drop] at next
        constructor
        · rintro ⟨_, _, ⟨rfl, rfl⟩, given⟩
          rw [if_neg finished] at given
          simp only [gives_bind, gives_change, taken] at given
          obtain ⟨_, _, rfl, given⟩ := given
          rw [moved, ← slice] at given
          obtain ⟨fits, number, final⟩ := next.mp given
          refine ⟨by omega, ?_, final⟩
          rw [number, split, Nat.pow_add]
          ring
        · rintro ⟨fits, number, final⟩
          refine ⟨_, _, ⟨rfl, rfl⟩, ?_⟩
          rw [if_neg finished]
          simp only [gives_bind, gives_change, taken]
          refine ⟨(), _, rfl, ?_⟩
          rw [moved, ← slice]
          refine next.mpr ⟨by omega, ?_, final⟩
          rw [number, split, Nat.pow_add]
          ring

@[simp] theorem spend_gives {amount : Nat} {u : Unit} :
    Gives (spend amount) s u s' ↔ amount ≤ s.work ∧ s' = { s with work := s.work - amount } := by
  simp only [spend, gives_bind, gives_state]
  constructor
  · rintro ⟨_, _, ⟨rfl, rfl⟩, given⟩
    split at given
    · exact absurd given gives_throw
    · exact ⟨Nat.not_lt.mp ‹_›, (gives_change.mp given).symm⟩
  · rintro ⟨enough, rfl⟩
    exact ⟨_, _, ⟨rfl, rfl⟩, by rw [if_neg (Nat.not_lt.mpr enough)]; exact gives_change.mpr rfl⟩

/-- Reading spent `cost` and moved to the bits `rest`. -/
structure Moved (input : Bytes) (cost : Nat) (s : Inflating) (rest : List Bool) (s' : Inflating) :
    Prop where
  cursor : At input s' rest
  output : s'.output = s.output
  work : s'.work + cost = s.work

variable {cost cost' : Nat} {rest last : List Bool} {s'' : Inflating}

theorem Moved.trans (first : Moved input cost s rest s') (second : Moved input cost' s' last s'') :
    Moved input (cost + cost') s last s'' := by
  refine ⟨second.cursor, second.output.trans first.output, ?_⟩
  have := first.work
  have := second.work
  omega

theorem Moved.le (moved : Moved input cost s rest s') : cost ≤ s.work := by
  have := moved.work
  omega

theorem At.of_position (cursor : At input s bits) (bit : s'.bit = s.bit)
    (offset : s'.offset = s.offset) : At input s' bits := by
  obtain ⟨low, inside, unread⟩ := cursor
  rw [Inflating.position] at inside unread
  exact ⟨by rwa [bit], by rwa [Inflating.position, bit, offset],
    by rwa [Inflating.position, bit, offset]⟩

theorem spend_moved {amount : Nat} {u : Unit} (cursor : At input s bits)
    (given : Gives (spend amount) s u s') : Moved input amount s bits s' := by
  obtain ⟨enough, rfl⟩ := spend_gives.mp given
  exact ⟨cursor.of_position rfl rfl, rfl, Nat.sub_add_cancel enough⟩

theorem spend_enough (amount : Nat) (cursor : At input s bits) (enough : amount ≤ s.work) :
    ∃ s', Gives (spend amount) s () s' ∧ Moved input amount s bits s' :=
  ⟨_, spend_gives.mpr ⟨enough, rfl⟩, cursor.of_position rfl rfl, rfl, Nat.sub_add_cancel enough⟩

variable {count v : Nat}

theorem bitsRead_moved (cursor : At input s bits) (given : Gives (bitsRead input count) s v s') :
    ∃ rest, Number count bits v rest ∧ Moved input count s rest s' := by
  simp only [bitsRead, gives_bind, spend_gives] at given
  obtain ⟨_, middle, ⟨enough, rfl⟩, given⟩ := given
  have start : At input { s with work := s.work - count } bits := cursor.of_position rfl rfl
  obtain ⟨fits, number, rfl⟩ := (bitsLoop_gives start le_rfl).mp given
  refine ⟨bits.drop count, ⟨bits.take count, List.length_take_of_le fits,
    (List.take_append_drop count bits).symm, by simpa using number⟩, ?_⟩
  exact ⟨start.seek fits, rfl, Nat.sub_add_cancel enough⟩

theorem bitsRead_enough (cursor : At input s bits) (number : Number count bits v rest)
    (enough : count ≤ s.work) :
    ∃ s', Gives (bitsRead input count) s v s' ∧ Moved input count s rest s' := by
  obtain ⟨word, rfl, rfl, rfl⟩ := number
  have start : At input { s with work := s.work - word.length } (word ++ rest) :=
    cursor.of_position rfl rfl
  have fits : word.length ≤ (word ++ rest).length := by simp
  have moved := start.seek fits
  rw [List.drop_left] at moved
  refine ⟨_, ?_, moved, rfl, Nat.sub_add_cancel enough⟩
  simp only [bitsRead, gives_bind, spend_gives]
  refine ⟨(), _, ⟨enough, rfl⟩, (bitsLoop_gives start le_rfl).mpr ⟨by simp, ?_, rfl⟩⟩
  rw [List.take_left]
  simp

end

open Library.BitString (value)
open Library.CanonicalCode

variable {input : Bytes} {s s' : Inflating} {bits : List Bool}

def Row.list (row : Row) (total : Nat) : List Nat := (List.range total).map row

@[simp] theorem Row.list_length (row : Row) (total : Nat) : (row.list total).length = total := by
  simp [Row.list]

theorem Row.list_getElem (row : Row) {total i : Nat} (inside : i < total) :
    (row.list total)[i]? = some (row i) := by
  simp [Row.list, inside]

theorem Row.list_lt {row : Row} {total i : Nat} {entry : Nat}
    (given : (row.list total)[i]? = some entry) : i < total ∧ row i = entry := by
  obtain ⟨inside, equal⟩ := List.getElem?_eq_some_iff.mp given
  rw [Row.list_length] at inside
  exact ⟨inside, by simpa [Row.list] using equal⟩

def TreeKind.alphabet : TreeKind → Alphabet
  | .completeTree => .codeLengths
  | .literalTree => .literals
  | .distanceTree => .distances

structure Built (lengths : List Nat) (tree : Tree) : Prop where
  bounded : ∀ length ∈ lengths, length ≤ codeBits
  counts : ∀ length, 0 < length → tree.counts length = lengths.count length
  symbols : ∀ symbol length, lengths[symbol]? = some length → 0 < length →
    tree.symbols (below lengths length + rank lengths symbol length) = symbol

theorem treeCounts_eq (lengths : Row) (passes i : Nat) (counts : Row) (symbols : Nat) :
    treeCounts lengths passes i counts symbols =
      if ∀ length ∈ (List.range' i passes).map lengths, length ≤ codeBits then
        some (fun length => counts length + count ((List.range' i passes).map lengths) length,
          symbols + (((List.range' i passes).map lengths).filter (· ≠ 0)).length) else none := by
  induction passes generalizing i counts symbols with
  | zero => simp [treeCounts, count]
  | succ passes ih =>
    rw [treeCounts, List.range'_succ, List.map_cons]
    by_cases long : lengths i > codeBits
    · rw [if_pos long, if_neg]
      intro all
      have := all (lengths i) List.mem_cons_self
      omega
    · have short : lengths i ≤ codeBits := Nat.not_lt.mp long
      rw [if_neg long]
      simp only [List.forall_mem_cons, short, true_and]
      split
      · rename_i nonzero
        rw [ih]
        generalize (List.range' (i + 1) passes).map lengths = later
        refine if_congr Iff.rfl (congrArg some (Prod.ext (funext fun length => ?_) ?_)) rfl
        · simp only [Row.set, count, List.count_cons, beq_iff_eq]
          by_cases own : length = lengths i
          · simp [own, nonzero]
            omega
          · simp [own, Ne.symm own]
        · simp [nonzero]
          omega
      · rename_i zero
        have none : lengths i = 0 := not_not.mp zero
        rw [ih]
        generalize (List.range' (i + 1) passes).map lengths = later
        refine if_congr Iff.rfl (congrArg some (Prod.ext (funext fun length => ?_) ?_)) rfl
        · simp only [count, List.count_cons, beq_iff_eq, none]
          by_cases own : length = 0
          · simp [own]
          · simp [own, Ne.symm own]
        · simp [none]

theorem treeLevels_spec {lengths : List Nat} {passes bits remaining : Nat} {offsets : Row}
    (total : bits + passes = codeBits)
    (space : remaining + (start lengths bits + count lengths bits) = 2 ^ bits)
    (placed : ∀ length, 0 < length → length ≤ bits + 1 → length ≤ codeBits →
      offsets length = below lengths length) :
    match treeLevels (count lengths) passes (bits + 1) remaining offsets with
    | none => 2 ^ codeBits < start lengths codeBits + count lengths codeBits
    | some (left, final) =>
      left + (start lengths codeBits + count lengths codeBits) = 2 ^ codeBits ∧
        ∀ length, 0 < length → length ≤ codeBits → final length = below lengths length := by
  induction passes generalizing bits remaining offsets with
  | zero =>
    have all : bits = codeBits := total
    subst all
    exact ⟨space, fun length pos short => placed length pos (by omega) short⟩
  | succ passes ih =>
    have next : start lengths (bits + 1) = 2 * (start lengths bits + count lengths bits) := rfl
    have power : 2 ^ (bits + 1) = 2 * 2 ^ bits := Nat.pow_succ'
    have placed' : ∀ length, 0 < length → length ≤ bits + 1 + 1 → length ≤ codeBits →
        (if bits + 1 < codeBits then
          offsets.set (bits + 1 + 1) (offsets (bits + 1) + count lengths (bits + 1))
        else offsets) length = below lengths length := by
      intro length pos short bounded
      split
      · rw [Row.set]
        split
        · rename_i equal
          rw [equal, placed (bits + 1) (by omega) le_rfl (by omega)]
          rfl
        · exact placed length pos (by omega) bounded
      · exact placed length pos (by omega) bounded
    rw [treeLevels]
    by_cases more : count lengths (bits + 1) > 2 * remaining
    · rw [if_pos more]
      have beyond : 2 ^ (bits + 1) < start lengths (bits + 1) + count lengths (bits + 1) := by
        omega
      by_cases last : bits + 1 = codeBits
      · rwa [last] at beyond
      · have later := @start_ge lengths (bits + 1) codeBits (by omega)
        have scaled := Nat.mul_lt_mul_of_pos_left beyond (Nat.two_pow_pos (codeBits - (bits + 1)))
        rw [← Nat.pow_add, Nat.sub_add_cancel (by omega)] at scaled
        show 2 ^ codeBits < start lengths codeBits + count lengths codeBits
        omega
    · rw [if_neg more]
      exact ih (by omega) (by omega) placed'

theorem treeSymbols_spec {lengths : Row} {total passes i : Nat} {offsets symbols : Row}
    (range : i + passes = total) (bounded : ∀ length ∈ lengths.list total, length ≤ codeBits)
    (placed : ∀ length, 0 < length → length ≤ codeBits →
      offsets length = below (lengths.list total) length + rank (lengths.list total) i length)
    (done : ∀ symbol length, symbol < i → (lengths.list total)[symbol]? = some length →
      0 < length → symbols (below (lengths.list total) length +
        rank (lengths.list total) symbol length) = symbol) :
    ∀ symbol length, (lengths.list total)[symbol]? = some length → 0 < length →
      treeSymbols lengths passes i offsets symbols (below (lengths.list total) length +
        rank (lengths.list total) symbol length) = symbol := by
  induction passes generalizing i offsets symbols with
  | zero =>
    intro symbol length given pos
    exact done symbol length (by have := (Row.list_lt given).1; omega) given pos
  | succ passes ih =>
    have given := @Row.list_getElem lengths total i (by omega)
    have short : lengths i ≤ codeBits := bounded _ (List.mem_of_getElem? given)
    rw [treeSymbols]
    split
    · rename_i nonzero
      have own := placed (lengths i) (Nat.pos_of_ne_zero nonzero) short
      refine ih (by omega) ?_ ?_
      · intro length pos bound
        rw [Row.set, rank_succ given]
        by_cases equal : length = lengths i
        · rw [if_pos equal, if_pos equal.symm, ← equal, placed length pos bound, Nat.add_assoc]
        · rw [if_neg equal, if_neg (Ne.symm equal), placed length pos bound, Nat.add_zero]
      · intro symbol length less given' pos
        rw [Row.set, own]
        by_cases last : symbol = i
        · subst last
          rw [given, Option.some_inj] at given'
          rw [given', if_pos rfl]
        · rw [if_neg, done symbol length (by omega) given' pos]
          intro same
          exact last (position_injective given' given pos (Nat.pos_of_ne_zero nonzero) same)
    · rename_i zero
      refine ih (by omega) ?_ ?_
      · intro length pos bound
        rw [rank_succ given, if_neg (by omega), placed length pos bound, Nat.add_zero]
      · intro symbol length less given' pos
        by_cases last : symbol = i
        · subst last
          rw [given, Option.some_inj] at given'
          omega
        · exact done symbol length (by omega) given' pos

theorem list_eq_range' (lengths : Row) (total : Nat) :
    (List.range' 0 total).map lengths = lengths.list total := by
  rw [Row.list, List.range_eq_range']

theorem filter_singleton_iff (lengths : List Nat) :
    lengths.filter (· ≠ 0) = [1] ↔ (lengths.filter (· ≠ 0)).length = 1 ∧ lengths.count 1 = 1 := by
  constructor
  · intro one
    refine ⟨by rw [one]; rfl, ?_⟩
    rw [← List.count_filter (p := fun length => decide (length ≠ 0)) (by simp), one]
    rfl
  · rintro ⟨length, own⟩
    obtain ⟨entry, single⟩ := List.length_eq_one_iff.mp length
    rw [← List.count_filter (p := fun length => decide (length ≠ 0)) (by simp), single] at own
    by_cases equal : entry = 1
    · rw [single, equal]
    · simp [equal] at own

theorem filter_nil_iff (lengths : List Nat) :
    (lengths.filter (· ≠ 0)).length = 0 ↔ ∀ length ∈ lengths, length = 0 := by
  simp [List.length_eq_zero_iff, List.filter_eq_nil_iff]

theorem treeBuild_cases (lengths : Row) (total : Nat) (kind : TreeKind) (old : Row) :
    (Permitted kind.alphabet (lengths.list total) ∧ ∃ tree, Built (lengths.list total) tree ∧
        treeBuild lengths total kind old = (spend (2 * total + codeBits) >>= fun _ => pure tree)) ∨
    (¬ Permitted kind.alphabet (lengths.list total) ∧ treeBuild lengths total kind old =
        (spend (2 * total + codeBits) >>= fun _ => throw .invalid)) := by
  unfold treeBuild
  rw [treeCounts_eq, list_eq_range']
  simp only [Nat.zero_add]
  by_cases bounded : ∀ length ∈ lengths.list total, length ≤ codeBits
  · rw [if_pos bounded]
    have levels := @treeLevels_spec (lengths.list total) codeBits 0 1 (fun _ => 0) (Nat.zero_add _)
      rfl fun length pos short _ => by
        have one : length = 1 := by omega
        rw [one]
        rfl
    have space := kraft_eq bounded
    have filtered := kraft_filter (lengths.list total) codeBits
    have ones : count (lengths.list total) 1 = (lengths.list total).count 1 := rfl
    rw [Nat.zero_add] at levels
    change match treeLevels (fun length => count (lengths.list total) length) codeBits 1 1
      (fun _ => 0) with | none => _ | some (left, final) => _ at levels
    have exceptions : kind ≠ .completeTree ∧ (lengths.list total).filter (· ≠ 0) = [1] →
        kraft (lengths.list total) codeBits ≤ 2 ^ codeBits := by
      rintro ⟨_, single⟩
      rw [filtered, single]
      decide
    have nothing : (∀ length ∈ lengths.list total, length = 0) →
        kraft (lengths.list total) codeBits ≤ 2 ^ codeBits := by
      intro zeros
      rw [filtered, List.length_eq_zero_iff.mp ((filter_nil_iff _).mpr zeros)]
      decide
    have kinds : (kind ≠ .completeTree ↔ kind.alphabet ≠ .codeLengths) ∧
        (kind = .distanceTree ↔ kind.alphabet = .distances) := by
      cases kind <;> decide
    split at levels
    · rename_i failed
      refine .inr ⟨?_, by simp only [failed]⟩
      rintro ⟨_, complete | single | ⟨_, zeros⟩⟩
      · change kraft (lengths.list total) codeBits = 2 ^ codeBits at complete
        omega
      · have := exceptions ⟨kinds.1.mpr single.1, single.2⟩
        omega
      · have := nothing zeros
        omega
    · rename_i left final found
      simp only [found]
      have complete : left = 0 ↔ kraft (lengths.list total) 15 = 2 ^ 15 := by
        change left = 0 ↔ kraft (lengths.list total) codeBits = 2 ^ codeBits
        omega
      rw [← filter_nil_iff] at *
      by_cases accepted : left ≠ 0 ∧
          ¬(kind = .distanceTree ∧ ((lengths.list total).filter (· ≠ 0)).length = 0) ∧
          ¬(kind ≠ .completeTree ∧ ((lengths.list total).filter (· ≠ 0)).length = 1 ∧
            count (lengths.list total) 1 = 1)
      · refine .inr ⟨?_, by rw [if_pos accepted]⟩
        obtain ⟨incomplete, some, several⟩ := accepted
        rintro ⟨_, full | single | none⟩
        · exact incomplete (complete.mpr full)
        · rw [filter_singleton_iff] at single
          exact several ⟨kinds.1.mpr single.1, single.2⟩
        · exact some ⟨kinds.2.mpr none.1, (filter_nil_iff _).mpr none.2⟩
      · refine .inl ⟨⟨bounded, ?_⟩, ⟨_, _⟩, ⟨bounded, ?_, ?_⟩, by rw [if_neg accepted]⟩
        · rw [filter_singleton_iff, ← filter_nil_iff, ← complete, ← kinds.1, ← kinds.2]
          by_contra none
          exact accepted ⟨fun zero => none (.inl zero), fun empty => none (.inr (.inr empty)),
            fun single => none (.inr (.inl single))⟩
        · exact fun length pos => count_of_pos pos
        · refine treeSymbols_spec (Nat.zero_add _) bounded ?_ ?_
          · intro length pos short
            rw [levels.2 length pos short]
            rfl
          · intro symbol _ less
            omega
  · rw [if_neg bounded]
    exact .inr ⟨fun permitted => bounded permitted.1, rfl⟩

theorem treeBuild_moved {lengths : Row} {total : Nat} {kind : TreeKind} {old : Row} {tree : Tree}
    (cursor : At input s bits) (given : Gives (treeBuild lengths total kind old) s tree s') :
    Permitted kind.alphabet (lengths.list total) ∧ Built (lengths.list total) tree ∧
      Moved input (2 * total + codeBits) s bits s' := by
  obtain ⟨permitted, tree', built, equal⟩ | ⟨_, equal⟩ := treeBuild_cases lengths total kind old
  · rw [equal] at given
    simp only [gives_bind, gives_pure] at given
    obtain ⟨_, _, spent, rfl, rfl⟩ := given
    exact ⟨permitted, built, spend_moved cursor spent⟩
  · rw [equal] at given
    simp only [gives_bind, gives_throw, and_false, exists_false] at given

theorem treeBuild_enough (lengths : Row) (total : Nat) (kind : TreeKind) (old : Row)
    (cursor : At input s bits) (permitted : Permitted kind.alphabet (lengths.list total))
    (enough : 2 * total + codeBits ≤ s.work) :
    ∃ tree s', Gives (treeBuild lengths total kind old) s tree s' ∧
      Built (lengths.list total) tree ∧ Moved input (2 * total + codeBits) s bits s' := by
  obtain ⟨_, tree, built, equal⟩ | ⟨refused, _⟩ := treeBuild_cases lengths total kind old
  · obtain ⟨s', spent, moved⟩ := spend_enough _ cursor enough
    refine ⟨tree, s', ?_, built, moved⟩
    rw [equal, gives_bind]
    exact ⟨(), s', spent, gives_pure.mpr ⟨rfl, rfl⟩⟩
  · exact absurd permitted refused

section

variable {lengths : List Nat} {tree : Tree} {v : Nat}

theorem Built.found (built : Built lengths tree) {word : List Bool} (nonempty : word ≠ [])
    (first : start lengths word.length ≤ BitString.code word)
    (last : BitString.code word - start lengths word.length < tree.counts word.length) :
    IsCode lengths
      (tree.symbols (below lengths word.length + BitString.code word - start lengths word.length))
      word := by
  have pos := List.length_pos_iff.mpr nonempty
  rw [built.counts _ pos] at last
  obtain ⟨symbol, given, rank⟩ := exists_rank last
  have position : below lengths word.length + BitString.code word - start lengths word.length =
      below lengths word.length + CanonicalCode.rank lengths symbol word.length := by
    omega
  rw [position, built.symbols symbol _ given pos]
  exact ⟨given, nonempty, by omega⟩

theorem bit_number {bits rest : List Bool} {bit : Nat} (number : Number 1 bits bit rest) :
    ∃ b : Bool, bits = b :: rest ∧ bit = b.toNat := by
  obtain ⟨word, single, rfl, rfl⟩ := number
  obtain ⟨b, rfl⟩ := List.length_eq_one_iff.mp single
  exact ⟨b, rfl, by simp⟩

theorem number_bit (b : Bool) (rest : List Bool) : Number 1 (b :: rest) b.toNat rest :=
  ⟨[b], rfl, rfl, by simp⟩

theorem symbolLoop_moved (built : Built lengths tree) {passes : Nat} (word : List Bool)
    (cursor : At input s bits)
    (given : Gives (symbolLoop input tree passes (word.length + 1) (BitString.code word)
      (start lengths (word.length + 1)) (below lengths (word.length + 1))) s v s') :
    ∃ more rest, bits = more ++ rest ∧ IsCode lengths v (word ++ more) ∧
      Moved input more.length s rest s' := by
  induction passes generalizing word s bits with
  | zero => exact absurd given gives_throw
  | succ passes ih =>
    rw [symbolLoop, gives_bind] at given
    obtain ⟨bit, middle, read, given⟩ := given
    obtain ⟨rest, number, moved⟩ := bitsRead_moved cursor read
    obtain ⟨b, rfl, rfl⟩ := bit_number number
    rw [← BitString.code_append_singleton] at given
    have longer : (word ++ [b]).length = word.length + 1 := by simp
    rw [← longer] at given
    dsimp only at given
    split at given
    · rename_i inside
      obtain ⟨rfl, rfl⟩ := gives_pure.mp given
      exact ⟨[b], rest, rfl, built.found (by simp) inside.1 inside.2, moved⟩
    · have pos : 0 < (word ++ [b]).length := by simp
      rw [built.counts _ pos, ← count_of_pos pos] at given
      obtain ⟨more, last, rfl, isCode, later⟩ := ih _ moved.cursor given
      refine ⟨b :: more, last, rfl, by simpa using isCode, ?_⟩
      have whole := moved.trans later
      rwa [Nat.add_comm] at whole

theorem symbolLoop_enough (built : Built lengths tree) {passes : Nat} (word : List Bool)
    {more rest : List Bool}
    (cursor : At input s (more ++ rest)) (isCode : IsCode lengths v (word ++ more))
    (unfinished : more ≠ []) (room : (word ++ more).length ≤ word.length + passes)
    (enough : more.length ≤ s.work) :
    ∃ s', Gives (symbolLoop input tree passes (word.length + 1) (BitString.code word)
        (start lengths (word.length + 1)) (below lengths (word.length + 1))) s v s' ∧
      Moved input more.length s rest s' := by
  induction passes generalizing word more s with
  | zero =>
    have := List.length_pos_iff.mpr unfinished
    rw [List.length_append] at room
    omega
  | succ passes ih =>
    cases more with
    | nil => exact absurd rfl unfinished
    | cons b more =>
      rw [List.length_cons] at enough
      obtain ⟨middle, read, moved⟩ := bitsRead_enough cursor (number_bit b (more ++ rest))
        (by omega)
      have longer : (word ++ [b]).length = word.length + 1 := by simp
      have pos : 0 < (word ++ [b]).length := by simp
      have whole : word ++ b :: more = word ++ [b] ++ more := by simp
      rw [whole] at isCode room
      have worked := moved.work
      simp only [symbolLoop, gives_bind]
      rw [← longer]
      cases more with
      | nil =>
        rw [List.append_nil] at isCode
        have inside := isCode.inside
        refine ⟨middle, ⟨b.toNat, middle, read, ?_⟩, moved⟩
        rw [← BitString.code_append_singleton, if_pos, gives_pure]
        · refine ⟨?_, rfl⟩
          have position : below lengths (word ++ [b]).length +
              BitString.code (word ++ [b]) - start lengths (word ++ [b]).length =
              below lengths (word ++ [b]).length +
                CanonicalCode.rank lengths v (word ++ [b]).length := by
            have := isCode.2.2
            omega
          rw [position, built.symbols v _ isCode.1 pos]
        · rw [built.counts _ pos, ← count_of_pos pos]
          omega
      | cons b' more =>
        have short : (word ++ [b]).length < (word ++ [b] ++ b' :: more).length := by simp
        have past := isCode.take_ge short
        rw [List.take_left] at past
        obtain ⟨final, loop, later⟩ := ih _ moved.cursor isCode (by simp)
          (by simp at room ⊢; omega) (by simp at enough ⊢; omega)
        refine ⟨final, ⟨b.toNat, middle, read, ?_⟩, ?_⟩
        · rw [← BitString.code_append_singleton, if_neg]
          · rw [built.counts _ pos, ← count_of_pos pos]
            exact loop
          · rw [built.counts _ pos, ← count_of_pos pos]
            omega
        · have total := moved.trans later
          rwa [Nat.add_comm] at total

theorem symbol_moved (built : Built lengths tree) (cursor : At input s bits)
    (given : Gives (symbol input tree) s v s') :
    ∃ cost rest, 0 < cost ∧ Symbol lengths bits v rest ∧ Moved input cost s rest s' := by
  obtain ⟨word, rest, rfl, isCode, moved⟩ := symbolLoop_moved built [] cursor given
  exact ⟨_, rest, List.length_pos_iff.mpr isCode.2.1, ⟨word, isCode, rfl⟩, moved⟩

theorem symbol_enough {rest : List Bool} (read : Symbol lengths bits v rest) :
    ∃ cost, 0 < cost ∧ ∀ {input : Bytes} tree s, Built lengths tree → At input s bits → cost ≤ s.work →
      ∃ s', Gives (symbol input tree) s v s' ∧ Moved input cost s rest s' := by
  obtain ⟨word, isCode, rfl⟩ := read
  have pos := List.length_pos_iff.mpr isCode.2.1
  refine ⟨word.length, pos, fun tree s built cursor enough => ?_⟩
  have short := built.bounded _ (List.mem_of_getElem? isCode.1)
  exact symbolLoop_enough built [] cursor isCode isCode.2.1 (by simpa using short) enough

end

end TinyCrypto.Gzip
