import Mathlib.Algebra.BigOperators.Group.List.Basic
import TinyCrypto.Library.BitString

/-! # Canonical prefix codes

A code given by the length of every symbol's code word. Words of one length are
consecutive numbers in symbol order, and each length starts where the shorter words
end. Length zero is a symbol without a word.
-/

namespace Library.CanonicalCode

open BitString

variable (lengths : List Nat)

def count (length : Nat) : Nat := if length = 0 then 0 else lengths.count length

def start : Nat → Nat
  | 0 => 0
  | length + 1 => 2 * (start length + count lengths length)

def below : Nat → Nat
  | 0 => 0
  | length + 1 => below length + count lengths length

def rank (symbol length : Nat) : Nat := (lengths.take symbol).count length

def IsCode (symbol : Nat) (word : List Bool) : Prop :=
  lengths[symbol]? = some word.length ∧ word ≠ [] ∧
    code word = start lengths word.length + rank lengths symbol word.length

instance {symbol : Nat} {word : List Bool} : Decidable (IsCode lengths symbol word) :=
  inferInstanceAs (Decidable (_ ∧ _ ∧ _))

/-- What the words of all symbols take of the `2 ^ longest` words of the longest length. -/
def kraft (longest : Nat) : Nat :=
  (lengths.map fun length => if length = 0 then 0 else 2 ^ (longest - length)).sum

variable {lengths}

theorem rank_succ {symbol length own : Nat} (given : lengths[symbol]? = some own) :
    rank lengths (symbol + 1) length = rank lengths symbol length + if own = length then 1 else 0 := by
  obtain ⟨inside, rfl⟩ := List.getElem?_eq_some_iff.mp given
  rw [rank, rank, List.take_succ_eq_append_getElem inside, List.count_append, List.count_singleton]
  simp

theorem rank_mono {first second : Nat} (le : first ≤ second) (length : Nat) :
    rank lengths first length ≤ rank lengths second length :=
  (List.take_sublist_take_left le).count_le _

theorem rank_le_count (symbol length : Nat) : rank lengths symbol length ≤ lengths.count length :=
  (List.take_sublist _ _).count_le _

theorem rank_lt_of_lt {first second length : Nat} (lt : first < second)
    (given : lengths[first]? = some length) :
    rank lengths first length < rank lengths second length := by
  have step := @rank_succ lengths first length length given
  rw [if_pos rfl] at step
  have := @rank_mono lengths (first + 1) second lt length
  omega

theorem rank_lt_count {symbol length : Nat} (given : lengths[symbol]? = some length) :
    rank lengths symbol length < lengths.count length := by
  have step := @rank_succ lengths symbol length length given
  rw [if_pos rfl] at step
  have := @rank_le_count lengths (symbol + 1) length
  omega

theorem rank_injective {first second length : Nat} (given : lengths[first]? = some length)
    (given' : lengths[second]? = some length)
    (same : rank lengths first length = rank lengths second length) : first = second := by
  rcases Nat.lt_trichotomy first second with less | equal | more
  · have := rank_lt_of_lt less given
    omega
  · exact equal
  · have := rank_lt_of_lt more given'
    omega

theorem exists_rank {length k : Nat} (few : k < lengths.count length) :
    ∃ symbol, lengths[symbol]? = some length ∧ rank lengths symbol length = k := by
  have upTo : ∀ symbol ≤ lengths.length, k < rank lengths symbol length →
      ∃ symbol, lengths[symbol]? = some length ∧ rank lengths symbol length = k := by
    intro symbol
    induction symbol with
    | zero =>
      intro _ less
      simp [rank] at less
    | succ symbol ih =>
      intro inside less
      have given : lengths[symbol]? = some lengths[symbol] := List.getElem?_eq_getElem inside
      rw [rank_succ given] at less
      by_cases before : k < rank lengths symbol length
      · exact ih (Nat.le_of_succ_le inside) before
      · by_cases own : lengths[symbol] = length
        · rw [if_pos own] at less
          exact ⟨symbol, by rw [given, own], by omega⟩
        · rw [if_neg own] at less
          omega
  refine upTo lengths.length le_rfl ?_
  rwa [rank, List.take_length]

theorem count_of_pos {length : Nat} (pos : 0 < length) :
    count lengths length = lengths.count length := if_neg (by omega)

theorem below_ge {short long : Nat} (less : short < long) :
    below lengths short + count lengths short ≤ below lengths long := by
  induction long with
  | zero => omega
  | succ long ih =>
    rw [below]
    by_cases equal : short = long
    · rw [equal]
    · have := ih (by omega)
      omega

theorem position_injective {first second own own' : Nat} (given : lengths[first]? = some own)
    (given' : lengths[second]? = some own') (pos : 0 < own) (positive' : 0 < own')
    (same : below lengths own + rank lengths first own =
      below lengths own' + rank lengths second own') : first = second := by
  have inside := rank_lt_count given
  have inside' := rank_lt_count given'
  rcases Nat.lt_trichotomy own own' with less | equal | more
  · have ends := @below_ge lengths own own' less
    rw [count_of_pos pos] at ends
    omega
  · subst equal
    exact rank_injective given given' (by omega)
  · have ends := @below_ge lengths own' own more
    rw [count_of_pos positive'] at ends
    omega

theorem start_ge {short long : Nat} (less : short < long) :
    2 ^ (long - short) * (start lengths short + count lengths short) ≤ start lengths long := by
  induction long with
  | zero => omega
  | succ long ih =>
    rw [start]
    by_cases equal : short = long
    · subst equal
      rw [Nat.add_sub_cancel_left, Nat.pow_one]
    · have shift : long + 1 - short = long - short + 1 := by omega
      have below := ih (by omega)
      rw [shift, Nat.pow_succ]
      nlinarith

theorem IsCode.take_ge {symbol : Nat} {word : List Bool} (isCode : IsCode lengths symbol word)
    {short : Nat} (less : short < word.length) :
    start lengths short + count lengths short ≤ code (word.take short) := by
  rw [code_take, Nat.le_div_iff_mul_le (Nat.two_pow_pos _), Nat.mul_comm, isCode.2.2]
  exact Nat.le_trans (start_ge less) (Nat.le_add_right _ _)

theorem IsCode.inside {symbol : Nat} {word : List Bool} (isCode : IsCode lengths symbol word) :
    start lengths word.length ≤ code word ∧
      code word < start lengths word.length + count lengths word.length := by
  have pos := List.length_pos_iff.mpr isCode.2.1
  have rank := rank_lt_count isCode.1
  rw [isCode.2.2, count_of_pos pos]
  omega

theorem IsCode.prefix_free {first second : Nat} {word word' : List Bool}
    (isCode : IsCode lengths first word) (isCode' : IsCode lengths second word')
    (begins : word <+: word') : first = second ∧ word = word' := by
  have same : word.length = word'.length := by
    rcases Nat.lt_or_ge word.length word'.length with less | more
    · have past := isCode'.take_ge less
      have inside := isCode.inside.2
      rw [List.prefix_iff_eq_take.mp begins, List.length_take_of_le begins.length_le] at inside
      omega
    · exact Nat.le_antisymm begins.length_le more
  have equal := begins.eq_of_length same
  subst equal
  refine ⟨rank_injective isCode.1 isCode'.1 ?_, rfl⟩
  have value := isCode.2.2
  rw [isCode'.2.2] at value
  omega

theorem IsCode.determined {first second : Nat} {word word' rest rest' : List Bool}
    (isCode : IsCode lengths first word) (isCode' : IsCode lengths second word')
    (same : word ++ rest = word' ++ rest') : first = second ∧ rest = rest' := by
  have comparable := List.prefix_or_prefix_of_prefix (List.prefix_append word rest)
    (same ▸ List.prefix_append word' rest')
  rcases comparable with begins | begins
  · obtain ⟨symbols, words⟩ := isCode.prefix_free isCode' begins
    exact ⟨symbols, List.append_cancel_left (words ▸ same)⟩
  · obtain ⟨symbols, words⟩ := isCode'.prefix_free isCode begins
    exact ⟨symbols.symm, List.append_cancel_left (words.symm ▸ same)⟩

theorem kraft_filter (list : List Nat) (longest : Nat) :
    kraft list longest = ((list.filter (· ≠ 0)).map fun length => 2 ^ (longest - length)).sum := by
  induction list with
  | nil => rfl
  | cons length rest ih =>
    rw [kraft, List.map_cons, List.sum_cons, List.filter_cons, ← kraft, ih]
    by_cases zero : length = 0
    · simp [zero]
    · simp [zero]

private def kraftTo (list : List Nat) (longest top : Nat) : Nat :=
  (list.map fun length => if length = 0 ∨ top < length then 0 else 2 ^ (longest - length)).sum

private theorem kraftTo_succ (list : List Nat) (longest top : Nat) :
    kraftTo list longest (top + 1) =
      kraftTo list longest top + 2 ^ (longest - (top + 1)) * list.count (top + 1) := by
  induction list with
  | nil => simp [kraftTo]
  | cons length rest ih =>
    simp only [kraftTo, List.map_cons, List.sum_cons, List.count_cons, beq_iff_eq] at ih ⊢
    rw [ih, Nat.mul_add]
    by_cases equal : length = top + 1
    · simp [equal]
      omega
    · by_cases kept : length = 0 ∨ top < length
      · have out : length = 0 ∨ top + 1 < length := by omega
        simp [equal, kept, out]
      · have out : ¬ (length = 0 ∨ top + 1 < length) := by omega
        simp only [kept, out, equal, if_false, Nat.mul_zero, Nat.add_zero]
        omega

variable {longest : Nat}

theorem kraft_eq (bounded : ∀ length ∈ lengths, length ≤ longest) :
    kraft lengths longest = start lengths longest + count lengths longest := by
  have spread : ∀ top ≤ longest, kraftTo lengths longest top =
      2 ^ (longest - top) * (start lengths top + count lengths top) := by
    intro top
    induction top with
    | zero =>
      intro _
      have none : ∀ length : Nat, length = 0 ∨ 0 < length := by omega
      simp [kraftTo, none, start, count]
    | succ top ih =>
      intro le
      have power : 2 ^ (longest - top) = 2 ^ (longest - (top + 1)) * 2 := by
        rw [← Nat.pow_succ]
        congr 1
        omega
      rw [kraftTo_succ, ih (Nat.le_of_succ_le le), power, start, count_of_pos (Nat.succ_pos top)]
      ring
  have total := spread longest le_rfl
  rw [Nat.sub_self, Nat.pow_zero, Nat.one_mul] at total
  rw [← total, kraft, kraftTo]
  congr 1
  refine List.map_congr_left fun length member => ?_
  simp [Nat.not_lt.mpr (bounded length member)]

/-- Every symbol with a length has a word, and every string of the longest length begins with
    a word. -/
def Complete (lengths : List Nat) (longest : Nat) : Prop :=
  (∀ symbol length, lengths[symbol]? = some length → length ≠ 0 →
    ∃ word, word.length = length ∧ IsCode lengths symbol word) ∧
  ∀ bits : List Bool, bits.length = longest →
    ∃ symbol word, IsCode lengths symbol word ∧ word <+: bits

theorem exists_prefix {bits : List Bool} (size : bits.length = longest)
    (before : code bits < start lengths longest + count lengths longest) :
    ∃ symbol word, IsCode lengths symbol word ∧ word <+: bits := by
  induction longest generalizing bits with
  | zero =>
    rw [start, count, if_pos rfl] at before
    omega
  | succ longest ih =>
    have size' : (bits.take longest).length = longest := by
      rw [List.length_take, size]
      omega
    by_cases earlier : code (bits.take longest) < start lengths longest + count lengths longest
    · obtain ⟨symbol, word, isCode, begins⟩ := ih size' earlier
      exact ⟨symbol, word, isCode, begins.trans (List.take_prefix _ _)⟩
    · have half := code_take bits longest
      rw [size, Nat.add_sub_cancel_left, Nat.pow_one] at half
      have after : start lengths (longest + 1) ≤ code bits := by
        rw [start]
        omega
      obtain ⟨symbol, given, rank⟩ := @exists_rank lengths (longest + 1)
        (code bits - start lengths (longest + 1)) (by
          rw [← count_of_pos (show 0 < longest + 1 by omega)]
          omega)
      have nonempty : bits ≠ [] := by
        rintro rfl
        cases size
      exact ⟨symbol, bits, ⟨by rw [size, given], nonempty, by rw [size, rank]; omega⟩,
        List.prefix_refl bits⟩

theorem IsCode.prefix_before {symbol longest : Nat} {word bits : List Bool}
    (isCode : IsCode lengths symbol word) (begins : word <+: bits) (size : bits.length = longest) :
    code bits < start lengths longest + count lengths longest := by
  have inside := isCode.inside.2
  have high := code_take bits word.length
  rw [List.prefix_iff_eq_take.mp begins, List.length_take_of_le begins.length_le, high] at inside
  rcases Nat.lt_or_ge word.length bits.length with less | more
  · have scaled := @start_ge lengths word.length longest (by omega)
    rw [size] at inside
    have past := (Nat.div_lt_iff_lt_mul (Nat.two_pow_pos (longest - word.length))).mp inside
    rw [Nat.mul_comm] at past
    omega
  · have same : word.length = longest := by
      have := begins.length_le
      omega
    rw [size, same, Nat.sub_self, Nat.pow_zero, Nat.div_one] at inside
    exact inside

theorem exists_word {longest symbol length : Nat}
    (space : start lengths longest + count lengths longest ≤ 2 ^ longest)
    (given : lengths[symbol]? = some length) (nonzero : length ≠ 0) (short : length ≤ longest) :
    ∃ word, word.length = length ∧ IsCode lengths symbol word := by
  have fits : start lengths length + count lengths length ≤ 2 ^ length := by
    rcases Nat.lt_or_ge length longest with less | more
    · have scaled := @start_ge lengths length longest less
      have power : 2 ^ longest = 2 ^ (longest - length) * 2 ^ length := by
        rw [← Nat.pow_add]
        congr 1
        omega
      exact Nat.le_of_mul_le_mul_left (by omega) (Nat.two_pow_pos (longest - length))
    · rw [Nat.le_antisymm short more]
      exact space
  have rank := rank_lt_count given
  rw [← count_of_pos (Nat.pos_of_ne_zero nonzero)] at rank
  obtain ⟨word, size, value⟩ := exists_code
    (show start lengths length + CanonicalCode.rank lengths symbol length < 2 ^ length by omega)
  refine ⟨word, size, by rw [size, given], ?_, by rw [size, value]⟩
  rintro rfl
  exact nonzero size.symm

theorem exists_longest (bounded : ∀ length ∈ lengths, length ≤ longest)
    (words : ∀ symbol length, lengths[symbol]? = some length → length ≠ 0 →
      ∃ word, word.length = length ∧ IsCode lengths symbol word) :
    kraft lengths longest ≤ 2 ^ longest := by
  have upTo : ∀ top ≤ longest, start lengths top + count lengths top ≤ 2 ^ top := by
    intro top
    induction top with
    | zero => simp [start, count]
    | succ top ih =>
      intro le
      have shorter := ih (by omega)
      rw [start, Nat.pow_succ]
      rcases Nat.eq_zero_or_pos (lengths.count (top + 1)) with none | some
      · rw [count_of_pos (show 0 < top + 1 by omega), none]
        omega
      · obtain ⟨symbol, given, last⟩ := @exists_rank lengths (top + 1)
          (lengths.count (top + 1) - 1) (by omega)
        obtain ⟨word, size, isCode⟩ := words symbol (top + 1) given (by omega)
        have value := isCode.2.2
        have small := code_lt word
        rw [size, last, start] at value
        rw [size, Nat.pow_succ] at small
        rw [count_of_pos (show 0 < top + 1 by omega)]
        omega
  rw [kraft_eq bounded]
  exact upTo longest le_rfl

theorem complete_iff (bounded : ∀ length ∈ lengths, length ≤ longest) :
    Complete lengths longest ↔ kraft lengths longest = 2 ^ longest := by
  constructor
  · rintro ⟨words, covered⟩
    refine Nat.le_antisymm (exists_longest bounded words) ?_
    have pos := Nat.two_pow_pos longest
    obtain ⟨bits, size, last⟩ := exists_code
      (show 2 ^ longest - 1 < 2 ^ longest by omega)
    obtain ⟨symbol, word, isCode, begins⟩ := covered bits size
    have before := isCode.prefix_before begins size
    rw [kraft_eq bounded]
    omega
  · intro full
    rw [kraft_eq bounded] at full
    refine ⟨?_, ?_⟩
    · intro symbol length given nonzero
      exact exists_word (Nat.le_of_eq full) given nonzero
        (bounded length (List.mem_of_getElem? given))
    · intro bits size
      have small := code_lt bits
      rw [size] at small
      exact exists_prefix size (by omega)

theorem below_eq (top : Nat) :
    below lengths top = lengths.countP fun length => length ≠ 0 ∧ length < top := by
  induction top with
  | zero => simp [below]
  | succ top ih =>
    have split : ∀ list : List Nat, (list.countP fun length => length ≠ 0 ∧ length < top + 1) =
          (list.countP fun length => length ≠ 0 ∧ length < top) + count list top := by
      intro list
      induction list with
      | nil => simp [count]
      | cons length rest ih' =>
        rw [List.countP_cons, List.countP_cons, ih', count, count]
        by_cases zero : top = 0
        · subst zero
          simp
        · rw [if_neg zero, if_neg zero, List.count_cons]
          by_cases own : length = top
          · simp [own, zero]
            omega
          · have same : decide (length ≠ 0 ∧ length < top + 1) =
                decide (length ≠ 0 ∧ length < top) :=
              decide_eq_decide.mpr (by omega)
            rw [same, beq_false_of_ne own]
            simp only [Bool.false_eq_true, if_false, Nat.add_zero]
            exact Nat.add_right_comm _ _ _
    rw [below, ih, split]

theorem below_all (bounded : ∀ length ∈ lengths, length ≤ longest) :
    below lengths (longest + 1) = (lengths.filter (· ≠ 0)).length := by
  rw [below_eq, ← List.countP_eq_length_filter]
  refine List.countP_congr fun length member => ?_
  have := bounded length member
  simp
  omega

end Library.CanonicalCode
