import Mathlib.Data.Nat.ModEq
import TinyCrypto.Unicode.Prepare

/-! # Looking up

The binary searches find what sorted tables hold. `Correct` is what the generated tables
are taken to be.
-/

namespace TinyCrypto.Unicode

structure Found (below : Nat → Bool) (low high place : Nat) : Prop where
  first : low ≤ place
  last : place ≤ high
  before : ∀ i, low ≤ i → i < place → below i = true
  after : ∀ i, place ≤ i → i < high → below i = false

theorem searchFrom_found {below : Nat → Bool} {passes low high : Nat}
    (down : ∀ i j, i ≤ j → j < high → below j = true → below i = true)
    (enough : high - low ≤ passes) (le : low ≤ high) :
    Found below low high (searchFrom below passes low high) := by
  induction passes generalizing low high with
  | zero =>
    have same : low = high := by omega
    rw [searchFrom, same]
    exact ⟨le_rfl, le_rfl, fun i _ _ => by omega, fun i _ _ => by omega⟩
  | succ passes ih =>
    rw [searchFrom]
    split
    · rename_i less
      have inside : low ≤ low + (high - low) / 2 ∧ low + (high - low) / 2 < high := by omega
      generalize low + (high - low) / 2 = middle at inside
      dsimp only
      split
      · rename_i under
        obtain ⟨first, last, before, after⟩ := @ih (middle + 1) high down (by omega) (by omega)
        refine ⟨by omega, last, ?_, after⟩
        intro i _ small
        rcases Nat.lt_or_ge middle i with past | up
        · exact before i past small
        · exact down i middle up inside.2 under
      · rename_i above
        obtain ⟨first, last, before, after⟩ :=
          @ih low middle (fun i j le less => down i j le (by omega)) (by omega) inside.1
        refine ⟨first, by omega, before, ?_⟩
        intro i large small
        rcases Nat.lt_or_ge i middle with early | late
        · exact after i large early
        · rw [← Bool.not_eq_true]
          exact fun under => above (down middle i late small under)
    · rename_i full
      have same : low = high := by omega
      rw [same]
      exact ⟨le_rfl, le_rfl, fun i _ _ => by omega, fun i _ _ => by omega⟩

def Ascending (keys : Array Nat) : Prop :=
  ∀ i j, i < j → j < keys.size → keys.getD i 0 < keys.getD j 0

def EntryAt (keys : Array Nat) (point i : Nat) : Prop := i < keys.size ∧ keys.getD i 0 = point

section

variable {keys : Array Nat} {point i : Nat}

theorem Ascending.mono (ascending : Ascending keys) {j : Nat} (le : i ≤ j) (inside : j < keys.size) :
    keys.getD i 0 ≤ keys.getD j 0 := by
  rcases Nat.lt_or_ge i j with less | ge
  · exact Nat.le_of_lt (ascending i j less inside)
  · rw [show i = j by omega]

theorem search_found (ascending : Ascending keys) (point : Nat) :
    Found (fun middle => keys.getD middle 0 < point) 0 keys.size (search keys point) := by
  refine searchFrom_found ?_ (by omega) (Nat.zero_le _)
  intro i j le less below
  simp only [decide_eq_true_eq] at below ⊢
  exact Nat.lt_of_le_of_lt (ascending.mono le less) below

theorem EntryAt.search_eq (ascending : Ascending keys) (entry : EntryAt keys point i) :
    search keys point = i := by
  obtain ⟨_, last, before, after⟩ := search_found ascending point
  obtain ⟨inside, same⟩ := entry
  rcases Nat.lt_trichotomy (search keys point) i with less | equal | greater
  · have above := after (search keys point) le_rfl (by omega)
    have under := ascending _ _ less inside
    simp only [decide_eq_false_iff_not] at above
    omega
  · exact equal
  · have under := before i (Nat.zero_le _) greater
    simp only [decide_eq_true_eq] at under
    omega

theorem keyed_iff (ascending : Ascending keys) :
    keyed keys point = true ↔ ∃ i, EntryAt keys point i := by
  rw [keyed, Bool.and_eq_true, decide_eq_true_eq, decide_eq_true_eq]
  constructor
  · rintro ⟨inside, same⟩
    exact ⟨_, inside, same⟩
  · rintro ⟨i, entry⟩
    rw [entry.search_eq ascending]
    exact entry

end

def Conjoining (first second : Nat) : Prop :=
  (0x1100 ≤ first ∧ first < 0x1113 ∧ 0x1161 ≤ second ∧ second < 0x1176) ∨
    (0xac00 ≤ first ∧ first < 0xd7a4 ∧ (first - 0xac00) % 28 = 0 ∧ 0x11a7 < second ∧
      second < 0x11c3)

inductive PrimaryComposite (t : Tables) : Nat → Nat → Nat → Prop where
  | leadVowel : lead < 19 → vowel < 21 →
      PrimaryComposite t (0x1100 + lead) (0x1161 + vowel) (0xac00 + (lead * 21 + vowel) * 28)
  | syllableTrail : syllable < 19 * 21 → 0 < trail → trail < 28 →
      PrimaryComposite t (0xac00 + syllable * 28) (0x11a7 + trail) (0xac00 + syllable * 28 + trail)
  | listed : i < t.compositionFirst.size →
      PrimaryComposite t (t.compositionFirst.getD i 0) (t.compositionSecond.getD i 0)
        (t.compositionValues.getD i 0)

inductive FullDecomposition (t : Tables) : Nat → List Nat → Prop where
  | leadVowel : lead < 19 → vowel < 21 →
      FullDecomposition t (0xac00 + (lead * 21 + vowel) * 28) [0x1100 + lead, 0x1161 + vowel]
  | leadVowelTrail : lead < 19 → vowel < 21 → 0 < trail → trail < 28 →
      FullDecomposition t (0xac00 + (lead * 21 + vowel) * 28 + trail)
        [0x1100 + lead, 0x1161 + vowel, 0x11a7 + trail]
  | listed : ¬(0xac00 ≤ point ∧ point < 0xd7a4) → EntryAt t.decompositionKeys point i →
      FullDecomposition t point
        (pooled t.decompositionPool (t.decompositionOffsets.getD i 0)
          (t.decompositionLengths.getD i 0))
  | self : ¬(0xac00 ≤ point ∧ point < 0xd7a4) → (∀ i, ¬EntryAt t.decompositionKeys point i) →
      FullDecomposition t point [point]

inductive HasClass (t : Tables) : Nat → Nat → Prop where
  | listed : EntryAt t.classKeys point i → HasClass t point (t.classValues.getD i 0)
  | starter : (∀ i, ¬EntryAt t.classKeys point i) → HasClass t point 0

def reduced (t : Tables) (point : Nat) : List Nat := (map t point).flatMap (decomposition t)

/-- Sorted tables, whose composites are starters that decompose into what they are composed
    of, and whose decompositions are full. Spaces stand alone. -/
structure Tables.Correct (t : Tables) : Prop where
  classes : Ascending t.classKeys
  decompositions : Ascending t.decompositionKeys
  pairs : ∀ i j, i < j → j < t.compositionFirst.size →
    t.compositionFirst.getD i 0 < t.compositionFirst.getD j 0 ∨
      t.compositionFirst.getD i 0 = t.compositionFirst.getD j 0 ∧
        t.compositionSecond.getD i 0 < t.compositionSecond.getD j 0
  composites : ∀ i < t.compositionFirst.size, t.compositionValues.getD i 0 ≠ 0
  listed : ∀ i < t.compositionFirst.size,
    ¬Conjoining (t.compositionFirst.getD i 0) (t.compositionSecond.getD i 0)
  starters : ∀ {a b v}, PrimaryComposite t a b v → HasClass t v 0
  parts : ∀ {a b v}, PrimaryComposite t a b v →
    decomposition t v = decomposition t a ++ decomposition t b
  folded : ∀ {a b v}, PrimaryComposite t a b v → reduced t a = decomposition t a →
    reduced t b = decomposition t b → reduced t v = decomposition t v
  full : ∀ point, ∀ p ∈ reduced t point, reduced t p = [p] ∧ decomposition t p = [p]
  apart : ∀ {a b v}, PrimaryComposite t a b v → a ≠ 0x20 ∧ b ≠ 0x20 ∧ v ≠ 0x20
  space : HasClass t 0x20 0 ∧ mark t 0x20 = false ∧ allowed t 0x20 = true ∧
    decomposition t 0x20 = [0x20]
  permitted : ∀ point, allowed t point = true → scalarOk point = true
  scalars : ∀ point, scalarOk point = true → ∀ p ∈ map t point, scalarOk p = true

section

variable {t : Tables}

theorem combiningClass_iff (correct : t.Correct) {point value : Nat} :
    combiningClass t point = value ↔ HasClass t point value := by
  have ascending := correct.classes
  have has : HasClass t point (combiningClass t point) := by
    rw [combiningClass]
    split
    · rename_i listed
      obtain ⟨i, entry⟩ := (keyed_iff ascending).mp listed
      rw [entry.search_eq ascending]
      exact .listed entry
    · rename_i missing
      exact .starter fun i entry => missing ((keyed_iff ascending).mpr ⟨i, entry⟩)
  constructor
  · rintro rfl
    exact has
  · intro given
    rw [combiningClass]
    cases given with
    | listed entry =>
      rw [if_pos ((keyed_iff ascending).mpr ⟨_, entry⟩), entry.search_eq ascending]
    | starter missing =>
      rw [if_neg]
      intro listed
      obtain ⟨i, entry⟩ := (keyed_iff ascending).mp listed
      exact missing i entry

theorem pair_found (correct : t.Correct) {a b i : Nat} (inside : i < t.compositionFirst.size)
    (first : t.compositionFirst.getD i 0 = a) (second : t.compositionSecond.getD i 0 = b) :
    searchFrom (fun middle => let a' := t.compositionFirst.getD middle 0
      let b' := t.compositionSecond.getD middle 0
      a' < a || (a' = a && b' < b)) t.compositionFirst.size 0 t.compositionFirst.size = i := by
  have down : ∀ i j, i ≤ j → j < t.compositionFirst.size →
      (t.compositionFirst.getD j 0 < a || (t.compositionFirst.getD j 0 = a &&
        t.compositionSecond.getD j 0 < b) : Bool) = true →
      (t.compositionFirst.getD i 0 < a || (t.compositionFirst.getD i 0 = a &&
        t.compositionSecond.getD i 0 < b) : Bool) = true := by
    intro i j le less below
    rcases Nat.lt_or_ge i j with earlier | same
    · have order := correct.pairs i j earlier less
      simp only [Bool.or_eq_true, Bool.and_eq_true, decide_eq_true_eq] at below ⊢
      omega
    · rw [show i = j by omega]
      exact below
  have found := searchFrom_found down (Nat.sub_le t.compositionFirst.size 0) (Nat.zero_le _)
  dsimp only
  generalize searchFrom _ t.compositionFirst.size 0 t.compositionFirst.size = place at found ⊢
  obtain ⟨_, last, before, after⟩ := found
  rcases Nat.lt_trichotomy place i with less | equal | greater
  · have above := after place le_rfl (by omega)
    have order := correct.pairs _ _ less inside
    simp only [Bool.or_eq_false_iff, Bool.and_eq_false_iff, decide_eq_false_iff_not] at above
    omega
  · exact equal
  · have under := before i (Nat.zero_le _) greater
    simp only [Bool.or_eq_true, Bool.and_eq_true, decide_eq_true_eq] at under
    omega

theorem composition_iff (correct : t.Correct) {a b v : Nat} :
    composition t a b = v ∧ v ≠ 0 ↔ PrimaryComposite t a b v := by
  constructor
  · rintro ⟨given, nonzero⟩
    rw [composition] at given
    split at given
    · rename_i conjoining
      simp only [Bool.and_eq_true, decide_eq_true_eq] at conjoining
      have composite := @PrimaryComposite.leadVowel t (a - 0x1100) (b - 0x1161) (by omega) (by omega)
      rw [show 0x1100 + (a - 0x1100) = a by omega, show 0x1161 + (b - 0x1161) = b by omega,
        show 0xac00 + ((a - 0x1100) * 21 + (b - 0x1161)) * 28 = v by omega] at composite
      exact composite
    · split at given
      · rename_i conjoining
        simp only [Bool.and_eq_true, decide_eq_true_eq] at conjoining
        have composite := @PrimaryComposite.syllableTrail t ((a - 0xac00) / 28) (b - 0x11a7)
          (by omega) (by omega) (by omega)
        rw [show 0xac00 + (a - 0xac00) / 28 * 28 = a by omega,
          show 0x11a7 + (b - 0x11a7) = b by omega, show a + (b - 0x11a7) = v by omega] at composite
        exact composite
      · dsimp only at given
        split at given
        · rename_i found
          simp only [Bool.and_eq_true, decide_eq_true_eq] at found
          obtain ⟨⟨inside, first⟩, second⟩ := found
          have composite := @PrimaryComposite.listed t _ inside
          rw [first, second, given] at composite
          exact composite
        · exact absurd given.symm nonzero
  · intro composite
    cases composite with
    | @leadVowel lead vowel less less' =>
      refine ⟨?_, by omega⟩
      rw [composition, if_pos (by simp; omega)]
      omega
    | @syllableTrail syllable trail less pos less' =>
      refine ⟨?_, by omega⟩
      rw [composition, if_neg (by simp; omega), if_pos (by simp; omega)]
      omega
    | @listed i inside =>
      have other := correct.listed i inside
      rw [Conjoining] at other
      refine ⟨?_, correct.composites i inside⟩
      rw [composition, if_neg (by simp only [Bool.and_eq_true, decide_eq_true_eq]; omega),
        if_neg (by simp only [Bool.and_eq_true, decide_eq_true_eq]; omega)]
      dsimp only
      rw [pair_found correct inside rfl rfl, if_pos (by simp [inside])]

theorem decomposition_leadVowel (t : Tables) {lead vowel : Nat} (less : lead < 19)
    (less' : vowel < 21) :
    decomposition t (0xac00 + (lead * 21 + vowel) * 28) = [0x1100 + lead, 0x1161 + vowel] := by
  rw [decomposition, if_pos (by simp; omega)]
  dsimp only
  rw [if_neg (by omega), show (0xac00 + (lead * 21 + vowel) * 28 - 0xac00) / 588 = lead by omega,
    show (0xac00 + (lead * 21 + vowel) * 28 - 0xac00) % 588 / 28 = vowel by omega]
  rfl

theorem decomposition_leadVowelTrail (t : Tables) {lead vowel trail : Nat} (less : lead < 19)
    (less' : vowel < 21) (pos : 0 < trail) (less'' : trail < 28) :
    decomposition t (0xac00 + (lead * 21 + vowel) * 28 + trail) =
      [0x1100 + lead, 0x1161 + vowel, 0x11a7 + trail] := by
  rw [decomposition, if_pos (by simp; omega)]
  dsimp only
  rw [if_pos (by omega),
    show (0xac00 + (lead * 21 + vowel) * 28 + trail - 0xac00) / 588 = lead by omega,
    show (0xac00 + (lead * 21 + vowel) * 28 + trail - 0xac00) % 588 / 28 = vowel by omega,
    show (0xac00 + (lead * 21 + vowel) * 28 + trail - 0xac00) % 28 = trail by omega]
  rfl

/-- What `decompose` appends. -/
theorem decomposition_iff (correct : t.Correct) {point : Nat} {points : List Nat} :
    decomposition t point = points ↔ FullDecomposition t point points := by
  have ascending := correct.decompositions
  have has : FullDecomposition t point (decomposition t point) := by
    rw [decomposition]
    split
    · rename_i hangul
      simp only [Bool.and_eq_true, decide_eq_true_eq] at hangul
      dsimp only
      split
      · rename_i trailed
        have full := @FullDecomposition.leadVowelTrail t ((point - 0xac00) / 588)
          ((point - 0xac00) % 588 / 28) ((point - 0xac00) % 28) (by omega) (by omega) (by omega)
          (by omega)
        rw [show 0xac00 + ((point - 0xac00) / 588 * 21 + (point - 0xac00) % 588 / 28) * 28 +
          (point - 0xac00) % 28 = point by omega] at full
        exact full
      · rename_i plain
        have full := @FullDecomposition.leadVowel t ((point - 0xac00) / 588)
          ((point - 0xac00) % 588 / 28) (by omega) (by omega)
        rw [show 0xac00 + ((point - 0xac00) / 588 * 21 + (point - 0xac00) % 588 / 28) * 28 = point by
          omega] at full
        exact full
    · rename_i other
      simp only [Bool.and_eq_true, decide_eq_true_eq] at other
      split
      · rename_i listed
        obtain ⟨i, entry⟩ := (keyed_iff ascending).mp listed
        dsimp only
        rw [entry.search_eq ascending]
        exact .listed (by omega) entry
      · rename_i missing
        exact .self (by omega) fun i entry => missing ((keyed_iff ascending).mpr ⟨i, entry⟩)
  constructor
  · rintro rfl
    exact has
  · intro given
    cases given with
    | leadVowel less less' => exact decomposition_leadVowel t less less'
    | leadVowelTrail less less' pos less'' =>
      exact decomposition_leadVowelTrail t less less' pos less''
    | listed other entry =>
      rw [decomposition, if_neg (by simp; omega), if_pos ((keyed_iff ascending).mpr ⟨_, entry⟩)]
      dsimp only
      rw [entry.search_eq ascending]
    | self other missing =>
      rw [decomposition, if_neg (by simp; omega), if_neg]
      intro listed
      obtain ⟨i, entry⟩ := (keyed_iff ascending).mp listed
      exact missing i entry

end

end TinyCrypto.Unicode
