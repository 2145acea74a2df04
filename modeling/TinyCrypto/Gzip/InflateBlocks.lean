import TinyCrypto.Gzip.InflateTables

/-! # Blocks

Compressed and stored blocks append what they stand for. The history of a stream starts
after the bytes that were there before it.
-/

namespace TinyCrypto.Gzip

open Library Library.Program
open Library.BitString (ofBytes)

variable {input : Bytes} {capacity : Nat} {s s' : Inflating} {bits rest : List Bool}

variable {i j distance : Nat} {u : Unit}

theorem length_table (inside : i < 29) : lengthBases[i]? =
        some (if i < 8 then i + 3 else if i = 28 then 258 else (4 + i % 4) * 2 ^ (i / 4 - 1) + 3) ∧
      lengthExtras[i]? = some (if i < 8 then 0 else if i = 28 then 0 else i / 4 - 1) := by
  have all : ∀ i < 29, lengthBases[i]? =
        some (if i < 8 then i + 3 else if i = 28 then 258 else (4 + i % 4) * 2 ^ (i / 4 - 1) + 3) ∧
      lengthExtras[i]? = some (if i < 8 then 0 else if i = 28 then 0 else i / 4 - 1) := by decide
  exact all i inside

theorem distance_table (inside : j < 30) :
    distanceBases[j]? = some (if j < 4 then j + 1 else (2 + j % 2) * 2 ^ (j / 2 - 1) + 1) ∧
      distanceExtras[j]? = some (if j < 4 then 0 else j / 2 - 1) := by
  have all : ∀ j < 30, distanceBases[j]? =
        some (if j < 4 then j + 1 else (2 + j % 2) * 2 ^ (j / 2 - 1) + 1) ∧
      distanceExtras[j]? = some (if j < 4 then 0 else j / 2 - 1) := by decide
  exact all j inside

theorem Extended.inside {bases extras : List Nat} {index number : Nat}
    (read : Extended bases extras index bits number rest) : index < bases.length := by
  obtain ⟨_, _, _, given, _⟩ := read
  exact (List.getElem?_eq_some_iff.mp given).1

theorem extended_iff {bases extras : List Nat} {index base width number : Nat}
    (given : bases[index]? = some base) (given' : extras[index]? = some width) :
    Extended bases extras index bits number rest ↔
      ∃ extra, Number width bits extra rest ∧ number = base + extra := by
  constructor
  · rintro ⟨base', width', extra, found, found', read, equal⟩
    rw [given, Option.some_inj] at found
    rw [given', Option.some_inj] at found'
    subst found found'
    exact ⟨extra, read, equal⟩
  · rintro ⟨extra, read, equal⟩
    exact ⟨base, width, extra, given, given', read, equal⟩

def Extends (input : Bytes) (program : Inflate Nat) (base width : Nat) : Prop :=
  ∀ s s' number, Gives program s number s' ↔
    ∃ extra, Gives (bitsRead input width) s extra s' ∧ number = base + extra

section

variable {program : Inflate Nat} {bases extras : List Nat} {index base width number : Nat}

theorem Extends.of_pure : Extends input (pure base) base 0 := by
  intro s s' number
  simp only [bitsRead, bitsLoop, gives_bind, gives_pure, spend_gives]
  constructor
  · rintro ⟨rfl, rfl⟩
    exact ⟨0, ⟨(), _, ⟨Nat.zero_le _, rfl⟩, rfl, rfl⟩, rfl⟩
  · rintro ⟨_, ⟨_, _, ⟨-, rfl⟩, rfl, rfl⟩, rfl⟩
    exact ⟨rfl, rfl⟩

theorem Extends.of_bits : Extends input (do
    let extra ← bitsRead input width
    pure (base + extra)) base width := by
  intro s s' number
  simp only [gives_bind, gives_pure]
  constructor
  · rintro ⟨extra, _, read, rfl, rfl⟩
    exact ⟨extra, read, rfl⟩
  · rintro ⟨extra, read, rfl⟩
    exact ⟨extra, _, read, rfl, rfl⟩

theorem Extends.moved (reads : Extends input program base width) (given : bases[index]? = some base)
    (given' : extras[index]? = some width) (cursor : At input s bits)
    (run : Gives program s number s') :
    ∃ cost rest, Extended bases extras index bits number rest ∧ Moved input cost s rest s' := by
  obtain ⟨extra, read, rfl⟩ := (reads _ _ _).mp run
  obtain ⟨rest, isNumber, moved⟩ := bitsRead_moved cursor read
  exact ⟨width, rest, (extended_iff given given').mpr ⟨extra, isNumber, rfl⟩, moved⟩

theorem Extends.enough (reads : Extends input program base width)
    (given : bases[index]? = some base)
    (given' : extras[index]? = some width) (read : Extended bases extras index bits number rest)
    (cursor : At input s bits) (enough : width ≤ s.work) :
    ∃ s', Gives program s number s' ∧ Moved input width s rest s' := by
  obtain ⟨extra, isNumber, rfl⟩ := (extended_iff given given').mp read
  obtain ⟨s', run, moved⟩ := bitsRead_enough cursor isNumber enough
  exact ⟨s', (reads _ _ _).mpr ⟨extra, run, rfl⟩, moved⟩

end

theorem copyLength_extends (inside : i < 29) :
    ∃ base width, lengthBases[i]? = some base ∧ lengthExtras[i]? = some width ∧
      ∀ input, Extends input (copyLength input (257 + i)) base width := by
  obtain ⟨base, extra⟩ := length_table inside
  by_cases small : i < 8
  · rw [if_pos small] at base extra
    refine ⟨_, _, base, extra, fun input => ?_⟩
    rw [copyLength]
    simp only [Nat.add_sub_cancel_left, if_pos small]
    exact .of_pure
  · rw [if_neg small] at base extra
    by_cases last : i = 28
    · rw [if_pos last] at base extra
      subst last
      exact ⟨_, _, base, extra, fun _ => .of_pure⟩
    · rw [if_neg last] at base extra
      refine ⟨_, _, base, extra, fun input => ?_⟩
      rw [copyLength]
      simp only [Nat.add_sub_cancel_left, if_neg small, if_neg (show ¬ 257 + i = 285 by omega)]
      exact .of_bits

theorem copyDistance_extends (inside : j < 30) :
    ∃ base width, distanceBases[j]? = some base ∧ distanceExtras[j]? = some width ∧
      ∀ input, Extends input (copyDistance input j) base width := by
  obtain ⟨base, extra⟩ := distance_table inside
  by_cases small : j < 4
  · rw [if_pos small] at base extra
    refine ⟨_, _, base, extra, fun input => ?_⟩
    rw [copyDistance, if_pos small]
    exact .of_pure
  · rw [if_neg small] at base extra
    refine ⟨_, _, base, extra, fun input => ?_⟩
    rw [copyDistance, if_neg small]
    exact .of_bits

theorem Extended.distance_pos (read : Extended distanceBases distanceExtras j bits distance rest) :
    0 < distance := by
  obtain ⟨base, extra⟩ := distance_table read.inside
  obtain ⟨number, _, rfl⟩ := (extended_iff base extra).mp read
  split <;> omega

theorem copyLoop_eq (pos : 0 < distance) (length : Nat) {output : Bytes}
    (inside : distance ≤ output.length) :
    copyLoop distance length output = output ++ repeated output distance length := by
  induction length generalizing output with
  | zero => simp [copyLoop, repeated]
  | succ length ih =>
    rw [copyLoop, ih (by rw [List.length_append]; omega), List.append_assoc]
    congr 1
    rw [repeated, repeated, List.range_succ_eq_map, List.map_cons, List.map_map,
      List.singleton_append, Nat.zero_mod, Nat.add_zero]
    congr 1
    refine List.map_congr_left fun i _ => ?_
    rw [List.length_append, List.length_singleton, Function.comp_apply, Nat.succ_eq_add_one]
    have low := Nat.mod_lt i pos
    by_cases wraps : i % distance + 1 = distance
    · have next : (i + 1) % distance = 0 := by
        rw [Nat.add_mod]
        rcases Nat.lt_or_ge 1 distance with more | one
        · rw [Nat.mod_eq_of_lt more, wraps, Nat.mod_self]
        · have single : distance = 1 := by omega
          subst single
          exact Nat.mod_one _
      have last : output.length + 1 - distance + i % distance = output.length := by omega
      rw [next, last]
      simp
    · have next : (i + 1) % distance = i % distance + 1 := by
        rw [Nat.add_mod, Nat.mod_eq_of_lt (show 1 < distance by omega), Nat.mod_eq_of_lt]
        omega
      have index : output.length + 1 - distance + i % distance =
          output.length - distance + (i % distance + 1) := by omega
      rw [next, index, List.getD_append _ _ _ _ (by omega)]

theorem repeated_append {before out : Bytes} (length : Nat) (pos : 0 < distance)
    (inside : distance ≤ out.length) :
    repeated (before ++ out) distance length = repeated out distance length := by
  refine List.map_congr_left fun i _ => ?_
  have low := Nat.mod_lt i pos
  rw [List.length_append, List.getD_append_right _ _ _ _ (by omega)]
  congr 1
  omega

@[simp] theorem repeated_length (out : Bytes) (distance length : Nat) :
    (repeated out distance length).length = length := by
  simp [repeated]

/-- Decoding spent `cost`, moved to the bits `rest` and left the output. -/
structure Wrote (input : Bytes) (cost : Nat) (s : Inflating) (output : Bytes) (rest : List Bool)
    (s' : Inflating) : Prop where
  cursor : At input s' rest
  output : s'.output = output
  work : s'.work + cost = s.work

variable {cost cost' : Nat} {before out final output output' : Bytes} {middle last : List Bool}
  {s'' : Inflating}

theorem Moved.wrote (moved : Moved input cost s rest s') (same : s.output = output) :
    Wrote input cost s output rest s' :=
  ⟨moved.cursor, moved.output.trans same, moved.work⟩

theorem Wrote.trans (first : Wrote input cost s output rest s')
    (second : Wrote input cost' s' output' last s'') :
    Wrote input (cost + cost') s output' last s'' := by
  refine ⟨second.cursor, second.output, ?_⟩
  have := first.work
  have := second.work
  omega

@[simp] theorem reserve_gives {length : Nat} : Gives (reserve capacity length) s u s' ↔
      (length ≤ capacity - s.output.length ∧ length ≤ s.work) ∧
        s' = { s with work := s.work - length } := by
  simp only [reserve, gives_bind, gives_state]
  constructor
  · rintro ⟨_, _, ⟨rfl, rfl⟩, given⟩
    split at given
    · exact absurd given gives_throw
    · rename_i room
      rw [not_or, Nat.not_lt, Nat.not_lt] at room
      exact ⟨room, (gives_change.mp given).symm⟩
  · rintro ⟨⟨room, enough⟩, rfl⟩
    refine ⟨_, _, ⟨rfl, rfl⟩, ?_⟩
    rw [if_neg (by omega)]
    exact gives_change.mpr rfl

theorem reserve_moved {length : Nat} (cursor : At input s bits)
    (run : Gives (reserve capacity length) s u s') : Moved input length s bits s' := by
  obtain ⟨⟨_, enough⟩, rfl⟩ := reserve_gives.mp run
  exact ⟨cursor.of_position rfl rfl, rfl, Nat.sub_add_cancel enough⟩

theorem reserve_enough {length : Nat} (cursor : At input s bits)
    (room : s.output.length + length ≤ capacity) (enough : length ≤ s.work) :
    ∃ s', Gives (reserve capacity length) s () s' ∧ Moved input length s bits s' :=
  ⟨_, reserve_gives.mpr ⟨⟨by omega, enough⟩, rfl⟩, cursor.of_position rfl rfl, rfl,
    Nat.sub_add_cancel enough⟩

theorem Moved.set (moved : Moved input cost s rest s') (output : Bytes) :
    Wrote input cost s output rest { s' with output := output } :=
  ⟨moved.cursor.of_position rfl rfl, rfl, moved.work⟩

section

variable {literals distances : List Nat} {tables : Workspace}

theorem copy_wrote {i : Nat} {u : Unit} (inside : i < 29) (built : Built distances tables.distance)
    (read : Symbol literals bits (257 + i) middle) (cursor : At input s middle)
    (same : s.output = before ++ out)
    (run : Gives (copy input capacity tables before.length (257 + i)) s u s') :
    ∃ cost rest distance length, BackReference literals distances bits length distance rest ∧
      distance ≤ out.length ∧
      Wrote input cost s (before ++ (out ++ repeated out distance length)) rest s' := by
  simp only [copy, gives_bind] at run
  obtain ⟨length, s₁, r₁, j, s₂, r₂, run⟩ := run
  obtain ⟨_, _, base, extra, reads⟩ := copyLength_extends inside
  obtain ⟨_, _, lengthRead, m₁⟩ := (reads input).moved base extra cursor r₁
  obtain ⟨_, _, _, symbolRead, m₂⟩ := symbol_moved built m₁.cursor r₂
  split at run
  · exact absurd run gives_throw
  · rename_i low
    simp only [gives_bind, gives_state] at run
    obtain ⟨distance, s₃, r₃, _, _, ⟨rfl, rfl⟩, run⟩ := run
    obtain ⟨_, _, base, extra, reads⟩ := copyDistance_extends (j := j) (by omega)
    obtain ⟨_, rest, distanceRead, m₃⟩ := (reads input).moved base extra m₂.cursor r₃
    have read₃ := (m₁.trans m₂).trans m₃
    have output : s₃.output = before ++ out := read₃.output.trans same
    split at run
    · exact absurd run gives_throw
    · rename_i near
      rw [output, List.length_append, Nat.add_sub_cancel_left, Nat.not_lt] at near
      have pos := distanceRead.distance_pos
      simp only [gives_bind, gives_change] at run
      obtain ⟨_, s₄, r₄, rfl⟩ := run
      have m₄ := read₃.trans (reserve_moved m₃.cursor r₄)
      rw [m₄.output, same, copyLoop_eq pos length (by rw [List.length_append]; omega),
        repeated_append length pos near, List.append_assoc]
      exact ⟨_, rest, distance, length, .mk read lengthRead symbolRead distanceRead, near, m₄.set _⟩

theorem copy_enough {i distance length : Nat}
    (lengthRead : Extended lengthBases lengthExtras i bits length middle) {j : Nat}
    {afterSymbol : List Bool} (symbolRead : Symbol distances middle j afterSymbol)
    (distanceRead : Extended distanceBases distanceExtras j afterSymbol distance rest)
    (near : distance ≤ out.length) :
    ∃ cost, ∀ {input : Bytes} capacity tables before s, Built distances tables.distance → At input s bits →
      s.output = before ++ out → before.length + (out.length + length) ≤ capacity → cost ≤ s.work →
      ∃ s', Gives (copy input capacity tables before.length (257 + i)) s () s' ∧
        Wrote input cost s (before ++ (out ++ repeated out distance length)) rest s' := by
  obtain ⟨_, c₁, base₁, extra₁, reads₁⟩ := copyLength_extends lengthRead.inside
  obtain ⟨c₂, _, run₂⟩ := symbol_enough symbolRead
  obtain ⟨_, c₃, base₃, extra₃, reads₃⟩ := copyDistance_extends distanceRead.inside
  refine ⟨c₁ + c₂ + c₃ + length, fun capacity tables before s built cursor same room enough => ?_⟩
  obtain ⟨s₁, r₁, m₁⟩ := (reads₁ _).enough base₁ extra₁ lengthRead cursor (by omega)
  have w₁ := m₁.work
  obtain ⟨s₂, r₂, m₂⟩ := run₂ tables.distance s₁ built m₁.cursor (by omega)
  have w₂ := m₂.work
  obtain ⟨s₃, r₃, m₃⟩ := (reads₃ _).enough base₃ extra₃ distanceRead m₂.cursor (by omega)
  have w₃ := m₃.work
  have read₃ := (m₁.trans m₂).trans m₃
  have output : s₃.output = before ++ out := read₃.output.trans same
  obtain ⟨s₄, r₄, m₄⟩ := @reserve_enough _ capacity s₃ rest length m₃.cursor
    (by rw [output, List.length_append]; omega) (by omega)
  have moved := read₃.trans m₄
  have low : ¬ j > 29 := by
    have inside : j < 30 := distanceRead.inside
    omega
  have known : ¬ distance > s₃.output.length - before.length := by
    rw [output, List.length_append]
    omega
  have pos := distanceRead.distance_pos
  refine ⟨{ s₄ with output := before ++ (out ++ repeated out distance length) }, ?_, moved.set _⟩
  simp only [copy, gives_bind]
  refine ⟨length, s₁, r₁, j, s₂, r₂, ?_⟩
  rw [if_neg low]
  simp only [gives_bind]
  refine ⟨distance, s₃, r₃, s₃, s₃, gives_state.mpr ⟨rfl, rfl⟩, ?_⟩
  rw [if_neg known]
  simp only [gives_bind, gives_change]
  refine ⟨(), s₄, r₄, ?_⟩
  rw [m₄.output, output, copyLoop_eq pos length (by rw [List.length_append]; omega),
    repeated_append length pos near, List.append_assoc]

theorem compressedLoop_wrote {passes : Nat} {u : Unit} (built : Built literals tables.literal)
    (built' : Built distances tables.distance) (cursor : At input s bits)
    (same : s.output = before ++ out)
    (run : Gives (compressedLoop input capacity tables before.length passes) s u s') :
    ∃ cost final rest, Tokens literals distances out bits final rest ∧
      Wrote input cost s (before ++ final) rest s' := by
  induction passes generalizing s bits out with
  | zero => exact absurd run gives_throw
  | succ passes ih =>
    simp only [compressedLoop, gives_bind] at run
    obtain ⟨symbol, s₁, r₁, run⟩ := run
    obtain ⟨_, middle, _, read, m₁⟩ := symbol_moved built cursor r₁
    have output : s₁.output = before ++ out := m₁.output.trans same
    split at run
    · rename_i ends
      obtain ⟨rfl, rfl⟩ := gives_pure.mp run
      subst ends
      exact ⟨_, out, middle, .endOfBlock read, m₁.wrote same⟩
    · rename_i goes
      split at run
      · rename_i small
        simp only [gives_bind, gives_change] at run
        obtain ⟨_, s₂, r₂, _, _, rfl, run⟩ := run
        have m₂ := m₁.trans (reserve_moved m₁.cursor r₂)
        have byte : (UInt8.ofNat symbol).toNat = symbol := by
          rw [UInt8.toNat_ofNat', Nat.mod_eq_of_lt small]
        have wrote := m₂.set (s₂.output ++ [UInt8.ofNat symbol])
        rw [m₂.output, same, List.append_assoc] at wrote
        rw [← byte] at read
        rw [m₂.output, same, List.append_assoc] at run
        obtain ⟨_, final, rest, tokens, last⟩ := ih wrote.cursor rfl run
        exact ⟨_, final, rest, .literal _ read tokens, wrote.trans last⟩
      · rename_i large
        split at run
        · exact absurd run gives_throw
        · rename_i known
          have index : symbol = 257 + (symbol - 257) := by omega
          simp only [gives_bind] at run
          obtain ⟨_, s₂, r₂, run⟩ := run
          rw [index] at read r₂
          obtain ⟨_, rest', distance, length, reference, near, wrote⟩ :=
            copy_wrote (by omega) built' read m₁.cursor output r₂
          obtain ⟨_, final, rest, tokens, last⟩ := ih wrote.cursor wrote.output run
          exact ⟨_, final, rest, .copy reference near tokens, (m₁.wrote rfl).trans (wrote.trans last)⟩

theorem Tokens.length_le (tokens : Tokens literals distances out bits final rest) :
    out.length ≤ final.length := by
  induction tokens with
  | endOfBlock => exact le_rfl
  | literal byte _ _ ih =>
    rw [List.length_append] at ih
    omega
  | copy _ _ _ ih =>
    rw [List.length_append] at ih
    omega

theorem compressedLoop_enough (tokens : Tokens literals distances out bits final rest) :
    ∃ cost, ∀ {input : Bytes} capacity tables before s passes, Built literals tables.literal →
      Built distances tables.distance → At input s bits → s.output = before ++ out →
      before.length + final.length ≤ capacity → cost ≤ s.work → cost ≤ passes →
      ∃ s', Gives (compressedLoop input capacity tables before.length passes) s () s' ∧
        Wrote input cost s (before ++ final) rest s' := by
  induction tokens with
  | endOfBlock read =>
    obtain ⟨cost, pos, run⟩ := symbol_enough read
    refine ⟨cost, fun capacity tables before s passes built _ cursor same _ enough more => ?_⟩
    obtain ⟨s₁, r₁, m₁⟩ := run tables.literal s built cursor enough
    obtain ⟨passes, rfl⟩ := Nat.exists_eq_add_of_lt (Nat.lt_of_lt_of_le pos more)
    rw [Nat.zero_add] at *
    refine ⟨s₁, ?_, m₁.wrote same⟩
    rw [compressedLoop, gives_bind]
    exact ⟨256, s₁, r₁, gives_pure.mpr ⟨rfl, rfl⟩⟩
  | literal byte read tokens ih =>
    obtain ⟨c₁, pos, run⟩ := symbol_enough read
    obtain ⟨c₂, loop⟩ := ih
    have longer := tokens.length_le
    rw [List.length_append, List.length_singleton] at longer
    refine ⟨c₁ + 1 + c₂, fun capacity tables before s passes built built' cursor same room enough more => ?_⟩
    obtain ⟨s₁, r₁, m₁⟩ := run tables.literal s built cursor (by omega)
    have w₁ := m₁.work
    have output := m₁.output.trans same
    obtain ⟨s₂, r₂, m₂⟩ := @reserve_enough _ capacity s₁ _ 1 m₁.cursor
      (by rw [output, List.length_append]; omega) (by omega)
    have moved := m₁.trans m₂
    have wrote := moved.set (s₂.output ++ [byte])
    rw [moved.output, same, List.append_assoc] at wrote
    have w₂ := wrote.work
    obtain ⟨passes, rfl⟩ : ∃ fewer, passes = fewer + 1 := ⟨passes - 1, by omega⟩
    obtain ⟨s₃, r₃, m₃⟩ := loop capacity tables before _ passes built built' wrote.cursor rfl room
      (by omega) (by omega)
    refine ⟨s₃, ?_, wrote.trans m₃⟩
    have small := byte.toNat_lt
    rw [compressedLoop, gives_bind]
    refine ⟨byte.toNat, s₁, r₁, ?_⟩
    rw [if_neg (by omega), if_pos small]
    simp only [gives_bind, gives_change]
    refine ⟨(), s₂, r₂, (), _, rfl, ?_⟩
    rw [moved.output, same, UInt8.ofNat_toNat, List.append_assoc]
    exact r₃
  | copy reference near tokens ih =>
    obtain ⟨read, lengthRead, symbolRead, distanceRead⟩ := reference
    obtain ⟨c₁, pos, run⟩ := symbol_enough read
    obtain ⟨c₂, copying⟩ := copy_enough lengthRead symbolRead
      distanceRead near
    obtain ⟨c₃, loop⟩ := ih
    have longer := tokens.length_le
    rw [List.length_append, repeated_length] at longer
    refine ⟨c₁ + c₂ + c₃, fun capacity tables before s passes built built' cursor same room enough more => ?_⟩
    obtain ⟨s₁, r₁, m₁⟩ := run tables.literal s built cursor (by omega)
    have w₁ := m₁.work
    obtain ⟨s₂, r₂, m₂⟩ := copying capacity tables before s₁ built' m₁.cursor (m₁.output.trans same)
      (by omega) (by omega)
    have w₂ := m₂.work
    obtain ⟨passes, rfl⟩ : ∃ fewer, passes = fewer + 1 := ⟨passes - 1, by omega⟩
    obtain ⟨s₃, r₃, m₃⟩ := loop capacity tables before s₂ passes built built' m₂.cursor m₂.output room
      (by omega) (by omega)
    refine ⟨s₃, ?_, ((m₁.wrote rfl).trans m₂).trans m₃⟩
    have inside : _ < 29 := lengthRead.inside
    rw [compressedLoop, gives_bind]
    refine ⟨_, s₁, r₁, ?_⟩
    rw [if_neg (by omega), if_neg (by omega), if_neg (by omega), gives_bind]
    exact ⟨(), s₂, r₂, r₃⟩

end

end TinyCrypto.Gzip
