import Mathlib.Data.List.Basic
import Mathlib.Data.List.GetD
import Mathlib.Tactic.Basic

/-! # Output made of blocks

A generator gives blocks of one width until an output is full, and the last block is cut. When
each state gives the next block of a sequence, the output is a prefix of that sequence.
-/

namespace Library.Expansion

variable {S A : Type}

/-- Take blocks until `wanted` elements are there. None is a generator that failed. -/
def fill (width : Nat) (next : S → Option (List A × S)) :
    (passes : Nat) → S → (wanted : Nat) → Option (List A × S)
  | 0, s, _ => some ([], s)
  | passes + 1, s, wanted =>
    if wanted = 0 then some ([], s)
    else
      (next s).bind fun (block, s) =>
        let size := min wanted width
        (fill width next passes s (wanted - size)).map fun (rest, s) =>
          (block.take size ++ rest, s)

def count (width wanted : Nat) : Nat := (wanted + width - 1) / width

/-- The first `wanted` elements of a sequence of blocks from block `i` on. -/
def output (width : Nat) (block : Nat → List A) (i wanted : Nat) : List A :=
  ((List.range (count width wanted)).flatMap fun k => block (i + k)).take wanted

variable {width : Nat} {block : Nat → List A}

@[simp] theorem count_zero : count width 0 = 0 := by
  rcases Nat.eq_zero_or_pos width with rfl | pos
  · rfl
  · exact Nat.div_eq_of_lt (by omega)

theorem count_pos (pos : 0 < width) {wanted : Nat} (some : 0 < wanted) :
    count width wanted = count width (wanted - min wanted width) + 1 := by
  rw [count, count]
  rcases Nat.le_total wanted width with le | ge
  · have whole : wanted + width - 1 = wanted - 1 + width := by omega
    have none : (0 + width - 1) / width = 0 := Nat.div_eq_of_lt (by omega)
    rw [Nat.min_eq_left le, Nat.sub_self, none, whole, Nat.add_div_right _ pos,
      Nat.div_eq_of_lt (by omega)]
  · have whole : wanted + width - 1 = wanted - width + width - 1 + width := by omega
    rw [Nat.min_eq_right ge, whole, Nat.add_div_right _ pos]

theorem count_eq (pos : 0 < width) (wanted : Nat) :
    count width wanted = wanted / width + if wanted % width ≠ 0 then 1 else 0 := by
  have parts := Nat.div_add_mod wanted width
  have rest := Nat.mod_lt wanted pos
  rw [count]
  split
  · have whole : wanted + width - 1 = wanted % width - 1 + width * (wanted / width + 1) := by
      rw [Nat.mul_succ]
      omega
    rw [whole, Nat.add_mul_div_left _ _ pos, Nat.div_eq_of_lt (by omega), Nat.zero_add]
  · have whole : wanted + width - 1 = width - 1 + width * (wanted / width) := by omega
    rw [whole, Nat.add_mul_div_left _ _ pos, Nat.div_eq_of_lt (by omega), Nat.zero_add,
      Nat.add_zero]

theorem count_mono {few many : Nat} (le : few ≤ many) : count width few ≤ count width many :=
  Nat.div_le_div_right (by omega)

theorem count_le_iff (pos : 0 < width) {wanted blocks : Nat} :
    count width wanted ≤ blocks ↔ wanted ≤ blocks * width := by
  rw [count, ← Nat.lt_succ_iff, Nat.div_lt_iff_lt_mul pos, Nat.succ_mul]
  omega

theorem blocks_length (size : ∀ i, (block i).length = width) (i n : Nat) :
    ((List.range n).flatMap fun k => block (i + k)).length = n * width := by
  induction n with
  | zero => rw [List.range_zero, List.flatMap_nil, List.length_nil, Nat.zero_mul]
  | succ n ih =>
    rw [List.range_succ, List.flatMap_append, List.length_append, ih, List.flatMap_singleton,
      size, Nat.succ_mul]

@[simp] theorem output_zero (i : Nat) : output width block i 0 = [] := by
  rw [output, List.take_zero]

theorem output_pos (pos : 0 < width) (size : ∀ i, (block i).length = width) {wanted : Nat}
    (some : 0 < wanted) (i : Nat) : output width block i wanted =
      (block i).take (min wanted width) ++
        output width block (i + 1) (wanted - min wanted width) := by
  have later : (fun k => block (i + Nat.succ k)) = fun k => block (i + 1 + k) := by
    funext k
    rw [Nat.add_assoc, Nat.add_comm 1]
  rw [output, output, count_pos pos some, List.range_succ_eq_map, List.flatMap_cons,
    List.flatMap_map, Nat.add_zero, later]
  rcases Nat.le_total wanted width with le | ge
  · rw [Nat.min_eq_left le, Nat.sub_self, List.take_zero, List.append_nil,
      List.take_append_of_le_length (by rw [size]; exact le)]
  · rw [Nat.min_eq_right ge, List.take_append, size, List.take_of_length_le (by rw [size]; exact ge),
      List.take_of_length_le (Nat.le_of_eq (size i))]

theorem output_take (pos : 0 < width) (size : ∀ i, (block i).length = width) (i : Nat)
    {few many : Nat} (le : few ≤ many) :
    output width block i few = (output width block i many).take few := by
  have parts := Nat.add_sub_cancel' (@count_mono width few many le)
  have enough := (count_le_iff pos).mp (Nat.le_refl (count width few))
  rw [output, output, List.take_take, Nat.min_eq_left le, ← parts, List.range_add,
    List.flatMap_append, List.take_append_of_le_length]
  rw [blocks_length size]
  exact enough

theorem fill_eq (pos : 0 < width) (size : ∀ i, (block i).length = width)
    {next : S → Option (List A × S)} (admits : Nat → Prop) (holds : Nat → S → Prop)
    (step : ∀ i s, holds i s →
      (admits i ∧ ∃ after, next s = some (block i, after) ∧ holds (i + 1) after) ∨
        (¬ admits i ∧ next s = none))
    {passes wanted i : Nat} {s : S} (enough : wanted ≤ passes) (start : holds i s) :
    ((∀ k, k < count width wanted → admits (i + k)) ∧
      ∃ after, fill width next passes s wanted = some (output width block i wanted, after) ∧
        holds (i + count width wanted) after) ∨
      (¬ (∀ k, k < count width wanted → admits (i + k)) ∧ fill width next passes s wanted = none) := by
  induction passes generalizing wanted i s with
  | zero =>
    rw [Nat.le_zero.mp enough]
    refine .inl ⟨fun k less => ?_, s, ?_, ?_⟩
    · rw [count_zero] at less
      cases less
    · rw [fill, output_zero]
    · rwa [count_zero]
  | succ passes ih =>
    rcases Nat.eq_zero_or_pos wanted with rfl | more
    · refine .inl ⟨fun k less => ?_, s, ?_, ?_⟩
      · rw [count_zero] at less
        cases less
      · rw [fill, if_pos rfl, output_zero]
      · rwa [count_zero]
    · have counted := count_pos pos more
      rw [fill, if_neg (Nat.pos_iff_ne_zero.mp more)]
      rcases step i s start with ⟨admitted, after, given, later⟩ | ⟨refused, failed⟩
      · rw [given, Option.bind_some, counted]
        rcases @ih (wanted - min wanted width) (i + 1) after (by omega) later with
          ⟨rest, last, filled, reached⟩ | ⟨stopped, failed⟩
        · refine .inl ⟨fun k less => ?_, last, ?_, ?_⟩
          · cases k with
            | zero => exact admitted
            | succ k =>
              have := rest k (by omega)
              rwa [Nat.add_assoc, Nat.add_comm 1] at this
          · rw [output_pos pos size more]
            simp only [filled, Option.map_some]
          · rwa [Nat.add_assoc, Nat.add_comm 1] at reached
        · refine .inr ⟨fun all => stopped fun k less => ?_, ?_⟩
          · have := all (k + 1) (by omega)
            rwa [Nat.add_comm k, ← Nat.add_assoc] at this
          · simp only [failed, Option.map_none]
      · refine .inr ⟨fun all => refused ?_, ?_⟩
        · exact all 0 (by omega)
        · rw [failed, Option.bind_none]

end Library.Expansion
