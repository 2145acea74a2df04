import Mathlib.Data.List.Basic
import Mathlib.Logic.Function.Iterate
import Mathlib.Tactic.Basic

/-! # Streams cut into blocks

A block function consumes a stream in whole blocks and keeps what is left over.
What it leaves does not depend on how the stream arrives. `xorAt` adds a
keystream that is given by byte positions.
-/

namespace Library.Blocks

variable {S A : Type}

section

variable (width : Nat) (step : S → List A → S)

/-- Take at most `count` whole blocks of the data. -/
def take : (count : Nat) → S → List A → S × List A
  | 0, s, data => (s, data)
  | count + 1, s, data =>
    if width ≤ data.length then take count (step s (data.take width)) (data.drop width)
    else (s, data)

def fold (s : S) (data : List A) : S × List A := take width step data.length s data

def pieces (data : List A) : List (List A) :=
  (List.range (data.length / width)).map fun i => (data.drop (width * i)).take width

end

variable {width : Nat} {step : S → List A → S}

variable {data : List A}

theorem take_enough (pos : 0 < width) {count : Nat} (enough : data.length ≤ count) (s : S) :
    take width step count s data = take width step data.length s data := by
  induction count using Nat.strongRecOn generalizing s data with
  | _ count ih =>
    cases count with
    | zero =>
      rw [Nat.le_zero.mp enough]
    | succ count =>
      rcases Nat.lt_or_ge data.length (count + 1) with less | more
      · by_cases whole : width ≤ data.length
        · obtain ⟨size, same⟩ : ∃ size, data.length = size + 1 := ⟨data.length - 1, by omega⟩
          have shorter : (data.drop width).length ≤ size := by
            rw [List.length_drop]
            omega
          rw [same, take, take, if_pos whole, if_pos whole, ih count (by omega) (by omega),
            ih size (by omega) shorter]
        · rw [take, if_neg whole]
          cases size : data.length with
          | zero => rfl
          | succ size => rw [take, if_neg whole]
      · rw [show count + 1 = data.length by omega]

theorem fold_short {data : List A} (short : data.length < width) (s : S) :
    fold width step s data = (s, data) := by
  rw [fold]
  cases data.length with
  | zero => rfl
  | succ size => rw [take, if_neg (by omega)]

theorem fold_block (pos : 0 < width) (whole : width ≤ data.length) (s : S) :
    fold width step s data = fold width step (step s (data.take width)) (data.drop width) := by
  obtain ⟨size, same⟩ : ∃ size, data.length = size + 1 := ⟨data.length - 1, by omega⟩
  have shorter : (data.drop width).length ≤ size := by
    rw [List.length_drop]
    omega
  rw [fold, fold, same, take, if_pos whole, take_enough pos shorter]

theorem fold_full (pos : 0 < width) (full : data.length = width) (s : S) :
    fold width step s data = (step s data, []) := by
  rw [fold_block pos (Nat.le_of_eq full.symm), List.take_of_length_le (Nat.le_of_eq full),
    List.drop_of_length_le (Nat.le_of_eq full)]
  rfl

theorem fold_append (pos : 0 < width) (s : S) (first second : List A) :
    fold width step s (first ++ second) =
      fold width step (fold width step s first).1 ((fold width step s first).2 ++ second) := by
  induction size : first.length using Nat.strongRecOn generalizing s first with
  | _ size ih =>
    by_cases whole : width ≤ first.length
    · rw [fold_block pos whole, fold_block pos (by rw [List.length_append]; omega),
        List.take_append_of_le_length whole, List.drop_append_of_le_length whole]
      refine ih (first.drop width).length ?_ _ _ rfl
      rw [List.length_drop]
      omega
    · rw [fold_short (Nat.lt_of_not_le whole)]

theorem fold_rest_length (pos : 0 < width) (s : S) (data : List A) :
    (fold width step s data).2.length = data.length % width := by
  induction size : data.length using Nat.strongRecOn generalizing s data with
  | _ size ih =>
    subst size
    by_cases whole : width ≤ data.length
    · rw [fold_block pos whole,
        ih (data.drop width).length (by rw [List.length_drop]; omega) _ _ rfl, List.length_drop,
        ← Nat.mod_eq_sub_mod whole]
    · rw [fold_short (Nat.lt_of_not_le whole), Nat.mod_eq_of_lt (Nat.lt_of_not_le whole)]

theorem pieces_block (pos : 0 < width) (whole : width ≤ data.length) :
    pieces width data = data.take width :: pieces width (data.drop width) := by
  have count : data.length / width = (data.drop width).length / width + 1 := by
    rw [List.length_drop, Nat.div_eq_sub_div pos whole]
  rw [pieces, count, List.range_succ_eq_map, List.map_cons, List.map_map, pieces, Nat.mul_zero,
    List.drop_zero]
  congr 1
  refine List.map_congr_left ?_
  intro i _
  simp only [Function.comp, List.drop_drop]
  congr 2
  rw [Nat.mul_succ, Nat.add_comm]

theorem pieces_short (short : data.length < width) : pieces width data = [] := by
  rw [pieces, Nat.div_eq_of_lt short]
  rfl

theorem pieces_full (pos : 0 < width) (full : data.length = width) :
    pieces width data = [data] := by
  rw [pieces_block pos (Nat.le_of_eq full.symm), List.take_of_length_le (Nat.le_of_eq full),
    List.drop_of_length_le (Nat.le_of_eq full), pieces_short (by simpa using pos)]

theorem pieces_append (pos : 0 < width) {first : List A} (whole : width ∣ first.length)
    (second : List A) : pieces width (first ++ second) = pieces width first ++ pieces width second := by
  induction size : first.length using Nat.strongRecOn generalizing first with
  | _ size ih =>
    subst size
    by_cases some : width ≤ first.length
    · rw [pieces_block pos some, pieces_block pos (by rw [List.length_append]; omega),
        List.take_append_of_le_length some, List.drop_append_of_le_length some, List.cons_append,
        ih (first.drop width).length (by rw [List.length_drop]; omega) ?_ rfl]
      rw [List.length_drop]
      exact (Nat.dvd_sub_iff_left some (Nat.dvd_refl width)).mpr whole
    · have none : first = [] := by
        rw [← List.length_eq_zero_iff]
        exact Nat.eq_zero_of_dvd_of_lt whole (Nat.lt_of_not_le some)
      have empty : pieces width ([] : List A) = [] := pieces_short pos
      rw [none, List.nil_append, empty, List.nil_append]

theorem fold_eq_foldl (pos : 0 < width) (s : S) (data : List A) :
    (fold width step s data).1 = (pieces width data).foldl step s := by
  induction size : data.length using Nat.strongRecOn generalizing s data with
  | _ size ih =>
    subst size
    by_cases whole : width ≤ data.length
    · rw [fold_block pos whole, pieces_block pos whole, List.foldl_cons]
      exact ih (data.drop width).length (by rw [List.length_drop]; omega) _ _ rfl
    · have none : data.length / width = 0 := Nat.div_eq_of_lt (Nat.lt_of_not_le whole)
      rw [fold_short (Nat.lt_of_not_le whole), pieces, none]
      rfl

/-- Add the keystream `key` from position `n` on. -/
def xorAt (key : Nat → UInt8) : (n : Nat) → List UInt8 → List UInt8
  | _, [] => []
  | n, b :: rest => (b ^^^ key n) :: xorAt key (n + 1) rest

@[simp] theorem xorAt_length (key : Nat → UInt8) (n : Nat) (data : List UInt8) :
    (xorAt key n data).length = data.length := by
  induction data generalizing n with
  | nil => rfl
  | cons b rest ih => simp [xorAt, ih]

theorem xorAt_append (key : Nat → UInt8) (n : Nat) (first second : List UInt8) :
    xorAt key n (first ++ second) = xorAt key n first ++ xorAt key (n + first.length) second := by
  induction first generalizing n with
  | nil => rfl
  | cons b rest ih =>
    simp only [List.cons_append, xorAt, ih, List.length_cons]
    rw [Nat.add_right_comm, Nat.add_assoc]

theorem xorAt_xorAt (key : Nat → UInt8) (n : Nat) (data : List UInt8) :
    xorAt key n (xorAt key n data) = data := by
  induction data generalizing n with
  | nil => rfl
  | cons b rest ih => simp [xorAt, ih, UInt8.xor_assoc]

theorem xorAt_block {key : Nat → UInt8} {n place : Nat} {data block : List UInt8}
    (fits : place + data.length ≤ block.length)
    (same : ∀ i, i < data.length → key (n + i) = block.getD (place + i) 0) :
    xorAt key n data = List.zipWith (· ^^^ ·) data (block.drop place) := by
  induction data generalizing n place with
  | nil => rfl
  | cons b rest ih =>
    have inside : place < block.length := by
      rw [List.length_cons] at fits
      omega
    have here := same 0 (by simp)
    rw [Nat.add_zero, Nat.add_zero, List.getD_eq_getElem?_getD, List.getElem?_eq_getElem inside]
      at here
    have later := @ih (n + 1) (place + 1) (by rw [List.length_cons] at fits; omega) (by
      intro i small
      have later := same (i + 1) (by rw [List.length_cons]; omega)
      rw [show n + 1 + i = n + (i + 1) by omega, later]
      congr 1
      omega)
    rw [List.drop_eq_getElem_cons inside, List.zipWith_cons_cons, xorAt, here, later]
    rfl

end Library.Blocks
