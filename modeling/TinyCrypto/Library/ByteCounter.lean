import Mathlib.Data.Nat.Digits.Defs
import Mathlib.Data.Nat.Digits.Lemmas

/-! # Multi-byte counters

Counters are stored as bytes, most significant first. The loops that add or
take one run from the last byte; they are written over the reversed bytes.
-/

namespace Library.ByteCounter

def value (bytes : List UInt8) : Nat := Nat.ofDigits 256 (bytes.reverse.map UInt8.toNat)

/-- Add one from the least significant byte, stopping at the first byte that
    does not wrap. -/
def carry : List UInt8 → List UInt8
  | [] => []
  | b :: rest => if b + 1 ≠ 0 then (b + 1) :: rest else 0 :: carry rest

/-- Take one from the least significant byte, stopping at the first byte that
    was not zero. -/
def borrow : List UInt8 → List UInt8
  | [] => []
  | b :: rest => if b ≠ 0 then (b - 1) :: rest else 255 :: borrow rest

def increment (bytes : List UInt8) : List UInt8 := (carry bytes.reverse).reverse

def decrement (bytes : List UInt8) : List UInt8 := (borrow bytes.reverse).reverse

theorem carry_length (bytes : List UInt8) : (carry bytes).length = bytes.length := by
  induction bytes with
  | nil => rfl
  | cons b rest ih =>
    unfold carry
    split
    · rfl
    · simp [ih]

theorem borrow_length (bytes : List UInt8) : (borrow bytes).length = bytes.length := by
  induction bytes with
  | nil => rfl
  | cons b rest ih =>
    unfold borrow
    split
    · rfl
    · simp [ih]

@[simp] theorem increment_length (bytes : List UInt8) :
    (increment bytes).length = bytes.length := by
  simp [increment, carry_length]

@[simp] theorem decrement_length (bytes : List UInt8) :
    (decrement bytes).length = bytes.length := by
  simp [decrement, borrow_length]

theorem value_cons (b : UInt8) (rest : List UInt8) :
    value (b :: rest) = b.toNat * 256 ^ rest.length + value rest := by
  simp only [value, List.reverse_cons, List.map_append, List.map_cons, List.map_nil,
    Nat.ofDigits_append, Nat.ofDigits_singleton, List.length_map, List.length_reverse]
  ring

theorem value_lt (bytes : List UInt8) : value bytes < 256 ^ bytes.length := by
  have bound := Nat.ofDigits_lt_base_pow_length (b := 256) (l := bytes.reverse.map UInt8.toNat)
    (by omega) (by
      intro digit member
      obtain ⟨b, _, rfl⟩ := List.mem_map.mp member
      exact b.toNat_lt)
  simpa [value] using bound

theorem value_injective {left right : List UInt8} (length : left.length = right.length)
    (same : value left = value right) : left = right := by
  induction left generalizing right with
  | nil =>
    cases right with
    | nil => rfl
    | cons b rest => simp at length
  | cons a left ih =>
    cases right with
    | nil => simp at length
    | cons b right =>
      simp only [List.length_cons, Nat.add_right_cancel_iff] at length
      rw [value_cons, value_cons, length] at same
      have low := value_lt left
      have low' := value_lt right
      rw [length] at low
      have head : a.toNat = b.toNat := by
        rcases Nat.lt_trichotomy a.toNat b.toNat with less | equal | more
        · have := Nat.mul_le_mul_right (256 ^ right.length) (Nat.succ_le_of_lt less)
          rw [Nat.succ_mul] at this
          omega
        · exact equal
        · have := Nat.mul_le_mul_right (256 ^ right.length) (Nat.succ_le_of_lt more)
          rw [Nat.succ_mul] at this
          omega
      rw [head] at same
      rw [UInt8.toNat_inj.mp head, ih length (by omega)]

private def little (bytes : List UInt8) : Nat := Nat.ofDigits 256 (bytes.map UInt8.toNat)

private theorem little_cons (b : UInt8) (rest : List UInt8) :
    little (b :: rest) = b.toNat + 256 * little rest := by
  simp [little, Nat.ofDigits_cons]

private theorem little_carry {bytes : List UInt8} (room : little bytes + 1 < 256 ^ bytes.length) :
    little (carry bytes) = little bytes + 1 := by
  induction bytes with
  | nil => simp [little] at room
  | cons b rest ih =>
    rw [little_cons] at room
    unfold carry
    split
    · rename_i stays
      have step : (b + 1).toNat = b.toNat + 1 := by
        have := b.toNat_lt
        have wrap : (b + 1).toNat = (b.toNat + 1) % 256 := by simp [UInt8.toNat_add]
        have : b.toNat ≠ 255 := by
          intro top
          apply stays
          apply UInt8.toNat_inj.mp
          simp [wrap, top]
        omega
      rw [little_cons, little_cons, step]
      omega
    · rename_i wraps
      have top : b.toNat = 255 := by
        have := b.toNat_lt
        have wrap : (b + 1).toNat = (b.toNat + 1) % 256 := by simp [UInt8.toNat_add]
        have zero : (b + 1).toNat = 0 := by
          rw [not_not.mp wraps]
          rfl
        omega
      rw [List.length_cons, Nat.pow_succ] at room
      rw [little_cons, little_cons, ih (by omega), top]
      simp
      omega

private theorem little_borrow {bytes : List UInt8} (pos : 0 < little bytes) :
    little (borrow bytes) + 1 = little bytes := by
  induction bytes with
  | nil => simp [little] at pos
  | cons b rest ih =>
    rw [little_cons] at pos
    unfold borrow
    split
    · rename_i nonzero
      have step : (b - 1).toNat + 1 = b.toNat := by
        have pos : 0 < b.toNat := by
          apply Nat.pos_of_ne_zero
          intro zero
          exact nonzero (UInt8.toNat_inj.mp (by simpa using zero))
        have := b.toNat_lt
        rw [UInt8.toNat_sub_of_le]
        · simp
          omega
        · rw [UInt8.le_iff_toNat_le]
          exact pos
      rw [little_cons, little_cons]
      omega
    · rename_i zero
      have zero : b.toNat = 0 := by
        rw [not_not.mp zero]
        rfl
      have := ih (by omega)
      rw [little_cons, little_cons, zero]
      simp
      omega

variable {bytes : List UInt8}

theorem value_increment (room : value bytes + 1 < 256 ^ bytes.length) :
    value (increment bytes) = value bytes + 1 := by
  have := @little_carry bytes.reverse (by simpa [value, little] using room)
  simpa [value, little, increment] using this

private theorem little_lt (bytes : List UInt8) : little bytes < 256 ^ bytes.length := by
  have bound := value_lt bytes.reverse
  simpa [value, little] using bound

private theorem carry_top {bytes : List UInt8} (top : little bytes + 1 = 256 ^ bytes.length) :
    little (carry bytes) = 0 := by
  induction bytes with
  | nil => rfl
  | cons b rest ih =>
    have low := b.toNat_lt
    have high := little_lt rest
    rw [little_cons, List.length_cons, Nat.pow_succ] at top
    have last : b = 255 := UInt8.toNat_inj.mp (by change b.toNat = 255; omega)
    subst last
    have later : little rest + 1 = 256 ^ rest.length := by
      change 255 + 256 * little rest + 1 = _ at top
      omega
    rw [carry, if_neg (by decide), little_cons, ih later]
    rfl

theorem value_increment_mod (bytes : List UInt8) :
    value (increment bytes) = (value bytes + 1) % 256 ^ bytes.length := by
  have bound := value_lt bytes
  by_cases room : value bytes + 1 < 256 ^ bytes.length
  · rw [value_increment room, Nat.mod_eq_of_lt room]
  · have full : value bytes + 1 = 256 ^ bytes.length := by omega
    have wrapped := @carry_top bytes.reverse (by simpa [value, little] using full)
    rw [full, Nat.mod_self]
    simpa [value, little, increment] using wrapped

/-- The number as `width` bytes, most significant first; higher bytes are cut off. -/
def ofValue : (width n : Nat) → List UInt8
  | 0, _ => []
  | width + 1, n => ofValue width (n / 256) ++ [UInt8.ofNat n]

@[simp] theorem ofValue_length (width n : Nat) : (ofValue width n).length = width := by
  induction width generalizing n with
  | zero => rfl
  | succ width ih => simp [ofValue, ih]

theorem value_append_singleton (bytes : List UInt8) (b : UInt8) :
    value (bytes ++ [b]) = value bytes * 256 + b.toNat := by
  simp only [value, List.reverse_append, List.reverse_cons, List.reverse_nil, List.nil_append,
    List.cons_append, List.map_cons, Nat.ofDigits_cons]
  ring

theorem value_ofValue (width n : Nat) : value (ofValue width n) = n % 256 ^ width := by
  induction width generalizing n with
  | zero => simp [ofValue, value, Nat.mod_one]
  | succ width ih =>
    rw [ofValue, value_append_singleton, ih, Nat.pow_succ', Nat.mod_mul]
    have byte : (UInt8.ofNat n).toNat = n % 256 := by simp
    rw [byte]
    ring

theorem ofValue_reverse (width n : Nat) :
    (ofValue width n).reverse = (List.range width).map fun i => UInt8.ofNat (n / 256 ^ i) := by
  induction width generalizing n with
  | zero => rfl
  | succ width ih =>
    rw [ofValue, List.reverse_append, List.reverse_singleton, List.singleton_append, ih,
      List.range_succ_eq_map, List.map_cons, List.map_map, Nat.pow_zero, Nat.div_one]
    congr 1
    refine List.map_congr_left fun i _ => ?_
    rw [Function.comp, Nat.div_div_eq_div_mul, Nat.pow_succ']

theorem ofValue_eq_map (width n : Nat) :
    ofValue width n = (List.range width).map fun i => UInt8.ofNat (n / 256 ^ (width - 1 - i)) := by
  apply List.reverse_injective
  rw [ofValue_reverse]
  apply List.ext_getElem
  · simp
  · intro k inside _
    rw [List.length_map, List.length_range] at inside
    have position : width - 1 - (width - 1 - k) = k := by omega
    simp [position]

theorem increment_eq_ofValue (bytes : List UInt8) :
    increment bytes = ofValue bytes.length (value bytes + 1) := by
  refine value_injective (by simp) ?_
  rw [value_increment_mod, value_ofValue]

theorem value_decrement (pos : 0 < value bytes) : value (decrement bytes) + 1 = value bytes := by
  have := @little_borrow bytes.reverse (by simpa [value, little] using pos)
  simpa [value, little, decrement] using this

theorem value_cons_lt_iff {b : UInt8} {rest : List UInt8} :
    value (b :: rest) < 256 ^ rest.length ↔ b = 0 := by
  rw [value_cons]
  have low := value_lt rest
  constructor
  · intro small
    have zero : b.toNat = 0 := by
      by_contra nonzero
      have := Nat.mul_le_mul_right (256 ^ rest.length) (Nat.pos_of_ne_zero nonzero)
      omega
    exact UInt8.toNat_inj.mp (by simpa using zero)
  · rintro rfl
    simpa using low

theorem value_eq_zero_iff : value bytes = 0 ↔ ∀ b ∈ bytes, b = 0 := by
  induction bytes with
  | nil => simp [value]
  | cons b rest ih =>
    rw [value_cons]
    simp only [Nat.add_eq_zero_iff, ih, List.mem_cons, forall_eq_or_imp, Nat.mul_eq_zero,
      Nat.pow_eq_zero]
    have : b.toNat = 0 ↔ b = 0 := by
      rw [← UInt8.toNat_inj]
      rfl
    simp [this]

def carryOut : List UInt8 → Bool
  | [] => true
  | b :: rest => if b + 1 ≠ 0 then false else carryOut rest

def wraps (bytes : List UInt8) : Bool := carryOut bytes.reverse

/-- The two's complement from the least significant byte, with the borrow of the
    bytes before. -/
def complement : List UInt8 → Bool → List UInt8
  | [], _ => []
  | b :: rest, borrowed =>
    (0 - b - if borrowed then 1 else 0) :: complement rest (b ≠ 0 || borrowed)

def negate (bytes : List UInt8) : List UInt8 := (complement bytes.reverse false).reverse

theorem complement_length (bytes : List UInt8) (borrowed : Bool) :
    (complement bytes borrowed).length = bytes.length := by
  induction bytes generalizing borrowed with
  | nil => rfl
  | cons b rest ih => simp [complement, ih]

@[simp] theorem negate_length (bytes : List UInt8) : (negate bytes).length = bytes.length := by
  simp [negate, complement_length]

private theorem little_carryOut {bytes : List UInt8} :
    carryOut bytes = true ↔ little bytes + 1 = 256 ^ bytes.length := by
  induction bytes with
  | nil => simp [carryOut, little]
  | cons b rest ih =>
    have low := b.toNat_lt
    have high := little_lt rest
    have wrap : (b + 1).toNat = (b.toNat + 1) % 256 := by simp [UInt8.toNat_add]
    rw [little_cons, List.length_cons, Nat.pow_succ]
    unfold carryOut
    split
    · rename_i stays
      have below : b.toNat ≠ 255 := by
        intro top
        apply stays
        apply UInt8.toNat_inj.mp
        simp [wrap, top]
      simp only [Bool.false_eq_true, false_iff]
      omega
    · rename_i top
      have zero : (b + 1).toNat = 0 := by
        rw [not_not.mp top]
        rfl
      rw [ih]
      omega

theorem wraps_iff : wraps bytes = true ↔ value bytes + 1 = 256 ^ bytes.length := by
  have := @little_carryOut bytes.reverse
  simpa [value, little, wraps] using this

private theorem little_complement_true (bytes : List UInt8) :
    little (complement bytes true) + little bytes + 1 = 256 ^ bytes.length := by
  induction bytes with
  | nil => simp [complement, little]
  | cons b rest ih =>
    have low := b.toNat_lt
    have here : ((0 : UInt8) - b - 1).toNat + b.toNat = 255 := by
      simp only [UInt8.toNat_sub, UInt8.toNat_zero, UInt8.toNat_one]
      omega
    simp only [complement, if_true, Bool.or_true]
    rw [little_cons, little_cons, List.length_cons, Nat.pow_succ]
    omega

private theorem little_complement {bytes : List UInt8} (pos : 0 < little bytes) :
    little (complement bytes false) + little bytes = 256 ^ bytes.length := by
  induction bytes with
  | nil => simp [little] at pos
  | cons b rest ih =>
    have low := b.toNat_lt
    rw [little_cons] at pos
    simp only [complement, Bool.false_eq_true, if_false, Bool.or_false]
    rw [little_cons, little_cons, List.length_cons, Nat.pow_succ]
    by_cases zero : b = 0
    · subst zero
      have later := ih (by simpa using pos)
      simp only [ne_eq, not_true, decide_false]
      simp
      omega
    · have nonzero : b.toNat ≠ 0 := fun same => zero (UInt8.toNat_inj.mp (by simpa using same))
      have here : ((0 : UInt8) - b - 0).toNat + b.toNat = 256 := by
        simp only [UInt8.toNat_sub, UInt8.toNat_zero]
        omega
      have later := little_complement_true rest
      simp only [ne_eq, zero, not_false_iff, decide_true]
      omega

theorem value_negate (pos : 0 < value bytes) :
    value (negate bytes) + value bytes = 256 ^ bytes.length := by
  have := @little_complement bytes.reverse (by simpa [value, little] using pos)
  simpa [value, little, negate] using this

theorem value_append (high low : List UInt8) :
    value (high ++ low) = value high * 256 ^ low.length + value low := by
  simp only [value, List.reverse_append, List.map_append, Nat.ofDigits_append, List.length_map,
    List.length_reverse]
  ring

end Library.ByteCounter
