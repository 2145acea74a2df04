import TinyCrypto.Mp.Euclid
import TinyCrypto.Mp.LimbsExact

/-! # Inverses and common divisors on limbs

`mp_inverse_internal.h` on arrays of words. Every branch is a mask; each function computes
its function on numbers.
-/

namespace TinyCrypto.Mp.Limbs

open Library.Words

variable {w : Nat}

/-- `tc_mp_shift_right`, with the bit that leaves the last word. -/
def shiftRight : (value : List (BitVec w)) → (high : BitVec w) → List (BitVec w) × BitVec w
  | [], high => ([], high)
  | low :: rest, high =>
    let (rest, high) := shiftRight rest high
    ((low >>> 1 ||| high <<< (w - 1)) :: rest, low &&& 1)

/-- `tc_mp_sub_mod`. -/
def subMod (a b p : List (BitVec w)) : List (BitVec w) :=
  let (difference, borrow) := subtract a b
  let mask := 0 - borrow
  (addLoop difference (p.map (· &&& mask)) 0).words

/-- `tc_mp_half_mod`. -/
def halfMod (a p : List (BitVec w)) : List (BitVec w) :=
  let mask := 0 - (a.getD 0 0 &&& 1)
  let sum := addLoop a (p.map (· &&& mask)) 0
  (shiftRight sum.words (sum.carry.setWidth w)).1

/-- `tc_mp_swap`. -/
def swap (a b : List (BitVec w)) (mask : BitVec w) : List (BitVec w) × List (BitVec w) :=
  (List.zipWith (fun a b => a ^^^ ((a ^^^ b) &&& mask)) a b,
    List.zipWith (fun a b => b ^^^ ((a ^^^ b) &&& mask)) a b)

/-- The rows of `tc_mp_inverse`. -/
structure InverseState (w : Nat) where
  u : List (BitVec w)
  v : List (BitVec w)
  r : List (BitVec w)
  s : List (BitVec w)
  deriving DecidableEq

/-- One step of `tc_mp_inverse`. -/
def inverseStep (p : List (BitVec w)) (state : InverseState w) : InverseState w :=
  let borrow := (subtract state.u state.v).2
  let u_odd := state.u.getD 0 0 &&& 1
  let v_odd := state.v.getD 0 0 &&& 1
  let mask := 0 - (u_odd &&& ((v_odd ^^^ 1) ||| borrow))
  let (u, v) := swap state.u state.v mask
  let (r, s) := swap state.r state.s mask
  let odd := 0 - (u.getD 0 0 &&& 1)
  let difference := (subtract u v).1
  let coefficient := subMod r s p
  let u := select difference u odd
  let r := select coefficient r odd
  ⟨(shiftRight u 0).1, v, halfMod r p, s⟩

/-- The rows of `tc_mp_inverse` after its steps. -/
def inverseSteps (a p : List (BitVec w)) : InverseState w :=
  (inverseStep p)^[2 * p.length * w] ⟨a, p, one p.length, List.replicate p.length 0⟩

def differenceFromOne (words : List (BitVec w)) : BitVec w :=
  words.tail.foldl (· ||| ·) (words.getD 0 0 ^^^ 1)

/-- `tc_mp_inverse`. -/
def inverse (a p : List (BitVec w)) : Option (List (BitVec w)) :=
  let state := inverseSteps a p
  let u_difference := differenceFromOne state.u
  let v_difference := differenceFromOne state.v
  if u_difference ≠ 0 && v_difference ≠ 0 then none
  else some (select state.r state.s (0 - (BitVec.ofBool (u_difference = 0)).setWidth w))

/-- The rows of `tc_mp_gcd`, and the factors of two removed. -/
structure GcdState (w : Nat) where
  x : List (BitVec w)
  y : List (BitVec w)
  shift : Nat
  deriving DecidableEq

def gcdHalve (state : GcdState w) : GcdState w :=
  let both_even := ((state.x.getD 0 0 ||| state.y.getD 0 0) &&& 1) ^^^ 1
  let mask := 0 - both_even
  ⟨select (shiftRight state.x 0).1 state.x mask, select (shiftRight state.y 0).1 state.y mask,
    state.shift + both_even.toNat⟩

/-- One pass of the loop that keeps `x` odd. -/
def gcdStep (state : GcdState w) : GcdState w :=
  let odd := state.y.getD 0 0 &&& 1
  let below := (subtract state.y state.x).2
  let (x, y) := swap state.x state.y (0 - (odd &&& below))
  let difference := (subtract y x).1
  ⟨x, (shiftRight (select difference y (0 - odd)) 0).1, state.shift⟩

/-- The doubling in `tc_mp_gcd` and in `tc_mp_divide_words`, with the carry into it. -/
def doubleLoop : (x : List (BitVec w)) → (carry : BitVec (2 * w)) → Inner w
  | [], carry => ⟨[], carry, []⟩
  | x :: xs, carry =>
    let value := carry + x.setWidth (2 * w) * 2
    let rest := doubleLoop xs (value >>> w)
    ⟨value.setWidth w :: rest.words, rest.carry, (carry.toNat + x.toNat * 2) :: rest.sums⟩

/-- The rows of `tc_mp_gcd` before the common factor of two comes back. -/
def gcdReduced (a b : List (BitVec w)) : GcdState w :=
  let bits := a.length * w
  let state := gcdHalve^[bits] ⟨a, b, 0⟩
  let (x, y) := swap state.x state.y (0 - ((state.x.getD 0 0 &&& 1) ^^^ 1))
  gcdStep^[2 * bits] ⟨x, y, state.shift⟩

/-- `tc_mp_gcd`. -/
def gcd (a b : List (BitVec w)) : List (BitVec w) :=
  let state := gcdReduced a b
  (List.range (a.length * w)).foldl
    (fun x i => select (doubleLoop x 0).words x
      (0 - (BitVec.ofBool (i < state.shift)).setWidth w)) state.x

def flag (w : Nat) (c : Bool) : BitVec w := (BitVec.ofBool c).setWidth w

theorem flag_false : (0 : BitVec w) = flag w false := by simp [flag]

theorem flag_true : (1 : BitVec w) = flag w true := by
  apply BitVec.eq_of_toNat_eq
  simp [flag]

theorem flag_toNat (positive : 0 < w) (c : Bool) : (flag w c).toNat = c.toNat := by
  have word : 1 < 2 ^ w := Nat.one_lt_two_pow (by omega)
  cases c with
  | false => simp [flag]
  | true => simp [flag, Nat.mod_eq_of_lt word]

theorem flag_and (c d : Bool) : flag w c &&& flag w d = flag w (c && d) := by
  cases c with
  | false => simp [flag]
  | true => cases d <;> simp [flag]

theorem flag_or (c d : Bool) : flag w c ||| flag w d = flag w (c || d) := by
  cases c with
  | false => simp [flag]
  | true => cases d <;> simp [flag]

theorem flag_xor (c d : Bool) : flag w c ^^^ flag w d = flag w (c ^^ d) := by
  cases c with
  | false => simp [flag]
  | true => cases d <;> simp [flag]

section

variable (positive : 0 < w)

include positive

theorem low_bit (x : BitVec w) : x &&& 1 = flag w (decide (x.toNat % 2 = 1)) := by
  have one : (1 : BitVec w).toNat = 1 := by
    rw [flag_true, flag_toNat positive, Bool.toNat_true]
  apply BitVec.eq_of_toNat_eq
  rw [flag_toNat positive, BitVec.toNat_and, one, Nat.and_one_is_mod]
  rcases Nat.mod_two_eq_zero_or_one x.toNat with even | odd
  · simp [even]
  · simp [odd]

theorem first_parity (words : List (BitVec w)) : (words.getD 0 0).toNat % 2 = number words % 2 := by
  cases words with
  | nil => simp
  | cons x rest =>
    have even : 2 ∣ 2 ^ w * number rest := Dvd.dvd.mul_right (dvd_pow_self 2 (by omega)) _
    rw [number_cons, List.getD_cons_zero]
    omega

theorem first_bit (words : List (BitVec w)) :
    words.getD 0 0 &&& 1 = flag w (decide (number words % 2 = 1)) := by
  rw [low_bit positive, first_parity positive]

theorem select_flag {a b : List (BitVec w)} (size : a.length = b.length)
    (c : Bool) : select a b (0 - flag w c) = if c then a else b :=
  select_eq positive size c

theorem swap_flag {a b : List (BitVec w)} (size : a.length = b.length)
    (c : Bool) : swap a b (0 - flag w c) = if c then (b, a) else (a, b) := by
  have mask := mask_eq positive c
  rw [← flag] at mask
  rw [swap, mask]
  induction a generalizing b with
  | nil =>
    cases b with
    | nil => cases c <;> rfl
    | cons y b => cases size
  | cons x a ih =>
    cases b with
    | nil => cases size
    | cons y b =>
      have rest := ih (Nat.succ.inj size)
      cases c with
      | false => simpa using rest
      | true =>
        have back : y ^^^ (x ^^^ y) = x := by
          rw [BitVec.xor_comm x, ← BitVec.xor_assoc, BitVec.xor_self, BitVec.zero_xor]
        have forth : x ^^^ (x ^^^ y) = y := by
          rw [← BitVec.xor_assoc, BitVec.xor_self, BitVec.zero_xor]
        simpa [back, forth] using rest

theorem masked_words (p : List (BitVec w)) (c : Bool) :
    number (p.map (· &&& (0 - flag w c))) = if c then number p else 0 := by
  have mask := mask_eq positive c
  rw [← flag] at mask
  rw [mask]
  cases c with
  | false =>
    have zeros : p.map (· &&& (0 : BitVec w)) = List.replicate p.length 0 := by
      simp [List.map_const']
    exact (congrArg number zeros).trans (number_replicate_zero _)
  | true => simp

theorem borrow_flag {a b : List (BitVec w)} (size : a.length = b.length) :
    (subtract a b).2 = flag w (Mp.subtract w a.length (number a) (number b)).2 := by
  obtain ⟨_, last, _⟩ := @subtractLoop_spec w positive a b size 0 (by simp)
  obtain ⟨_, _, borrow⟩ := subtract_spec positive size
  have word : 1 < 2 ^ w := Nat.one_lt_two_pow (by omega)
  have small : (subtract a b).2.toNat ≤ 1 := by
    rw [subtract, BitVec.toNat_setWidth, Nat.mod_eq_of_lt (by omega)]
    exact last
  apply BitVec.eq_of_toNat_eq
  rw [flag_toNat positive]
  rw [zero_iff] at borrow
  generalize (Mp.subtract w a.length (number a) (number b)).2 = out at *
  cases out with
  | false => exact borrow.mpr rfl
  | true =>
    have nonzero : (subtract a b).2.toNat ≠ 0 := fun zero => absurd (borrow.mp zero) (by decide)
    rw [Bool.toNat_true]
    omega

theorem shiftRight_word (low : BitVec w) (d : Bool) :
    2 * (low >>> 1 ||| flag w d <<< (w - 1)).toNat + low.toNat % 2 =
      low.toNat + 2 ^ w * d.toNat := by
  have whole : 2 ^ w = 2 ^ (w - 1) * 2 := by
    rw [← Nat.pow_succ]
    congr 1
    omega
  have half : low.toNat / 2 < 2 ^ (w - 1) := by
    have := low.isLt
    omega
  have bit : d.toNat < 2 := Nat.lt_succ_of_le (Bool.toNat_le d)
  have high : (flag w d <<< (w - 1)).toNat = 2 ^ (w - 1) * d.toNat := by
    rw [BitVec.toNat_shiftLeft, flag_toNat positive, Nat.shiftLeft_eq, Nat.mul_comm, whole,
      Nat.mod_eq_of_lt (Nat.mul_lt_mul_of_pos_left bit (Nat.two_pow_pos _))]
  have sum : (low >>> 1 ||| flag w d <<< (w - 1)).toNat = 2 ^ (w - 1) * d.toNat + low.toNat / 2 := by
    rw [BitVec.toNat_or, high, BitVec.toNat_ushiftRight, Nat.shiftRight_one, Nat.or_comm]
    exact (Nat.two_pow_add_eq_or_of_lt half _).symm
  rw [sum, whole]
  have parts := Nat.div_add_mod low.toNat 2
  linear_combination parts

theorem shiftRight_spec (value : List (BitVec w)) (c : Bool) :
    (shiftRight value (flag w c)).1.length = value.length ∧
      ∃ d, (shiftRight value (flag w c)).2 = flag w d ∧
        2 * number (shiftRight value (flag w c)).1 + d.toNat =
          number value + 2 ^ (w * value.length) * c.toNat := by
  induction value with
  | nil => exact ⟨rfl, c, rfl, by simp [shiftRight]⟩
  | cons low rest ih =>
    obtain ⟨length, d, out, total⟩ := ih
    have word := shiftRight_word positive low d
    refine ⟨congrArg (· + 1) length, decide (low.toNat % 2 = 1), low_bit positive low, ?_⟩
    have bit : (decide (low.toNat % 2 = 1)).toNat = low.toNat % 2 := by
      rcases Nat.mod_two_eq_zero_or_one low.toNat with even | odd
      · simp [even]
      · simp [odd]
    simp only [shiftRight, out, number_cons, bit, List.length_cons]
    rw [Nat.mul_succ, Nat.pow_add]
    linear_combination word + (2 : Nat) ^ w * total

theorem shiftRight_zero (value : List (BitVec w)) : (shiftRight value 0).1.length = value.length ∧
      number (shiftRight value 0).1 = number value / 2 := by
  obtain ⟨length, d, _, total⟩ := shiftRight_spec positive value false
  rw [← flag_false] at length total
  have bit := Bool.toNat_le d
  rw [Bool.toNat_false] at total
  exact ⟨length, by omega⟩

end

theorem doubleLoop_eq (remainder : List (BitVec w)) (carry : BitVec (2 * w)) :
    doubleLoop remainder carry = addLoop remainder remainder carry := by
  induction remainder generalizing carry with
  | nil => rfl
  | cons r rs ih =>
    have twice : ∀ x : BitVec (2 * w), x * 2 = x + x := by
      intro x
      apply BitVec.eq_of_toNat_eq
      have two : (2 : BitVec (2 * w)).toNat = 2 % 2 ^ (2 * w) := BitVec.toNat_ofNat 2 _
      rw [BitVec.toNat_mul, BitVec.toNat_add, two, Nat.mul_mod_mod, Nat.mul_two]
    rw [doubleLoop, addLoop, ih, twice, Nat.mul_two]

variable {a b p : List (BitVec w)}

theorem maskedAdd_spec (positive : 0 < w) (size : a.length = p.length) (c : Bool) :
    let sum := addLoop a (p.map (· &&& (0 - flag w c))) 0
    sum.words.length = a.length ∧ sum.carry.toNat < 2 ^ w ∧
      number sum.words + 2 ^ (w * a.length) * sum.carry.toNat =
        number a + if c then number p else 0 := by
  have length : a.length = (p.map (· &&& (0 - flag w c))).length := by
    rw [List.length_map, size]
  obtain ⟨count, value, carry, _⟩ := addLoop_carried positive length zero_carry_lt
  rw [zero_carry, Nat.zero_add, masked_words positive] at value
  exact ⟨count, carry, value⟩

theorem subMod_spec (positive : 0 < w) (size : a.length = b.length) (size' : a.length = p.length) :
    (subMod a b p).length = a.length ∧
      number (subMod a b p) = Mp.subMod w a.length (number a) (number b) (number p) := by
  obtain ⟨length, difference, _⟩ := subtract_spec positive size
  have borrow := borrow_flag positive size
  obtain ⟨count, _, value⟩ := maskedAdd_spec positive (length.trans size')
    (Mp.subtract w a.length (number a) (number b)).2
  rw [← borrow] at count value
  have low := number_lt (subMod a b p)
  refine ⟨count.trans length, ?_⟩
  change (subMod a b p).length = _ at count
  change number (subMod a b p) + _ = _ at value
  rw [count, length] at low
  rw [length, difference] at value
  rw [Mp.subMod, ← Nat.mod_eq_of_lt low, ← Nat.add_mul_mod_self_left, value, span]

theorem halfMod_spec (positive : 0 < w) (size : a.length = p.length) :
    (halfMod a p).length = a.length ∧ number (halfMod a p) = Mp.halfMod (number a) (number p) := by
  obtain ⟨count, carry, value⟩ := maskedAdd_spec positive size (decide (number a % 2 = 1))
  rw [← first_bit positive] at count carry value
  rw [halfMod, Mp.halfMod]
  simp only [decide_eq_true_eq] at value
  generalize addLoop a (p.map (· &&& (0 - (a.getD 0 0 &&& 1)))) 0 = sum at *
  have few : sum.carry.toNat ≤ 1 := by
    by_contra more
    have first := number_lt a
    have second := number_lt p
    rw [← size] at second
    have twice : 2 ^ (w * a.length) * 2 ≤ 2 ^ (w * a.length) * sum.carry.toNat :=
      Nat.mul_le_mul_left _ (by omega)
    split at value <;> omega
  have bit : sum.carry.setWidth w = flag w (decide (sum.carry.toNat = 1)) := by
    apply BitVec.eq_of_toNat_eq
    rw [flag_toNat positive, BitVec.toNat_setWidth, Nat.mod_eq_of_lt carry]
    rcases Nat.le_one_iff_eq_zero_or_eq_one.mp few with zero | one
    · simp [zero]
    · simp [one]
  obtain ⟨length, d, _, total⟩ := shiftRight_spec positive sum.words (decide (sum.carry.toNat = 1))
  rw [← bit, count] at total
  rw [← bit] at length
  have same : (decide (sum.carry.toNat = 1)).toNat = sum.carry.toNat := by
    rcases Nat.le_one_iff_eq_zero_or_eq_one.mp few with zero | one
    · simp [zero]
    · simp [one]
  have last := Bool.toNat_le d
  rw [same, value] at total
  exact ⟨length.trans count, by omega⟩

theorem halved_spec (positive : 0 < w) (size : a.length = b.length) (c : Bool) :
    (shiftRight (select (subtract a b).1 a (0 - flag w c)) 0).1.length = a.length ∧
      number (shiftRight (select (subtract a b).1 a (0 - flag w c)) 0).1 =
        (if c then (Mp.subtract w a.length (number a) (number b)).1 else number a) / 2 := by
  obtain ⟨length, difference, _⟩ := subtract_spec positive size
  rw [select_flag positive length]
  cases c with
  | false => exact shiftRight_zero positive a
  | true =>
    obtain ⟨count, half⟩ := shiftRight_zero positive (subtract a b).1
    rw [difference] at half
    exact ⟨count.trans length, half⟩

theorem halvedMod_spec (positive : 0 < w) (size : a.length = b.length) (size' : a.length = p.length)
    (c : Bool) : (halfMod (select (subMod a b p) a (0 - flag w c)) p).length = a.length ∧
      number (halfMod (select (subMod a b p) a (0 - flag w c)) p) =
        Mp.halfMod (if c then Mp.subMod w a.length (number a) (number b) (number p) else number a)
          (number p) := by
  obtain ⟨length, coefficient⟩ := subMod_spec positive size size'
  rw [select_flag positive length]
  cases c with
  | false => exact halfMod_spec positive size'
  | true =>
    obtain ⟨count, half⟩ := halfMod_spec positive (length.trans size')
    rw [coefficient] at half
    exact ⟨count.trans length, half⟩

/-- What the rows of `tc_mp_inverse` stand for. -/
def InverseState.numbers (state : InverseState w) : Mp.InverseState :=
  ⟨number state.u, number state.v, number state.r, number state.s⟩

structure InverseState.Rows (state : InverseState w) (count : Nat) : Prop where
  u : state.u.length = count
  v : state.v.length = count
  r : state.r.length = count
  s : state.s.length = count

theorem inverseStep_computes (positive : 0 < w) {state : InverseState w}
    (rows : state.Rows p.length) : (inverseStep p state).Rows p.length ∧
      (inverseStep p state).numbers = Mp.inverseStep w p.length (number p) state.numbers := by
  have borrow := borrow_flag positive (rows.u.trans rows.v.symm)
  rw [rows.u, Mp.subtract_borrow] at borrow
  have mask : flag w (decide (number state.u % 2 = 1)) &&&
      ((flag w (decide (number state.v % 2 = 1)) ^^^ 1) ||| (subtract state.u state.v).2) =
        flag w (decide (number state.u % 2 = 1) && ((decide (number state.v % 2 = 1) ^^ true) ||
          decide (number state.u < number state.v))) := by
    rw [borrow, flag_true, flag_xor, flag_or, flag_and]
  have even : (decide (number state.v % 2 = 1) ^^ true) = decide (number state.v % 2 = 0) := by
    rcases Nat.mod_two_eq_zero_or_one (number state.v) with zero | one
    · simp [zero]
    · simp [one]
  rw [even] at mask
  have step := inverseStep.eq_1 p state
  simp only [first_bit positive, mask, swap_flag positive (rows.u.trans rows.v.symm),
    swap_flag positive (rows.r.trans rows.s.symm), Bool.and_eq_true, Bool.or_eq_true,
    decide_eq_true_eq] at step
  by_cases swaps : number state.u % 2 = 1 ∧
      (number state.v % 2 = 0 ∨ number state.u < number state.v)
  case neg =>
      obtain ⟨count, half⟩ :=
        halved_spec positive (rows.u.trans rows.v.symm) (decide (number state.u % 2 = 1))
      obtain ⟨count', half'⟩ := halvedMod_spec positive (rows.r.trans rows.s.symm) rows.r
        (decide (number state.u % 2 = 1))
      rw [rows.u] at half
      rw [rows.r] at half'
      simp only [swaps, if_false] at step
      rw [step, Mp.inverseStep_kept swaps]
      refine ⟨⟨count.trans rows.u, rows.v, count'.trans rows.r, rows.s⟩, ?_⟩
      simp only [InverseState.numbers, half, half', decide_eq_true_eq]
      rfl
  case pos =>
      obtain ⟨count, half⟩ :=
        halved_spec positive (rows.v.trans rows.u.symm) (decide (number state.v % 2 = 1))
      obtain ⟨count', half'⟩ := halvedMod_spec positive (rows.s.trans rows.r.symm) rows.s
        (decide (number state.v % 2 = 1))
      rw [rows.v] at half
      rw [rows.s] at half'
      simp only [if_pos swaps] at step
      rw [step, Mp.inverseStep_swapped swaps]
      refine ⟨⟨count.trans rows.v, rows.u, count'.trans rows.s, rows.r⟩, ?_⟩
      simp only [InverseState.numbers, half, half', decide_eq_true_eq]
      rfl

theorem inverseSteps_computes (positive : 0 < w) (nonempty : p.length ≠ 0)
    (size : a.length = p.length) : (inverseSteps a p).Rows p.length ∧ (inverseSteps a p).numbers =
        (Mp.inverseStep w p.length (number p))^[2 * p.length * w] ⟨number a, number p, 1, 0⟩ := by
  rw [inverseSteps]
  generalize 2 * p.length * w = count
  induction count with
  | zero =>
    obtain ⟨length, value⟩ := one_spec positive nonempty
    refine ⟨⟨size, rfl, length, List.length_replicate ..⟩, ?_⟩
    have zeros := @number_replicate_zero w p.length
    simp [InverseState.numbers, value, zeros]
  | succ count ih =>
    obtain ⟨rows, numbers⟩ := ih
    obtain ⟨next, computed⟩ := inverseStep_computes positive rows
    rw [numbers] at computed
    rw [Function.iterate_succ_apply', Function.iterate_succ_apply']
    exact ⟨next, computed⟩

theorem foldl_or_zero (words : List (BitVec w)) (start : BitVec w) :
    words.foldl (· ||| ·) start = 0 ↔ start = 0 ∧ number words = 0 := by
  induction words generalizing start with
  | nil => simp
  | cons x rest ih =>
    rw [List.foldl_cons, ih, zero_iff, BitVec.toNat_or, Nat.or_eq_zero_iff, zero_iff start,
      number_cons, and_assoc]
    simp

theorem differenceFromOne_zero (positive : 0 < w) {words : List (BitVec w)}
    (nonempty : words.length ≠ 0) : differenceFromOne words = 0 ↔ number words = 1 := by
  cases words with
  | nil => exact absurd rfl nonempty
  | cons x rest =>
    have word : 1 < 2 ^ w := Nat.one_lt_two_pow (by omega)
    have one : (1 : BitVec w).toNat = 1 := by
      rw [flag_true, flag_toNat positive, Bool.toNat_true]
    have same : x ^^^ 1 = 0 ↔ x.toNat = 1 := by
      rw [← one, BitVec.toNat_inj]
      exact BitVec.xor_eq_zero_iff
    rw [differenceFromOne, List.tail_cons, List.getD_cons_zero, foldl_or_zero, same, number_cons]
    have low := x.isLt
    constructor
    · rintro ⟨first, zero⟩
      rw [first, zero, Nat.mul_zero]
    · intro total
      have zero : number rest = 0 := by
        by_contra more
        have := Nat.le_mul_of_pos_right (2 ^ w) (Nat.pos_of_ne_zero more)
        omega
      rw [zero, Nat.mul_zero, Nat.add_zero] at total
      exact ⟨total, zero⟩

theorem inverse_computes (positive : 0 < w) (nonempty : p.length ≠ 0) (size : a.length = p.length) :
    (inverse a p).map number = Mp.inverse w p.length (number a) (number p) ∧
      ∀ out ∈ inverse a p, out.length = p.length := by
  obtain ⟨rows, numbers⟩ := inverseSteps_computes positive nonempty size
  rw [inverse, Mp.inverse, ← numbers]
  generalize inverseSteps a p = state at *
  have first := differenceFromOne_zero positive (by rw [rows.u]; exact nonempty)
  have second := differenceFromOne_zero positive (by rw [rows.v]; exact nonempty)
  have chosen := select_eq positive (rows.r.trans rows.s.symm)
    (decide (differenceFromOne state.u = 0))
  rw [chosen]
  simp only [InverseState.numbers, Ne, first, second]
  by_cases one : number state.u = 1
  · simp [one, rows.r]
  · by_cases other : number state.v = 1
    · simp [one, other, rows.s]
    · simp [one, other]

/-- What the rows of `tc_mp_gcd` stand for. -/
def GcdState.numbers (state : GcdState w) : Mp.GcdState :=
  ⟨number state.x, number state.y, state.shift⟩

structure GcdState.Rows (state : GcdState w) (count : Nat) : Prop where
  x : state.x.length = count
  y : state.y.length = count

theorem gcdHalve_computes (positive : 0 < w) {state : GcdState w} {count : Nat}
    (rows : state.Rows count) :
    (gcdHalve state).Rows count ∧ (gcdHalve state).numbers = Mp.gcdHalve state.numbers := by
  obtain ⟨length, half⟩ := shiftRight_zero positive state.x
  obtain ⟨length', half'⟩ := shiftRight_zero positive state.y
  have even : ((state.x.getD 0 0 ||| state.y.getD 0 0) &&& 1) ^^^ 1 =
      flag w (decide (number state.x % 2 = 0 ∧ number state.y % 2 = 0)) := by
    rw [BitVec.and_comm, BitVec.and_or_distrib_left, BitVec.and_comm, first_bit positive,
      BitVec.and_comm, first_bit positive, flag_true, flag_or, flag_xor]
    congr 1
    rcases Nat.mod_two_eq_zero_or_one (number state.x) with zero | one
    · rcases Nat.mod_two_eq_zero_or_one (number state.y) with zero' | one'
      · simp [zero, zero']
      · simp [zero, one']
    · simp [one]
  have step := gcdHalve.eq_1 state
  simp only [even, select_flag positive length, select_flag positive length',
    flag_toNat positive, decide_eq_true_eq] at step
  by_cases both : number state.x % 2 = 0 ∧ number state.y % 2 = 0
  case neg =>
      simp only [if_neg both, decide_eq_false both] at step
      rw [step, Mp.gcdHalve_kept both]
      exact ⟨rows, rfl⟩
  case pos =>
      simp only [if_pos both, decide_eq_true both] at step
      rw [step, Mp.gcdHalve_halved both]
      refine ⟨⟨length.trans rows.x, length'.trans rows.y⟩, ?_⟩
      simp only [GcdState.numbers, half, half', Bool.toNat_true]

theorem gcdStep_computes (positive : 0 < w) {state : GcdState w} {count : Nat}
    (rows : state.Rows count) :
    (gcdStep state).Rows count ∧ (gcdStep state).numbers = Mp.gcdStep w count state.numbers := by
  have borrow := borrow_flag positive (rows.y.trans rows.x.symm)
  rw [rows.y, Mp.subtract_borrow] at borrow
  have mask : flag w (decide (number state.y % 2 = 1)) &&& (subtract state.y state.x).2 =
      flag w (decide (number state.y % 2 = 1 ∧ number state.y < number state.x)) := by
    rw [borrow, flag_and, Bool.decide_and]
  have step := gcdStep.eq_1 state
  simp only [first_bit positive, mask, swap_flag positive (rows.x.trans rows.y.symm),
    decide_eq_true_eq] at step
  by_cases swaps : number state.y % 2 = 1 ∧ number state.y < number state.x
  case neg =>
      obtain ⟨length, half⟩ :=
        halved_spec positive (rows.y.trans rows.x.symm) (decide (number state.y % 2 = 1))
      rw [rows.y] at half
      simp only [if_neg swaps] at step
      rw [step, Mp.gcdStep_kept swaps]
      refine ⟨⟨rows.x, length.trans rows.y⟩, ?_⟩
      simp only [GcdState.numbers, half, decide_eq_true_eq]
      rfl
  case pos =>
      obtain ⟨length, half⟩ :=
        halved_spec positive (rows.x.trans rows.y.symm) (decide (number state.y % 2 = 1))
      rw [rows.x] at half
      simp only [if_pos swaps] at step
      rw [step, Mp.gcdStep_swapped swaps]
      refine ⟨⟨rows.y, length.trans rows.x⟩, ?_⟩
      simp only [GcdState.numbers, half, decide_eq_true_eq]
      rfl

theorem gcdRuns_compute (positive : 0 < w) {state : GcdState w} {count : Nat}
    (rows : state.Rows count) (steps : Nat) : ((gcdHalve^[steps] state).Rows count ∧
        (gcdHalve^[steps] state).numbers = Mp.gcdHalve^[steps] state.numbers) ∧
      (gcdStep^[steps] state).Rows count ∧
        (gcdStep^[steps] state).numbers = (Mp.gcdStep w count)^[steps] state.numbers := by
  induction steps with
  | zero => exact ⟨⟨rows, rfl⟩, rows, rfl⟩
  | succ steps ih =>
    obtain ⟨⟨halving, halved⟩, stepping, stepped⟩ := ih
    have half := gcdHalve_computes positive halving
    have step := gcdStep_computes positive stepping
    rw [halved] at half
    rw [stepped] at step
    simp only [Function.iterate_succ_apply']
    exact ⟨half, step⟩

theorem gcdReduced_computes (positive : 0 < w) (size : a.length = b.length) :
    (gcdReduced a b).Rows a.length ∧
      (gcdReduced a b).numbers = Mp.gcdReduced w a.length (number a) (number b) := by
  obtain ⟨⟨rows, numbers⟩, _⟩ := @gcdRuns_compute w positive ⟨a, b, 0⟩ a.length ⟨rfl, size.symm⟩
    (a.length * w)
  have odd : (flag w (decide (number (gcdHalve^[a.length * w] ⟨a, b, 0⟩).x % 2 = 1)) ^^^ 1 :
      BitVec w) = flag w (decide (number (gcdHalve^[a.length * w] ⟨a, b, 0⟩).x % 2 = 0)) := by
    rw [flag_true, flag_xor]
    rcases Nat.mod_two_eq_zero_or_one (number (gcdHalve^[a.length * w] ⟨a, b, 0⟩).x) with zero | one
    · simp [zero]
    · simp [one]
  have reduced := gcdReduced.eq_1 a b
  simp only [first_bit positive, odd, swap_flag positive (rows.x.trans rows.y.symm),
    decide_eq_true_eq] at reduced
  have start : (⟨a, b, 0⟩ : GcdState w).numbers = ⟨number a, number b, 0⟩ := rfl
  rw [start] at numbers
  rw [reduced, Mp.gcdReduced, ← numbers]
  generalize gcdHalve^[a.length * w] (⟨a, b, 0⟩ : GcdState w) = state at *
  by_cases even : number state.x % 2 = 0
  case neg =>
      have even' : ¬state.numbers.x % 2 = 0 := even
      simp only [if_neg even, if_neg even']
      exact (gcdRuns_compute positive rows _).2
  case pos =>
      have even' : state.numbers.x % 2 = 0 := even
      simp only [if_pos even, if_pos even']
      exact (@gcdRuns_compute w positive ⟨state.y, state.x, state.shift⟩ a.length
        ⟨rows.y, rows.x⟩ _).2

theorem gcd_computes (positive : 0 < w) (size : a.length = b.length) : (gcd a b).length = a.length ∧
      number (gcd a b) = Mp.gcd w a.length (number a) (number b) := by
  obtain ⟨rows, numbers⟩ := gcdReduced_computes positive size
  have restored : Mp.gcd w a.length (number a) (number b) =
      (List.range (a.length * w)).foldl (fun x i => if i < (gcdReduced a b).numbers.shift then
        x * 2 % span w a.length else x) (gcdReduced a b).numbers.x := by
    rw [numbers]
    rfl
  rw [restored, gcd]
  generalize gcdReduced a b = state at *
  generalize a.length * w = count
  induction count with
  | zero => exact ⟨rows.x, rfl⟩
  | succ count ih =>
    obtain ⟨length, value⟩ := ih
    rw [List.range_succ, List.foldl_append, List.foldl_append, List.foldl_cons, List.foldl_nil,
      List.foldl_cons, List.foldl_nil, ← value]
    generalize (List.range count).foldl (fun x i => select (doubleLoop x 0).words x
      (0 - (BitVec.ofBool (i < state.shift)).setWidth w)) state.x = x at length
    obtain ⟨size, double, _⟩ := addLoop_carried positive (rfl : x.length = x.length) zero_carry_lt
    rw [← doubleLoop_eq] at size double
    rw [select_eq positive size]
    rw [zero_carry, Nat.zero_add, length] at double
    have low := number_lt (doubleLoop x 0).words
    rw [size, length] at low
    by_cases more : count < state.shift
    case neg =>
        have more' : ¬count < state.numbers.shift := more
        simp only [more, more', decide_false, Bool.false_eq_true, if_false]
        exact ⟨length, trivial⟩
    case pos =>
        have more' : count < state.numbers.shift := more
        simp only [more, more', decide_true, if_true]
        refine ⟨size.trans length, ?_⟩
        rw [Nat.mul_two, ← double, span, Nat.add_mul_mod_self_left, Nat.mod_eq_of_lt low]

/-- `tc_mp_inverse` of an array below an odd modulus. -/
structure Inverts (a p : List (BitVec w)) : Prop where
  finished : number (inverseSteps a p).u = 0
  reports : (inverse a p).isSome ↔ Nat.Coprime (number a) (number p)
  inverts : ∀ out, inverse a p = some out →
    out.length = p.length ∧ number out < number p ∧ number a * number out ≡ 1 [MOD number p]

/-- `tc_mp_gcd` of two arrays. -/
structure Divides (a b : List (BitVec w)) : Prop where
  finished : number (gcdReduced a b).y = 0
  length : (gcd a b).length = a.length
  value : number (gcd a b) = Nat.gcd (number a) (number b)

theorem inverse_inverts (positive : 0 < w) (size : a.length = p.length)
    (odd : number p % 2 = 1) (large : 1 < number p) (below : number a < number p) :
    Inverts a p := by
  have nonempty : p.length ≠ 0 := by
    intro empty
    rw [List.length_eq_zero_iff.mp empty, number_nil] at large
    omega
  have fits := number_span p
  obtain ⟨_, numbers⟩ := inverseSteps_computes positive nonempty size
  obtain ⟨value, lengths⟩ := inverse_computes positive nonempty size
  obtain ⟨found, missing⟩ := @inverse_spec w p.length (number p) (number a) odd large fits below
  obtain ⟨_, pair⟩ := @inverseRun w p.length (number p) (number a) odd large fits below
    (2 * p.length * w)
  rw [Library.BinaryGcd.run_eq odd (product_lt_two_pow (Nat.lt_trans below fits) fits),
    Prod.mk.injEq, ← numbers] at pair
  refine ⟨pair.1, ?_, ?_⟩
  · by_cases coprime : Nat.gcd (number a) (number p) = 1
    · obtain ⟨out, given, _⟩ := found coprime
      rw [← value] at given
      obtain ⟨words, given, _⟩ := Option.map_eq_some_iff.mp given
      rw [given]
      exact iff_of_true rfl coprime
    · rw [missing coprime, Option.map_eq_none_iff] at value
      rw [value]
      exact iff_of_false nofun coprime
  · intro out given
    have given' : Mp.inverse w p.length (number a) (number p) = some (number out) := by
      rw [← value, given]
      rfl
    obtain ⟨less, same⟩ := inverse_some odd large fits below given'
    exact ⟨lengths out given, less, by rwa [Nat.mul_comm]⟩

theorem gcd_divides (positive : 0 < w) (size : a.length = b.length) (nonzero : number a ≠ 0) :
    Divides a b := by
  have second := number_span b
  rw [← size] at second
  obtain ⟨_, numbers⟩ := gcdReduced_computes positive size
  obtain ⟨length, value⟩ := gcd_computes positive size
  have reduced := gcdReduced_reduced (number_span a) second (Nat.pos_of_ne_zero nonzero)
  rw [← numbers] at reduced
  refine ⟨reduced.done, length, ?_⟩
  rw [value, gcd_eq (number_span a) second (Nat.pos_of_ne_zero nonzero)]

/-- Inverses and common divisors of arrays of any length. -/
theorem euclid_correct (positive : 0 < w) :
    (∀ a p : List (BitVec w), a.length = p.length → number p % 2 = 1 → 1 < number p →
        number a < number p → Inverts a p) ∧
      ∀ a b : List (BitVec w), a.length = b.length → number a ≠ 0 → number b ≠ 0 → Divides a b :=
  ⟨fun _ _ size odd large below => inverse_inverts positive size odd large below,
    fun _ _ size nonzero _ => gcd_divides positive size nonzero⟩

theorem euclid_correct_byte :
    let a : List (BitVec 8) := [12, 1]
    Inverts a [1, 4] ∧ Divides a [18, 0] ∧ gcd a [18, 0] = [2, 0] :=
  ⟨(euclid_correct (by decide)).1 _ _ rfl (by decide) (by decide) (by decide),
    (euclid_correct (by decide)).2 _ _ rfl (by decide) (by decide), by decide +kernel⟩

end TinyCrypto.Mp.Limbs
