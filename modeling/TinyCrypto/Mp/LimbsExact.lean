import TinyCrypto.Mp.Limbs
import TinyCrypto.Mp.Prime

/-! # Limbs are exact

Each function on words computes its function on numbers, and no double word of a product
overflows.
-/

namespace TinyCrypto.Mp.Limbs

open Library.Words

variable {w : Nat}

theorem mask_eq (pos : 0 < w) (c : Bool) :
    (0 - (BitVec.ofBool c).setWidth w : BitVec w) = if c then BitVec.allOnes w else 0 := by
  cases c with
  | false => simp
  | true =>
    have large : 1 < 2 ^ w := Nat.one_lt_two_pow (by omega)
    refine BitVec.eq_of_toNat_eq ?_
    simp [Nat.mod_eq_of_lt large, Nat.mod_eq_of_lt (Nat.sub_lt (Nat.two_pow_pos w) Nat.one_pos)]

variable {a b : List (BitVec w)}

theorem select_eq (pos : 0 < w) (size : a.length = b.length)
    (c : Bool) : select a b (0 - (BitVec.ofBool c).setWidth w) = if c then a else b := by
  rw [mask_eq pos, select]
  induction a generalizing b with
  | nil =>
    cases b with
    | nil => cases c <;> rfl
    | cons y b => cases size
  | cons x a ih =>
    cases b with
    | nil => cases size
    | cons y b =>
      rw [List.zipWith_cons_cons, ih (Nat.succ.inj size)]
      cases c <;> simp

theorem subtract_word (pos : 0 < w) (a b : BitVec w) {borrow : BitVec (2 * w)}
    (small : borrow.toNat ≤ 1) :
    let value := a.setWidth (2 * w) - b.setWidth (2 * w) - borrow
    (value.setWidth w).toNat + b.toNat + borrow.toNat =
        a.toNat + 2 ^ w * (value >>> w &&& 1).toNat ∧
      (value >>> w &&& 1).toNat ≤ 1 := by
  intro value
  have word : 2 ≤ 2 ^ w := Nat.le_self_pow (by omega) 2
  have square : 2 ^ (2 * w) = 2 ^ w * 2 ^ w := by rw [Nat.two_mul, Nat.pow_add]
  have room : 2 ^ w * 2 ≤ 2 ^ w * 2 ^ w := Nat.mul_le_mul_left _ word
  have a_lt := a.isLt
  have b_lt := b.isLt
  have value_lt := value.isLt
  have wide : ∀ x : BitVec w, (x.setWidth (2 * w)).toNat = x.toNat := by
    intro x
    have := x.isLt
    rw [BitVec.toNat_setWidth, Nat.mod_eq_of_lt (by omega)]
  have whole : (value.toNat + (b.toNat + borrow.toNat)) % 2 ^ (2 * w) = a.toNat := by
    have sum : value + (b.setWidth (2 * w) + borrow) = a.setWidth (2 * w) := by
      simp only [value, BitVec.sub_sub]
      exact BitVec.sub_add_cancel _ _
    rw [← wide a, ← sum, BitVec.toNat_add, BitVec.toNat_add, wide, Nat.add_mod_mod]
  have high : (value >>> w &&& 1).toNat = value.toNat / 2 ^ w % 2 := by
    rw [BitVec.toNat_and, BitVec.toNat_ushiftRight, Nat.shiftRight_eq_div_pow]
    have one : (1 : BitVec (2 * w)).toNat = 1 := by simp; omega
    rw [one, Nat.and_one_is_mod]
  rw [high, BitVec.toNat_setWidth]
  refine ⟨?_, by omega⟩
  have parts := Nat.div_add_mod (value.toNat + (b.toNat + borrow.toNat)) (2 ^ (2 * w))
  have turns : (value.toNat + (b.toNat + borrow.toNat)) / 2 ^ (2 * w) < 2 :=
    Nat.div_lt_of_lt_mul (by omega)
  rw [whole] at parts
  rcases Nat.le_one_iff_eq_zero_or_eq_one.mp (Nat.le_of_lt_succ turns) with none | once
  · rw [none] at parts
    rw [Nat.mod_eq_of_lt (by omega), Nat.div_eq_of_lt (by omega)]
    omega
  · -- The difference wraps around, so that its high word is all ones.
    rw [once] at parts
    have low : 2 ^ w + a.toNat - (b.toNat + borrow.toNat) < 2 ^ w := by omega
    have exact : value.toNat = 2 ^ w * (2 ^ w - 1) + (2 ^ w + a.toNat - (b.toNat + borrow.toNat)) := by
      have top : 2 ^ w * (2 ^ w - 1) + 2 ^ w = 2 ^ (2 * w) := by
        rw [← Nat.mul_succ, square, Nat.succ_eq_add_one, Nat.sub_add_cancel (by omega)]
      omega
    have even : 2 ∣ 2 ^ w := dvd_pow_self 2 (by omega)
    rw [exact, Nat.mul_add_mod, Nat.mul_add_div (by omega), Nat.mod_eq_of_lt low,
      Nat.div_eq_of_lt low]
    have odd : (2 ^ w - 1 + 0) % 2 = 1 := by omega
    rw [odd]
    omega

theorem subtractLoop_spec (pos : 0 < w) {a b : List (BitVec w)} (size : a.length = b.length)
    {borrow : BitVec (2 * w)} (small : borrow.toNat ≤ 1) :
    (subtractLoop a b borrow).1.length = a.length ∧ (subtractLoop a b borrow).2.toNat ≤ 1 ∧
      number (subtractLoop a b borrow).1 + number b + borrow.toNat =
        number a + 2 ^ (w * a.length) * (subtractLoop a b borrow).2.toNat := by
  induction a generalizing b borrow with
  | nil =>
    cases b with
    | nil => simpa [subtractLoop] using small
    | cons y b => cases size
  | cons x a ih =>
    cases b with
    | nil => cases size
    | cons y b =>
      obtain ⟨word, next⟩ := subtract_word pos x y small
      obtain ⟨length, last, rest⟩ := ih (Nat.succ.inj size) next
      simp only [subtractLoop, number_cons, List.length_cons]
      refine ⟨congrArg (· + 1) length, last, ?_⟩
      rw [Nat.mul_succ, Nat.pow_add]
      linear_combination word + (2 : Nat) ^ w * rest

theorem zero_iff (x : BitVec w) : x = 0 ↔ x.toNat = 0 := by
  rw [← BitVec.toNat_inj]
  simp

theorem number_span (a : List (BitVec w)) : number a < span w a.length := number_lt a

theorem subtract_spec (pos : 0 < w) {a b : List (BitVec w)} (size : a.length = b.length) :
    (subtract a b).1.length = a.length ∧
      number (subtract a b).1 = (Mp.subtract w a.length (number a) (number b)).1 ∧
      ((subtract a b).2 = 0 ↔ (Mp.subtract w a.length (number a) (number b)).2 = false) := by
  obtain ⟨length, last, total⟩ := @subtractLoop_spec w pos a b size 0 (by simp)
  have a_lt := number_span a
  have b_lt := number_span b
  have low := number_span (subtractLoop a b 0).1
  rw [length] at low
  rw [← size] at b_lt
  rw [(zero_iff (0 : BitVec (2 * w))).mp rfl, Nat.add_zero] at total
  have bit : (subtract a b).2.toNat = (subtractLoop a b 0).2.toNat := by
    have word : 1 < 2 ^ w := Nat.one_lt_two_pow (by omega)
    rw [subtract, BitVec.toNat_setWidth, Nat.mod_eq_of_lt (by omega)]
  rw [zero_iff, bit]
  refine ⟨length, ?_⟩
  change number (subtractLoop a b 0).1 = _ ∧ _
  rw [span] at *
  generalize (subtractLoop a b 0).2.toNat = borrow at *
  have cases : borrow = 0 ∨ borrow = 1 := by omega
  by_cases less : number a < number b
  · rw [subtract_of_lt less (Nat.le_of_lt b_lt), span]
    rcases cases with rfl | rfl
    · omega
    · exact ⟨by omega, by simp⟩
  · rw [subtract_of_le (Nat.not_lt.mp less) a_lt]
    rcases cases with rfl | rfl
    · exact ⟨by omega, by simp⟩
    · omega

theorem reduce_spec (pos : 0 < w) {low p : List (BitVec w)} (size : low.length = p.length)
    (high : BitVec w) : (reduce low high p).length = low.length ∧
      number (reduce low high p) = Mp.reduce w low.length (number low) high.toNat (number p) := by
  obtain ⟨length, difference, borrow⟩ := subtract_spec pos size
  rw [reduce, Mp.reduce]
  dsimp only
  rw [select_eq pos length]
  generalize (subtract low p).2 = out at *
  generalize (Mp.subtract w low.length (number low) (number p)).2 = out' at *
  have same : (decide (high ≠ 0) || decide (out = 0)) = (decide (high.toNat ≠ 0) || !out') := by
    rw [Bool.eq_iff_iff]
    simp only [Bool.or_eq_true, decide_eq_true_eq, Bool.not_eq_true', borrow, Ne, zero_iff high]
  rw [same]
  split
  · exact ⟨length, difference⟩
  · exact ⟨rfl, rfl⟩

theorem wide_toNat (x : BitVec w) : (x.setWidth (2 * w)).toNat = x.toNat := by
  have low := x.isLt
  have more : 2 ^ w ≤ 2 ^ (2 * w) := Nat.pow_le_pow_right (by omega) (by omega)
  rw [BitVec.toNat_setWidth, Nat.mod_eq_of_lt (by omega)]

variable {c x y i v : Nat} {m : Modulus w}

theorem product_fits {o : Nat} (first : x < 2 ^ w) (second : y < 2 ^ w) (third : o < 2 ^ w)
    (fourth : c < 2 ^ w) : x * y + o + c < 2 ^ (2 * w) := by
  have square : 2 ^ (2 * w) = 2 ^ w * 2 ^ w := by rw [Nat.two_mul, Nat.pow_add]
  obtain ⟨top, whole⟩ : ∃ top, 2 ^ w = top + 1 := ⟨2 ^ w - 1, by omega⟩
  have row : x * y ≤ top * top := Nat.mul_le_mul (by omega) (by omega)
  have expand : 2 ^ w * 2 ^ w = top * top + top + top + 1 := by
    rw [whole]
    ring
  omega

theorem sum_fits (pos : 0 < w) (first : x < 2 ^ w) (second : y < 2 ^ w) (third : c < 2 ^ w) :
    x + y + c < 2 ^ (2 * w) := by
  have product := product_fits (Nat.one_lt_two_pow (by omega)) first second third
  rwa [Nat.one_mul] at product

theorem addLoop_carried (pos : 0 < w) {a b : List (BitVec w)} (size : a.length = b.length)
    {carry : BitVec (2 * w)} (small : carry.toNat < 2 ^ w) :
    Carried (addLoop a b carry) a.length (carry.toNat + (number a + number b)) := by
  induction a generalizing b carry with
  | nil =>
    cases b with
    | nil => exact ⟨rfl, by simp [addLoop], small, nofun⟩
    | cons y b => cases size
  | cons x a ih =>
    cases b with
    | nil => cases size
    | cons y b =>
      have fits := sum_fits pos small x.isLt y.isLt
      rw [Nat.add_assoc] at fits
      have exact : (carry + (x.setWidth (2 * w) + y.setWidth (2 * w))).toNat =
          (carry.toNat + (x.toNat + y.toNat)) % 2 ^ (2 * w) := by
        simp only [BitVec.toNat_add, wide_toNat, Nat.add_mod_mod]
      have step := Carried.step exact fits fun low => ih (Nat.succ.inj size) low
      have total : carry.toNat + (x.toNat + y.toNat) + 2 ^ w * (number a + number b) =
          carry.toNat + (number (x :: a) + number (y :: b)) := by
        rw [number_cons, number_cons]
        ring
      rw [total] at step
      exact step

theorem multiplyAdd_carried (factor : BitVec w) {b out : List (BitVec w)}
    (size : b.length = out.length) {carry : BitVec (2 * w)} (small : carry.toNat < 2 ^ w) :
    Carried (multiplyAdd factor b out carry) b.length
      (carry.toNat + (factor.toNat * number b + number out)) := by
  induction b generalizing out carry with
  | nil =>
    cases out with
    | nil => exact ⟨rfl, by simp [multiplyAdd], small, nofun⟩
    | cons o out => cases size
  | cons x b ih =>
    cases out with
    | nil => cases size
    | cons o out =>
      have fits := product_fits factor.isLt x.isLt o.isLt small
      have exact : (factor.setWidth (2 * w) * x.setWidth (2 * w) + o.setWidth (2 * w) +
          carry).toNat = (factor.toNat * x.toNat + o.toNat + carry.toNat) % 2 ^ (2 * w) := by
        simp only [BitVec.toNat_add, BitVec.toNat_mul, wide_toNat, Nat.mod_add_mod]
      have step := Carried.step exact fits fun low => ih (Nat.succ.inj size) low
      have total : factor.toNat * x.toNat + o.toNat + carry.toNat +
          2 ^ w * (factor.toNat * number b + number out) =
            carry.toNat + (factor.toNat * number (x :: b) + number (o :: out)) := by
        rw [number_cons, number_cons]
        ring
      rw [total] at step
      exact step

theorem propagate_carried (pos : 0 < w) {out : List (BitVec w)} {carry : BitVec (2 * w)}
    (small : carry.toNat < 2 ^ w) :
    Carried (propagate out carry) out.length (carry.toNat + number out) := by
  induction out generalizing carry with
  | nil => exact ⟨rfl, by simp [propagate], small, nofun⟩
  | cons o out ih =>
    have fits := sum_fits pos small o.isLt (Nat.two_pow_pos w)
    rw [Nat.add_zero] at fits
    have exact : (carry + o.setWidth (2 * w)).toNat = (carry.toNat + o.toNat) % 2 ^ (2 * w) := by
      rw [BitVec.toNat_add, wide_toNat]
    have step := Carried.step exact fits fun low => ih low
    have total : carry.toNat + o.toNat + 2 ^ w * number out = carry.toNat + number (o :: out) := by
      rw [number_cons, Nat.add_assoc]
    rw [total] at step
    exact step

theorem addMod_spec (pos : 0 < w) {a b p : List (BitVec w)} (size : a.length = b.length)
    (size' : a.length = p.length) : (addMod a b p).length = a.length ∧
      number (addMod a b p) = Mp.addMod w a.length (number a) (number b) (number p) := by
  have word : 0 < 2 ^ w := Nat.two_pow_pos w
  obtain ⟨length, value, carry, _⟩ :=
    @addLoop_carried w pos a b size 0 (by rw [(zero_iff (0 : BitVec (2 * w))).mp rfl]; exact word)
  rw [(zero_iff (0 : BitVec (2 * w))).mp rfl, Nat.zero_add] at value
  have low := number_lt (addLoop a b 0).words
  rw [length] at low
  have high : ((addLoop a b 0).carry.setWidth w).toNat = (addLoop a b 0).carry.toNat := by
    rw [BitVec.toNat_setWidth, Nat.mod_eq_of_lt carry]
  obtain ⟨size'', reduced⟩ := reduce_spec pos (length.trans size')
    ((addLoop a b 0).carry.setWidth w)
  refine ⟨size''.trans length, ?_⟩
  change number (reduce (addLoop a b 0).words ((addLoop a b 0).carry.setWidth w) p) = _
  rw [reduced, high, length, Mp.addMod, ← value, span, Nat.add_mul_mod_self_left,
    Nat.mod_eq_of_lt low, Nat.add_mul_div_left _ _ (Nat.two_pow_pos _), Nat.div_eq_of_lt low,
    Nat.zero_add]

theorem written_length {t words : List (BitVec w)} (inside : i + words.length ≤ t.length) :
    (written t i words).length = t.length := by
  simp only [written, List.length_append, List.length_take, List.length_drop]
  omega

theorem number_written {t words : List (BitVec w)} {i : Nat} (inside : i + words.length ≤ t.length) :
    number (written t i words) = number (t.take i) + 2 ^ (w * i) * number words +
      2 ^ (w * (i + words.length)) * number (t.drop (i + words.length)) := by
  have low : (t.take i).length = i := by
    rw [List.length_take]
    omega
  rw [written, number_append, number_append, List.length_append, low]

theorem take_length {t : List (BitVec w)} {n : Nat} (inside : i + n ≤ t.length) :
    ((t.drop i).take n).length = n := by
  rw [List.length_take, List.length_drop]
  omega

theorem zero_carry : (0 : BitVec (2 * w)).toNat = 0 := (zero_iff _).mp rfl

theorem zero_carry_lt : (0 : BitVec (2 * w)).toNat < 2 ^ w := by
  rw [zero_carry]
  exact Nat.two_pow_pos w

/-- The invariant of `tc_mp_multiply` after `count` rows. -/
structure Multiplied (a b : List (BitVec w)) (count : Nat) (out : Product w) : Prop where
  length : out.words.length = 2 * a.length
  value : number out.words = number (a.take count) * number b
  fits : ∀ sum ∈ out.sums, sum < 2 ^ (2 * w)

theorem take_succ_number (a : List (BitVec w)) (inside : i < a.length) :
    number (a.take (i + 1)) = number (a.take i) + 2 ^ (w * i) * (a.getD i 0).toNat := by
  have low : (a.take i).length = i := by
    rw [List.length_take]
    omega
  rw [List.take_add_one, number_append, low, List.getElem?_eq_getElem inside,
    List.getD_eq_getElem?_getD, List.getElem?_eq_getElem inside]
  simp

theorem multiplyPass_multiplied {out : Product w}
    (size : a.length = b.length) (inside : i < a.length) (multiplied : Multiplied a b i out) :
    Multiplied a b (i + 1) (multiplyPass a b out i) := by
  obtain ⟨length, value, fits⟩ := multiplied
  have row : ((out.words.drop i).take b.length).length = b.length := take_length (by omega)
  have carried := multiplyAdd_carried (a.getD i 0) row.symm zero_carry_lt
  rw [multiplyPass]
  generalize multiplyAdd (a.getD i 0) b ((out.words.drop i).take b.length) 0 = inner at *
  obtain ⟨count, total, carry, below⟩ := carried
  rw [zero_carry, Nat.zero_add] at total
  have last : number [inner.carry.setWidth w] = inner.carry.toNat := by
    rw [number_cons, number_nil, Nat.mul_zero, Nat.add_zero, BitVec.toNat_setWidth,
      Nat.mod_eq_of_lt carry]
  have wrote : (inner.words ++ [inner.carry.setWidth w]).length = b.length + 1 := by
    rw [List.length_append, count, List.length_singleton]
  have small : number out.words < 2 ^ (w * (i + b.length)) := by
    have low := number_lt (a.take i)
    rw [List.length_take, Nat.min_eq_left (Nat.le_of_lt inside)] at low
    rw [value, Nat.mul_add, Nat.pow_add]
    exact Nat.mul_lt_mul'' low (number_lt b)
  have smaller : number out.words < 2 ^ (w * (i + (b.length + 1))) :=
    Nat.lt_of_lt_of_le small (Nat.pow_le_pow_right (by omega) (Nat.mul_le_mul_left _ (by omega)))
  have around := number_around out.words (show i + b.length ≤ out.words.length by omega)
  rw [number_drop_zero (by omega) small, Nat.mul_zero, Nat.add_zero] at around
  refine ⟨by rw [written_length (by omega), length], ?_, ?_⟩
  · rw [number_written (by omega), wrote, number_drop_zero (by omega) smaller, number_append, last,
      count, take_succ_number a inside]
    rw [value] at around
    linear_combination (2 : Nat) ^ (w * i) * total - around
  · intro sum member
    rcases List.mem_append.mp member with earlier | later
    · exact fits sum earlier
    · exact below sum later

theorem multiply_multiplied (size : a.length = b.length) :
    Multiplied a b a.length (multiply a b) := by
  have rows : ∀ count ≤ a.length, Multiplied a b count
      ((List.range count).foldl (multiplyPass a b) ⟨List.replicate (2 * a.length) 0, []⟩) := by
    intro count le
    induction count with
    | zero =>
      refine ⟨List.length_replicate, ?_, nofun⟩
      rw [List.take_zero, number_nil, Nat.zero_mul]
      exact number_replicate_zero _
    | succ count ih =>
      rw [List.range_succ, List.foldl_append, List.foldl_cons, List.foldl_nil]
      exact multiplyPass_multiplied size (by omega) (ih (by omega))
  exact rows a.length le_rfl

def Modulus.toModulus (m : Modulus w) : Mp.Modulus := ⟨number m.p, m.p.length, m.n0.toNat⟩

/-- The array of `tc_mp_montgomery` holds a number in all but its last word. -/
structure Holds (m : Modulus w) (t : Product w) (v : Nat) : Prop where
  length : t.words.length = 2 * m.p.length + 2
  value : number t.words = v
  small : v < 2 ^ (w * (2 * m.p.length + 1))
  fits : ∀ sum ∈ t.sums, sum < 2 ^ (2 * w)

theorem montgomeryPass_holds (pos : 0 < w) {t : Product w} (inside : i < m.p.length)
    (holds : Holds m t v) :
    Holds m (montgomeryPass m t i) (Mp.montgomeryPass w m.toModulus v i) := by
  obtain ⟨length, rfl, small, fits⟩ := holds
  have factor : (t.words.getD i 0 * m.n0).toNat =
      number t.words / 2 ^ (w * i) % 2 ^ w * m.n0.toNat % 2 ^ w := by
    rw [BitVec.toNat_mul, getD_toNat _ (by omega)]
  have row : ((t.words.drop i).take m.p.length).length = m.p.length := take_length (by omega)
  have first := multiplyAdd_carried (t.words.getD i 0 * m.n0) row.symm zero_carry_lt
  have width : 2 * m.p.length + 1 - (i + m.p.length) = m.p.length + 1 - i := by omega
  have rest : ((t.words.drop (i + m.p.length)).take (m.p.length + 1 - i)).length =
      m.p.length + 1 - i := take_length (by omega)
  simp only [montgomeryPass, width]
  generalize multiplyAdd (t.words.getD i 0 * m.n0) m.p ((t.words.drop i).take m.p.length) 0 =
    inner at *
  obtain ⟨count, total, carry, below⟩ := first
  have second := @propagate_carried w pos
    ((t.words.drop (i + m.p.length)).take (m.p.length + 1 - i)) _ carry
  generalize propagate ((t.words.drop (i + m.p.length)).take (m.p.length + 1 - i)) inner.carry =
    upper at *
  obtain ⟨count', total', _, below'⟩ := second
  rw [rest] at count' total'
  rw [zero_carry, Nat.zero_add, factor] at total
  have wrote : (inner.words ++ upper.words).length = 2 * m.p.length + 1 - i := by
    rw [List.length_append, count, count']
    omega
  have top : i + (2 * m.p.length + 1 - i) = 2 * m.p.length + 1 := by omega
  have new := @number_written w t.words (inner.words ++ upper.words) i (by omega)
  rw [wrote, top, number_drop_zero (by omega) small, Nat.mul_zero, Nat.add_zero, number_append,
    count] at new
  have old := @number_around w t.words i (2 * m.p.length + 1 - i) (by omega)
  have middle := @number_split w ((t.words.drop i).take (2 * m.p.length + 1 - i)) m.p.length
    (by rw [take_length (by omega)]; omega)
  have width' : 2 * m.p.length + 1 - i - m.p.length = m.p.length + 1 - i := by omega
  rw [List.take_take, Nat.min_eq_left (by omega), List.drop_take, List.drop_drop, width'] at middle
  rw [top, number_drop_zero (by omega) small, Nat.mul_zero, Nat.add_zero, middle] at old
  have bound : number (written t.words i (inner.words ++ upper.words)) <
      2 ^ (w * (2 * m.p.length + 1)) := by
    have low := number_lt (t.words.take i ++ (inner.words ++ upper.words))
    rw [List.length_append, wrote, List.length_take, Nat.min_eq_left (by omega), top,
      number_append, List.length_take, Nat.min_eq_left (by omega), number_append, count] at low
    rwa [new]
  have spread : 2 ^ (w * i) * (2 ^ (w * m.p.length) * 2 ^ (w * (m.p.length + 1 - i))) =
      2 ^ (w * (2 * m.p.length + 1)) := by
    rw [← Nat.pow_add, ← Nat.pow_add, ← Nat.mul_add, ← Nat.mul_add]
    congr 2
    omega
  refine ⟨by rw [written_length (by omega), length], ?_, ?_, ?_⟩
  · have whole : number t.words + number t.words / 2 ^ (w * i) % 2 ^ w * m.n0.toNat % 2 ^ w *
        number m.p * 2 ^ (w * i) = number (written t.words i (inner.words ++ upper.words)) +
          2 ^ (w * (2 * m.p.length + 1)) * upper.carry.toNat := by
      rw [new, ← spread]
      generalize number t.words / 2 ^ (w * i) % 2 ^ w * m.n0.toNat % 2 ^ w = f at total
      rw [old]
      symm
      linear_combination (2 : Nat) ^ (w * i) * total +
        (2 : Nat) ^ (w * i) * 2 ^ (w * m.p.length) * total'
    rw [Mp.montgomeryPass]
    dsimp only [Modulus.toModulus]
    rw [whole, Nat.add_mul_mod_self_left, Nat.mod_eq_of_lt bound]
  · exact Nat.mod_lt _ (Nat.two_pow_pos _)
  · intro sum member
    rcases List.mem_append.mp member with earlier | later
    · rcases List.mem_append.mp earlier with earlier | inner
      · exact fits sum earlier
      · exact below sum inner
    · exact below' sum later

theorem montgomeryFold_holds (pos : 0 < w) {t : Product w} (holds : Holds m t v) :
    Holds m ((List.range m.p.length).foldl (montgomeryPass m) t)
      ((List.range m.p.length).foldl (Mp.montgomeryPass w m.toModulus) v) := by
  have passes : ∀ count ≤ m.p.length, Holds m ((List.range count).foldl (montgomeryPass m) t)
      ((List.range count).foldl (Mp.montgomeryPass w m.toModulus) v) := by
    intro count le
    induction count with
    | zero => exact holds
    | succ count ih =>
      simp only [List.range_succ, List.foldl_append, List.foldl_cons, List.foldl_nil]
      exact montgomeryPass_holds pos le (ih (by omega))
  exact passes _ le_rfl

/-- What `tc_mp_montgomery` writes, and that its double words hold what they were to hold. -/
structure Computes (out : Product w) (count v : Nat) : Prop where
  length : out.words.length = count
  value : number out.words = v
  fits : ∀ sum ∈ out.sums, sum < 2 ^ (2 * w)

theorem montgomery_computes (pos : 0 < w) {m : Modulus w} {a b : List (BitVec w)}
    (first : a.length = m.p.length) (second : b.length = m.p.length) :
    Computes (montgomery m a b) m.p.length (Mp.montgomery w m.toModulus (number a) (number b)) := by
  obtain ⟨length, value, fits⟩ := multiply_multiplied (first.trans second.symm)
  rw [List.take_length] at value
  have start : Holds m ⟨(multiply a b).words ++ [0, 0], (multiply a b).sums⟩
      (number a * number b) := by
    refine ⟨by rw [List.length_append, length, first]; rfl, ?_, ?_, fits⟩
    · rw [number_append, value]
      simp
    · have low := Nat.mul_lt_mul'' (number_lt a) (number_lt b)
      rw [first, second, ← Nat.pow_add] at low
      have wider : w * m.p.length + w * m.p.length ≤ w * (2 * m.p.length + 1) := by
        rw [← Nat.mul_add]
        exact Nat.mul_le_mul_left w (by omega)
      exact Nat.lt_of_lt_of_le low (Nat.pow_le_pow_right (by omega) wider)
  obtain ⟨size, same, small, below⟩ := montgomeryFold_holds pos start
  rw [montgomery, Mp.montgomery]
  simp only [Modulus.toModulus] at same small ⊢
  generalize (List.range m.p.length).foldl (montgomeryPass m)
    ⟨(multiply a b).words ++ [0, 0], (multiply a b).sums⟩ = t at *
  generalize (List.range m.p.length).foldl (Mp.montgomeryPass w
    ⟨number m.p, m.p.length, m.n0.toNat⟩) (number a * number b) = v at *
  have low : ((t.words.drop m.p.length).take m.p.length).length = m.p.length :=
    take_length (by omega)
  have number_low : number ((t.words.drop m.p.length).take m.p.length) =
      v / span w m.p.length % span w m.p.length := by
    rw [number_take _ (by rw [List.length_drop]; omega), number_drop _ (by omega), same, span]
  have high : (t.words.getD (2 * m.p.length) 0).toNat = v / 2 ^ (w * (2 * m.p.length)) := by
    rw [getD_toNat _ (by omega), same]
    rw [Nat.mul_succ, Nat.pow_add] at small
    exact Nat.mod_eq_of_lt (Nat.div_lt_of_lt_mul small)
  obtain ⟨count, reduced⟩ := reduce_spec pos low (t.words.getD (2 * m.p.length) 0)
  exact ⟨count.trans low, by rw [reduced, low, number_low, high], below⟩

theorem factorLoop_toNat (low : BitVec w) (passes bits : Nat) (inverse : BitVec w) :
    (factorLoop low passes bits inverse).toNat =
      Mp.factorLoop w low.toNat passes bits inverse.toNat := by
  induction passes generalizing bits inverse with
  | zero => rfl
  | succ passes ih =>
    rw [factorLoop, Mp.factorLoop]
    split
    · rw [ih]
      congr 1
      rw [BitVec.toNat_mul, BitVec.toNat_sub, BitVec.toNat_mul]
      have two : (2 : BitVec w).toNat = 2 % 2 ^ w := BitVec.toNat_ofNat 2 w
      rw [two, Nat.add_mod_mod, Nat.add_comm 2]
    · rfl

theorem montgomeryFactor_toNat (pos : 0 < w) (low : BitVec w) :
    (montgomeryFactor low).toNat = Mp.montgomeryFactor w low.toNat := by
  have one : (1 : BitVec w).toNat = 1 := by
    have word : 1 < 2 ^ w := Nat.one_lt_two_pow (by omega)
    exact (BitVec.toNat_ofNat 1 w).trans (Nat.mod_eq_of_lt word)
  rw [montgomeryFactor, Mp.montgomeryFactor, BitVec.toNat_sub, factorLoop_toNat, one,
    (zero_iff (0 : BitVec w)).mp rfl, Nat.add_zero]

theorem modulusOf_toModulus (pos : 0 < w) {p : List (BitVec w)} (nonempty : p.length ≠ 0) :
    (modulusOf p).toModulus = Mp.modulusOf w (number p) p.length := by
  have low := getD_toNat p (Nat.pos_of_ne_zero nonempty)
  rw [Nat.mul_zero, Nat.pow_zero, Nat.div_one] at low
  rw [Modulus.toModulus, modulusOf, Mp.modulusOf]
  dsimp only
  rw [montgomeryFactor_toNat pos, low]

theorem one_spec (pos : 0 < w) {count : Nat} (nonempty : count ≠ 0) :
    (one count : List (BitVec w)).length = count ∧ number (one count : List (BitVec w)) = 1 := by
  cases count with
  | zero => exact absurd rfl nonempty
  | succ count =>
    have word : 1 < 2 ^ w := Nat.one_lt_two_pow (by omega)
    refine ⟨by simp [one], ?_⟩
    rw [one, List.replicate_succ, List.set_cons_zero, number_cons]
    have zeros : number (List.replicate count (0 : BitVec w)) = 0 := number_replicate_zero count
    rw [zeros, Nat.mul_zero, Nat.add_zero]
    exact (BitVec.toNat_ofNat 1 w).trans (Nat.mod_eq_of_lt word)

theorem montgomeryR2_spec (pos : 0 < w) {p : List (BitVec w)} (nonempty : p.length ≠ 0) :
    (montgomeryR2 p).length = p.length ∧
      number (montgomeryR2 p) = Mp.montgomeryR2 w p.length (number p) := by
  have doubled : ∀ count, ((fun out => addMod out out p)^[count] (one p.length)).length = p.length ∧
      number ((fun out => addMod out out p)^[count] (one p.length)) =
        (fun x => Mp.addMod w p.length x x (number p))^[count] 1 := by
    intro count
    induction count with
    | zero => exact one_spec pos nonempty
    | succ count ih =>
      obtain ⟨length, value⟩ := ih
      obtain ⟨length', value'⟩ := @addMod_spec w pos _ _ p rfl length
      rw [Function.iterate_succ_apply', Function.iterate_succ_apply', ← value]
      rw [length] at length' value'
      exact ⟨length', value'⟩
  exact doubled _

end TinyCrypto.Mp.Limbs
