import Mathlib.Data.Int.ModEq
import Mathlib.Data.Nat.Bitwise
import Mathlib.Data.ZMod.Basic
import Mathlib.Logic.Function.Iterate
import Mathlib.Tactic.IntervalCases
import Mathlib.Tactic.Linarith
import Mathlib.Tactic.LinearCombination
import Mathlib.Tactic.Ring
import Mathlib.Tactic.Zify
import TinyCrypto.Library.ByteCounter

/-! # Multi-word arithmetic

`mp_internal.h` and `mp_inverse_internal.h` over values: an array of `n` words of `w`
bits is the number it stands for, and what falls off its end is dropped. Loops over
bits and words stay as they are; a carry loop over one array is one operation on its
number.
-/

namespace TinyCrypto.Mp

/-- The numbers below which an array of `n` words stays. -/
def span (w n : Nat) : Nat := 2 ^ (w * n)

/-- The low `count` bits of a number, most significant first. -/
def bitsBe (count v : Nat) : List Bool := (List.range count).reverse.map v.testBit

section

variable (w n : Nat)

/-- `tc_mp_subtract`: the difference and the borrow. -/
def subtract (a b : Nat) : Nat × Bool := ((a + span w n - b) % span w n, a < b)

/-- `tc_mp_reduce`. -/
def reduce (low high p : Nat) : Nat :=
  let (difference, borrow) := subtract w n low p
  if high ≠ 0 || !borrow then difference else low

/-- `tc_mp_add_mod`. -/
def addMod (a b p : Nat) : Nat :=
  let sum := a + b
  reduce w n (sum % span w n) (sum / span w n) p

/-- `tc_mp_sub_mod`. -/
def subMod (a b p : Nat) : Nat :=
  let (difference, borrow) := subtract w n a b
  (difference + if borrow then p else 0) % span w n

/-- `tc_mp_half_mod`. -/
def halfMod (a p : Nat) : Nat := (a + if a % 2 = 1 then p else 0) / 2

/-- The loop of `tc_mp_montgomery_factor`. -/
def factorLoop (low : Nat) : (passes bits inverse : Nat) → Nat
  | 0, _, inverse => inverse
  | passes + 1, bits, inverse =>
    if bits < w then
      factorLoop low passes (bits * 2)
        (inverse * ((2 + (2 ^ w - low * inverse % 2 ^ w)) % 2 ^ w) % 2 ^ w)
    else inverse

/-- `tc_mp_montgomery_factor`. -/
def montgomeryFactor (low : Nat) : Nat := (2 ^ w - factorLoop w low w 1 1) % 2 ^ w

/-- `tc_mp_montgomery_r2`. -/
def montgomeryR2 (p : Nat) : Nat := (fun x => addMod w n x x p)^[n * 2 * w] 1

end

/-- `tc_mp_modulus`. -/
structure Modulus where
  p : Nat
  n : Nat
  n0 : Nat
  deriving DecidableEq

section

variable (w : Nat)

def modulusOf (p n : Nat) : Modulus := ⟨p, n, montgomeryFactor w (p % 2 ^ w)⟩

/-- One pass of the reduction in `tc_mp_montgomery`. The product has `2n + 1` words. -/
def montgomeryPass (m : Modulus) (t i : Nat) : Nat :=
  let factor := t / 2 ^ (w * i) % 2 ^ w * m.n0 % 2 ^ w
  (t + factor * m.p * 2 ^ (w * i)) % 2 ^ (w * (2 * m.n + 1))

/-- `tc_mp_montgomery`. -/
def montgomery (m : Modulus) (a b : Nat) : Nat :=
  let t := (List.range m.n).foldl (montgomeryPass w m) (a * b)
  reduce w m.n (t / span w m.n % span w m.n) (t / 2 ^ (w * (2 * m.n))) m.p

/-- One bit of `tc_mp_power_padded`. -/
def powerPass (m : Modulus) (base out : Nat) (bit : Bool) : Nat :=
  let squared := montgomery w m out out
  let multiplied := montgomery w m squared base
  if bit then multiplied else squared

/-- `tc_mp_power_padded`, for an exponent read as `width` bytes. -/
def powerPadded (m : Modulus) (base exponent width one : Nat) : Nat :=
  (bitsBe (8 * width) exponent).foldl (powerPass w m base) one

variable (n : Nat)

/-- One bit of `tc_mp_divide_words`. -/
def dividePass (p : Nat) (state : Nat × Nat) (bit : Bool) : Nat × Nat :=
  let shifted := 2 * state.2 + bit.toNat
  let low := shifted % span w n
  let (difference, borrow) := subtract w n low p
  let take := shifted / span w n ≠ 0 || !borrow
  (2 * state.1 + take.toNat, if take then difference else low)

/-- `tc_mp_divide_words`: the quotient and the remainder. -/
def divideWords (inputWords input p : Nat) : Nat × Nat :=
  (bitsBe (w * inputWords) input).foldl (dividePass w n p) (0, 0)

/-- `tc_mp_reduce_words`. -/
def reduceWords (inputWords input p : Nat) : Nat := (divideWords w n inputWords input p).2

/-- The state of `tc_mp_inverse`. -/
structure InverseState where
  u : Nat
  v : Nat
  r : Nat
  s : Nat
  deriving DecidableEq

/-- One step of `tc_mp_inverse`. -/
def inverseStep (p : Nat) (state : InverseState) : InverseState :=
  let borrow := (subtract w n state.u state.v).2
  let swap := state.u % 2 = 1 && (state.v % 2 = 0 || borrow)
  let u := if swap then state.v else state.u
  let v := if swap then state.u else state.v
  let r := if swap then state.s else state.r
  let s := if swap then state.r else state.s
  let difference := (subtract w n u v).1
  let coefficient := subMod w n r s p
  let odd := u % 2 = 1
  ⟨(if odd then difference else u) / 2, v, halfMod (if odd then coefficient else r) p, s⟩

/-- `tc_mp_inverse`. -/
def inverse (a p : Nat) : Option Nat :=
  let state := (inverseStep w n p)^[2 * n * w] ⟨a, p, 1, 0⟩
  if state.u ≠ 1 && state.v ≠ 1 then none
  else some (if state.u = 1 then state.r else state.s)

/-- The state of `tc_mp_gcd`. -/
structure GcdState where
  x : Nat
  y : Nat
  shift : Nat
  deriving DecidableEq

def gcdHalve (state : GcdState) : GcdState :=
  if state.x % 2 = 0 && state.y % 2 = 0 then ⟨state.x / 2, state.y / 2, state.shift + 1⟩ else state

/-- One step of the loop that keeps `x` odd. -/
def gcdStep (state : GcdState) : GcdState :=
  let odd := state.y % 2 = 1
  let below := (subtract w n state.y state.x).2
  let x := if odd && below then state.y else state.x
  let y := if odd && below then state.x else state.y
  let difference := (subtract w n y x).1
  ⟨x, (if odd then difference else y) / 2, state.shift⟩

/-- `tc_mp_gcd`. -/
def gcd (a b : Nat) : Nat :=
  let bits := n * w
  let state := gcdHalve^[bits] ⟨a, b, 0⟩
  let state := if state.x % 2 = 0 then ⟨state.y, state.x, state.shift⟩ else state
  let state := (gcdStep w n)^[2 * bits] state
  (List.range bits).foldl
    (fun x i => if i < state.shift then x * 2 % span w n else x) state.x

end

variable {w n p : Nat}

theorem span_pos : 0 < span w n := Nat.two_pow_pos _

theorem bitsBe_succ (count v : Nat) :
    bitsBe (count + 1) v = bitsBe count (v / 2) ++ [v.testBit 0] := by
  simp only [bitsBe, List.range_succ_eq_map, List.reverse_cons, List.map_append, List.map_reverse,
    List.map_map, List.map_cons, List.map_nil]
  congr 2
  refine List.map_congr_left fun i _ => ?_
  simp [Nat.testBit_succ]

theorem toNat_testBit_zero (v : Nat) : (v.testBit 0).toNat = v % 2 := by
  rw [Nat.testBit_zero]
  rcases Nat.mod_two_eq_zero_or_one v with even | odd
  · simp [even]
  · simp [odd]

variable {a b : Nat}

theorem subtract_of_le (le : b ≤ a) (small : a < span w n) : subtract w n a b = (a - b, false) := by
  have total : a + span w n - b = (a - b) + span w n := by omega
  rw [subtract, total, Nat.add_mod_right, Nat.mod_eq_of_lt (by omega)]
  simp [le]

theorem subtract_of_lt (lt : a < b) (small : b ≤ span w n) :
    subtract w n a b = (a + span w n - b, true) := by
  rw [subtract, Nat.mod_eq_of_lt (by omega)]
  simp [lt]

theorem subtract_borrow (a b : Nat) : (subtract w n a b).2 = decide (a < b) := rfl

theorem reduce_eq {low high : Nat} (small : low < span w n) (bound : p < span w n)
    (below : low + high * span w n < 2 * p) :
    reduce w n low high p = (low + high * span w n) % p := by
  have few : high < 2 := by
    by_contra more
    have := Nat.mul_le_mul_right (span w n) (Nat.not_lt.mp more)
    omega
  rw [reduce]
  interval_cases high
  · by_cases less : low < p
    · rw [subtract_of_lt less (Nat.le_of_lt bound)]
      simp [Nat.mod_eq_of_lt less]
    · rw [subtract_of_le (Nat.not_lt.mp less) small, Nat.mod_eq_sub_mod (by omega),
        Nat.mod_eq_of_lt (by omega)]
      simp
  · have less : low < p := by omega
    rw [subtract_of_lt less (Nat.le_of_lt bound), Nat.mod_eq_sub_mod (by omega),
      Nat.mod_eq_of_lt (by omega)]
    simp

theorem addMod_eq (bound : p < span w n) (first : a < p) (second : b < p) :
    addMod w n a b p = (a + b) % p := by
  have parts := Nat.mod_add_div (a + b) (span w n)
  rw [Nat.mul_comm] at parts
  rw [addMod, reduce_eq (Nat.mod_lt _ span_pos) bound (by omega), parts]

theorem subMod_eq (bound : p ≤ span w n) (first : a < p) (second : b < p) :
    subMod w n a b p = (a + p - b) % p := by
  rw [subMod]
  by_cases less : a < b
  · rw [subtract_of_lt less (by omega)]
    have total : a + span w n - b + p = (a + p - b) + span w n := by omega
    simp only [if_true]
    rw [total, Nat.add_mod_right, Nat.mod_eq_of_lt (by omega), Nat.mod_eq_of_lt (by omega)]
  · rw [subtract_of_le (Nat.not_lt.mp less) (by omega)]
    have total : a + p - b = (a - b) + p := by omega
    simp only [Bool.false_eq_true, if_false, Nat.add_zero]
    rw [total, Nat.add_mod_right, Nat.mod_eq_of_lt (by omega), Nat.mod_eq_of_lt (by omega)]

theorem halfMod_lt {a : Nat} (odd : p % 2 = 1) (small : a < p) : halfMod a p < p := by
  rw [halfMod]
  split <;> omega

theorem two_mul_halfMod {a : Nat} (odd : p % 2 = 1) : 2 * halfMod a p ≡ a [MOD p] := by
  rw [halfMod]
  split
  · have whole : 2 * ((a + p) / 2) = a + p := by omega
    rw [whole]
    exact Nat.add_modEq_right
  · have whole : 2 * ((a + 0) / 2) = a := by omega
    rw [whole]

theorem newton_dvd {low inverse : ℤ} {bits : Nat} (correct : 2 ^ bits ∣ low * inverse - 1) :
    2 ^ (bits * 2) ∣ low * (inverse * (2 - low * inverse)) - 1 := by
  obtain ⟨k, same⟩ := correct
  refine ⟨-(k * k), ?_⟩
  have product : low * inverse = 1 + 2 ^ bits * k := by omega
  have left : low * (inverse * (2 - low * inverse)) - 1 =
      (low * inverse) * (2 - low * inverse) - 1 := by ring
  rw [left, product, Nat.mul_two, pow_add]
  ring

theorem factorLoop_dvd {low passes bits inverse : Nat} (enough : w ≤ bits * 2 ^ passes)
    (correct : (2 : ℤ) ^ min bits w ∣ low * inverse - 1) :
    (2 : ℤ) ^ w ∣ low * (factorLoop w low passes bits inverse : Nat) - 1 := by
  induction passes generalizing bits inverse with
  | zero =>
    rw [Nat.pow_zero, Nat.mul_one] at enough
    rw [Nat.min_eq_right enough] at correct
    exact correct
  | succ passes ih =>
    rw [factorLoop]
    split
    · rename_i more
      refine ih (by rw [Nat.pow_succ'] at enough; rw [Nat.mul_assoc]; exact enough) ?_
      rw [Nat.min_eq_left (Nat.le_of_lt more)] at correct
      have doubled := newton_dvd correct
      have within : (2 : ℤ) ^ min (bits * 2) w ∣ 2 ^ w := pow_dvd_pow 2 (Nat.min_le_right ..)
      have fewer : (2 : ℤ) ^ min (bits * 2) w ∣ 2 ^ (bits * 2) := pow_dvd_pow 2 (Nat.min_le_left ..)
      have step : ((inverse * ((2 + (2 ^ w - low * inverse % 2 ^ w)) % 2 ^ w) % 2 ^ w : Nat) : ℤ) ≡
          inverse * (2 - low * inverse) [ZMOD 2 ^ w] := by
        have room : low * inverse % 2 ^ w ≤ 2 ^ w := Nat.le_of_lt (Nat.mod_lt _ (Nat.two_pow_pos w))
        push_cast [Nat.cast_sub room]
        refine (Int.mod_modEq _ _).trans (Int.ModEq.mul_left _ ((Int.mod_modEq _ _).trans ?_))
        refine Int.modEq_iff_dvd.mpr ?_
        have rest := (Int.mod_modEq ((low : ℤ) * inverse) (2 ^ w)).dvd
        obtain ⟨k, same⟩ := rest
        exact ⟨-k - 1, by linarith⟩
      have close := (step.dvd)
      obtain ⟨k, same⟩ := within.trans close
      obtain ⟨j, equal⟩ := fewer.trans doubled
      refine ⟨j - low * k, ?_⟩
      have value : ((inverse * ((2 + (2 ^ w - low * inverse % 2 ^ w)) % 2 ^ w) % 2 ^ w : Nat) : ℤ) =
          inverse * (2 - low * inverse) - 2 ^ min (bits * 2) w * k := by linarith
      rw [value]
      linear_combination equal
    · rename_i done
      rw [Nat.min_eq_right (Nat.not_lt.mp done)] at correct
      exact correct

theorem factorLoop_le {low passes bits inverse : Nat} (bound : inverse ≤ 2 ^ w) :
    factorLoop w low passes bits inverse ≤ 2 ^ w := by
  induction passes generalizing bits inverse with
  | zero => exact bound
  | succ passes ih =>
    rw [factorLoop]
    split
    · exact ih (Nat.le_of_lt (Nat.mod_lt _ (Nat.two_pow_pos w)))
    · exact bound

theorem montgomeryFactor_dvd {low : Nat} (odd : low % 2 = 1) :
    2 ^ w ∣ low * montgomeryFactor w low + 1 := by
  have start : (2 : ℤ) ^ min 1 w ∣ low * (1 : Nat) - 1 := by
    have even : (2 : ℤ) ∣ low * (1 : Nat) - 1 := by
      push_cast
      omega
    refine Dvd.dvd.trans (pow_dvd_pow 2 (Nat.min_le_left 1 w)) ?_
    simpa using even
  have passes : w ≤ 1 * 2 ^ w := by
    rw [Nat.one_mul]
    exact Nat.le_of_lt Nat.lt_two_pow_self
  have inverts := @factorLoop_dvd w low w 1 1 passes start
  have bound := @factorLoop_le w low w 1 1 (Nat.one_le_two_pow)
  rw [montgomeryFactor]
  generalize factorLoop w low w 1 1 = inverse at inverts bound
  have same : low * ((2 ^ w - inverse) % 2 ^ w) + 1 ≡ low * (2 ^ w - inverse) + 1 [MOD 2 ^ w] :=
    ((Nat.mod_modEq _ _).mul_left low).add_right 1
  refine (same.dvd_iff (dvd_refl _)).mpr ?_
  zify [bound]
  obtain ⟨k, equal⟩ := inverts
  exact ⟨low - k, by linear_combination -equal⟩

structure Passed (w : Nat) (m : Modulus) (start i t : Nat) : Prop where
  residue : t ≡ start [MOD m.p]
  cleared : 2 ^ (w * i) ∣ t
  bound : t + m.p ≤ start + m.p * 2 ^ (w * i)

/-- A modulus set up for odd `p`. -/
structure Ready (w : Nat) (m : Modulus) : Prop where
  odd : m.p % 2 = 1
  fits : m.p < span w m.n
  factor : 2 ^ w ∣ m.p * m.n0 + 1

variable {m : Modulus}

theorem Ready.word_pos (ready : Ready w m) : 0 < w := by
  apply Nat.pos_of_ne_zero
  rintro rfl
  have odd := ready.odd
  have fits := ready.fits
  simp only [span, Nat.zero_mul, Nat.pow_zero] at fits
  omega

theorem modulusOf_ready (pos : 0 < w) (odd : p % 2 = 1) (fits : p < span w n) :
    Ready w (modulusOf w p n) := by
  have even : 2 ∣ 2 ^ w := dvd_pow_self 2 (by omega)
  have low : p % 2 ^ w % 2 = 1 := by rw [Nat.mod_mod_of_dvd _ even, odd]
  refine ⟨odd, fits, ?_⟩
  have same : p * montgomeryFactor w (p % 2 ^ w) + 1 ≡
      p % 2 ^ w * montgomeryFactor w (p % 2 ^ w) + 1 [MOD 2 ^ w] :=
    ((Nat.mod_modEq p (2 ^ w)).symm.mul_right _).add_right 1
  exact (same.dvd_iff (dvd_refl _)).mpr (montgomeryFactor_dvd low)

theorem montgomeryPass_passed {start i t : Nat} (ready : Ready w m)
    (small : start < span w m.n * m.p) (inside : i < m.n) (passed : Passed w m start i t) :
    Passed w m start (i + 1) (montgomeryPass w m t i) := by
  have pos : 0 < m.p := by
    have := ready.odd
    omega
  generalize factor : t / 2 ^ (w * i) % 2 ^ w * m.n0 % 2 ^ w = f
  have few : f < 2 ^ w := by
    rw [← factor]
    exact Nat.mod_lt _ (Nat.two_pow_pos w)
  obtain ⟨k, whole⟩ := passed.cleared
  have power : 2 ^ (w * (i + 1)) = 2 ^ (w * i) * 2 ^ w := by rw [Nat.mul_succ, Nat.pow_add]
  have next : t + f * m.p * 2 ^ (w * i) + m.p ≤ start + m.p * 2 ^ (w * (i + 1)) := by
    have most : (f + 1) * (m.p * 2 ^ (w * i)) ≤ 2 ^ w * (m.p * 2 ^ (w * i)) :=
      Nat.mul_le_mul_right _ few
    have bound := passed.bound
    rw [power]
    nlinarith
  have limit : t + f * m.p * 2 ^ (w * i) < 2 ^ (w * (2 * m.n + 1)) := by
    have top : m.p * 2 ^ (w * (i + 1)) ≤ m.p * span w m.n :=
      Nat.mul_le_mul_left _ (Nat.pow_le_pow_right (by decide) (Nat.mul_le_mul_left w inside))
    have square : m.p * span w m.n < span w m.n * span w m.n :=
      Nat.mul_lt_mul_of_pos_right ready.fits span_pos
    have wide : 2 * (span w m.n * span w m.n) ≤ 2 ^ (w * (2 * m.n + 1)) := by
      have split : 2 ^ (w * (2 * m.n + 1)) = 2 ^ w * (span w m.n * span w m.n) := by
        rw [span, ← Nat.pow_add, ← Nat.pow_add]
        congr 1
        ring
      have two : 2 ^ 1 ≤ 2 ^ w := Nat.pow_le_pow_right (by decide) (ready.word_pos)
      rw [split]
      exact Nat.mul_le_mul_right _ two
    rw [Nat.mul_comm (span w m.n) m.p] at small
    omega
  rw [montgomeryPass]
  simp only [factor]
  rw [Nat.mod_eq_of_lt limit]
  refine ⟨?_, ?_, next⟩
  · have multiple : f * m.p * 2 ^ (w * i) ≡ 0 [MOD m.p] :=
      (Nat.modEq_zero_iff_dvd).mpr ⟨f * 2 ^ (w * i), by ring⟩
    exact (passed.residue.add multiple).trans (by rw [Nat.add_zero])
  · have quotient : t / 2 ^ (w * i) = k := by
      rw [whole, Nat.mul_div_cancel_left _ (Nat.two_pow_pos _)]
    have chosen : f ≡ k * m.n0 [MOD 2 ^ w] := by
      rw [← factor, quotient]
      exact (Nat.mod_modEq _ _).trans ((Nat.mod_modEq k (2 ^ w)).mul_right _)
    have sum : k + f * m.p ≡ k * (m.p * m.n0 + 1) [MOD 2 ^ w] := by
      refine ((chosen.mul_right m.p).add_left k).trans ?_
      rw [show k + k * m.n0 * m.p = k * (m.p * m.n0 + 1) by ring]
    have zero : 2 ^ w ∣ k + f * m.p :=
      (sum.dvd_iff (dvd_refl _)).mpr (Dvd.dvd.mul_left ready.factor k)
    rw [whole, power, show 2 ^ (w * i) * k + f * m.p * 2 ^ (w * i) = 2 ^ (w * i) * (k + f * m.p) by ring]
    exact Nat.mul_dvd_mul_left _ zero

theorem montgomery_passed {start : Nat} (ready : Ready w m) (small : start < span w m.n * m.p) :
    Passed w m start m.n ((List.range m.n).foldl (montgomeryPass w m) start) := by
  have rounds : ∀ count ≤ m.n,
      Passed w m start count ((List.range count).foldl (montgomeryPass w m) start) := by
    intro count le
    induction count with
    | zero => exact ⟨Nat.ModEq.refl _, by simp, by simp⟩
    | succ count ih =>
      rw [List.range_succ, List.foldl_append]
      exact montgomeryPass_passed ready small le (ih (by omega))
  exact rounds m.n (Nat.le_refl _)

theorem montgomery_spec (ready : Ready w m) (small : a * b < span w m.n * m.p) :
    montgomery w m a b < m.p ∧ montgomery w m a b * span w m.n ≡ a * b [MOD m.p] := by
  have pos : 0 < m.p := by
    have := ready.odd
    omega
  have passed := montgomery_passed ready small
  rw [montgomery]
  generalize (List.range m.n).foldl (montgomeryPass w m) (a * b) = t at passed
  obtain ⟨k, whole⟩ := passed.cleared
  have bound := passed.bound
  have below : k < 2 * m.p := by
    have : span w m.n * k + m.p ≤ a * b + m.p * span w m.n := by
      rw [whole] at bound
      exact bound
    by_contra more
    have := Nat.mul_le_mul_left (span w m.n) (Nat.not_lt.mp more)
    nlinarith
  have quotient : t / span w m.n = k := by
    rw [whole]
    exact Nat.mul_div_cancel_left _ span_pos
  have high : t / 2 ^ (w * (2 * m.n)) = k / span w m.n := by
    rw [← quotient, Nat.div_div_eq_div_mul, span, ← Nat.pow_add]
    congr 2
    ring
  have parts := Nat.mod_add_div k (span w m.n)
  rw [Nat.mul_comm] at parts
  simp only [quotient, high]
  rw [reduce_eq (Nat.mod_lt _ span_pos) ready.fits (by omega), parts]
  refine ⟨Nat.mod_lt _ pos, ?_⟩
  refine ((Nat.mod_modEq k m.p).mul_right _).trans ?_
  rw [Nat.mul_comm, show span w m.n * k = t from whole.symm]
  exact passed.residue

/-- `tc_mp_mod_u32_step`: the remainder and the quotient bit. -/
def modU32Step (divisor remainder : Nat) (bit : Bool) : Nat × Bool :=
  let shifted := (2 * remainder + bit.toNat) % 2 ^ 32
  let take := (shifted + 2 ^ 32 - divisor) % 2 ^ 32 / 2 ^ 31 = 0
  (if take then shifted - divisor else shifted, take)

/-- One bit of `tc_mp_divide_u32`. -/
def divideU32Pass (divisor : Nat) (state : Nat × Nat) (bit : Bool) : Nat × Nat :=
  let (remainder, take) := modU32Step divisor state.2 bit
  (2 * state.1 + take.toNat, remainder)

variable {divisor : Nat}

theorem modU32Step_eq {remainder : Nat} (small : divisor < 2 ^ 31) (below : remainder < divisor)
    (bit : Bool) : modU32Step divisor remainder bit =
      ((2 * remainder + bit.toNat) % divisor, decide (divisor ≤ 2 * remainder + bit.toNat)) := by
  have one : bit.toNat ≤ 1 := Bool.toNat_le bit
  have word : (2 * remainder + bit.toNat) % 2 ^ 32 = 2 * remainder + bit.toNat :=
    Nat.mod_eq_of_lt (by omega)
  have take : (2 * remainder + bit.toNat + 2 ^ 32 - divisor) % 2 ^ 32 / 2 ^ 31 = 0 ↔
      divisor ≤ 2 * remainder + bit.toNat := by omega
  rw [modU32Step, word]
  simp only [take]
  split
  · rename_i enough
    rw [Nat.mod_eq_sub_mod enough, Nat.mod_eq_of_lt (by omega)]
  · rename_i less
    rw [Nat.mod_eq_of_lt (Nat.not_le.mp less)]

theorem divideU32Pass_eq {v : Nat} (pos : 0 < divisor) (small : divisor < 2 ^ 31) (bit : Bool) :
    divideU32Pass divisor (v / divisor, v % divisor) bit =
      ((2 * v + bit.toNat) / divisor, (2 * v + bit.toNat) % divisor) := by
  have low : v % divisor < divisor := Nat.mod_lt _ pos
  have one : bit.toNat ≤ 1 := Bool.toNat_le bit
  have whole : 2 * v + bit.toNat =
      divisor * (2 * (v / divisor)) + (2 * (v % divisor) + bit.toNat) := by
    have := Nat.div_add_mod v divisor
    rw [Nat.mul_left_comm]
    omega
  rw [divideU32Pass, modU32Step_eq small low, whole, Nat.mul_add_div pos, Nat.mul_add_mod]
  simp only [Prod.mk.injEq, and_true]
  congr 1
  by_cases reaches : divisor ≤ 2 * (v % divisor) + bit.toNat
  · rw [decide_eq_true reaches, Bool.toNat_true]
    exact (Nat.div_eq_of_lt_le (by omega) (by omega)).symm
  · rw [decide_eq_false reaches, Bool.toNat_false, Nat.div_eq_of_lt (by omega)]

end TinyCrypto.Mp
