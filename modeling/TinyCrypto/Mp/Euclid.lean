import TinyCrypto.Library.BinaryGcd
import TinyCrypto.Mp.Arithmetic

/-! # Division, inverses and common divisors

The bit-serial division and the two binary Euclidean algorithms compute what their
names say.
-/

namespace TinyCrypto.Mp

open Library (BinaryGcd.step BinaryGcd.step_le BinaryGcd.run_odd BinaryGcd.run_le BinaryGcd.run_eq)

variable {w n p : Nat}

variable {v a r u b : Nat}

theorem dividePass_eq (positive : 0 < p) (bound : p < span w n) (bit : Bool) :
    dividePass w n p (v / p, v % p) bit = ((2 * v + bit.toNat) / p, (2 * v + bit.toNat) % p) := by
  have small : v % p < p := Nat.mod_lt _ positive
  have one : bit.toNat ≤ 1 := Bool.toNat_le bit
  have parts := Nat.mod_add_div (2 * (v % p) + bit.toNat) (span w n)
  rw [Nat.mul_comm (span w n)] at parts
  have remainder := @reduce_eq w n p ((2 * (v % p) + bit.toNat) % span w n)
    ((2 * (v % p) + bit.toNat) / span w n) (Nat.mod_lt _ span_pos) bound (by omega)
  rw [parts] at remainder
  have whole : 2 * v + bit.toNat = p * (2 * (v / p)) + (2 * (v % p) + bit.toNat) := by
    have := Nat.div_add_mod v p
    nlinarith
  have take : ((2 * (v % p) + bit.toNat) / span w n ≠ 0 ||
      !(subtract w n ((2 * (v % p) + bit.toNat) % span w n) p).2) =
        decide (p ≤ 2 * (v % p) + bit.toNat) := by
    by_cases wide : 2 * (v % p) + bit.toNat < span w n
    · rw [Bool.eq_iff_iff]
      simp [subtract_borrow, Nat.div_eq_of_lt wide, Nat.mod_eq_of_lt wide]
    · have : (2 * (v % p) + bit.toNat) / span w n ≠ 0 := by
        rw [Nat.div_ne_zero_iff]
        exact ⟨Nat.pos_iff_ne_zero.mp span_pos, Nat.not_lt.mp wide⟩
      simp [this, show p ≤ 2 * (v % p) + bit.toNat by omega]
  rw [whole, Nat.mul_add_div positive, Nat.mul_add_mod, ← remainder]
  simp only [dividePass, reduce, take, Prod.mk.injEq, and_true]
  congr 1
  by_cases reaches : p ≤ 2 * (v % p) + bit.toNat
  · rw [decide_eq_true reaches, Bool.toNat_true]
    exact (Nat.div_eq_of_lt_le (by omega) (by omega)).symm
  · rw [decide_eq_false reaches, Bool.toNat_false, Nat.div_eq_of_lt (by omega)]

theorem divideFold_eq (positive : 0 < p) (bound : p < span w n) (count v : Nat) :
    (bitsBe count v).foldl (dividePass w n p) (0, 0) = (v % 2 ^ count / p, v % 2 ^ count % p) := by
  induction count generalizing v with
  | zero => simp [bitsBe, Nat.mod_one]
  | succ count ih =>
    rw [bitsBe_succ, List.foldl_append, List.foldl_cons, List.foldl_nil, ih,
      dividePass_eq positive bound, toNat_testBit_zero, Nat.pow_succ', Nat.mod_mul,
      Nat.add_comm]

theorem divideWords_eq {words : Nat} (positive : 0 < p) (bound : p < span w n)
    (fits : v < span w words) : divideWords w n words v p = (v / p, v % p) := by
  rw [divideWords, divideFold_eq positive bound]
  rw [span] at fits
  rw [Nat.mod_eq_of_lt fits]

theorem reduceWords_eq {words v : Nat} (positive : 0 < p) (bound : p < span w n)
    (fits : v < span w words) : reduceWords w n words v p = v % p := by
  rw [reduceWords, divideWords_eq positive bound fits]

/-- The coefficients of `tc_mp_inverse`. -/
structure Tracks (p a : Nat) (state : InverseState) : Prop where
  r_lt : state.r < p
  s_lt : state.s < p
  u_eq : state.r * a ≡ state.u [MOD p]
  v_eq : state.s * a ≡ state.v [MOD p]

theorem two_coprime (odd : p % 2 = 1) : Nat.gcd p 2 = 1 :=
  (Nat.coprime_two_right).mpr (Nat.odd_iff.mpr odd)

theorem half_tracks (odd : p % 2 = 1) (even : u % 2 = 0) (tracks : r * a ≡ u [MOD p]) :
    halfMod r p * a ≡ u / 2 [MOD p] := by
  refine Nat.ModEq.cancel_left_of_coprime (two_coprime odd) ?_
  have whole : 2 * (u / 2) = u := by omega
  rw [whole, ← Nat.mul_assoc]
  exact ((two_mul_halfMod odd).mul_right a).trans tracks

theorem difference_tracks {s : Nat} (fits : p ≤ span w n) (first : r < p) (second : s < p)
    (le : v ≤ u) (tracks : r * a ≡ u [MOD p]) (follows : s * a ≡ v [MOD p]) :
    subMod w n r s p < p ∧ subMod w n r s p * a ≡ u - v [MOD p] := by
  rw [subMod_eq fits first second]
  refine ⟨Nat.mod_lt _ (by omega), ?_⟩
  refine Nat.ModEq.add_right_cancel follows ?_
  rw [Nat.sub_add_cancel le, ← Nat.add_mul]
  refine Nat.ModEq.trans ?_ tracks
  refine Nat.ModEq.mul_right a ?_
  have total : r + p - s + s = r + p := by omega
  calc (r + p - s) % p + s ≡ r + p - s + s [MOD p] := (Nat.mod_modEq _ _).add_right s
    _ = r + p := total
    _ ≡ r [MOD p] := Nat.add_modEq_right

theorem inverseStep_swapped {state : InverseState}
    (swaps : state.u % 2 = 1 ∧ (state.v % 2 = 0 ∨ state.u < state.v)) : inverseStep w n p state =
      ⟨(if state.v % 2 = 1 then (subtract w n state.v state.u).1 else state.v) / 2, state.u,
        halfMod (if state.v % 2 = 1 then subMod w n state.s state.r p else state.s) p, state.r⟩ := by
  have swap : (decide (state.u % 2 = 1) && (decide (state.v % 2 = 0) ||
      decide (state.u < state.v))) = true := by simpa using swaps
  simp only [inverseStep, subtract_borrow, swap, if_true]

theorem inverseStep_kept {state : InverseState}
    (keeps : ¬(state.u % 2 = 1 ∧ (state.v % 2 = 0 ∨ state.u < state.v))) : inverseStep w n p state =
      ⟨(if state.u % 2 = 1 then (subtract w n state.u state.v).1 else state.u) / 2, state.v,
        halfMod (if state.u % 2 = 1 then subMod w n state.r state.s p else state.r) p, state.s⟩ := by
  have keep : (decide (state.u % 2 = 1) && (decide (state.v % 2 = 0) ||
      decide (state.u < state.v))) = false := by simpa using keeps
  simp only [inverseStep, subtract_borrow, keep, Bool.false_eq_true, if_false]

/-- What one step of `tc_mp_inverse` does to an even, a larger and a smaller first operand. -/
theorem inverseStep_cases {state : InverseState} (odd : state.v % 2 = 1)
    (first : state.u < span w n) (second : state.v < span w n) : (state.u % 2 = 0 ∧
      inverseStep w n p state = ⟨state.u / 2, state.v, halfMod state.r p, state.s⟩) ∨
    (state.u % 2 = 1 ∧ state.v ≤ state.u ∧ inverseStep w n p state =
        ⟨(state.u - state.v) / 2, state.v, halfMod (subMod w n state.r state.s p) p, state.s⟩) ∨
    (state.u % 2 = 1 ∧ state.u < state.v ∧ inverseStep w n p state =
        ⟨(state.v - state.u) / 2, state.u, halfMod (subMod w n state.s state.r p) p, state.r⟩) := by
  rcases Nat.mod_two_eq_zero_or_one state.u with even | odd_u
  · refine .inl ⟨even, ?_⟩
    simp [inverseStep, even]
  · refine .inr ?_
    by_cases less : state.u < state.v
    · refine .inr ⟨odd_u, less, ?_⟩
      simp [inverseStep, odd_u, odd, less, subtract_borrow, subtract_of_le (Nat.le_of_lt less) second]
    · refine .inl ⟨odd_u, Nat.not_lt.mp less, ?_⟩
      simp [inverseStep, odd_u, odd, subtract_of_le (Nat.not_lt.mp less) first]

theorem inverseStep_pair {state : InverseState} (odd : state.v % 2 = 1)
    (first : state.u < span w n) (second : state.v < span w n) :
    ((inverseStep w n p state).u, (inverseStep w n p state).v) =
      BinaryGcd.step (state.u, state.v) := by
  obtain ⟨even, next⟩ | ⟨odd_u, le, next⟩ | ⟨odd_u, less, next⟩ :=
    @inverseStep_cases w n p state odd first second
  · simp [next, BinaryGcd.step, even]
  · simp [next, BinaryGcd.step, odd_u, le]
  · simp [next, BinaryGcd.step, odd_u, less]

theorem inverseStep_tracks {state : InverseState} (modulus : p % 2 = 1) (fits : p ≤ span w n)
    (odd : state.v % 2 = 1) (first : state.u < span w n) (second : state.v < span w n)
    (tracks : Tracks p a state) : Tracks p a (inverseStep w n p state) := by
  obtain ⟨even, next⟩ | ⟨odd_u, le, next⟩ | ⟨odd_u, less, next⟩ :=
    @inverseStep_cases w n p state odd first second
  · rw [next]
    exact ⟨halfMod_lt modulus tracks.r_lt, tracks.s_lt, half_tracks modulus even tracks.u_eq,
      tracks.v_eq⟩
  · obtain ⟨below, follows⟩ :=
      difference_tracks fits tracks.r_lt tracks.s_lt le tracks.u_eq tracks.v_eq
    rw [next]
    exact ⟨halfMod_lt modulus below, tracks.s_lt, half_tracks modulus (by omega) follows,
      tracks.v_eq⟩
  · obtain ⟨below, follows⟩ := difference_tracks fits tracks.s_lt tracks.r_lt
      (Nat.le_of_lt less) tracks.v_eq tracks.u_eq
    rw [next]
    exact ⟨halfMod_lt modulus below, tracks.r_lt, half_tracks modulus (by omega) follows,
      tracks.u_eq⟩

/-- The run of `tc_mp_inverse`: a binary run that keeps its coefficients. -/
theorem inverseRun {a : Nat} (modulus : p % 2 = 1) (large : 1 < p) (fits : p < span w n)
    (small : a < p) (count : Nat) : Tracks p a ((inverseStep w n p)^[count] ⟨a, p, 1, 0⟩) ∧
      (((inverseStep w n p)^[count] ⟨a, p, 1, 0⟩).u,
        ((inverseStep w n p)^[count] ⟨a, p, 1, 0⟩).v) = BinaryGcd.step^[count] (a, p) := by
  induction count with
  | zero =>
    refine ⟨⟨large, by dsimp only [Function.iterate_zero, id]; omega, ?_, ?_⟩, rfl⟩
    · simp [Nat.ModEq]
    · simp [Nat.ModEq]
  | succ count ih =>
    obtain ⟨tracks, pair⟩ := ih
    have odd := @BinaryGcd.run_odd (a, p) modulus count
    have bounds := @BinaryGcd.run_le (a, p) p (Nat.le_of_lt small) (le_refl p) count
    rw [← pair] at odd bounds
    rw [Function.iterate_succ_apply', Function.iterate_succ_apply', ← pair]
    have first := Nat.lt_of_le_of_lt bounds.1 fits
    have second := Nat.lt_of_le_of_lt bounds.2 fits
    exact ⟨inverseStep_tracks modulus (Nat.le_of_lt fits) odd first second tracks,
      inverseStep_pair odd first second⟩

theorem product_lt_two_pow (first : a < span w n) (second : b < span w n) :
    a * b < 2 ^ (2 * n * w) := by
  have total : 2 ^ (2 * n * w) = span w n * span w n := by
    rw [span, ← Nat.pow_add]
    congr 1
    ring
  rw [total]
  exact Nat.mul_lt_mul'' first second

/-- `tc_mp_inverse` of a number below an odd modulus. -/
theorem inverse_spec {a : Nat} (modulus : p % 2 = 1) (large : 1 < p) (fits : p < span w n)
    (small : a < p) :
    (Nat.gcd a p = 1 → ∃ out, inverse w n a p = some out ∧ out < p ∧ out * a ≡ 1 [MOD p]) ∧
      (Nat.gcd a p ≠ 1 → inverse w n a p = none) := by
  obtain ⟨tracks, pair⟩ := inverseRun modulus large fits small (2 * n * w)
  rw [BinaryGcd.run_eq modulus (product_lt_two_pow (Nat.lt_trans small fits) fits),
    Prod.mk.injEq] at pair
  rw [inverse]
  generalize (inverseStep w n p)^[2 * n * w] ⟨a, p, 1, 0⟩ = final at *
  obtain ⟨u, v, r, s⟩ := final
  obtain ⟨rfl, rfl⟩ := pair
  constructor
  · intro coprime
    refine ⟨s, by simp [coprime], tracks.s_lt, ?_⟩
    have follows := tracks.v_eq
    dsimp only at follows
    rwa [coprime] at follows
  · intro shared
    simp [shared]

theorem inverse_some {out : Nat} (modulus : p % 2 = 1) (large : 1 < p) (fits : p < span w n)
    (small : a < p) (given : inverse w n a p = some out) : out < p ∧ out * a ≡ 1 [MOD p] := by
  obtain ⟨found, missing⟩ := inverse_spec modulus large fits small
  by_cases coprime : Nat.gcd a p = 1
  · obtain ⟨found, equal, spec⟩ := found coprime
    rw [given, Option.some_inj] at equal
    rw [equal]
    exact spec
  · rw [missing coprime] at given
    cases given

/-- The common factor of two that `tc_mp_gcd` has removed. -/
structure Halves (a b count : Nat) (state : GcdState) : Prop where
  first : state.x * 2 ^ state.shift = a
  second : state.y * 2 ^ state.shift = b
  progress : state.x % 2 = 1 ∨ state.y % 2 = 1 ∨ state.shift = count
  few : state.shift ≤ count

variable {state : GcdState}

theorem gcdHalve_halves {count : Nat} (halves : Halves a b count state) :
    Halves a b (count + 1) (gcdHalve state) := by
  have few := halves.few
  have progress := halves.progress
  unfold gcdHalve
  split
  · rename_i even
    simp only [Bool.and_eq_true, decide_eq_true_eq] at even
    have x : state.x / 2 * 2 = state.x := by omega
    have y : state.y / 2 * 2 = state.y := by omega
    refine ⟨?_, ?_, by dsimp only; omega, by dsimp only; omega⟩
    · rw [← halves.first, Nat.pow_succ', ← Nat.mul_assoc, x]
    · rw [← halves.second, Nat.pow_succ', ← Nat.mul_assoc, y]
  · rename_i mixed
    simp only [Bool.and_eq_true, decide_eq_true_eq] at mixed
    exact ⟨halves.first, halves.second, by omega, by omega⟩

theorem gcdHalve_halved (even : state.x % 2 = 0 ∧ state.y % 2 = 0) :
    gcdHalve state = ⟨state.x / 2, state.y / 2, state.shift + 1⟩ := by
  simp [gcdHalve, even.1, even.2]

theorem gcdHalve_kept (mixed : ¬(state.x % 2 = 0 ∧ state.y % 2 = 0)) : gcdHalve state = state := by
  have keep : (decide (state.x % 2 = 0) && decide (state.y % 2 = 0)) = false := by
    simpa using mixed
  simp only [gcdHalve, keep, Bool.false_eq_true, if_false]

theorem gcdHalve_run {a b : Nat} (count : Nat) : Halves a b count (gcdHalve^[count] ⟨a, b, 0⟩) := by
  induction count with
  | zero => exact ⟨by simp, by simp, .inr (.inr rfl), le_refl 0⟩
  | succ count ih =>
    rw [Function.iterate_succ_apply']
    exact gcdHalve_halves ih

theorem gcdStep_swapped (swaps : state.y % 2 = 1 ∧ state.y < state.x) : gcdStep w n state =
      ⟨state.y, (if state.y % 2 = 1 then (subtract w n state.x state.y).1 else state.x) / 2,
        state.shift⟩ := by
  simp [gcdStep, subtract_borrow, swaps.1, swaps.2]

theorem gcdStep_kept (keeps : ¬(state.y % 2 = 1 ∧ state.y < state.x)) : gcdStep w n state =
      ⟨state.x, (if state.y % 2 = 1 then (subtract w n state.y state.x).1 else state.y) / 2,
        state.shift⟩ := by
  have keep : (decide (state.y % 2 = 1) && decide (state.y < state.x)) = false := by
    simpa using keeps
  simp only [gcdStep, subtract_borrow, keep, Bool.false_eq_true, if_false]

theorem gcdStep_pair {state : GcdState} (first : state.x < span w n) (second : state.y < span w n) :
    ((gcdStep w n state).y, (gcdStep w n state).x) = BinaryGcd.step (state.y, state.x) ∧
      (gcdStep w n state).shift = state.shift := by
  rcases Nat.mod_two_eq_zero_or_one state.y with even | odd_y
  · simp [gcdStep, BinaryGcd.step, even]
  · by_cases less : state.y < state.x
    · simp [gcdStep, BinaryGcd.step, odd_y, less, subtract_borrow,
        subtract_of_le (Nat.le_of_lt less) first, Nat.not_le.mpr less]
    · simp [gcdStep, BinaryGcd.step, odd_y, subtract_of_le (Nat.not_lt.mp less) second,
        Nat.not_lt.mp less]

theorem gcdRun (first : state.x < span w n) (second : state.y < span w n) (count : Nat) :
    (((gcdStep w n)^[count] state).y, ((gcdStep w n)^[count] state).x) =
        BinaryGcd.step^[count] (state.y, state.x) ∧
      ((gcdStep w n)^[count] state).shift = state.shift := by
  induction count with
  | zero => exact ⟨rfl, rfl⟩
  | succ count ih =>
    obtain ⟨pair, shift⟩ := ih
    have bounds := @BinaryGcd.run_le (state.y, state.x) (span w n - 1)
      (Nat.le_sub_one_of_lt second) (Nat.le_sub_one_of_lt first) count
    rw [← pair] at bounds
    rw [Function.iterate_succ_apply', Function.iterate_succ_apply', ← pair]
    have positive := @span_pos w n
    obtain ⟨next, same⟩ := @gcdStep_pair w n ((gcdStep w n)^[count] state)
      (by omega) (by omega)
    exact ⟨next, by rw [same, shift]⟩

theorem shiftFold_eq {x shift : Nat} (count : Nat) (few : shift ≤ count)
    (fits : x * 2 ^ shift < span w n) :
    (List.range count).foldl (fun x i => if i < shift then x * 2 % span w n else x) x =
      x * 2 ^ shift := by
  have partly : ∀ count, (List.range count).foldl
      (fun x i => if i < shift then x * 2 % span w n else x) x = x * 2 ^ min count shift := by
    intro count
    induction count with
    | zero => simp
    | succ count ih =>
      rw [List.range_succ, List.foldl_append, ih, List.foldl_cons, List.foldl_nil]
      split
      · rename_i more
        have now : min count shift = count := by omega
        have next : min (count + 1) shift = count + 1 := by omega
        have below : x * 2 ^ (count + 1) ≤ x * 2 ^ shift :=
          Nat.mul_le_mul_left x (Nat.pow_le_pow_right (by omega) more)
        rw [now, next, Nat.pow_succ, ← Nat.mul_assoc, Nat.mod_eq_of_lt]
        rw [Nat.pow_succ, ← Nat.mul_assoc] at below
        omega
      · rename_i done
        have same : min (count + 1) shift = min count shift := by omega
        rw [same]
  rw [partly, Nat.min_eq_right few]

/-- The state of `tc_mp_gcd` before the common factor of two comes back. -/
def gcdReduced (w n a b : Nat) : GcdState :=
  let state := gcdHalve^[n * w] ⟨a, b, 0⟩
  let state := if state.x % 2 = 0 then ⟨state.y, state.x, state.shift⟩ else state
  (gcdStep w n)^[2 * (n * w)] state

/-- What the two loops of `tc_mp_gcd` leave. -/
structure Reduced (a b bits : Nat) (state : GcdState) : Prop where
  done : state.y = 0
  few : state.shift ≤ bits
  value : state.x * 2 ^ state.shift = Nat.gcd a b

theorem gcdReduced_reduced (first : a < span w n) (second : b < span w n) (pos : 0 < a) :
    Reduced a b (n * w) (gcdReduced w n a b) := by
  have halves := @gcdHalve_run a b (n * w)
  rw [gcdReduced]
  generalize gcdHalve^[n * w] ⟨a, b, 0⟩ = start at *
  have le_x : start.x ≤ a := by
    rw [← halves.first]
    exact Nat.le_mul_of_pos_right _ (Nat.two_pow_pos _)
  have le_y : start.y ≤ b := by
    rw [← halves.second]
    exact Nat.le_mul_of_pos_right _ (Nat.two_pow_pos _)
  have mixed : start.x % 2 = 1 ∨ start.y % 2 = 1 := by
    by_contra even
    have all : start.shift = n * w := by
      have := halves.progress
      omega
    have value := halves.first
    rw [all, Nat.mul_comm n w] at value
    have positive : 0 < start.x := by
      apply Nat.pos_of_ne_zero
      intro zero
      rw [zero, Nat.zero_mul] at value
      omega
    have := Nat.le_mul_of_pos_left (2 ^ (w * n)) positive
    rw [span] at first
    omega
  have whole : Nat.gcd start.x start.y * 2 ^ start.shift = Nat.gcd a b := by
    rw [← halves.first, ← halves.second, Nat.gcd_mul_right]
  have run : ∀ {state : GcdState}, state.x % 2 = 1 → state.x < span w n → state.y < span w n →
      state.shift = start.shift → Nat.gcd state.y state.x = Nat.gcd start.x start.y →
      Reduced a b (n * w) ((gcdStep w n)^[2 * (n * w)] state) := by
    intro state odd small small' shift same
    obtain ⟨pair, kept⟩ := gcdRun small small' (2 * (n * w))
    rw [BinaryGcd.run_eq odd (by
      rw [← Nat.mul_assoc]
      exact product_lt_two_pow small' small), Prod.mk.injEq] at pair
    rw [shift] at kept
    exact ⟨pair.1, by rw [kept]; exact halves.few, by rw [pair.2, kept, same, whole]⟩
  split
  · rename_i even
    exact run (by dsimp only; omega) (by dsimp only; omega) (by dsimp only; omega) rfl rfl
  · exact run (by omega) (by omega) (by omega) rfl (Nat.gcd_comm _ _)

/-- `tc_mp_gcd`, for a first number that is not zero. -/
theorem gcd_eq (first : a < span w n) (second : b < span w n) (pos : 0 < a) :
    gcd w n a b = Nat.gcd a b := by
  obtain ⟨_, few, value⟩ := gcdReduced_reduced first second pos
  have below : Nat.gcd a b < span w n := Nat.lt_of_le_of_lt (Nat.gcd_le_left b pos) first
  have restored := shiftFold_eq (n * w) few (by rw [value]; exact below)
  rw [value] at restored
  exact restored

end TinyCrypto.Mp
