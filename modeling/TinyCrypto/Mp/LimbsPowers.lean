import TinyCrypto.Mp.LimbsExact

/-! # Powers on limbs

The padded and the public power compute the same residue.
-/

namespace TinyCrypto.Mp.Limbs

open Library.ByteCounter (value value_cons value_append)
open Library.Words

variable {w : Nat}

theorem bitsBe_mod (count v : Nat) : bitsBe count (v % 2 ^ count) = bitsBe count v := by
  rw [bitsBe, bitsBe]
  refine List.map_congr_left fun i member => ?_
  rw [List.mem_reverse, List.mem_range] at member
  rw [Nat.testBit_mod_two_pow, decide_eq_true member, Bool.true_and]

theorem bitsBe_append (high low v : Nat) :
    bitsBe (high + low) v = bitsBe high (v / 2 ^ low) ++ bitsBe low v := by
  induction low generalizing v with
  | zero => simp [bitsBe]
  | succ low ih =>
    rw [← Nat.add_assoc, bitsBe_succ, ih, bitsBe_succ, List.append_assoc,
      Nat.div_div_eq_div_mul, Nat.pow_succ']

theorem byteBits_eq (bytes : Bytes) : byteBits bytes = bitsBe (8 * bytes.length) (value bytes) := by
  induction bytes with
  | nil => rfl
  | cons byte rest ih =>
    have low := Library.ByteCounter.value_lt rest
    have width : (256 : Nat) ^ rest.length = 2 ^ (8 * rest.length) := by rw [Nat.pow_mul]
    rw [width] at low
    rw [byteBits, List.flatMap_cons, value_cons, width, List.length_cons, Nat.mul_succ,
      Nat.add_comm (8 * rest.length), bitsBe_append, Nat.add_comm (byte.toNat * _),
      Nat.add_mul_div_right _ _ (Nat.two_pow_pos _), Nat.div_eq_of_lt low, Nat.zero_add,
      ← bitsBe_mod (8 * rest.length), Nat.add_mul_mod_self_right, bitsBe_mod]
    exact congrArg _ ih

theorem value_padding (count : Nat) (bytes : Bytes) :
    value (List.replicate count 0 ++ bytes) = value bytes := by
  have zero : value (List.replicate count 0) = 0 :=
    Library.ByteCounter.value_eq_zero_iff.mpr fun b member => List.eq_of_mem_replicate member
  rw [value_append, zero, Nat.zero_mul, Nat.zero_add]

structure Odd (p : List (BitVec w)) : Prop where
  width : 0 < w
  odd : number p % 2 = 1
  large : 1 < number p

variable {p : List (BitVec w)}

theorem Odd.nonempty (odd : Odd p) : p.length ≠ 0 := by
  intro empty
  have large := odd.large
  rw [List.length_eq_zero_iff.mp empty, number_nil] at large
  omega

theorem Odd.ready (odd : Odd p) : Ready w (modulusOf p).toModulus := by
  rw [modulusOf_toModulus odd.width odd.nonempty]
  exact modulusOf_ready odd.width odd.odd (number_lt p)

structure Residue (p x : List (BitVec w)) : Prop where
  length : x.length = p.length
  below : number x < number p

def represented (p x : List (BitVec w)) : ZMod (number p) :=
  element w (modulusOf p).toModulus (number x)

variable {a b x y base out one : List (BitVec w)}

theorem Residue.inj (odd : Odd p) (first : Residue p x) (second : Residue p y)
    (same : represented p x = represented p y) : x = y :=
  number_injective (first.length.trans second.length.symm)
    (odd.ready.element_inj first.below second.below same)

theorem Residue.montgomery (odd : Odd p) (first : Residue p a) (second : Residue p b) :
    Residue p (montgomery (modulusOf p) a b).words ∧
      represented p (Limbs.montgomery (modulusOf p) a b).words =
        represented p a * represented p b := by
  obtain ⟨length, value, _⟩ := @montgomery_computes w odd.width (modulusOf p) a b first.length
    second.length
  have wide : number a < span w (modulusOf p).toModulus.n := Nat.lt_trans first.below odd.ready.fits
  have below := odd.ready.montgomery_lt wide second.below
  rw [← value] at below
  refine ⟨⟨length, below⟩, ?_⟩
  rw [represented, value]
  exact odd.ready.element_montgomery wide second.below

theorem powerPass_residue (odd : Odd p) (first : Residue p base) (second : Residue p out)
    (bit : Bool) : Residue p (powerPass (modulusOf p) base out bit) ∧
      represented p (powerPass (modulusOf p) base out bit) =
        represented p out ^ 2 * represented p base ^ bit.toNat := by
  obtain ⟨squared, square⟩ := second.montgomery odd second
  obtain ⟨multiplied, product⟩ := squared.montgomery odd first
  rw [powerPass, select_eq odd.width (multiplied.length.trans squared.length.symm)]
  cases bit with
  | false => exact ⟨squared, by rw [Bool.toNat_false, pow_zero, mul_one, pow_two]; exact square⟩
  | true =>
    refine ⟨multiplied, ?_⟩
    rw [Bool.toNat_true, pow_one, pow_two, ← square]
    exact product

theorem powerFold_residue (odd : Odd p) (first : Residue p base) (second : Residue p one)
    (unit : represented p one = 1) (count v : Nat) :
    Residue p ((bitsBe count v).foldl (powerPass (modulusOf p) base) one) ∧
      represented p ((bitsBe count v).foldl (powerPass (modulusOf p) base) one) =
        represented p base ^ (v % 2 ^ count) := by
  induction count generalizing v with
  | zero =>
    rw [Nat.pow_zero, Nat.mod_one, pow_zero]
    exact ⟨second, unit⟩
  | succ count ih =>
    obtain ⟨residue, value⟩ := ih (v / 2)
    rw [bitsBe_succ, List.foldl_append, List.foldl_cons, List.foldl_nil]
    obtain ⟨next, pass⟩ := powerPass_residue odd first residue (v.testBit 0)
    refine ⟨next, ?_⟩
    rw [pass, value, toNat_testBit_zero, Nat.pow_succ', Nat.mod_mul, ← pow_mul, ← pow_add]
    congr 1
    ring

/-- After the bits of a number, `tc_mp_power_public` has started if the number is positive. -/
structure Public (p base one : List (BitVec w)) (v : Nat) (state : Bool × List (BitVec w)) :
    Prop where
  residue : Residue p state.2
  value : represented p state.2 = represented p base ^ v
  started : state.1 = false → v = 0 ∧ state.2 = one

theorem publicPass_public (odd : Odd p) (first : Residue p base) (unit : represented p one = 1)
    {state : Bool × List (BitVec w)} {v : Nat} (reached : Public p base one v state) (bit : Bool) :
    Public p base one (2 * v + bit.toNat) (publicPass (modulusOf p) base state bit) := by
  obtain ⟨started, out⟩ := state
  obtain ⟨residue, value, fresh⟩ := reached
  cases started with
  | false =>
    obtain ⟨rfl, same⟩ := fresh rfl
    dsimp only at same
    subst same
    cases bit with
    | false => exact ⟨residue, value, fun _ => ⟨rfl, rfl⟩⟩
    | true => exact ⟨first, (pow_one _).symm, nofun⟩
  | true =>
    obtain ⟨squared, square⟩ := residue.montgomery odd residue
    rw [value, ← pow_two, ← pow_mul, Nat.mul_comm] at square
    cases bit with
    | false => exact ⟨squared, square, nofun⟩
    | true =>
      obtain ⟨multiplied, product⟩ := squared.montgomery odd first
      rw [square, ← pow_succ] at product
      exact ⟨multiplied, product, nofun⟩

theorem publicFold_public (odd : Odd p) (first : Residue p base) (second : Residue p one)
    (unit : represented p one = 1) (count v : Nat) : Public p base one (v % 2 ^ count)
      ((bitsBe count v).foldl (publicPass (modulusOf p) base) (false, one)) := by
  induction count generalizing v with
  | zero =>
    rw [Nat.pow_zero, Nat.mod_one]
    exact ⟨second, by rw [pow_zero]; exact unit, fun _ => ⟨rfl, rfl⟩⟩
  | succ count ih =>
    have next := publicPass_public odd first unit (ih (v / 2)) (v.testBit 0)
    rw [toNat_testBit_zero, Nat.add_comm, ← Nat.mod_mul, ← Nat.pow_succ'] at next
    rw [bitsBe_succ, List.foldl_append, List.foldl_cons, List.foldl_nil]
    exact next

theorem powers_spec (odd : Odd p) (first : Residue p base) (second : Residue p one)
    (unit : represented p one = 1) (exponent : Bytes) {width : Nat}
    (fits : exponent.length ≤ width) : Residue p (powerPublic (modulusOf p) base exponent one) ∧
      represented p (powerPublic (modulusOf p) base exponent one) =
        represented p base ^ value exponent ∧ powerPadded (modulusOf p) base exponent width one =
        powerPublic (modulusOf p) base exponent one := by
  have bound := Library.ByteCounter.value_lt exponent
  rw [show (256 : Nat) = 2 ^ 8 from rfl, ← Nat.pow_mul] at bound
  have published := publicFold_public odd first second unit (8 * exponent.length) (value exponent)
  rw [Nat.mod_eq_of_lt bound, ← byteBits_eq] at published
  have size : (List.replicate (width - exponent.length) 0 ++ exponent).length = width := by
    rw [List.length_append, List.length_replicate]
    omega
  have wider : value exponent < 2 ^ (8 * width) :=
    Nat.lt_of_lt_of_le bound (Nat.pow_le_pow_right (by omega) (by omega))
  obtain ⟨residue, number⟩ := powerFold_residue odd first second unit (8 * width) (value exponent)
  refine ⟨published.residue, published.value, ?_⟩
  rw [powerPadded, byteBits_eq, size, value_padding]
  refine Residue.inj odd residue published.residue ?_
  rw [number, Nat.mod_eq_of_lt wider]
  exact published.value.symm

theorem Odd.unit (odd : Odd p) :
    Residue p (Limbs.one p.length) ∧ number (Limbs.one p.length : List (BitVec w)) = 1 := by
  obtain ⟨length, value⟩ := one_spec odd.width odd.nonempty
  exact ⟨⟨length, by rw [value]; exact odd.large⟩, value⟩

theorem Odd.r2 (odd : Odd p) : Residue p (montgomeryR2 p) ∧ number (montgomeryR2 p) =
      Mp.montgomeryR2 w (modulusOf p).toModulus.n (modulusOf p).toModulus.p := by
  obtain ⟨length, value⟩ := montgomeryR2_spec odd.width odd.nonempty
  refine ⟨⟨length, ?_⟩, value⟩
  rw [value]
  exact odd.ready.r2_lt odd.large

theorem Odd.encode (odd : Odd p) (residue : Residue p x) :
    Residue p (montgomery (modulusOf p) x (montgomeryR2 p)).words ∧
      represented p (Limbs.montgomery (modulusOf p) x (montgomeryR2 p)).words = number x := by
  obtain ⟨r2, value⟩ := odd.r2
  refine ⟨(residue.montgomery odd r2).1, ?_⟩
  rw [represented, (@montgomery_computes w odd.width (modulusOf p) x _ residue.length r2.length).value,
    value]
  exact odd.ready.element_encode odd.large (Nat.lt_trans residue.below odd.ready.fits)

theorem Odd.decode (odd : Odd p) (residue : Residue p x) :
    number (montgomery (modulusOf p) x (Limbs.one p.length)).words < number p ∧
      (number (montgomery (modulusOf p) x (Limbs.one p.length)).words : ZMod (number p)) =
        represented p x := by
  obtain ⟨one, value⟩ := odd.unit
  rw [(@montgomery_computes w odd.width (modulusOf p) x _ residue.length one.length).value, value]
  exact odd.ready.decode odd.large residue.below

/-- What `tc_mp_montgomery` writes for two numbers below an odd modulus. -/
structure Reduces (p a b : List (BitVec w)) (out : Product w) : Prop where
  length : out.words.length = p.length
  below : number out.words < number p
  unique : ∀ v < number p, v = number out.words ↔
    (v : ZMod (number p)) = number a * number b * ((2 ^ (p.length * w) : Nat) : ZMod (number p))⁻¹
  fits : ∀ sum ∈ out.sums, sum < 2 ^ (2 * w)

theorem residue_unique {q radix x y out v : Nat} (below : out < q) (less : v < q)
    (same : out * radix ≡ x * y [MOD q]) (unit : (radix : ZMod q) * (radix : ZMod q)⁻¹ = 1) :
    v = out ↔ (v : ZMod q) = x * y * (radix : ZMod q)⁻¹ := by
  have product := (ZMod.natCast_eq_natCast_iff _ _ q).mpr same
  rw [Nat.cast_mul, Nat.cast_mul] at product
  rw [← product, mul_assoc, unit, mul_one]
  refine ⟨congrArg _, fun equal => ?_⟩
  have residues := (ZMod.natCast_eq_natCast_iff' v out q).mp equal
  rwa [Nat.mod_eq_of_lt less, Nat.mod_eq_of_lt below] at residues

theorem montgomery_reduces (odd : Odd p) (first : Residue p a) (second : Residue p b) :
    Reduces p a b (montgomery (modulusOf p) a b) := by
  obtain ⟨length, value, fits⟩ := @montgomery_computes w odd.width (modulusOf p) a b first.length
    second.length
  have small : number a * number b < span w (modulusOf p).toModulus.n * number p :=
    Nat.mul_lt_mul'' (Nat.lt_trans first.below odd.ready.fits) second.below
  obtain ⟨below, same⟩ := montgomery_spec odd.ready small
  have radix : span w (modulusOf p).toModulus.n = 2 ^ (p.length * w) := by
    rw [span, Nat.mul_comm]
    rfl
  have unit := odd.ready.span_inv
  rw [radix] at same unit
  rw [← value] at below same
  exact ⟨length, below, fun v less => residue_unique below less same unit, fits⟩

/-- Montgomery products are exact, and both powers compute the power: of the number that a
    residue stands for, and of a number that enters and leaves Montgomery form. -/
theorem montgomery_exact (odd : Odd p) (first : Residue p a) (second : Residue p b) :
    Reduces p a b (montgomery (modulusOf p) a b) ∧
      ∀ (exponent : Bytes) (width : Nat), exponent.length ≤ width → let m := modulusOf p
        let one := (montgomery m (Limbs.one p.length) (montgomeryR2 p)).words
        let encoded := (montgomery m a (montgomeryR2 p)).words
        powerPadded m a exponent width one = powerPublic m a exponent one ∧
          represented p (powerPublic m a exponent one) = represented p a ^ value exponent ∧
          powerPadded m encoded exponent width one = powerPublic m encoded exponent one ∧
          number (montgomery m (powerPublic m encoded exponent one) (Limbs.one p.length)).words =
            number a ^ value exponent % number p := by
  refine ⟨montgomery_reduces odd first second, fun exponent width fits => ?_⟩
  obtain ⟨encoded, represents⟩ := odd.encode first
  obtain ⟨plain, unit⟩ := odd.unit
  obtain ⟨one, unity⟩ := odd.encode plain
  rw [unit, Nat.cast_one] at unity
  obtain ⟨_, power, agree⟩ := powers_spec odd first one unity exponent fits
  obtain ⟨residue', power', agree'⟩ := powers_spec odd encoded one unity exponent fits
  refine ⟨agree, power, agree', ?_⟩
  obtain ⟨below, decoded⟩ := odd.decode residue'
  rw [power', represents, ← Nat.cast_pow] at decoded
  have residues := (ZMod.natCast_eq_natCast_iff' _ _ _).mp decoded
  rwa [Nat.mod_eq_of_lt below] at residues

theorem montgomery_exact_byte : Reduces [251#8] [7] [9] (montgomery (modulusOf [251#8]) [7] [9]) ∧
      ∀ (exponent : Bytes) (width : Nat), exponent.length ≤ width → let m := modulusOf [251#8]
        let one := (montgomery m (Limbs.one 1) (montgomeryR2 [251#8])).words
        let encoded := (montgomery m [7] (montgomeryR2 [251#8])).words
        powerPadded m [7] exponent width one = powerPublic m [7] exponent one ∧
          represented [251#8] (powerPublic m [7] exponent one) =
            represented [251#8] [7] ^ value exponent ∧
          powerPadded m encoded exponent width one = powerPublic m encoded exponent one ∧
          number (montgomery m (powerPublic m encoded exponent one) (Limbs.one 1)).words =
            number [7#8] ^ value exponent % number [251#8] :=
  montgomery_exact ⟨by decide, by decide, by decide⟩ ⟨rfl, by decide⟩ ⟨rfl, by decide⟩

end TinyCrypto.Mp.Limbs
