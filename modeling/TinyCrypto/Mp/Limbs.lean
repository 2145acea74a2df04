import TinyCrypto.Common.Bytes
import TinyCrypto.Library.Blocks
import TinyCrypto.Library.Words
import TinyCrypto.Mp.Arithmetic

/-! # Limbs

`mp_internal.h` on arrays of words. A `tc_mp_wide` is a double word; beside what it holds,
the loops of the products record the sum that it was to hold.
-/

namespace TinyCrypto.Mp.Limbs

open Library.Words

variable {w : Nat}

/-- `tc_mp_select`. -/
def select (a b : List (BitVec w)) (mask : BitVec w) : List (BitVec w) :=
  List.zipWith (fun a b => a &&& mask ||| b &&& ~~~mask) a b

/-- The loop of `tc_mp_subtract`: the difference and the borrow. -/
def subtractLoop : (a b : List (BitVec w)) → (borrow : BitVec (2 * w)) →
    List (BitVec w) × BitVec (2 * w)
  | a :: as, b :: bs, borrow =>
    let value := a.setWidth (2 * w) - b.setWidth (2 * w) - borrow
    let (out, last) := subtractLoop as bs (value >>> w &&& 1)
    (value.setWidth w :: out, last)
  | _, _, borrow => ([], borrow)

/-- `tc_mp_subtract`. -/
def subtract (a b : List (BitVec w)) : List (BitVec w) × BitVec w :=
  let (out, borrow) := subtractLoop a b 0
  (out, borrow.setWidth w)

/-- `tc_mp_reduce`. -/
def reduce (low : List (BitVec w)) (high : BitVec w) (p : List (BitVec w)) : List (BitVec w) :=
  let (scratch, borrow) := subtract low p
  let mask := 0 - (BitVec.ofBool (high ≠ 0 || borrow = 0)).setWidth w
  select scratch low mask

/-- The loop of `tc_mp_add_mod`. -/
def addLoop : (a b : List (BitVec w)) → (carry : BitVec (2 * w)) → Inner w
  | a :: as, b :: bs, carry =>
    let value := carry + (a.setWidth (2 * w) + b.setWidth (2 * w))
    let rest := addLoop as bs (value >>> w)
    ⟨value.setWidth w :: rest.words, rest.carry, (carry.toNat + (a.toNat + b.toNat)) :: rest.sums⟩
  | _, _, carry => ⟨[], carry, []⟩

/-- `tc_mp_add_mod`. -/
def addMod (a b p : List (BitVec w)) : List (BitVec w) :=
  let sum := addLoop a b 0
  reduce sum.words (sum.carry.setWidth w) p

/-- The loop of `tc_mp_montgomery_factor`, of at most `passes` passes. -/
def factorLoop (low : BitVec w) : (passes bits : Nat) → (inverse : BitVec w) → BitVec w
  | 0, _, inverse => inverse
  | passes + 1, bits, inverse =>
    if bits < w then factorLoop low passes (bits * 2) (inverse * (2 - low * inverse))
    else inverse

/-- `tc_mp_montgomery_factor`. -/
def montgomeryFactor (low : BitVec w) : BitVec w := 0 - factorLoop low w 1 1

def one (count : Nat) : List (BitVec w) := (List.replicate count 0).set 0 1

/-- `tc_mp_montgomery_r2`. -/
def montgomeryR2 (p : List (BitVec w)) : List (BitVec w) :=
  (fun out => addMod out out p)^[p.length * 2 * w] (one p.length)

def multiplyAdd (factor : BitVec w) : (b out : List (BitVec w)) → (carry : BitVec (2 * w)) → Inner w
  | b :: bs, o :: out, carry =>
    let value := factor.setWidth (2 * w) * b.setWidth (2 * w) + o.setWidth (2 * w) + carry
    let rest := multiplyAdd factor bs out (value >>> w)
    ⟨value.setWidth w :: rest.words, rest.carry,
      (factor.toNat * b.toNat + o.toNat + carry.toNat) :: rest.sums⟩
  | _, _, carry => ⟨[], carry, []⟩

/-- The last inner loop of `tc_mp_montgomery`. -/
def propagate : (out : List (BitVec w)) → (carry : BitVec (2 * w)) → Inner w
  | o :: out, carry =>
    let value := carry + o.setWidth (2 * w)
    let rest := propagate out (value >>> w)
    ⟨value.setWidth w :: rest.words, rest.carry, (carry.toNat + o.toNat) :: rest.sums⟩
  | [], carry => ⟨[], carry, []⟩

def written (t : List (BitVec w)) (i : Nat) (words : List (BitVec w)) : List (BitVec w) :=
  t.take i ++ words ++ t.drop (i + words.length)

structure Product (w : Nat) where
  words : List (BitVec w)
  sums : List Nat
  deriving DecidableEq

/-- One pass of `tc_mp_multiply`. -/
def multiplyPass (a b : List (BitVec w)) (out : Product w) (i : Nat) : Product w :=
  let inner := multiplyAdd (a.getD i 0) b ((out.words.drop i).take b.length) 0
  ⟨written out.words i (inner.words ++ [inner.carry.setWidth w]), out.sums ++ inner.sums⟩

/-- `tc_mp_multiply`. -/
def multiply (a b : List (BitVec w)) : Product w :=
  (List.range a.length).foldl (multiplyPass a b) ⟨List.replicate (2 * a.length) 0, []⟩

/-- `tc_mp_modulus`. -/
structure Modulus (w : Nat) where
  p : List (BitVec w)
  n0 : BitVec w
  deriving DecidableEq

def modulusOf (p : List (BitVec w)) : Modulus w := ⟨p, montgomeryFactor (p.getD 0 0)⟩

/-- One pass of `tc_mp_montgomery`. -/
def montgomeryPass (m : Modulus w) (t : Product w) (i : Nat) : Product w :=
  let n := m.p.length
  let factor := t.words.getD i 0 * m.n0
  let inner := multiplyAdd factor m.p ((t.words.drop i).take n) 0
  let upper := propagate ((t.words.drop (i + n)).take (2 * n + 1 - (i + n))) inner.carry
  ⟨written t.words i (inner.words ++ upper.words), t.sums ++ inner.sums ++ upper.sums⟩

/-- `tc_mp_montgomery`. -/
def montgomery (m : Modulus w) (a b : List (BitVec w)) : Product w :=
  let n := m.p.length
  let product := multiply a b
  let t := (List.range n).foldl (montgomeryPass m) ⟨product.words ++ [0, 0], product.sums⟩
  ⟨reduce ((t.words.drop n).take n) (t.words.getD (2 * n) 0) m.p, t.sums⟩

def byteBits (bytes : Bytes) : List Bool := bytes.flatMap fun byte => bitsBe 8 byte.toNat

/-- One bit of `tc_mp_power_padded`. -/
def powerPass (m : Modulus w) (base out : List (BitVec w)) (bit : Bool) : List (BitVec w) :=
  let mask := 0 - (BitVec.ofBool bit).setWidth w
  let squared := (montgomery m out out).words
  let temporary := (montgomery m squared base).words
  select temporary squared mask

/-- `tc_mp_power_padded`. -/
def powerPadded (m : Modulus w) (base : List (BitVec w)) (exponent : Bytes) (width : Nat)
    (one : List (BitVec w)) : List (BitVec w) :=
  (byteBits (List.replicate (width - exponent.length) 0 ++ exponent)).foldl (powerPass m base) one

/-- `tc_mp_power`. -/
def power (m : Modulus w) (base : List (BitVec w)) (exponent : Bytes) (one : List (BitVec w)) :
    List (BitVec w) :=
  powerPadded m base exponent exponent.length one

/-- One bit of `tc_mp_power_public`, after whether a bit was set before. -/
def publicPass (m : Modulus w) (base : List (BitVec w)) (state : Bool × List (BitVec w))
    (bit : Bool) : Bool × List (BitVec w) :=
  let (started, out) := state
  let out := if started then (montgomery m out out).words else out
  if bit then (true, if started then (montgomery m out base).words else base) else (started, out)

/-- `tc_mp_power_public`. -/
def powerPublic (m : Modulus w) (base : List (BitVec w)) (exponent : Bytes)
    (one : List (BitVec w)) : List (BitVec w) :=
  ((byteBits exponent).foldl (publicPass m base) (false, one)).2

open Library
open Library.ByteCounter (value ofValue)

/-- The bytes of one word, lowest first, from byte `k` on. -/
def gatherWord (s : Nat) (word : BitVec (8 * s)) : (k : Nat) → Bytes → BitVec (8 * s)
  | _, [] => word
  | k, byte :: rest =>
    gatherWord s (word ||| (BitVec.ofNat (2 * (8 * s)) byte.toNat <<< (8 * k)).setWidth (8 * s))
      (k + 1) rest

/-- `tc_mp_from_be`. -/
def fromBe (s : Nat) (bytes : Bytes) : List (BitVec (8 * s)) :=
  (Blocks.pieces s bytes.reverse).map (gatherWord s 0 0)

def spreadWord (s : Nat) (word : BitVec (8 * s)) : Bytes :=
  (List.range s).map fun k => UInt8.ofBitVec ((word >>> (8 * k)).setWidth 8)

/-- `tc_mp_to_be`. -/
def toBe (s : Nat) (words : List (BitVec (8 * s))) : Bytes := (words.flatMap (spreadWord s)).reverse

def little (bytes : Bytes) : Nat := Nat.ofDigits 256 (bytes.map UInt8.toNat)

theorem little_cons (byte : UInt8) (rest : Bytes) :
    little (byte :: rest) = byte.toNat + 256 * little rest := by
  simp [little, Nat.ofDigits_cons]

theorem little_append (low high : Bytes) :
    little (low ++ high) = little low + 256 ^ low.length * little high := by
  simp [little, Nat.ofDigits_append]

theorem value_eq_little (bytes : Bytes) : value bytes = little bytes.reverse := rfl

variable {s : Nat}

theorem gather_byte {word : BitVec (8 * s)} {k : Nat} (small : word.toNat < 2 ^ (8 * k))
    (inside : k < s) (byte : UInt8) :
    (word ||| (BitVec.ofNat (2 * (8 * s)) byte.toNat <<< (8 * k)).setWidth (8 * s)).toNat =
        word.toNat + 256 ^ k * byte.toNat ∧
      word.toNat + 256 ^ k * byte.toNat < 2 ^ (8 * (k + 1)) := by
  have octet := byte.toNat_lt
  have base : (256 : Nat) ^ k = 2 ^ (8 * k) := by rw [Nat.pow_mul]
  have next : (2 : Nat) ^ (8 * (k + 1)) = 2 ^ (8 * k) * 256 := by
    rw [Nat.mul_succ, Nat.pow_add]
  have bound : 2 ^ (8 * k) * byte.toNat + word.toNat < 2 ^ (8 * (k + 1)) := by
    have most := Nat.mul_le_mul_left (2 ^ (8 * k)) (Nat.le_pred_of_lt octet)
    rw [next]
    simp only [Nat.reducePow, Nat.pred_eq_sub_one, Nat.reduceSub] at most
    omega
  have room : 2 ^ (8 * (k + 1)) ≤ 2 ^ (8 * s) := Nat.pow_le_pow_right (by decide) (by omega)
  have more : 2 ^ (8 * s) ≤ 2 ^ (2 * (8 * s)) := Nat.pow_le_pow_right (by decide) (by omega)
  have shifted : ((BitVec.ofNat (2 * (8 * s)) byte.toNat <<< (8 * k)).setWidth (8 * s)).toNat =
      2 ^ (8 * k) * byte.toNat := by
    have least : 256 ≤ 2 ^ (2 * (8 * s)) := by
      have one : 2 ^ 8 ≤ 2 ^ (2 * (8 * s)) := Nat.pow_le_pow_right (by decide) (by omega)
      omega
    have whole : byte.toNat % 2 ^ (2 * (8 * s)) = byte.toNat := Nat.mod_eq_of_lt (by omega)
    have wide : 2 ^ (8 * k) * byte.toNat % 2 ^ (2 * (8 * s)) = 2 ^ (8 * k) * byte.toNat :=
      Nat.mod_eq_of_lt (by omega)
    rw [BitVec.toNat_setWidth, BitVec.toNat_shiftLeft, BitVec.toNat_ofNat, whole,
      Nat.shiftLeft_eq, Nat.mul_comm, wide]
    exact Nat.mod_eq_of_lt (by omega)
  rw [BitVec.toNat_or, shifted, Nat.or_comm, ← Nat.two_pow_add_eq_or_of_lt small, base]
  exact ⟨Nat.add_comm _ _, by omega⟩

theorem gatherWord_toNat {word : BitVec (8 * s)} {k : Nat} (small : word.toNat < 2 ^ (8 * k))
    {bytes : Bytes} (inside : k + bytes.length ≤ s) :
    (gatherWord s word k bytes).toNat = word.toNat + 256 ^ k * little bytes := by
  induction bytes generalizing word k with
  | nil => simp [gatherWord, little]
  | cons byte rest ih =>
    rw [List.length_cons] at inside
    obtain ⟨gathered, bound⟩ := gather_byte small (by omega) byte
    rw [gatherWord, ih (by rw [gathered]; exact bound) (by omega), gathered, little_cons]
    ring

theorem number_pieces (pos : 0 < s) {count : Nat} {bytes : Bytes}
    (whole : bytes.length = s * count) :
    number ((Blocks.pieces s bytes).map (gatherWord s 0 0)) = little bytes ∧
      (Blocks.pieces s bytes).length = count := by
  induction count generalizing bytes with
  | zero =>
    have empty : bytes = [] := List.length_eq_zero_iff.mp whole
    rw [empty, Blocks.pieces_short (by simpa using pos)]
    exact ⟨rfl, rfl⟩
  | succ count ih =>
    rw [Nat.mul_succ] at whole
    have enough : s ≤ bytes.length := by omega
    have taken : (bytes.take s).length = s := by
      rw [List.length_take]
      omega
    obtain ⟨rest, size⟩ := @ih (bytes.drop s) (by rw [List.length_drop]; omega)
    have word := @gatherWord_toNat s 0 0 (by simp) (bytes.take s) (by omega)
    have base : (2 : Nat) ^ (8 * s) = 256 ^ s := by rw [Nat.pow_mul]
    rw [Blocks.pieces_block pos enough, List.map_cons, number_cons, rest, word,
      List.length_cons, size]
    refine ⟨?_, rfl⟩
    conv_rhs => rw [← List.take_append_drop s bytes, little_append, taken]
    simp [base]

theorem number_fromBe (pos : 0 < s) {count : Nat} {bytes : Bytes}
    (whole : bytes.length = s * count) :
    number (fromBe s bytes) = value bytes ∧ (fromBe s bytes).length = count := by
  obtain ⟨same, size⟩ := @number_pieces s pos count bytes.reverse (by simpa using whole)
  rw [fromBe, List.length_map, value_eq_little]
  exact ⟨same, size⟩

theorem spreadWord_little (word : BitVec (8 * s)) : little (spreadWord s word) = word.toNat := by
  have octets : spreadWord s word = (ofValue s word.toNat).reverse := by
    rw [ByteCounter.ofValue_reverse, spreadWord]
    refine List.map_congr_left fun k _ => ?_
    apply UInt8.toNat_inj.mp
    have base : (256 : Nat) ^ k = 2 ^ (8 * k) := by rw [Nat.pow_mul]
    simp [BitVec.toNat_setWidth, BitVec.toNat_ushiftRight, Nat.shiftRight_eq_div_pow, base]
  have small := word.isLt
  rw [Nat.pow_mul] at small
  rw [octets, ← value_eq_little, ByteCounter.value_ofValue, Nat.mod_eq_of_lt small]

theorem value_toBe (words : List (BitVec (8 * s))) :
    value (toBe s words) = number words ∧ (toBe s words).length = s * words.length := by
  have spread : little (words.flatMap (spreadWord s)) = number words ∧
      (words.flatMap (spreadWord s)).length = s * words.length := by
    induction words with
    | nil => exact ⟨rfl, rfl⟩
    | cons word rest ih =>
      have base : (2 : Nat) ^ (8 * s) = 256 ^ s := by rw [Nat.pow_mul]
      have size : (spreadWord s word).length = s := by simp [spreadWord]
      rw [List.flatMap_cons, little_append, spreadWord_little, ih.1, number_cons,
        List.length_append, ih.2, size, List.length_cons, base]
      exact ⟨rfl, by ring⟩
  rwa [value_eq_little, toBe, List.reverse_reverse, List.length_reverse]

theorem toBe_eq (words : List (BitVec (8 * s))) :
    toBe s words = ofValue (s * words.length) (number words) := by
  obtain ⟨same, size⟩ := value_toBe words
  have bound := ByteCounter.value_lt (toBe s words)
  rw [size, same] at bound
  apply ByteCounter.value_injective
  · rw [size, ByteCounter.ofValue_length]
  · rw [ByteCounter.value_ofValue, same, Nat.mod_eq_of_lt bound]

end TinyCrypto.Mp.Limbs
