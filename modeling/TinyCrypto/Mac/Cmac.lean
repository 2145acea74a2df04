import TinyCrypto.Mac.Core
import TinyCrypto.Library.BitString

/-! # CMAC over a stream of updates

SP 800-38B on the whole message, and the core that holds the last block back until it knows
whether more data follows.
-/

namespace TinyCrypto.Mac

open Library BitString

namespace Sp38b

/-- The constant `R_b` of a block size in bits. -/
def constant (b : Nat) : List Bool :=
  if b = 64 then List.replicate 59 false ++ [true, true, false, true, true]
  else List.replicate 120 false ++ [true, false, false, false, false, true, true, true]

def double (x : List Bool) : List Bool :=
  let shifted := x.tail ++ [false]
  if x.head? = some true then List.zipWith (· ^^ ·) shifted (constant x.length) else shifted

section

variable {width : Nat} (cipher : Octets width → Octets width) (k1 k2 : Octets width)

/-- The bytes before the last block of a message. The empty message is one partial block. -/
def front (width : Nat) (message : Bytes) : Bytes :=
  message.take (width * ((message.length - 1) / width))

def last (width : Nat) (message : Bytes) : Bytes :=
  message.drop (width * ((message.length - 1) / width))

/-- The last block with its subkey: K1 for a nonempty message of whole blocks, otherwise K2
    with the padding. -/
def final (message : Bytes) : Octets width :=
  if message ≠ [] ∧ width ∣ message.length then k1.xor (.ofBytes width (last width message))
  else k2.xor (.ofBytes width (last width message ++ [0x80]))

def chain (message : Bytes) : Octets width :=
  let blocks := (Blocks.pieces width (front width message)).map (Octets.ofBytes width)
  (blocks ++ [final k1 k2 message]).foldl (fun c m => cipher (c.xor m)) (.zero width)

end

/-- `mac` is the CMAC of the message under the subkeys that the cipher gives. -/
def Cmac {width : Nat} (cipher : Octets width → Octets width) (message : Bytes)
    (mac : Octets width) : Prop :=
  ∃ k1 k2 : Octets width, ofOctets k1.bytes = double (ofOctets (cipher (.zero width)).bytes) ∧
    ofOctets k2.bytes = double (ofOctets k1.bytes) ∧ mac = chain cipher k1 k2 message

theorem Cmac.unique {width : Nat} {cipher : Octets width → Octets width} {message : Bytes}
    {mac mac' : Octets width} (first : Cmac cipher message mac)
    (second : Cmac cipher message mac') : mac = mac' := by
  obtain ⟨k1, k2, double1, double2, tag⟩ := first
  obtain ⟨k1', k2', double1', double2', tag'⟩ := second
  have same1 : k1 = k1' :=
    Octets.ext (ofOctets_injective (by rw [k1.size, k1'.size]) (double1.trans double1'.symm))
  have same2 : k2 = k2' := Octets.ext (ofOctets_injective (by rw [k2.size, k2'.size])
      (double2.trans (same1 ▸ double2'.symm)))
  rw [tag, tag', same1, same2]

end Sp38b

variable {width : Nat}

theorem bit_cases {carry : UInt8} (bit : carry = 0 ∨ carry = 1) :
    carry.toNat < 2 ∧ (carry.toNat.testBit 0 = true ↔ carry = 1) := by
  rcases bit with rfl | rfl
  · decide
  · decide

theorem shiftLoop_carry {carry : UInt8} (bit : carry = 0 ∨ carry = 1) (bytes : Bytes) :
    (shiftLoop carry bytes).2 = 0 ∨ (shiftLoop carry bytes).2 = 1 := by
  induction bytes generalizing carry with
  | nil => exact bit
  | cons b rest ih =>
    have top : b >>> 7 = 0 ∨ b >>> 7 = 1 := by
      have high : (b >>> 7).toNat = b.toNat / 128 := by
        simp [UInt8.toNat_shiftRight, Nat.shiftRight_eq_div_pow]
      have small := b.toNat_lt
      rcases show (b >>> 7).toNat = 0 ∨ (b >>> 7).toNat = 1 by omega with zero | one
      · exact .inl (UInt8.toNat_inj.mp zero)
      · exact .inr (UInt8.toNat_inj.mp one)
    exact ih top

theorem shiftLoop_bits {carry : UInt8} (bit : carry = 0 ∨ carry = 1) (bytes : Bytes) :
    (shiftLoop carry bytes).2.toNat.testBit 0 :: ofOctets (shiftLoop carry bytes).1.reverse =
      ofOctets bytes.reverse ++ [carry.toNat.testBit 0] := by
  induction bytes generalizing carry with
  | nil => rfl
  | cons b rest ih =>
    have top : b >>> 7 = 0 ∨ b >>> 7 = 1 := shiftLoop_carry bit [b]
    have later := ih top
    have byte : highBits 8 (b <<< 1 ||| carry).toNat =
        highBits 7 b.toNat ++ [carry.toNat.testBit 0] := by
      have shifted := @highBits_shiftLeft 7 carry.toNat b.toNat (bit_cases bit).1
      rwa [UInt8.toNat_or, UInt8.toNat_shiftLeft]
    have high : (b >>> 7).toNat.testBit 0 = b.toNat.testBit 7 := by
      rw [UInt8.toNat_shiftRight]
      simp
    rw [shiftLoop, List.reverse_cons, List.reverse_cons, ofOctets_append, ofOctets_append,
      ← List.cons_append, later, ofOctets_cons, ofOctets_cons, byte, high, ofOctets_nil,
      List.append_nil, List.append_nil, highBits_succ 7]
    simp

theorem reduceLast_xor (reduction : UInt8) {bytes : Bytes} (filled : 0 < bytes.length) :
    reduceLast reduction 1 bytes =
      List.zipWith (· ^^^ ·) bytes (List.replicate (bytes.length - 1) 0 ++ [reduction]) := by
  have all : reduction &&& (0 - 1) = reduction := by
    have ones : (0 - 1 : UInt8) = -1 := by decide
    rw [ones, UInt8.and_neg_one]
  obtain ⟨front, x, rfl⟩ : ∃ front x, bytes = front ++ [x] :=
    ⟨bytes.dropLast, bytes.getLast (List.length_pos_iff.mp filled),
      (List.dropLast_append_getLast _).symm⟩
  have size : (front ++ [x]).length - 1 = front.length := by simp
  have same : List.zipWith (· ^^^ ·) front (List.replicate front.length 0) = front := by
    clear size filled
    induction front with
    | nil => rfl
    | cons b front ih => simp [List.replicate_succ, ih]
  rw [reduceLast, size, List.modify_eq_set_getElem?, List.zipWith_append (by simp), same, all]
  simp

theorem reduceLast_zero (reduction : UInt8) (bytes : Bytes) :
    reduceLast reduction 0 bytes = bytes := by
  have none : (fun b : UInt8 => b ^^^ (reduction &&& (0 - 0))) = id := by
    funext b
    simp
  rw [reduceLast, none, List.modify_id]

def Reduces (width : Nat) (reduction : UInt8) : Prop :=
  0 < width ∧ ofOctets (List.replicate (width - 1) 0 ++ [reduction]) = Sp38b.constant (8 * width)

theorem reduces_aes : Reduces 16 0x87 := ⟨by decide, by decide⟩

theorem reduces_des : Reduces 8 0x1b := ⟨by decide, by decide⟩

theorem gfDouble_double {reduction : UInt8} (reduces : Reduces width reduction)
    (input : Octets width) :
    ofOctets (gfDouble reduction input).bytes = Sp38b.double (ofOctets input.bytes) := by
  obtain ⟨pos, constant⟩ := reduces
  have bit := shiftLoop_carry (Or.inl (rfl : (0 : UInt8) = 0)) input.bytes.reverse
  have bits := shiftLoop_bits (Or.inl (rfl : (0 : UInt8) = 0)) input.bytes.reverse
  have size : (shiftLoop 0 input.bytes.reverse).1.reverse.length = width := by simp [input.size]
  rw [List.reverse_reverse, show (0 : UInt8).toNat.testBit 0 = false by decide] at bits
  change ofOctets (reduceLast reduction (shiftLoop 0 input.bytes.reverse).2
    (shiftLoop 0 input.bytes.reverse).1.reverse) = _
  generalize shiftLoop 0 input.bytes.reverse = shifted at bit bits size ⊢
  have length : (ofOctets input.bytes).length = 8 * width := by
    rw [ofOctets_length, input.size]
  cases parts : ofOctets input.bytes with
  | nil =>
    rw [parts, List.length_nil] at length
    omega
  | cons top rest =>
    rw [parts, List.cons_append, List.cons.injEq] at bits
    obtain ⟨first, moved⟩ := bits
    rw [Sp38b.double, ← parts, length, parts, List.tail_cons, List.head?_cons, ← moved, ← constant]
    rcases bit with zero | one
    · have unset : top = false := by
        rw [← first, zero]
        decide
      rw [zero, reduceLast_zero, unset]
      rfl
    · have set : top = true := by
        rw [← first, one]
        decide
      have full : shifted.1.reverse.length =
          (List.replicate (width - 1) (0 : UInt8) ++ [reduction]).length := by
        rw [size, List.length_append, List.length_replicate, List.length_singleton]
        omega
      have sum := ofOctets_xor full
      rw [one, reduceLast_xor reduction (by omega), size, set, if_pos rfl, sum]

variable {cipher : Octets width → Octets width}

structure Retained (cipher : Octets width → Octets width) (start : Octets width)
    (chain : Chain width) (message : Bytes) : Prop where
  mac : chain.mac = (Blocks.pieces width (Sp38b.front width message)).foldl (cbcBlock cipher) start
  block : chain.block = Sp38b.last width message

theorem last_length (pos : 0 < width) (message : Bytes) :
    (Sp38b.last width message).length ≤ width ∧
      (message ≠ [] → 0 < (Sp38b.last width message).length) := by
  have parts := Nat.div_add_mod (message.length - 1) width
  have rest := Nat.mod_lt (message.length - 1) pos
  rw [Sp38b.last, List.length_drop]
  refine ⟨by omega, fun filled => ?_⟩
  have := List.length_pos_iff.mpr filled
  omega

theorem Retained.start (start : Octets width) : Retained cipher start ⟨start, []⟩ [] := by
  have none : Blocks.pieces width ([] : Bytes) = [] := by simp [Blocks.pieces]
  constructor
  · rw [Sp38b.front, List.take_nil, none]
    rfl
  · rw [Sp38b.last, List.drop_nil]

variable {chain : Chain width}

theorem Retained.feed (pos : 0 < width) {start : Octets width}
    {message : Bytes} (retained : Retained cipher start chain message) (byte : UInt8) :
    Retained cipher start (feed cipher chain byte) (message ++ [byte]) := by
  have parts := Nat.div_add_mod (message.length - 1) width
  have rest := Nat.mod_lt (message.length - 1) pos
  have size : chain.block.length = message.length - width * ((message.length - 1) / width) := by
    rw [retained.block, Sp38b.last, List.length_drop]
  have grown : (message ++ [byte]).length - 1 = message.length := by simp
  by_cases full : chain.block.length = width
  · have whole : message.length / width = (message.length - 1) / width + 1 := by
      have total : message.length = width * ((message.length - 1) / width + 1) := by
        rw [Nat.mul_succ]
        omega
      rw [total, Nat.mul_div_cancel_left _ pos, ← total]
    have all : width * (message.length / width) = message.length := by
      rw [whole, Nat.mul_succ]
      omega
    have cut : Sp38b.front width message ++ Sp38b.last width message = message :=
      List.take_append_drop _ _
    constructor
    · have pieces : Blocks.pieces width message =
          Blocks.pieces width (Sp38b.front width message) ++ [Sp38b.last width message] := by
        have aligned : width ∣ (Sp38b.front width message).length := by
          rw [Sp38b.front, List.length_take_of_le (by omega)]
          exact Nat.dvd_mul_right _ _
        have blocks := Blocks.pieces_append pos aligned (Sp38b.last width message)
        have single : Blocks.pieces width (Sp38b.last width message) = [Sp38b.last width message] :=
          Blocks.pieces_full pos (retained.block ▸ full)
        rwa [cut, single] at blocks
      rw [Mac.feed, flush_full full, Sp38b.front, grown, all, List.take_left, pieces,
        List.foldl_append, ← retained.mac, ← retained.block]
      rfl
    · rw [Mac.feed, flush_full full, Sp38b.last, grown, all, List.drop_left]
      rfl
  · have same : message.length / width = (message.length - 1) / width := by
      rcases Nat.eq_zero_or_pos message.length with none | some
      · rw [none]
      · generalize (message.length - 1) / width = count at parts size
        have total : message.length = message.length - width * count + width * count := by omega
        rw [total, Nat.add_mul_div_left _ _ pos, Nat.div_eq_of_lt (by omega), Nat.zero_add]
    constructor
    · rw [Mac.feed, flush_short full, Sp38b.front, grown, same,
        List.take_append_of_le_length (by omega)]
      exact retained.mac
    · rw [Mac.feed, flush_short full, Sp38b.last, grown, same,
        List.drop_append_of_le_length (by omega), retained.block]
      rfl

theorem Retained.fits (pos : 0 < width) {start : Octets width} {chain : Chain width}
    {message : Bytes} (retained : Retained cipher start chain message) :
    chain.block.length ≤ width := by
  rw [retained.block]
  exact (last_length pos message).1

theorem Retained.update (pos : 0 < width) {start : Octets width}
    {message : Bytes} (retained : Retained cipher start chain message) (data : Bytes) :
    Retained cipher start (cbcUpdate cipher chain data true) (message ++ data) := by
  rw [cbcUpdate_retain pos (retained.fits pos)]
  induction data generalizing chain message with
  | nil => simpa using retained
  | cons byte rest ih => simpa using ih (retained.feed pos byte)

theorem xor_comm (a b : Octets width) : a.xor b = b.xor a := by
  apply Octets.ext
  exact List.zipWith_comm_of_comm UInt8.xor_comm

theorem Retained.final (pos : 0 < width) {message : Bytes}
    (retained : Retained cipher (.zero width) chain message) (k1 k2 : Octets width) :
    cmacFinal cipher chain k1 k2 = Sp38b.chain cipher k1 k2 message := by
  have parts := Nat.div_add_mod (message.length - 1) width
  have rest := Nat.mod_lt (message.length - 1) pos
  have size : chain.block.length = message.length - width * ((message.length - 1) / width) := by
    rw [retained.block, Sp38b.last, List.length_drop]
  have complete : chain.block.length = width ↔ message ≠ [] ∧ width ∣ message.length := by
    constructor
    · intro full
      have total : message.length = width * ((message.length - 1) / width + 1) := by
        rw [Nat.mul_succ]
        omega
      refine ⟨?_, Dvd.intro _ total.symm⟩
      rintro rfl
      rw [List.length_nil, Nat.zero_sub] at size
      omega
    · rintro ⟨filled, ⟨count, whole⟩⟩
      have some := List.length_pos_iff.mpr filled
      obtain ⟨less, rfl⟩ : ∃ less, count = less + 1 := by
        cases count with
        | zero =>
          rw [Nat.mul_zero] at whole
          omega
        | succ less => exact ⟨less, rfl⟩
      rw [Nat.mul_succ] at whole
      have before : (message.length - 1) / width = less := by
        rw [whole, show width * less + width - 1 = width - 1 + width * less by omega,
          Nat.add_mul_div_left _ _ pos, Nat.div_eq_of_lt (by omega), Nat.zero_add]
      rw [size, before, whole, Nat.add_sub_cancel_left]
  have chained : chain.mac = ((Blocks.pieces width (Sp38b.front width message)).map
      (Octets.ofBytes width)).foldl (fun c m => cipher (c.xor m)) (.zero width) := by
    rw [List.foldl_map, retained.mac]
    rfl
  have block : ((if chain.block.length ≠ width then Octets.ofBytes width (chain.block ++ [0x80])
      else .ofBytes width chain.block).xor (if chain.block.length = width then k1 else k2)) =
      Sp38b.final k1 k2 message := by
    rw [Sp38b.final, ← retained.block]
    by_cases full : chain.block.length = width
    · rw [if_neg (by simpa using full), if_pos full, if_pos (complete.mp full), xor_comm]
    · rw [if_pos full, if_neg full, if_neg (mt complete.mpr full), xor_comm]
  rw [Sp38b.chain, List.foldl_append, ← chained, cmacFinal, block, cbcBlock, Octets.ofBytes_bytes]
  rfl

structure CmacContext.Holds (cipher : Octets width → Octets width) (reduction : UInt8)
    (ctx : CmacContext width) (message : Bytes) : Prop where
  active : ctx.active = true
  subkeys : (ctx.k1, ctx.k2) = deriveSubkeys cipher reduction
  retained : Retained cipher (.zero width) ctx.chain message

theorem cmacInit_holds (cipher : Octets width → Octets width) (reduction : UInt8) :
    (cmacInit cipher reduction).Holds cipher reduction [] :=
  ⟨rfl, rfl, .start _⟩

variable {reduction : UInt8} {ctx : CmacContext width} {message : Bytes}

theorem CmacContext.Holds.live (pos : 0 < width) (holds : ctx.Holds cipher reduction message) :
    (!ctx.active || decide (ctx.chain.block.length > width)) = false := by
  have fits := holds.retained.fits pos
  simp [holds.active, fits]

theorem CmacContext.Holds.update (pos : 0 < width)
    (holds : ctx.Holds cipher reduction message) (data : Bytes) :
    ∃ after, cmacUpdate cipher ctx data = (true, after) ∧
      after.Holds cipher reduction (message ++ data) := by
  refine ⟨{ ctx with chain := cbcUpdate cipher ctx.chain data true }, ?_, holds.active,
    holds.subkeys, holds.retained.update pos data⟩
  rw [cmacUpdate, holds.live pos]
  rfl

theorem CmacContext.Holds.updates (pos : 0 < width)
    (holds : ctx.Holds cipher reduction message) (parts : List Bytes) :
    (cmacUpdates cipher ctx parts).1 = true ∧
      (cmacUpdates cipher ctx parts).2.Holds cipher reduction (message ++ parts.flatten) := by
  induction parts generalizing ctx message with
  | nil => exact ⟨rfl, by simpa [cmacUpdates] using holds⟩
  | cons data rest ih =>
    obtain ⟨after, step, next⟩ := holds.update pos data
    obtain ⟨all, later⟩ := ih next
    rw [cmacUpdates, step]
    simp only [all, Bool.and_self, List.flatten_cons, ← List.append_assoc]
    exact ⟨trivial, later⟩

theorem CmacContext.Holds.final (reduces : Reduces width reduction)
    (holds : ctx.Holds cipher reduction message) :
    ∃ tag, (cmacFinalize cipher ctx).1 = some tag ∧ Sp38b.Cmac cipher message tag ∧
      (cmacFinalize cipher ctx).2 = .clear width := by
  have subkeys := holds.subkeys
  rw [deriveSubkeys, Prod.mk.injEq] at subkeys
  obtain ⟨first, second⟩ := subkeys
  refine ⟨cmacFinal cipher ctx.chain ctx.k1 ctx.k2, ?_, ⟨ctx.k1, ctx.k2, ?_, ?_, ?_⟩, ?_⟩
  · rw [cmacFinalize, holds.live reduces.1]
    rfl
  · rw [first, gfDouble_double reduces]
  · rw [second, ← first, gfDouble_double reduces]
  · exact holds.retained.final reduces.1 _ _
  · rw [cmacFinalize, holds.live reduces.1]
    rfl

theorem cmacParts_cmac (reduces : Reduces width reduction) (parts : List Bytes) :
    Sp38b.Cmac cipher parts.flatten (cmacParts cipher (.zero width) parts
      (deriveSubkeys cipher reduction).1 (deriveSubkeys cipher reduction).2) := by
  have run : ∀ (parts : List Bytes) {chain : Chain width} {message : Bytes},
      Retained cipher (.zero width) chain message →
      Retained cipher (.zero width)
        (parts.foldl (fun chain part => cbcUpdate cipher chain part true) chain)
        (message ++ parts.flatten) := by
    intro parts
    induction parts with
    | nil =>
      intro chain message retained
      simpa using retained
    | cons part rest ih =>
      intro chain message retained
      simpa using ih (retained.update reduces.1 part)
  have retained := run parts (.start _)
  refine ⟨_, _, gfDouble_double reduces _, gfDouble_double reduces _, ?_⟩
  exact retained.final reduces.1 _ _

theorem exists_cmac (reduces : Reduces width reduction) (cipher : Octets width → Octets width)
    (message : Bytes) : ∃ tag, Sp38b.Cmac cipher message tag := by
  have cmac := @cmacParts_cmac _ cipher _ reduces [message]
  rw [List.flatten_singleton] at cmac
  exact ⟨_, cmac⟩

end TinyCrypto.Mac
