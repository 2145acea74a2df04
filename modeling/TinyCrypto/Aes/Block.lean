import TinyCrypto.Common.Bytes
import TinyCrypto.Library.Blocks
import TinyCrypto.Library.ByteCounter

/-! # AES blocks

The block cipher is a parameter: for each key a function of blocks. The cipher of
`aes.c` always completes.
-/

namespace TinyCrypto.Aes

open Library

/-- `TC_AES_BLOCKLEN`. -/
def blockLen : Nat := 16

abbrev Block := Octets blockLen

namespace Block

abbrev zero : Block := Octets.zero blockLen

abbrev ofBytes (bytes : Bytes) : Block := Octets.ofBytes blockLen bytes

/-- `tc_internal_increment_be` on the bytes from `first` on. -/
def increment (first : Nat) (b : Block) : Block :=
  ⟨b.bytes.take first ++ ByteCounter.increment (b.bytes.drop first), by
    rw [List.length_append, ByteCounter.increment_length, List.length_take, List.length_drop,
      b.size]
    omega⟩

end Block

abbrev Cipher := Bytes → Block → Block

/-- The keystream of the counters `next`, `next ∘ next`, … after `start`, counted
    in bytes. -/
def keystream (cipher : Block → Block) (next : Block → Block) (start : Block) (n : Nat) : UInt8 :=
  (cipher (next^[n / blockLen] start)).bytes.getD (n % blockLen) 0

/-- `TC_AES_SBOX_MODE`. -/
inductive SboxMode where
  | runtime
  | fast
  | constantTime
  deriving DecidableEq

def fastSbox : List UInt8 := [
    0x63, 0x7c, 0x77, 0x7b, 0xf2, 0x6b, 0x6f, 0xc5, 0x30, 0x01, 0x67, 0x2b, 0xfe, 0xd7, 0xab, 0x76,
    0xca, 0x82, 0xc9, 0x7d, 0xfa, 0x59, 0x47, 0xf0, 0xad, 0xd4, 0xa2, 0xaf, 0x9c, 0xa4, 0x72, 0xc0,
    0xb7, 0xfd, 0x93, 0x26, 0x36, 0x3f, 0xf7, 0xcc, 0x34, 0xa5, 0xe5, 0xf1, 0x71, 0xd8, 0x31, 0x15,
    0x04, 0xc7, 0x23, 0xc3, 0x18, 0x96, 0x05, 0x9a, 0x07, 0x12, 0x80, 0xe2, 0xeb, 0x27, 0xb2, 0x75,
    0x09, 0x83, 0x2c, 0x1a, 0x1b, 0x6e, 0x5a, 0xa0, 0x52, 0x3b, 0xd6, 0xb3, 0x29, 0xe3, 0x2f, 0x84,
    0x53, 0xd1, 0x00, 0xed, 0x20, 0xfc, 0xb1, 0x5b, 0x6a, 0xcb, 0xbe, 0x39, 0x4a, 0x4c, 0x58, 0xcf,
    0xd0, 0xef, 0xaa, 0xfb, 0x43, 0x4d, 0x33, 0x85, 0x45, 0xf9, 0x02, 0x7f, 0x50, 0x3c, 0x9f, 0xa8,
    0x51, 0xa3, 0x40, 0x8f, 0x92, 0x9d, 0x38, 0xf5, 0xbc, 0xb6, 0xda, 0x21, 0x10, 0xff, 0xf3, 0xd2,
    0xcd, 0x0c, 0x13, 0xec, 0x5f, 0x97, 0x44, 0x17, 0xc4, 0xa7, 0x7e, 0x3d, 0x64, 0x5d, 0x19, 0x73,
    0x60, 0x81, 0x4f, 0xdc, 0x22, 0x2a, 0x90, 0x88, 0x46, 0xee, 0xb8, 0x14, 0xde, 0x5e, 0x0b, 0xdb,
    0xe0, 0x32, 0x3a, 0x0a, 0x49, 0x06, 0x24, 0x5c, 0xc2, 0xd3, 0xac, 0x62, 0x91, 0x95, 0xe4, 0x79,
    0xe7, 0xc8, 0x37, 0x6d, 0x8d, 0xd5, 0x4e, 0xa9, 0x6c, 0x56, 0xf4, 0xea, 0x65, 0x7a, 0xae, 0x08,
    0xba, 0x78, 0x25, 0x2e, 0x1c, 0xa6, 0xb4, 0xc6, 0xe8, 0xdd, 0x74, 0x1f, 0x4b, 0xbd, 0x8b, 0x8a,
    0x70, 0x3e, 0xb5, 0x66, 0x48, 0x03, 0xf6, 0x0e, 0x61, 0x35, 0x57, 0xb9, 0x86, 0xc1, 0x1d, 0x9e,
    0xe1, 0xf8, 0x98, 0x11, 0x69, 0xd9, 0x8e, 0x94, 0x9b, 0x1e, 0x87, 0xe9, 0xce, 0x55, 0x28, 0xdf,
    0x8c, 0xa1, 0x89, 0x0d, 0xbf, 0xe6, 0x42, 0x68, 0x41, 0x99, 0x2d, 0x0f, 0xb0, 0x54, 0xbb, 0x16]

def fastRsbox : List UInt8 := [
    0x52, 0x09, 0x6a, 0xd5, 0x30, 0x36, 0xa5, 0x38, 0xbf, 0x40, 0xa3, 0x9e, 0x81, 0xf3, 0xd7, 0xfb,
    0x7c, 0xe3, 0x39, 0x82, 0x9b, 0x2f, 0xff, 0x87, 0x34, 0x8e, 0x43, 0x44, 0xc4, 0xde, 0xe9, 0xcb,
    0x54, 0x7b, 0x94, 0x32, 0xa6, 0xc2, 0x23, 0x3d, 0xee, 0x4c, 0x95, 0x0b, 0x42, 0xfa, 0xc3, 0x4e,
    0x08, 0x2e, 0xa1, 0x66, 0x28, 0xd9, 0x24, 0xb2, 0x76, 0x5b, 0xa2, 0x49, 0x6d, 0x8b, 0xd1, 0x25,
    0x72, 0xf8, 0xf6, 0x64, 0x86, 0x68, 0x98, 0x16, 0xd4, 0xa4, 0x5c, 0xcc, 0x5d, 0x65, 0xb6, 0x92,
    0x6c, 0x70, 0x48, 0x50, 0xfd, 0xed, 0xb9, 0xda, 0x5e, 0x15, 0x46, 0x57, 0xa7, 0x8d, 0x9d, 0x84,
    0x90, 0xd8, 0xab, 0x00, 0x8c, 0xbc, 0xd3, 0x0a, 0xf7, 0xe4, 0x58, 0x05, 0xb8, 0xb3, 0x45, 0x06,
    0xd0, 0x2c, 0x1e, 0x8f, 0xca, 0x3f, 0x0f, 0x02, 0xc1, 0xaf, 0xbd, 0x03, 0x01, 0x13, 0x8a, 0x6b,
    0x3a, 0x91, 0x11, 0x41, 0x4f, 0x67, 0xdc, 0xea, 0x97, 0xf2, 0xcf, 0xce, 0xf0, 0xb4, 0xe6, 0x73,
    0x96, 0xac, 0x74, 0x22, 0xe7, 0xad, 0x35, 0x85, 0xe2, 0xf9, 0x37, 0xe8, 0x1c, 0x75, 0xdf, 0x6e,
    0x47, 0xf1, 0x1a, 0x71, 0x1d, 0x29, 0xc5, 0x89, 0x6f, 0xb7, 0x62, 0x0e, 0xaa, 0x18, 0xbe, 0x1b,
    0xfc, 0x56, 0x3e, 0x4b, 0xc6, 0xd2, 0x79, 0x20, 0x9a, 0xdb, 0xc0, 0xfe, 0x78, 0xcd, 0x5a, 0xf4,
    0x1f, 0xdd, 0xa8, 0x33, 0x88, 0x07, 0xc7, 0x31, 0xb1, 0x12, 0x10, 0x59, 0x27, 0x80, 0xec, 0x5f,
    0x60, 0x51, 0x7f, 0xa9, 0x19, 0xb5, 0x4a, 0x0d, 0x2d, 0xe5, 0x7a, 0x9f, 0x93, 0xc9, 0x9c, 0xef,
    0xa0, 0xe0, 0x3b, 0x4d, 0xae, 0x2a, 0xf5, 0xb0, 0xc8, 0xeb, 0xbb, 0x3c, 0x83, 0x53, 0x99, 0x61,
    0x17, 0x2b, 0x04, 0x7e, 0xba, 0x77, 0xd6, 0x26, 0xe1, 0x69, 0x14, 0x63, 0x55, 0x21, 0x0c, 0x7d]

/-- `tc_aes_xtime`. -/
def xtime (x : UInt8) : UInt8 := (x <<< 1) ^^^ (((x >>> 7) &&& 1) * 0x1b)

/-- The loop of `tc_aes_sbox_multiply`. -/
def sboxMultiplyLoop : Nat → UInt8 → UInt8 → UInt8 → UInt8
  | 0, result, _, _ => result
  | passes + 1, result, a, b =>
    sboxMultiplyLoop passes (result ^^^ ((0 - (b &&& 1) : UInt8) &&& a))
      ((a <<< 1) ^^^ ((0x1b : UInt8) &&& ((0 : UInt8) - (a >>> 7)))) (b >>> 1)

/-- `tc_aes_sbox_multiply`. -/
def sboxMultiply (a b : UInt8) : UInt8 := sboxMultiplyLoop 8 0 a b

/-- The loop of `tc_aes_sbox_inverse`; the exponent has eight bits. -/
def sboxInverseLoop : (passes exponent : Nat) → UInt8 → UInt8 → UInt8
  | 0, _, result, _ => result
  | passes + 1, exponent, result, factor =>
    if exponent = 0 then result
    else
      sboxInverseLoop passes (exponent / 2)
        (if exponent % 2 = 1 then sboxMultiply result factor else result)
        (sboxMultiply factor factor)

/-- `tc_aes_sbox_inverse`. -/
def sboxInverse (value : UInt8) : UInt8 := sboxInverseLoop 8 254 1 value

/-- `tc_aes_sbox_rotate_left`. -/
def sboxRotateLeft (value count : UInt8) : UInt8 := (value <<< count) ||| (value >>> (8 - count))

/-- The computation in `tc_aes_sbox_value` and `TC_AES_init_sbox`. -/
def computedSbox (num : UInt8) : UInt8 :=
  let inverse := sboxInverse num
  inverse ^^^ sboxRotateLeft inverse 1 ^^^ sboxRotateLeft inverse 2 ^^^ sboxRotateLeft inverse 3 ^^^
    sboxRotateLeft inverse 4 ^^^ 0x63

/-- The computation in `tc_aes_inverse_sbox_value`. -/
def computedInverseSbox (num : UInt8) : UInt8 :=
  sboxInverse (sboxRotateLeft num 1 ^^^ sboxRotateLeft num 3 ^^^ sboxRotateLeft num 6 ^^^ 0x05)

/-- The first loop of `TC_AES_init_sbox`. -/
def generatedSbox : List UInt8 := (List.range 256).map fun i => computedSbox (UInt8.ofNat i)

/-- The second loop of `TC_AES_init_sbox`. -/
def generatedRsbox : List UInt8 := (List.range 256).foldl
    (fun rsbox i => rsbox.set (generatedSbox.getD i 0).toNat (UInt8.ofNat i))
    (List.replicate 256 0)

/-- `tc_aes_ct_eq_mask_u8`. -/
def ctEqMask (a b : UInt8) : UInt8 := (((a ^^^ b).toUInt32 - 1) >>> 8).toUInt8

/-- `tc_aes_table_scan`. -/
def tableScan (table : List UInt8) (index : UInt8) : UInt8 := (List.range 256).foldl
    (fun value i => value ||| (table.getD i 0 &&& ctEqMask (UInt8.ofNat i) index)) 0

/-- `tc_aes_sbox_value`. -/
def sboxValue : SboxMode → UInt8 → UInt8
  | .runtime, num => tableScan generatedSbox num
  | .fast, num => fastSbox.getD num.toNat 0
  | .constantTime, num => computedSbox num

/-- `tc_aes_inverse_sbox_value`. -/
def inverseSboxValue : SboxMode → UInt8 → UInt8
  | .runtime, num => tableScan generatedRsbox num
  | .fast, num => fastRsbox.getD num.toNat 0
  | .constantTime, num => computedInverseSbox num

theorem forall_byte {p : UInt8 → Prop} (all : ∀ n < 256, p (UInt8.ofNat n)) (byte : UInt8) :
    p byte := by
  have here := all byte.toNat byte.toNat_lt
  rwa [UInt8.ofNat_toNat] at here

theorem and_one (a : UInt8) : a &&& 1 = if a.toNat.testBit 0 then 1 else 0 := by
  have bit : (a &&& 1).toNat = a.toNat &&& 1 := rfl
  refine UInt8.toNat_inj.mp ?_
  rw [bit, Nat.and_one_is_mod, Nat.testBit_zero]
  rcases Nat.mod_two_eq_zero_or_one a.toNat with zero | one
  · rw [zero]
    rfl
  · rw [one]
    rfl

theorem ctEqMask_eq (a b : UInt8) : ctEqMask a b = if a = b then 0xff else 0 := by
  have masks : ∀ difference : UInt8,
      ((difference.toUInt32 - 1) >>> 8).toUInt8 = if difference = 0 then 0xff else 0 :=
    forall_byte (by decide +kernel)
  rw [ctEqMask, masks]
  exact if_congr UInt8.xor_eq_zero_iff rfl rfl

theorem tableScan_eq (table : List UInt8) (index : UInt8) :
    tableScan table index = table.getD index.toNat 0 := by
  have scanned : ∀ count ≤ 256, (List.range count).foldl
      (fun value i => value ||| (table.getD i 0 &&& ctEqMask (UInt8.ofNat i) index)) 0 =
        if index.toNat < count then table.getD index.toNat 0 else 0 := by
    intro count
    induction count with
    | zero => simp
    | succ count ih =>
      intro inside
      rw [List.range_succ, List.foldl_append, ih (by omega), List.foldl_cons, List.foldl_nil,
        ctEqMask_eq]
      by_cases own : index.toNat = count
      · have same : UInt8.ofNat count = index := by rw [← own, UInt8.ofNat_toNat]
        have ones : ∀ byte : UInt8, byte &&& 0xff = byte := fun _ => UInt8.and_neg_one
        simp [own, same, ones]
      · have other : UInt8.ofNat count ≠ index := by
          rintro rfl
          exact own (by simp; omega)
        have same : index.toNat < count + 1 ↔ index.toNat < count := by omega
        simp [other, same]
  have whole := scanned 256 le_rfl
  rwa [if_pos index.toNat_lt] at whole

end TinyCrypto.Aes
