import TinyCrypto.Common.Bytes
import TinyCrypto.Library.ByteCounter

/-! # DES and TDEA

`des.c` in its two builds: `TC_DES_SBOX_MODE_FAST` looks the S-boxes up in combined tables,
`TC_DES_SBOX_MODE_CONSTANT_TIME` evaluates their algebraic normal form for all output bits
at once. The builds also pack the round keys differently.
-/

namespace TinyCrypto.Des

open Library

/-- `TC_DES_BLOCKLEN`, and `TC_DES_KEYLEN` with the lengths of two and three keys. -/
def blockLen : Nat := 8

def keyLen : Nat := 8

def keyLen2Key : Nat := 16

def keyLen3Key : Nat := 24

/-- `TC_DES_SBOX_MODE`. -/
inductive SboxMode where
  | constantTime
  | fast
  deriving DecidableEq

def sp1 : List (BitVec 32) :=
  [0x00808200, 0x00000000, 0x00008000, 0x00808202, 0x00808002, 0x00008202, 0x00000002,
    0x00008000, 0x00000200, 0x00808200, 0x00808202, 0x00000200, 0x00800202, 0x00808002,
    0x00800000, 0x00000002, 0x00000202, 0x00800200, 0x00800200, 0x00008200, 0x00008200,
    0x00808000, 0x00808000, 0x00800202, 0x00008002, 0x00800002, 0x00800002, 0x00008002,
    0x00000000, 0x00000202, 0x00008202, 0x00800000, 0x00008000, 0x00808202, 0x00000002,
    0x00808000, 0x00808200, 0x00800000, 0x00800000, 0x00000200, 0x00808002, 0x00008000,
    0x00008200, 0x00800002, 0x00000200, 0x00000002, 0x00800202, 0x00008202, 0x00808202,
    0x00008002, 0x00808000, 0x00800202, 0x00800002, 0x00000202, 0x00008202, 0x00808200,
    0x00000202, 0x00800200, 0x00800200, 0x00000000, 0x00008002, 0x00008200, 0x00000000, 0x00808002]

def sp2 : List (BitVec 32) :=
  [0x40084010, 0x40004000, 0x00004000, 0x00084010, 0x00080000, 0x00000010, 0x40080010,
    0x40004010, 0x40000010, 0x40084010, 0x40084000, 0x40000000, 0x40004000, 0x00080000,
    0x00000010, 0x40080010, 0x00084000, 0x00080010, 0x40004010, 0x00000000, 0x40000000,
    0x00004000, 0x00084010, 0x40080000, 0x00080010, 0x40000010, 0x00000000, 0x00084000,
    0x00004010, 0x40084000, 0x40080000, 0x00004010, 0x00000000, 0x00084010, 0x40080010,
    0x00080000, 0x40004010, 0x40080000, 0x40084000, 0x00004000, 0x40080000, 0x40004000,
    0x00000010, 0x40084010, 0x00084010, 0x00000010, 0x00004000, 0x40000000, 0x00004010,
    0x40084000, 0x00080000, 0x40000010, 0x00080010, 0x40004010, 0x40000010, 0x00080010,
    0x00084000, 0x00000000, 0x40004000, 0x00004010, 0x40000000, 0x40080010, 0x40084010, 0x00084000]

def sp3 : List (BitVec 32) :=
  [0x00000104, 0x04010100, 0x00000000, 0x04010004, 0x04000100, 0x00000000, 0x00010104,
    0x04000100, 0x00010004, 0x04000004, 0x04000004, 0x00010000, 0x04010104, 0x00010004,
    0x04010000, 0x00000104, 0x04000000, 0x00000004, 0x04010100, 0x00000100, 0x00010100,
    0x04010000, 0x04010004, 0x00010104, 0x04000104, 0x00010100, 0x00010000, 0x04000104,
    0x00000004, 0x04010104, 0x00000100, 0x04000000, 0x04010100, 0x04000000, 0x00010004,
    0x00000104, 0x00010000, 0x04010100, 0x04000100, 0x00000000, 0x00000100, 0x00010004,
    0x04010104, 0x04000100, 0x04000004, 0x00000100, 0x00000000, 0x04010004, 0x04000104,
    0x00010000, 0x04000000, 0x04010104, 0x00000004, 0x00010104, 0x00010100, 0x04000004,
    0x04010000, 0x04000104, 0x00000104, 0x04010000, 0x00010104, 0x00000004, 0x04010004, 0x00010100]

def sp4 : List (BitVec 32) :=
  [0x80401000, 0x80001040, 0x80001040, 0x00000040, 0x00401040, 0x80400040, 0x80400000,
    0x80001000, 0x00000000, 0x00401000, 0x00401000, 0x80401040, 0x80000040, 0x00000000,
    0x00400040, 0x80400000, 0x80000000, 0x00001000, 0x00400000, 0x80401000, 0x00000040,
    0x00400000, 0x80001000, 0x00001040, 0x80400040, 0x80000000, 0x00001040, 0x00400040,
    0x00001000, 0x00401040, 0x80401040, 0x80000040, 0x00400040, 0x80400000, 0x00401000,
    0x80401040, 0x80000040, 0x00000000, 0x00000000, 0x00401000, 0x00001040, 0x00400040,
    0x80400040, 0x80000000, 0x80401000, 0x80001040, 0x80001040, 0x00000040, 0x80401040,
    0x80000040, 0x80000000, 0x00001000, 0x80400000, 0x80001000, 0x00401040, 0x80400040,
    0x80001000, 0x00001040, 0x00400000, 0x80401000, 0x00000040, 0x00400000, 0x00001000, 0x00401040]

def sp5 : List (BitVec 32) :=
  [0x00000080, 0x01040080, 0x01040000, 0x21000080, 0x00040000, 0x00000080, 0x20000000,
    0x01040000, 0x20040080, 0x00040000, 0x01000080, 0x20040080, 0x21000080, 0x21040000,
    0x00040080, 0x20000000, 0x01000000, 0x20040000, 0x20040000, 0x00000000, 0x20000080,
    0x21040080, 0x21040080, 0x01000080, 0x21040000, 0x20000080, 0x00000000, 0x21000000,
    0x01040080, 0x01000000, 0x21000000, 0x00040080, 0x00040000, 0x21000080, 0x00000080,
    0x01000000, 0x20000000, 0x01040000, 0x21000080, 0x20040080, 0x01000080, 0x20000000,
    0x21040000, 0x01040080, 0x20040080, 0x00000080, 0x01000000, 0x21040000, 0x21040080,
    0x00040080, 0x21000000, 0x21040080, 0x01040000, 0x00000000, 0x20040000, 0x21000000,
    0x00040080, 0x01000080, 0x20000080, 0x00040000, 0x00000000, 0x20040000, 0x01040080, 0x20000080]

def sp6 : List (BitVec 32) :=
  [0x10000008, 0x10200000, 0x00002000, 0x10202008, 0x10200000, 0x00000008, 0x10202008,
    0x00200000, 0x10002000, 0x00202008, 0x00200000, 0x10000008, 0x00200008, 0x10002000,
    0x10000000, 0x00002008, 0x00000000, 0x00200008, 0x10002008, 0x00002000, 0x00202000,
    0x10002008, 0x00000008, 0x10200008, 0x10200008, 0x00000000, 0x00202008, 0x10202000,
    0x00002008, 0x00202000, 0x10202000, 0x10000000, 0x10002000, 0x00000008, 0x10200008,
    0x00202000, 0x10202008, 0x00200000, 0x00002008, 0x10000008, 0x00200000, 0x10002000,
    0x10000000, 0x00002008, 0x10000008, 0x10202008, 0x00202000, 0x10200000, 0x00202008,
    0x10202000, 0x00000000, 0x10200008, 0x00000008, 0x00002000, 0x10200000, 0x00202008,
    0x00002000, 0x00200008, 0x10002008, 0x00000000, 0x10202000, 0x10000000, 0x00200008, 0x10002008]

def sp7 : List (BitVec 32) :=
  [0x00100000, 0x02100001, 0x02000401, 0x00000000, 0x00000400, 0x02000401, 0x00100401,
    0x02100400, 0x02100401, 0x00100000, 0x00000000, 0x02000001, 0x00000001, 0x02000000,
    0x02100001, 0x00000401, 0x02000400, 0x00100401, 0x00100001, 0x02000400, 0x02000001,
    0x02100000, 0x02100400, 0x00100001, 0x02100000, 0x00000400, 0x00000401, 0x02100401,
    0x00100400, 0x00000001, 0x02000000, 0x00100400, 0x02000000, 0x00100400, 0x00100000,
    0x02000401, 0x02000401, 0x02100001, 0x02100001, 0x00000001, 0x00100001, 0x02000000,
    0x02000400, 0x00100000, 0x02100400, 0x00000401, 0x00100401, 0x02100400, 0x00000401,
    0x02000001, 0x02100401, 0x02100000, 0x00100400, 0x00000000, 0x00000001, 0x02100401,
    0x00000000, 0x00100401, 0x02100000, 0x00000400, 0x02000001, 0x02000400, 0x00000400, 0x00100001]

def sp8 : List (BitVec 32) :=
  [0x08000820, 0x00000800, 0x00020000, 0x08020820, 0x08000000, 0x08000820, 0x00000020,
    0x08000000, 0x00020020, 0x08020000, 0x08020820, 0x00020800, 0x08020800, 0x00020820,
    0x00000800, 0x00000020, 0x08020000, 0x08000020, 0x08000800, 0x00000820, 0x00020800,
    0x00020020, 0x08020020, 0x08020800, 0x00000820, 0x00000000, 0x00000000, 0x08020020,
    0x08000020, 0x08000800, 0x00020820, 0x00020000, 0x00020820, 0x00020000, 0x08020800,
    0x00000800, 0x00000020, 0x08020020, 0x00000800, 0x00020820, 0x08000800, 0x00000020,
    0x08000020, 0x08020000, 0x08020020, 0x08000000, 0x00020000, 0x08000820, 0x00000000,
    0x08020820, 0x00020020, 0x08000020, 0x08020000, 0x08000800, 0x08000820, 0x00000000,
    0x08020820, 0x00020800, 0x00020800, 0x00000820, 0x00000820, 0x00020020, 0x08000000, 0x08020800]

def sboxOutputMasks : List (BitVec 32) :=
  [0x00808202, 0x40084010, 0x04010104, 0x80401040, 0x21040080, 0x10202008, 0x02100401, 0x08020820]

def sboxAnf : List (BitVec 32) :=
  [0xd8d8dbbc, 0x0fed827d, 0x5bde2ffd, 0xb1409cc2, 0xc4344efe, 0x994199c4, 0xb74b9f80,
    0x18a17754, 0xaacffd09, 0x310456d4, 0x6423d3ee, 0x30048804, 0x5b802384, 0x7984ae84,
    0x73c0208d, 0xb154ad95, 0x57d29dbe, 0xa85bd242, 0xa80102e6, 0xe86318c4, 0x291da33d,
    0x6b038292, 0x8928cde6, 0xe2527748, 0x92b93275, 0xc14f8a07, 0x202143c0, 0x010151c2,
    0x08c13385, 0x984636c5, 0x00000000, 0x00000000, 0xce9f72dc, 0xbc70ed87, 0x15e29e03,
    0xd94e56e3, 0x20d201e7, 0x97c21166, 0x6c4ea18e, 0x9a6f690d, 0xf530cdaa, 0xb9604089,
    0xdce27ca7, 0x1128dd6c, 0x4880a3e2, 0x6a803ce6, 0x61d420cb, 0xa241b7c7, 0xe471c301,
    0x640da284, 0xe443c0e6, 0x27895a46, 0xe1c11fe5, 0x5b946a04, 0xa1e81f7b, 0x593aa394,
    0xe4ad8fab, 0xbf5de609, 0x64438e59, 0xf8e3deda, 0xe9d593e7, 0x1c848eaf, 0x00000000, 0x00000000]

def pc1C : List Nat :=
  [57, 49, 41, 33, 25, 17, 9, 1, 58, 50, 42, 34, 26, 18, 10, 2, 59, 51, 43, 35, 27, 19, 11, 3,
    60, 52, 44, 36]

def pc1D : List Nat :=
  [63, 55, 47, 39, 31, 23, 15, 7, 62, 54, 46, 38, 30, 22, 14, 6, 61, 53, 45, 37, 29, 21, 13, 5,
    28, 20, 12, 4]

def pc2 : List Nat :=
  [14, 17, 11, 24, 1, 5, 3, 28, 15, 6, 21, 10, 23, 19, 12, 4, 26, 8, 16, 7, 27, 20, 13, 2, 41,
    52, 31, 37, 47, 55, 30, 40, 51, 45, 33, 48, 44, 49, 39, 56, 34, 53, 46, 42, 50, 36, 29, 32]

def shifts : List Nat := [1, 1, 2, 2, 2, 2, 2, 2, 1, 2, 2, 2, 2, 2, 2, 1]

/-- `tc_des_keys_equal`. -/
def keysEqual (left right : Bytes) : Bool := (List.range keyLen).foldl
    (fun diff i => diff ||| ((left.getD i 0 ^^^ right.getD i 0) &&& 0xfe)) 0 = 0

def desWeakKeys : List Bytes := [[0x01, 0x01, 0x01, 0x01, 0x01, 0x01, 0x01, 0x01],
    [0xfe, 0xfe, 0xfe, 0xfe, 0xfe, 0xfe, 0xfe, 0xfe],
    [0xe0, 0xe0, 0xe0, 0xe0, 0xf1, 0xf1, 0xf1, 0xf1],
    [0x1f, 0x1f, 0x1f, 0x1f, 0x0e, 0x0e, 0x0e, 0x0e],
    [0x01, 0xfe, 0x01, 0xfe, 0x01, 0xfe, 0x01, 0xfe],
    [0xfe, 0x01, 0xfe, 0x01, 0xfe, 0x01, 0xfe, 0x01],
    [0x1f, 0xe0, 0x1f, 0xe0, 0x0e, 0xf1, 0x0e, 0xf1],
    [0xe0, 0x1f, 0xe0, 0x1f, 0xf1, 0x0e, 0xf1, 0x0e],
    [0x01, 0xe0, 0x01, 0xe0, 0x01, 0xf1, 0x01, 0xf1],
    [0xe0, 0x01, 0xe0, 0x01, 0xf1, 0x01, 0xf1, 0x01],
    [0x1f, 0xfe, 0x1f, 0xfe, 0x0e, 0xfe, 0x0e, 0xfe],
    [0xfe, 0x1f, 0xfe, 0x1f, 0xfe, 0x0e, 0xfe, 0x0e],
    [0x01, 0x1f, 0x01, 0x1f, 0x01, 0x0e, 0x01, 0x0e],
    [0x1f, 0x01, 0x1f, 0x01, 0x0e, 0x01, 0x0e, 0x01],
    [0xe0, 0xfe, 0xe0, 0xfe, 0xf1, 0xfe, 0xf1, 0xfe],
    [0xfe, 0xe0, 0xfe, 0xe0, 0xfe, 0xf1, 0xfe, 0xf1]]

/-- `tc_des_key_is_weak`. -/
def keyIsWeak (key : Bytes) : Bool :=
  desWeakKeys.foldl (fun weak candidate => weak || keysEqual key candidate) false

/-- `tc_des_bundle_is_rejected`. -/
def bundleIsRejected (key : Bytes) (keylen : Nat) : Bool := if keyIsWeak key then true
  else if keylen ≥ keyLen2Key &&
      (keyIsWeak (key.drop keyLen) || keysEqual key (key.drop keyLen)) then true
  else keylen = keyLen3Key &&
    (keyIsWeak (key.drop (2 * keyLen)) || keysEqual (key.drop keyLen) (key.drop (2 * keyLen)))

/-- `tc_des_get_key_bit`. -/
def getKeyBit (key : Bytes) (bit1Based : Nat) : BitVec 8 :=
  let byteIdx := (bit1Based - 1) / 8
  let bitIdx := 7 - (bit1Based - 1) % 8
  ((key.getD byteIdx 0).toBitVec >>> bitIdx) &&& 1

namespace SboxMode

/-- The width of the words of `TC_DES_round_key`. -/
def width : SboxMode → Nat
  | .fast => 32
  | .constantTime => 8

/-- How many words `TC_DES_round_key` has. -/
def words : SboxMode → Nat
  | .fast => 2
  | .constantTime => 6

def word : SboxMode → Nat → Nat
  | .fast, i =>
    let group := i / 6
    if group &&& 1 = 0 then 1 else 0
  | .constantTime, i => i / 8

def shiftInWord : SboxMode → Nat → Nat
  | .fast, i =>
    let group := i / 6
    let byte := 3 - group / 2
    byte * 8 + 5 - i % 6
  | .constantTime, i => 7 - i % 8

end SboxMode

/-- `TC_DES_round_key`. -/
abbrev RoundKey (mode : SboxMode) := List (BitVec mode.width)

/-- Shift one bit of the key into `C` and one into `D`. -/
def permuteKey (key : Bytes) (halves : BitVec 32 × BitVec 32) (i : Nat) : BitVec 32 × BitVec 32 :=
  (halves.1 <<< 1 ||| (getKeyBit key (pc1C.getD i 0)).setWidth 32,
    halves.2 <<< 1 ||| (getKeyBit key (pc1D.getD i 0)).setWidth 32)

def rotateHalf (half : BitVec 32) (shift : Nat) : BitVec 32 :=
  (half <<< shift ||| half >>> (28 - shift)) &&& 0x0FFFFFFF

/-- The bit of `C` or `D` that PC-2 selects. -/
def bitVal (c d : BitVec 32) (i : Nat) : BitVec 8 :=
  let bitPos := pc2.getD i 0
  if bitPos ≤ 28 then (c >>> (28 - bitPos) &&& 1).setWidth 8
  else (d >>> (56 - bitPos) &&& 1).setWidth 8

def packRound (mode : SboxMode) (c d : BitVec 32) : RoundKey mode := (List.range 48).foldl
    (fun row i => row.modify (mode.word i)
      (· ||| (bitVal c d i).setWidth mode.width <<< mode.shiftInWord i))
    (List.replicate mode.words 0)

/-- The rounds of `tc_des_key_schedule`. -/
def scheduleRounds (mode : SboxMode) : (shifts : List Nat) → BitVec 32 → BitVec 32 →
    List (RoundKey mode)
  | [], _, _ => []
  | shift :: rest, c, d =>
    let c := rotateHalf c shift
    let d := rotateHalf d shift
    packRound mode c d :: scheduleRounds mode rest c d

/-- `tc_des_key_schedule`. -/
def keySchedule (mode : SboxMode) (key : Bytes) : List (RoundKey mode) :=
  let (c, d) := (List.range 28).foldl (permuteKey key) (0, 0)
  scheduleRounds mode shifts c d

/-- `tc_des_schedule_key`. -/
def scheduleKey (mode : SboxMode) (key : Bytes) : List (RoundKey mode) :=
  let first := keySchedule mode key
  if key.length = keyLen then first
  else
    let second := keySchedule mode (key.drop keyLen)
    if key.length = keyLen2Key then first ++ second ++ first
    else first ++ second ++ keySchedule mode (key.drop keyLen2Key)

/-- `tc_des_initial_permutation`. -/
def initialPermutation (L R : BitVec 32) : BitVec 32 × BitVec 32 :=
  let t := (L >>> 4 ^^^ R) &&& 0x0F0F0F0F
  let R := R ^^^ t
  let L := L ^^^ t <<< 4
  let t := (L >>> 16 ^^^ R) &&& 0x0000FFFF
  let R := R ^^^ t
  let L := L ^^^ t <<< 16
  let t := (R >>> 2 ^^^ L) &&& 0x33333333
  let L := L ^^^ t
  let R := R ^^^ t <<< 2
  let t := (R >>> 8 ^^^ L) &&& 0x00FF00FF
  let L := L ^^^ t
  let R := R ^^^ t <<< 8
  let t := (L >>> 1 ^^^ R) &&& 0x55555555
  let R := R ^^^ t
  let L := L ^^^ t <<< 1
  (L, R)

/-- `tc_des_final_permutation`. -/
def finalPermutation (L R : BitVec 32) : BitVec 32 × BitVec 32 :=
  let t := (R >>> 1 ^^^ L) &&& 0x55555555
  let L := L ^^^ t
  let R := R ^^^ t <<< 1
  let t := (L >>> 8 ^^^ R) &&& 0x00FF00FF
  let R := R ^^^ t
  let L := L ^^^ t <<< 8
  let t := (L >>> 2 ^^^ R) &&& 0x33333333
  let R := R ^^^ t
  let L := L ^^^ t <<< 2
  let t := (R >>> 16 ^^^ L) &&& 0x0000FFFF
  let L := L ^^^ t
  let R := R ^^^ t <<< 16
  let t := (R >>> 4 ^^^ L) &&& 0x0F0F0F0F
  let L := L ^^^ t
  let R := R ^^^ t <<< 4
  (L, R)

/-- `tc_des_input_plane`. -/
def inputPlane (inputs : List (BitVec 8)) (bit : Nat) : BitVec 32 := (List.range 8).foldl
    (fun plane box =>
      let selected := 0 - ((inputs.getD box 0 >>> bit) &&& 1).setWidth 32
      plane ||| (selected &&& sboxOutputMasks.getD box 0))
    0

def monomialTerm (planes : List (BitVec 32)) (monomial : Nat) : BitVec 32 := (List.range 6).foldl
    (fun term bit => if monomial &&& (1 <<< bit) ≠ 0 then term &&& planes.getD bit 0 else term)
    (BitVec.allOnes 32)

/-- `tc_des_round`. -/
def anfRound (inputs : List (BitVec 8)) : BitVec 32 :=
  let planes := (List.range 6).map (inputPlane inputs)
  (List.range' 1 63).foldl
    (fun result monomial => result ^^^ (monomialTerm planes monomial &&& sboxAnf.getD monomial 0))
    (sboxAnf.getD 0 0)

def splitKey (packed : RoundKey .constantTime) : List (BitVec 8) :=
  let byte (i : Nat) : BitVec 8 := packed.getD i 0
  [byte 0 >>> 2, (byte 0 &&& 0x03) <<< 4 ||| byte 1 >>> 4,
    (byte 1 &&& 0x0f) <<< 2 ||| byte 2 >>> 6, byte 2 &&& 0x3f,
    byte 3 >>> 2, (byte 3 &&& 0x03) <<< 4 ||| byte 4 >>> 4,
    (byte 4 &&& 0x0f) <<< 2 ||| byte 5 >>> 6, byte 5 &&& 0x3f]

def expandHalf (R : BitVec 32) : List (BitVec 8) :=
  [((R &&& 1) <<< 5 ||| (R >>> 27 &&& 0x1F)).setWidth 8, (R >>> 23 &&& 0x3F).setWidth 8,
    (R >>> 19 &&& 0x3F).setWidth 8, (R >>> 15 &&& 0x3F).setWidth 8,
    (R >>> 11 &&& 0x3F).setWidth 8, (R >>> 7 &&& 0x3F).setWidth 8,
    (R >>> 3 &&& 0x3F).setWidth 8, ((R &&& 0x1F) <<< 1 ||| (R >>> 31 &&& 1)).setWidth 8]

def sixBits (t : BitVec 32) (shift : Nat) : Nat := (t >>> shift &&& 0x3f).toNat

def fastRound (row : RoundKey .fast) (R : BitVec 32) : BitVec 32 :=
  let word (i : Nat) : BitVec 32 := row.getD i 0
  let t := (R <<< 1 ||| R >>> 31) ^^^ word 0
  let fRes := sp8.getD (sixBits t 0) 0 ^^^ sp6.getD (sixBits t 8) 0 ^^^
    sp4.getD (sixBits t 16) 0 ^^^ sp2.getD (sixBits t 24) 0
  let t := (R >>> 3 ||| R <<< 29) ^^^ word 1
  fRes ^^^ (sp7.getD (sixBits t 0) 0 ^^^ sp5.getD (sixBits t 8) 0 ^^^
    sp3.getD (sixBits t 16) 0 ^^^ sp1.getD (sixBits t 24) 0)

def roundFunction : (mode : SboxMode) → RoundKey mode → BitVec 32 → BitVec 32
  | .fast, row, R => fastRound row R
  | .constantTime, row, R => anfRound (List.zipWith (· ^^^ ·) (expandHalf R) (splitKey row))

/-- `tc_internal_load_be32`. -/
def loadBe32 (src : Bytes) : BitVec 32 := .ofNat 32 (ByteCounter.value (src.take 4))

def storeBe32 (word : BitVec 32) : Bytes :=
  [24, 16, 8, 0].map fun shift => UInt8.ofBitVec ((word >>> shift).setWidth 8)

/-- The rounds of `tc_des_cipher_block`. -/
def rounds (mode : SboxMode) (sk : List (RoundKey mode)) (decrypt : Bool)
    (halves : BitVec 32 × BitVec 32) : BitVec 32 × BitVec 32 :=
  (List.range 16).foldl
    (fun (L, R) i =>
      let r := if decrypt then 15 - i else i
      (R, L ^^^ roundFunction mode (sk.getD r []) R))
    halves

/-- `tc_des_cipher_block`. -/
def cipherBlock (mode : SboxMode) (sk : List (RoundKey mode)) (buf : Octets blockLen)
    (decrypt : Bool) : Octets blockLen :=
  let (L, R) := initialPermutation (loadBe32 buf.bytes) (loadBe32 (buf.bytes.drop 4))
  let (L, R) := rounds mode sk decrypt (L, R)
  let (L, R) := finalPermutation L R
  ⟨storeBe32 R ++ storeBe32 L, rfl⟩

/-- `tc_des_encrypt_scheduled`. -/
def encryptScheduled (mode : SboxMode) (sk : List (RoundKey mode)) (block : Octets blockLen)
    (triple : Bool) : Octets blockLen :=
  let block := cipherBlock mode sk block false
  if triple then
    let block := cipherBlock mode (sk.drop 16) block true
    cipherBlock mode (sk.drop 32) block false
  else block

/-- `tc_des_decrypt_scheduled`. -/
def decryptScheduled (mode : SboxMode) (sk : List (RoundKey mode)) (block : Octets blockLen)
    (triple : Bool) : Octets blockLen :=
  if !triple then cipherBlock mode sk block true
  else
    let block := cipherBlock mode (sk.drop 32) block true
    let block := cipherBlock mode (sk.drop 16) block false
    cipherBlock mode sk block true

end TinyCrypto.Des
