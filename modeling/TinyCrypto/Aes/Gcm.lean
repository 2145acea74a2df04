import TinyCrypto.Aes.Block

/-! # AES-GCM

`aes_gcm.c`: streaming and one-shot encryption and one-shot decryption. `multiply`
is the multiplication in the field of GHASH. Checks of pointers and overlaps are
left out; a refused call returns none and leaves its context as it was.
-/

namespace TinyCrypto.Aes

open Library

/-- `TC_AES_GCM_PHASE_*`. -/
inductive GcmPhase where
  | uninit
  | aad
  | text
  | final
  deriving DecidableEq

/-- `TC_AES_GCM_ctx`. `ghash` holds the `ghash_len` bytes of a started block. -/
structure Gcm where
  key : Bytes
  h : Block
  j0 : Block
  counter : Block
  stream : Block
  streamPos : Nat
  s : Block
  ghash : Bytes
  aadLen : Nat
  textLen : Nat
  tagLen : Nat
  phase : GcmPhase
  deriving DecidableEq

def gcmMaxPlaintextBytes : Nat := 2 ^ 36 - 32
def gcmMaxAadBytes : Nat := (2 ^ 64 - 1) / 8
def gcmMaxIvBytes : Nat := (2 ^ 64 - 1) / 8

namespace Gcm

/-- `TC_AES_GCM_ctx_clear`. -/
def cleared : Gcm where
  key := []
  h := Block.zero
  j0 := Block.zero
  counter := Block.zero
  stream := Block.zero
  streamPos := 0
  s := Block.zero
  ghash := []
  aadLen := 0
  textLen := 0
  tagLen := 0
  phase := .uninit

section

variable (multiply : Block → Block → Block)

/-- `tc_aes_gcm_ghash_block`. -/
def ghashBlock (ctx : Gcm) (block : Bytes) : Gcm :=
  { ctx with s := multiply (ctx.s.xor (Block.ofBytes block)) ctx.h }

/-- `tc_aes_gcm_pad_ghash`. -/
def padGhash (ctx : Gcm) : Gcm :=
  if ctx.ghash.length ≠ 0 then { ctx.ghashBlock multiply ctx.ghash with ghash := [] } else ctx

/-- `tc_aes_gcm_start_text`. -/
def startText (ctx : Gcm) : Gcm :=
  if ctx.phase ≠ .aad then ctx else { ctx.padGhash multiply with phase := .text }

/-- The loop of `tc_aes_gcm_absorb`. A pass takes at least one byte. -/
def absorbLoop : (passes : Nat) → Gcm → Bytes → Gcm
  | 0, ctx, _ => ctx
  | passes + 1, ctx, data =>
    if data.length = 0 then ctx
    else if ctx.ghash.length = 0 && data.length ≥ blockLen then
      absorbLoop passes (ctx.ghashBlock multiply (data.take blockLen)) (data.drop blockLen)
    else
      let count := min data.length (blockLen - ctx.ghash.length)
      let ctx := { ctx with ghash := ctx.ghash ++ data.take count }
      if ctx.ghash.length = blockLen then
        absorbLoop passes { ctx.ghashBlock multiply ctx.ghash with ghash := [] }
          (data.drop count)
      else absorbLoop passes ctx (data.drop count)

/-- `tc_aes_gcm_absorb`. -/
def absorb (ctx : Gcm) (data : Bytes) : Gcm := absorbLoop multiply data.length ctx data

/-- `tc_aes_gcm_make_j0`. -/
def makeJ0 (ctx : Gcm) (iv : Bytes) : Gcm :=
  let ctx := { ctx with s := Block.zero, ghash := [] }
  if iv.length = 12 then { ctx with j0 := Block.ofBytes (iv ++ [0, 0, 0, 1]), s := Block.zero }
  else
    let ctx := (ctx.absorb multiply iv).padGhash multiply
    let ctx := ctx.ghashBlock multiply
      (List.replicate 8 0 ++ ByteCounter.ofValue 8 (iv.length * 8))
    { ctx with j0 := ctx.s, s := Block.zero }

/-- `tc_aes_gcm_finish_ghash`. -/
def finishGhash (ctx : Gcm) : Gcm :=
  let ctx := ctx.padGhash multiply
  ctx.ghashBlock multiply
    (ByteCounter.ofValue 8 (ctx.aadLen * 8) ++ ByteCounter.ofValue 8 (ctx.textLen * 8))

end

section

variable (aes : Cipher)

/-- The loop of `tc_aes_gcm_gctr`: the context and the bytes written. A pass takes
    at least one byte. -/
def gctrLoop : (passes : Nat) → Gcm → Bytes → Gcm × Bytes
  | 0, ctx, _ => (ctx, [])
  | passes + 1, ctx, buf =>
    if buf.length = 0 then (ctx, [])
    else
      let ctx := if ctx.streamPos = blockLen then
          let counter := ctx.counter.increment 12
          { ctx with counter, stream := aes ctx.key counter, streamPos := 0 }
        else ctx
      let count := min buf.length (blockLen - ctx.streamPos)
      let written := List.zipWith (· ^^^ ·) (buf.take count)
        (ctx.stream.bytes.drop ctx.streamPos)
      let (ctx, later) := gctrLoop passes { ctx with streamPos := ctx.streamPos + count }
        (buf.drop count)
      (ctx, written ++ later)

/-- `tc_aes_gcm_gctr`. -/
def gctr (ctx : Gcm) (buf : Bytes) : Gcm × Bytes := gctrLoop aes buf.length ctx buf

/-- `tc_aes_gcm_make_tag`. -/
def makeTag (ctx : Gcm) : Bytes := ((aes ctx.key ctx.j0).xor ctx.s).bytes.take ctx.tagLen

end

/-- `tc_aes_gcm_tag_length_is_allowed`. -/
def tagLengthIsAllowed (tagLen : Nat) (shortTag : Bool) : Bool :=
  if shortTag then tagLen = 4 || tagLen = 8 else 12 ≤ tagLen && tagLen ≤ 16

/-- `tc_aes_gcm_packet_lengths_ok`. -/
def packetLengthsOk (tagLen aadLen textLen extraText : Nat) : Bool :=
  if tagLen ≠ 4 && tagLen ≠ 8 then true
  else
    let limit := if tagLen = 4 then 2 ^ 10 else 2 ^ 25
    if aadLen > limit || textLen > limit - aadLen then false
    else extraText ≤ limit - aadLen - textLen

section

variable (aes : Cipher) (multiply : Block → Block → Block) (keyLen : Nat)

/-- `tc_aes_gcm_init_impl`. -/
def init (key iv : Bytes) (tagLen : Nat) (shortTag : Bool) : Option Gcm :=
  if key.length ≠ keyLen || iv.length = 0 || iv.length > gcmMaxIvBytes ||
      !tagLengthIsAllowed tagLen shortTag then none
  else
    let ctx := { cleared with key, h := aes key Block.zero }
    let ctx := ctx.makeJ0 multiply iv
    some
      { ctx with
        counter := ctx.j0, aadLen := 0, textLen := 0, streamPos := blockLen, tagLen,
        phase := .aad }

/-- `TC_AES_GCM_aad_update`. -/
def aadUpdate (ctx : Gcm) (aad : Bytes) : Option Gcm :=
  if ctx.phase ≠ .aad || aad.length > gcmMaxAadBytes - ctx.aadLen ||
      !packetLengthsOk ctx.tagLen ctx.aadLen ctx.textLen aad.length then none
  else
    let ctx := ctx.absorb multiply aad
    some { ctx with aadLen := ctx.aadLen + aad.length }

/-- `TC_AES_GCM_encrypt_update`: the context and the ciphertext in the buffer. -/
def encryptUpdate (ctx : Gcm) (buf : Bytes) : Option (Gcm × Bytes) :=
  if ctx.phase = .uninit || ctx.phase = .final || buf.length > gcmMaxPlaintextBytes - ctx.textLen ||
      !packetLengthsOk ctx.tagLen ctx.aadLen ctx.textLen buf.length then none
  else
    let (ctx, buf) := (ctx.startText multiply).gctr aes buf
    let ctx := ctx.absorb multiply buf
    some ({ ctx with textLen := ctx.textLen + buf.length }, buf)

/-- `TC_AES_GCM_encrypt_finish`: the consumed context and the tag. -/
def encryptFinish (ctx : Gcm) (capacity : Nat) : Option (Gcm × Bytes) :=
  if ctx.phase = .uninit || ctx.phase = .final || capacity < ctx.tagLen ||
      !packetLengthsOk ctx.tagLen ctx.aadLen ctx.textLen 0 then none
  else
    let ctx := (ctx.startText multiply).finishGhash multiply
    some ({ cleared with phase := .final }, ctx.makeTag aes)

end

end Gcm

/-- `tc_aes_gcm_oneshot_args_ok`. -/
def gcmArgsOk (keyLen : Nat) (key iv aad input : Bytes) (capacity tagLen : Nat)
    (shortTag : Bool) : Bool :=
  key.length = keyLen && iv.length ≠ 0 && Gcm.tagLengthIsAllowed tagLen shortTag &&
    iv.length ≤ gcmMaxIvBytes && aad.length ≤ gcmMaxAadBytes &&
    input.length ≤ gcmMaxPlaintextBytes && input.length ≤ capacity &&
    Gcm.packetLengthsOk tagLen aad.length input.length 0

def overwrite (buffer bytes : Bytes) : Bytes := bytes ++ buffer.drop bytes.length

section

variable (aes : Cipher) (multiply : Block → Block → Block) (keyLen : Nat)

/-- `tc_aes_gcm_encrypt_impl`: the ciphertext and the tag. -/
def gcmEncrypt (key iv aad plaintext : Bytes) (capacity tagCapacity : Nat) (shortTag : Bool) :
    Option (Bytes × Bytes) := do
  if gcmArgsOk keyLen key iv aad plaintext capacity tagCapacity shortTag then
    let ctx ← Gcm.init aes multiply keyLen key iv tagCapacity shortTag
    let ctx ← ctx.aadUpdate multiply aad
    let (ctx, ciphertext) ← ctx.encryptUpdate aes multiply plaintext
    let (_, tag) ← ctx.encryptFinish aes multiply tagCapacity
    return (ciphertext, tag)
  else none

/-- `tc_aes_gcm_decrypt_impl`, for an output buffer with the given contents: the
    status and the contents after the call. -/
def gcmDecrypt (key iv aad ciphertext tag output : Bytes) (shortTag : Bool) : Bool × Bytes :=
  if gcmArgsOk keyLen key iv aad ciphertext output.length tag.length shortTag then
    let verified : Option Gcm := do
      let ctx ← Gcm.init aes multiply keyLen key iv tag.length shortTag
      let ctx ← ctx.aadUpdate multiply aad
      let ctx := (ctx.startText multiply).absorb multiply ciphertext
      let ctx := { ctx with textLen := ciphertext.length }
      let ctx := ctx.finishGhash multiply
      if ctx.makeTag aes = tag then return ctx else none
    match verified with
    | some ctx => (true, overwrite output (ctx.gctr aes ciphertext).2)
    | none => (false, overwrite output (List.replicate ciphertext.length 0))
  else (false, output)

end

namespace Sp80038d

def inc32 (b : Block) : Block :=
  ⟨b.bytes.take 12 ++ ByteCounter.ofValue 4 (ByteCounter.value (b.bytes.drop 12) + 1), by
    simp [b.size, blockLen]⟩

def pad (x : Bytes) : Bytes := x ++ List.replicate ((blockLen - x.length % blockLen) % blockLen) 0

section

variable (multiply : Block → Block → Block) (h : Block)

def ghashStep (y : Block) (block : Bytes) : Block := multiply (y.xor (Block.ofBytes block)) h

def ghash (x : Bytes) : Block := (Blocks.pieces blockLen x).foldl (ghashStep multiply h) Block.zero

def j0 (iv : Bytes) : Block := if iv.length = 12 then Block.ofBytes (iv ++ [0, 0, 0, 1])
  else ghash multiply h (pad iv ++ (List.replicate 8 0 ++ ByteCounter.ofValue 8 (iv.length * 8)))

end

def gctr (cipher : Block → Block) (icb : Block) (x : Bytes) : Bytes :=
  Blocks.xorAt (keystream cipher inc32 icb) 0 x

def tag (cipher : Block → Block) (multiply : Block → Block → Block) (iv aad ciphertext : Bytes)
    (tagLen : Nat) : Bytes :=
  let h := cipher Block.zero
  let s := ghash multiply h (pad aad ++ pad ciphertext ++
    (ByteCounter.ofValue 8 (aad.length * 8) ++ ByteCounter.ofValue 8 (ciphertext.length * 8)))
  (gctr cipher (j0 multiply h iv) s.bytes).take tagLen

def encrypt (cipher : Block → Block) (multiply : Block → Block → Block)
    (iv aad plaintext : Bytes) (tagLen : Nat) : Bytes × Bytes :=
  let ciphertext := gctr cipher (inc32 (j0 multiply (cipher Block.zero) iv)) plaintext
  (ciphertext, tag cipher multiply iv aad ciphertext tagLen)

end Sp80038d

open Sp80038d

variable {aes : Cipher} {multiply : Block → Block → Block} {h : Block}

theorem increment_eq_inc32 (b : Block) : b.increment 12 = inc32 b := by
  refine Octets.ext ?_
  have size : (b.bytes.drop 12).length = 4 := by
    rw [List.length_drop, b.size]
    rfl
  simp only [Block.increment, inc32]
  rw [ByteCounter.increment_eq_ofValue, size]

theorem blockLen_pos : 0 < blockLen := by decide

theorem ofBytes_zeros {x : Bytes} (count : Nat) (full : x.length + count = blockLen) :
    Block.ofBytes (x ++ List.replicate count 0) = Block.ofBytes x := by
  simp only [Octets.ofBytes, Octets.mk.injEq, List.append_assoc, List.replicate_append_replicate]
  rw [List.take_append, List.take_append]
  congr 1
  rw [List.take_replicate, List.take_replicate]
  congr 1
  omega

namespace Gcm

/-- The context hashed the stream `x`. -/
def Hashed (multiply : Block → Block → Block) (ctx : Gcm) (x : Bytes) : Prop :=
  (ctx.s, ctx.ghash) = Blocks.fold blockLen (ghashStep multiply ctx.h) Block.zero x

variable {ctx : Gcm} {x : Bytes}

theorem Hashed.short (hashed : Hashed multiply ctx x) : ctx.ghash.length < blockLen := by
  have rest := @Blocks.fold_rest_length Block UInt8 blockLen (ghashStep multiply ctx.h) blockLen_pos
    Block.zero x
  rw [← hashed] at rest
  rw [rest]
  exact Nat.mod_lt _ blockLen_pos

def withHash (ctx : Gcm) (state : Block × Bytes) : Gcm :=
  { ctx with s := state.1, ghash := state.2 }

theorem absorbLoop_fold (passes : Nat) (data : Bytes) (enough : data.length ≤ passes)
    (short : ctx.ghash.length < blockLen) : ctx.absorbLoop multiply passes data = ctx.withHash
        (Blocks.fold blockLen (ghashStep multiply ctx.h) ctx.s (ctx.ghash ++ data)) := by
  induction passes generalizing ctx data with
  | zero =>
    have none : data = [] := List.length_eq_zero_iff.mp (Nat.le_zero.mp enough)
    rw [none, List.append_nil, Blocks.fold_short short]
    rfl
  | succ passes ih =>
    rw [absorbLoop]
    split
    · rename_i none
      rw [List.length_eq_zero_iff.mp none, List.append_nil, Blocks.fold_short short]
      rfl
    rename_i some
    split
    · rename_i whole
      simp only [Bool.and_eq_true, decide_eq_true_eq] at whole
      have empty : ctx.ghash = [] := List.length_eq_zero_iff.mp whole.1
      have fewer : (data.drop blockLen).length ≤ passes := by
        have := blockLen_pos
        rw [List.length_drop]
        omega
      rw [empty, List.nil_append, Blocks.fold_block blockLen_pos whole.2]
      have later := @ih
        (ctx.withHash (ghashStep multiply ctx.h ctx.s (data.take blockLen), ctx.ghash))
        (data.drop blockLen) fewer short
      refine later.trans ?_
      rw [empty]
      rfl
    · generalize count : min data.length (blockLen - ctx.ghash.length) = taken
      have size : (data.take taken).length = taken := by
        rw [List.length_take]
        omega
      have parts : ctx.ghash ++ data = (ctx.ghash ++ data.take taken) ++ data.drop taken := by
        rw [List.append_assoc, List.take_append_drop]
      have fewer : (data.drop taken).length ≤ passes := by
        rw [List.length_drop]
        omega
      have length : (ctx.ghash ++ data.take taken).length = ctx.ghash.length + taken := by
        rw [List.length_append, size]
      rw [parts]
      simp only
      generalize ctx.ghash ++ data.take taken = joined at length ⊢
      split
      · rename_i full
        rw [Blocks.fold_append blockLen_pos, Blocks.fold_full blockLen_pos full]
        exact @ih (ctx.withHash (ghashStep multiply ctx.h ctx.s joined, []))
          (data.drop taken) fewer blockLen_pos
      · rename_i part
        have less : joined.length < blockLen := by omega
        exact @ih (ctx.withHash (ctx.s, joined)) (data.drop taken) fewer less

section

variable (hashed : Hashed multiply ctx x)

include hashed

theorem Hashed.absorb (data : Bytes) : Hashed multiply (ctx.absorb multiply data) (x ++ data) := by
  rw [Gcm.absorb, absorbLoop_fold _ _ (Nat.le_refl _) hashed.short]
  have parts := @Blocks.fold_append Block UInt8 blockLen (ghashStep multiply ctx.h) blockLen_pos
    Block.zero x data
  rw [← hashed] at parts
  exact parts.symm

theorem Hashed.pad : Hashed multiply (ctx.padGhash multiply) (Sp80038d.pad x) ∧
      (ctx.padGhash multiply).ghash = [] := by
  have rest := @Blocks.fold_rest_length Block UInt8 blockLen (ghashStep multiply ctx.h) blockLen_pos
    Block.zero x
  rw [← hashed] at rest
  have short := hashed.short
  have parts := @Blocks.fold_append Block UInt8 blockLen (ghashStep multiply ctx.h) blockLen_pos
    Block.zero x (List.replicate ((blockLen - x.length % blockLen) % blockLen) 0)
  rw [← hashed, ← rest] at parts
  simp only at rest parts
  unfold padGhash
  split
  · rename_i some
    have count : (blockLen - ctx.ghash.length) % blockLen = blockLen - ctx.ghash.length :=
      Nat.mod_eq_of_lt (by omega)
    have full : (ctx.ghash ++ List.replicate (blockLen - ctx.ghash.length) (0 : UInt8)).length =
        blockLen := by
      rw [List.length_append, List.length_replicate]
      omega
    rw [count, Blocks.fold_full blockLen_pos full] at parts
    refine ⟨?_, rfl⟩
    rw [Hashed, Sp80038d.pad, ← rest, count]
    refine Eq.trans ?_ parts.symm
    simp only [ghashBlock, ghashStep, Prod.mk.injEq, and_true]
    rw [ofBytes_zeros _ (by omega)]
  · rename_i none
    have empty : ctx.ghash = [] := List.length_eq_zero_iff.mp (not_not.mp none)
    refine ⟨?_, empty⟩
    rw [Hashed, Sp80038d.pad, ← rest]
    rw [parts, empty]
    rfl

theorem Hashed.block (empty : ctx.ghash = []) {block : Bytes} (full : block.length = blockLen) :
    Hashed multiply (ctx.ghashBlock multiply block) (x ++ block) := by
  have parts := @Blocks.fold_append Block UInt8 blockLen (ghashStep multiply ctx.h) blockLen_pos
    Block.zero x block
  rw [← hashed, empty, List.nil_append, Blocks.fold_full blockLen_pos full] at parts
  refine Eq.trans ?_ parts.symm
  simp [ghashBlock, ghashStep, empty]

theorem Hashed.ghash : ctx.s = Sp80038d.ghash multiply ctx.h x := by
  have state := congrArg Prod.fst hashed
  rw [Blocks.fold_eq_foldl blockLen_pos] at state
  exact state

end

end Gcm

/-- `TC_AES_GCM_GHASH_MODE`: `BITWISE`, `WIDE` and `FAST_TABLE`. -/
inductive GhashMode where
  | bitwise
  | wide
  | fastTable
  deriving DecidableEq

/-- The loop of `tc_aes_gcm_multiply_x`: the shifted bytes and the bit that fell off. -/
def multiplyXLoop : UInt8 → Bytes → Bytes × UInt8
  | carry, [] => ([], carry)
  | carry, byte :: value =>
    let (shifted, last) := multiplyXLoop (byte &&& 1) value
    (((byte >>> 1) ||| (carry <<< 7)) :: shifted, last)

theorem multiplyXLoop_length (carry : UInt8) (value : Bytes) :
    (multiplyXLoop carry value).1.length = value.length := by
  induction value generalizing carry with
  | nil => rfl
  | cons byte value ih => exact congrArg (· + 1) (ih (byte &&& 1))

/-- `tc_aes_gcm_multiply_x`. -/
def multiplyX (value : Block) : Block :=
  let shifted := multiplyXLoop 0 value.bytes
  ⟨shifted.1.modifyHead (· ^^^ ((0xe1 : UInt8) &&& ((0 : UInt8) - shifted.2))), by
    rw [List.length_modifyHead, multiplyXLoop_length, value.size]⟩

/-- `v[i] & bit_mask` for every byte. -/
def Block.masked (v : Block) (mask : UInt8) : Block :=
  ⟨v.bytes.map (· &&& mask), by rw [List.length_map, v.size]⟩

/-- `bit_mask`. -/
def bitMask (left : Block) (bit : Nat) : UInt8 :=
  (0 : UInt8) - ((left.bytes.getD (bit / 8) 0 >>> UInt8.ofNat (7 - bit % 8)) &&& 1)

/-- The loop of `tc_aes_gcm_multiply_bitwise`. -/
def bitwiseLoop (left : Block) : (passes bit : Nat) → (z v : Block) → Block
  | 0, _, z, _ => z
  | passes + 1, bit, z, v =>
    bitwiseLoop left passes (bit + 1) (z.xor (v.masked (bitMask left bit))) (multiplyX v)

/-- `tc_aes_gcm_multiply_bitwise`. -/
def multiplyBitwise (left right : Block) : Block := bitwiseLoop left 128 0 .zero right

/-- `tc_internal_load_be64`. -/
def loadBe64 (src : Bytes) : UInt64 :=
  (src.take 8).foldl (fun value byte => (value <<< 8) ||| byte.toUInt64) 0

/-- `tc_internal_store_be64`. -/
def storeBe64 (value : UInt64) : Bytes :=
  (List.range 8).map fun i => (value >>> UInt64.ofNat (56 - 8 * i)).toUInt8

/-- The locals of `tc_aes_gcm_multiply_wide`. -/
structure Wide where
  xh : UInt64
  xl : UInt64
  zh : UInt64
  zl : UInt64
  vh : UInt64
  vl : UInt64
  deriving DecidableEq

def Wide.pass (s : Wide) : Wide :=
  let bitMask := (0 : UInt64) - (s.xh >>> 63)
  let reduction := (0xe100000000000000 : UInt64) &&& ((0 : UInt64) - (s.vl &&& 1))
  { xh := (s.xh <<< 1) ||| (s.xl >>> 63)
    xl := s.xl <<< 1
    zh := s.zh ^^^ (s.vh &&& bitMask)
    zl := s.zl ^^^ (s.vl &&& bitMask)
    vh := (s.vh >>> 1) ^^^ reduction
    vl := (s.vl >>> 1) ||| (s.vh <<< 63) }

/-- `tc_aes_gcm_multiply_wide`. -/
def multiplyWide (left right : Block) : Block :=
  let s := Wide.pass^[128] {
    xh := loadBe64 left.bytes
    xl := loadBe64 (left.bytes.drop 8)
    zh := 0
    zl := 0
    vh := loadBe64 right.bytes
    vl := loadBe64 (right.bytes.drop 8) }
  ⟨storeBe64 s.zh ++ storeBe64 s.zl, by simp [storeBe64, blockLen]⟩

/-- The entry of a nibble in `tc_aes_gcm_init_table`. -/
def tableEntry (h : Block) (entry : UInt8) : Block :=
  multiplyBitwise ⟨(entry <<< 4) :: List.replicate 15 0, by simp [blockLen]⟩ h

/-- `tc_aes_gcm_init_table`. -/
def initTable (h : Block) : List Block := (List.range 16).map fun entry => tableEntry h (.ofNat entry)

def nibbleAt (left : Block) (position : Nat) : UInt8 :=
  let byte := left.bytes.getD (position / 2) 0
  if position % 2 = 0 then byte >>> 4 else byte &&& 0x0f

/-- The loop of `tc_aes_gcm_multiply_fast_table`, from `position` down. -/
def fastTableLoop (left : Block) (table : List Block) : (position : Nat) → (value : Block) → Block
  | 0, value => value
  | position + 1, value =>
    let value := multiplyX (multiplyX (multiplyX (multiplyX value)))
    fastTableLoop left table position
      (value.xor (table.getD (nibbleAt left position).toNat .zero))

/-- `tc_aes_gcm_multiply_fast_table`. -/
def multiplyFastTable (left : Block) (table : List Block) : Block :=
  fastTableLoop left table 32 .zero

/-- `tc_aes_gcm_multiply`. The table of a context is the one of its hash key. -/
def gcmMultiply (mode : GhashMode) (left h : Block) : Block := match mode with
  | .bitwise => multiplyBitwise left h
  | .wide => multiplyWide left h
  | .fastTable => multiplyFastTable left (initTable h)

end TinyCrypto.Aes
