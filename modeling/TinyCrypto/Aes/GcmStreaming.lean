import TinyCrypto.Aes.Gcm

/-! # The keystream of a GCM context

`gctr` adds the key bytes from the position where the previous call stopped. -/

namespace TinyCrypto.Aes

open Library
open Sp80038d

namespace Gcm

variable {aes : Cipher} {multiply : Block → Block → Block} {ctx : Gcm}

def keyByte (aes : Cipher) (ctx : Gcm) : Nat → UInt8 := keystream (aes ctx.key) inc32 (inc32 ctx.j0)

/-- The next key byte is the one at position `n`. -/
def KeyAt (aes : Cipher) (ctx : Gcm) (n : Nat) : Prop := if n % blockLen = 0 then
    ctx.streamPos = blockLen ∧ ctx.counter = inc32^[n / blockLen] ctx.j0
  else
    ctx.streamPos = n % blockLen ∧ ctx.counter = inc32^[n / blockLen + 1] ctx.j0 ∧
      ctx.stream = aes ctx.key ctx.counter

def withKey (ctx : Gcm) (counter stream : Block) (streamPos : Nat) : Gcm :=
  { ctx with counter, stream, streamPos }

/-- A loaded keystream block that covers position `n`. -/
def Loaded (aes : Cipher) (ctx : Gcm) (n : Nat) : Prop :=
  ctx.streamPos = n % blockLen ∧ ctx.counter = inc32^[n / blockLen + 1] ctx.j0 ∧
    ctx.stream = aes ctx.key ctx.counter

def loadBlock (aes : Cipher) (ctx : Gcm) : Gcm := if ctx.streamPos = blockLen then
    ctx.withKey (ctx.counter.increment 12) (aes ctx.key (ctx.counter.increment 12)) 0
  else ctx

theorem gctrLoop_pass (passes : Nat) {buf : Bytes} (some : buf.length ≠ 0) (count : Nat)
    (taken : min buf.length (blockLen - (ctx.loadBlock aes).streamPos) = count) :
    ctx.gctrLoop aes (passes + 1) buf =
      (((ctx.loadBlock aes).withKey (ctx.loadBlock aes).counter (ctx.loadBlock aes).stream
          ((ctx.loadBlock aes).streamPos + count)).gctrLoop aes passes (buf.drop count) |>.1,
        List.zipWith (· ^^^ ·) (buf.take count)
            ((ctx.loadBlock aes).stream.bytes.drop (ctx.loadBlock aes).streamPos) ++
          (((ctx.loadBlock aes).withKey (ctx.loadBlock aes).counter (ctx.loadBlock aes).stream
            ((ctx.loadBlock aes).streamPos + count)).gctrLoop aes passes (buf.drop count)).2) := by
  rw [gctrLoop, if_neg some, ← taken]
  rfl

theorem KeyAt.load {n : Nat} (key : KeyAt aes ctx n) : Loaded aes (ctx.loadBlock aes) n := by
  rw [KeyAt] at key
  rw [loadBlock]
  split at key
  · rename_i start
    obtain ⟨place, counter⟩ := key
    rw [if_pos place]
    refine ⟨start.symm, ?_, rfl⟩
    change ctx.counter.increment 12 = inc32^[n / blockLen + 1] ctx.j0
    rw [increment_eq_inc32, counter, Function.iterate_succ_apply']
  · obtain ⟨place, counter, stream⟩ := key
    have inside : n % blockLen < blockLen := Nat.mod_lt _ blockLen_pos
    rw [if_neg (by omega)]
    exact ⟨place, counter, stream⟩

theorem Loaded.keyByte {n : Nat} (loaded : Loaded aes ctx n) {i : Nat}
    (inside : n % blockLen + i < blockLen) :
    keyByte aes ctx (n + i) = ctx.stream.bytes.getD (ctx.streamPos + i) 0 := by
  obtain ⟨place, counter, stream⟩ := loaded
  have whole : (n + i) / blockLen = n / blockLen := by
    rw [blockLen] at inside ⊢
    omega
  have part : (n + i) % blockLen = n % blockLen + i := by
    rw [blockLen] at inside ⊢
    omega
  rw [Gcm.keyByte, keystream, whole, part, place, stream, counter, Function.iterate_succ_apply]

theorem Loaded.advance {n count : Nat} (loaded : Loaded aes ctx n) (some : 0 < count)
    (inside : n % blockLen + count ≤ blockLen) :
    KeyAt aes (ctx.withKey ctx.counter ctx.stream (ctx.streamPos + count)) (n + count) := by
  obtain ⟨place, counter, stream⟩ := loaded
  rw [KeyAt]
  split
  · rename_i start
    have whole : (n + count) / blockLen = n / blockLen + 1 := by
      rw [blockLen] at inside start ⊢
      omega
    refine ⟨?_, ?_⟩
    · change ctx.streamPos + count = blockLen
      rw [blockLen] at inside start place ⊢
      omega
    · rw [whole]
      exact counter
  · rename_i within
    have same : (n + count) / blockLen = n / blockLen := by
      rw [blockLen] at inside within ⊢
      omega
    refine ⟨?_, ?_, stream⟩
    · change ctx.streamPos + count = (n + count) % blockLen
      rw [blockLen] at inside within place ⊢
      omega
    · rw [same]
      exact counter

theorem loadBlock_withKey (aes : Cipher) (ctx : Gcm) :
    ctx.loadBlock aes = ctx.withKey (ctx.loadBlock aes).counter (ctx.loadBlock aes).stream
      (ctx.loadBlock aes).streamPos := by
  rw [loadBlock]
  split <;> rfl

theorem gctrLoop_keystream {passes n : Nat} {buf : Bytes} (enough : buf.length ≤ passes)
    (key : KeyAt aes ctx n) : ∃ counter stream streamPos, ctx.gctrLoop aes passes buf =
          (ctx.withKey counter stream streamPos, Blocks.xorAt (keyByte aes ctx) n buf) ∧
        KeyAt aes (ctx.withKey counter stream streamPos) (n + buf.length) := by
  induction passes generalizing ctx n buf with
  | zero =>
    have none : buf = [] := List.length_eq_zero_iff.mp (Nat.le_zero.mp enough)
    subst none
    exact ⟨ctx.counter, ctx.stream, ctx.streamPos, rfl, key⟩
  | succ passes ih =>
    by_cases none : buf.length = 0
    · rw [List.length_eq_zero_iff.mp none]
      exact ⟨ctx.counter, ctx.stream, ctx.streamPos, rfl, key⟩
    have loaded := key.load
    have place : (ctx.loadBlock aes).streamPos = n % blockLen := loaded.1
    have below : n % blockLen < blockLen := Nat.mod_lt _ blockLen_pos
    generalize taken : min buf.length (blockLen - (ctx.loadBlock aes).streamPos) = count
    rw [gctrLoop_pass passes none count taken]
    have fewer : (buf.drop count).length ≤ passes := by
      rw [List.length_drop]
      omega
    have size : (buf.take count).length = count := by
      rw [List.length_take]
      omega
    have pos : 0 < count := by omega
    have inside : n % blockLen + count ≤ blockLen := by omega
    obtain ⟨counter, stream, streamPos, later, ends⟩ := ih fewer (loaded.advance pos inside)
    have same : ctx.loadBlock aes = ctx.withKey _ _ _ := loadBlock_withKey aes ctx
    refine ⟨counter, stream, streamPos, ?_, ?_⟩
    · rw [later]
      refine Prod.ext ?_ ?_
      · rw [same]
        rfl
      · have bytes : Gcm.keyByte aes (ctx.loadBlock aes) = Gcm.keyByte aes ctx := by
          rw [same]
          rfl
        have here := @Blocks.xorAt_block (Gcm.keyByte aes ctx) n
          (ctx.loadBlock aes).streamPos (buf.take count) (ctx.loadBlock aes).stream.bytes
          (by rw [size, Octets.size]; omega)
          (by
            intro i small
            rw [← bytes]
            exact loaded.keyByte (by omega))
        have split := Blocks.xorAt_append (Gcm.keyByte aes ctx) n (buf.take count)
          (buf.drop count)
        rw [List.take_append_drop, here, size] at split
        refine Eq.trans ?_ split.symm
        rw [same]
        rfl
    · rw [List.length_drop] at ends
      have total : n + count + (buf.length - count) = n + buf.length := by omega
      rw [total, same] at ends
      exact ends

/-- What `gctr` writes, and where it stops. -/
theorem gctr_keystream {n : Nat} (key : KeyAt aes ctx n) (buf : Bytes) : ∃ counter stream streamPos,
      ctx.gctr aes buf =
          (ctx.withKey counter stream streamPos, Blocks.xorAt (keyByte aes ctx) n buf) ∧
        KeyAt aes (ctx.withKey counter stream streamPos) (n + buf.length) :=
  gctrLoop_keystream (Nat.le_refl _) key

end Gcm

namespace Sp80038d

theorem pad_length (x : Bytes) : (pad x).length % blockLen = 0 := by
  rw [pad, List.length_append, List.length_replicate]
  simp only [blockLen]
  omega

theorem pad_append {x : Bytes} (whole : x.length % blockLen = 0) (y : Bytes) :
    pad (x ++ y) = x ++ pad y := by
  have same : (x ++ y).length % blockLen = y.length % blockLen := by
    rw [List.length_append, Nat.add_mod, whole, Nat.zero_add, Nat.mod_mod]
  rw [pad, same, pad, List.append_assoc]

theorem gctr_block (cipher : Block → Block) (icb block : Block) :
    gctr cipher icb block.bytes = ((cipher icb).xor block).bytes := by
  have mask := @Blocks.xorAt_block (keystream cipher inc32 icb) 0 0 block.bytes
    (cipher icb).bytes (by rw [Octets.size, Octets.size]; exact Nat.le_refl _) (by
      intro i small
      rw [Octets.size] at small
      rw [Nat.zero_add, keystream, Nat.div_eq_of_lt small, Nat.mod_eq_of_lt small]
      rfl)
  rw [gctr, mask, List.drop_zero]
  exact List.zipWith_comm_of_comm UInt8.xor_comm

end Sp80038d

namespace Gcm

variable {aes : Cipher} {multiply : Block → Block → Block} {keyLen : Nat} {ctx : Gcm}

theorem absorb_withHash (short : ctx.ghash.length < blockLen) (data : Bytes) :
    ∃ state, ctx.absorb multiply data = ctx.withHash state :=
  ⟨_, absorbLoop_fold _ _ (Nat.le_refl _) short⟩

theorem padGhash_withHash (multiply : Block → Block → Block) (ctx : Gcm) :
    ∃ state, ctx.padGhash multiply = ctx.withHash state := by
  rw [padGhash]
  split
  · exact ⟨(ghashStep multiply ctx.h ctx.s ctx.ghash, []), rfl⟩
  · exact ⟨(ctx.s, ctx.ghash), rfl⟩

theorem packetLengthsOk_aad (tagLen aadLen textLen extra : Nat) :
    packetLengthsOk tagLen aadLen textLen extra =
      packetLengthsOk tagLen (aadLen + extra) textLen 0 := by
  unfold packetLengthsOk
  split
  · rfl
  simp only
  generalize (if tagLen = 4 then 2 ^ 10 else 2 ^ 25) = limit
  simp only [Bool.or_eq_true, decide_eq_true_eq]
  split <;> split <;> simp <;> omega

theorem packetLengthsOk_text (tagLen aadLen textLen extra : Nat) :
    packetLengthsOk tagLen aadLen textLen extra =
      packetLengthsOk tagLen aadLen (textLen + extra) 0 := by
  unfold packetLengthsOk
  split
  · rfl
  simp only
  generalize (if tagLen = 4 then 2 ^ 10 else 2 ^ 25) = limit
  simp only [Bool.or_eq_true, decide_eq_true_eq]
  split <;> split <;> simp <;> omega

theorem packetLengthsOk_empty {tagLen aadLen textLen : Nat}
    (ok : packetLengthsOk tagLen aadLen textLen 0 = true) :
    packetLengthsOk tagLen aadLen 0 0 = true := by
  unfold packetLengthsOk at ok ⊢
  split
  · rfl
  rename_i short
  rw [if_neg short] at ok
  simp only at ok ⊢
  generalize (if tagLen = 4 then 2 ^ 10 else 2 ^ 25) = limit at ok ⊢
  simp only [Bool.or_eq_true, decide_eq_true_eq] at ok ⊢
  split at ok
  · cases ok
  · rw [if_neg (by omega)]
    simp

/-- The context accepted `aad` and encrypted `plaintext` so far. -/
structure Streaming (aes : Cipher) (multiply : Block → Block → Block) (key iv : Bytes)
    (tagLen : Nat) (ctx : Gcm) (aad plaintext : Bytes) : Prop where
  sameKey : ctx.key = key
  sameH : ctx.h = aes key Block.zero
  sameJ0 : ctx.j0 = Sp80038d.j0 multiply (aes key Block.zero) iv
  sameTagLen : ctx.tagLen = tagLen
  aadLen : ctx.aadLen = aad.length
  textLen : ctx.textLen = plaintext.length
  aadFits : aad.length ≤ gcmMaxAadBytes
  textFits : plaintext.length ≤ gcmMaxPlaintextBytes
  packet : packetLengthsOk tagLen aad.length plaintext.length 0 = true
  keyAt : KeyAt aes ctx plaintext.length
  hash : (ctx.phase = .aad ∧ plaintext = [] ∧ Hashed multiply ctx aad) ∨ (ctx.phase = .text ∧
      Hashed multiply ctx (pad aad ++ Blocks.xorAt (keyByte aes ctx) 0 plaintext))

variable {key iv aad plaintext : Bytes} {tagLen : Nat}

theorem Streaming.short (streaming : Streaming aes multiply key iv tagLen ctx aad plaintext) :
    ctx.ghash.length < blockLen := by
  obtain ⟨_, _, hashed⟩ | ⟨_, hashed⟩ := streaming.hash
  · exact hashed.short
  · exact hashed.short

theorem hashed_nil (empty : ctx.s = Block.zero) (none : ctx.ghash = []) :
    Hashed multiply ctx [] := by
  rw [Hashed, empty, none]
  rfl

theorem makeJ0_spec (ctx : Gcm) (iv : Bytes) : ctx.makeJ0 multiply iv =
      { ctx with s := Block.zero, ghash := [], j0 := Sp80038d.j0 multiply ctx.h iv } := by
  rw [makeJ0, Sp80038d.j0]
  simp only
  split
  · rfl
  · have start : Hashed multiply { ctx with s := Block.zero, ghash := [] } [] := hashed_nil rfl rfl
    obtain ⟨first, kept⟩ := @absorb_withHash multiply _ start.short iv
    obtain ⟨second, padded⟩ := padGhash_withHash multiply
      (Gcm.absorb multiply { ctx with s := Block.zero, ghash := [] } iv)
    have hashed := (start.absorb iv).pad
    have full : (List.replicate 8 (0 : UInt8) ++
        ByteCounter.ofValue 8 (iv.length * 8)).length = blockLen := by
      simp [blockLen]
    have last := (hashed.1.block hashed.2 full).ghash
    have none := hashed.2
    simp only [kept, List.nil_append] at padded last none ⊢
    simp only [padded] at last none ⊢
    change second.2 = [] at none
    rw [last]
    change Gcm.mk ctx.key ctx.h _ ctx.counter ctx.stream ctx.streamPos Block.zero second.2
      ctx.aadLen ctx.textLen ctx.tagLen ctx.phase = _
    rw [none]
    rfl

theorem init_streaming {shortTag : Bool}
    (accepted : init aes multiply keyLen key iv tagLen shortTag = some ctx) :
    Streaming aes multiply key iv tagLen ctx [] [] ∧ ctx.phase = .aad ∧ key.length = keyLen ∧
      iv.length ≠ 0 ∧ iv.length ≤ gcmMaxIvBytes ∧ tagLengthIsAllowed tagLen shortTag = true := by
  rw [init] at accepted
  split at accepted
  · cases accepted
  rename_i allowed
  simp only [Bool.or_eq_true, decide_eq_true_eq, not_or, Bool.not_eq_true', Nat.not_lt, gt_iff_lt,
    not_not, Bool.not_eq_false, ne_eq] at allowed
  obtain ⟨⟨⟨keySize, ivSome⟩, ivFits⟩, tagOk⟩ := allowed
  simp only [makeJ0_spec] at accepted
  cases accepted
  refine ⟨⟨rfl, rfl, rfl, rfl, rfl, rfl, Nat.zero_le _, Nat.zero_le _, ?_, ?_, ?_⟩, rfl, keySize,
    ivSome, ivFits, tagOk⟩
  · rw [packetLengthsOk]
    split
    · rfl
    · simp
  · have start : ([] : Bytes).length % blockLen = 0 := rfl
    rw [KeyAt, if_pos start]
    exact ⟨rfl, rfl⟩
  · exact .inl ⟨rfl, rfl, hashed_nil rfl rfl⟩

section

variable (streaming : Streaming aes multiply key iv tagLen ctx aad plaintext)

include streaming

theorem aadUpdate_streaming {next : Gcm} {data : Bytes}
    (accepted : ctx.aadUpdate multiply data = some next) :
    Streaming aes multiply key iv tagLen next (aad ++ data) plaintext ∧ next.phase = .aad := by
  rw [aadUpdate] at accepted
  split at accepted
  · cases accepted
  rename_i allowed
  simp only [Bool.or_eq_true, decide_eq_true_eq, not_or, Bool.not_eq_true', Nat.not_lt, gt_iff_lt,
    not_not, Bool.not_eq_false, ne_eq] at allowed
  obtain ⟨⟨phase, fits⟩, packet⟩ := allowed
  obtain ⟨state, absorbed⟩ := @absorb_withHash multiply ctx streaming.short data
  rw [streaming.sameTagLen, streaming.aadLen, streaming.textLen] at packet
  rw [streaming.aadLen] at fits
  have aadFits := streaming.aadFits
  obtain ⟨_, empty, hashed⟩ | ⟨other, _⟩ := streaming.hash
  · have later := hashed.absorb data
    rw [absorbed] at later
    simp only [absorbed] at accepted
    cases accepted
    refine ⟨⟨streaming.sameKey, streaming.sameH, streaming.sameJ0, streaming.sameTagLen, ?_,
      streaming.textLen, ?_, streaming.textFits, ?_, streaming.keyAt, Or.inl ⟨phase, empty, later⟩⟩,
      phase⟩
    · change ctx.aadLen + data.length = _
      rw [streaming.aadLen, List.length_append]
    · rw [List.length_append]
      omega
    · rw [List.length_append, ← packetLengthsOk_aad]
      exact packet
  · rw [phase] at other
    cases other

theorem startText_streaming :
    Streaming aes multiply key iv tagLen (ctx.startText multiply) aad plaintext ∧
      (ctx.startText multiply).phase = .text := by
  rw [startText]
  obtain ⟨phase, empty, hashed⟩ | ⟨phase, hashed⟩ := streaming.hash
  · obtain ⟨state, padded⟩ := padGhash_withHash multiply ctx
    have later := hashed.pad.1
    rw [if_neg (by rw [phase]; simp), padded]
    rw [padded] at later
    refine ⟨⟨streaming.sameKey, streaming.sameH, streaming.sameJ0, streaming.sameTagLen,
      streaming.aadLen, streaming.textLen, streaming.aadFits, streaming.textFits, streaming.packet,
      streaming.keyAt, Or.inr ⟨rfl, ?_⟩⟩, rfl⟩
    rw [empty, Blocks.xorAt, List.append_nil]
    exact later
  · rw [if_pos (by rw [phase]; simp)]
    exact ⟨streaming, phase⟩

theorem encryptUpdate_streaming {next : Gcm} {buf written : Bytes}
    (accepted : ctx.encryptUpdate aes multiply buf = some (next, written)) :
    Streaming aes multiply key iv tagLen next aad (plaintext ++ buf) ∧ next.phase = .text ∧
      written = Blocks.xorAt (keystream (aes key) inc32
        (inc32 (Sp80038d.j0 multiply (aes key Block.zero) iv))) plaintext.length buf := by
  rw [encryptUpdate] at accepted
  split at accepted
  · cases accepted
  rename_i allowed
  simp only [Bool.or_eq_true, decide_eq_true_eq, not_or, Bool.not_eq_true', Nat.not_lt, gt_iff_lt,
    Bool.not_eq_false] at allowed
  obtain ⟨⟨_, fits⟩, packet⟩ := allowed
  rw [streaming.sameTagLen, streaming.aadLen, streaming.textLen] at packet
  rw [streaming.textLen] at fits
  have textFits := streaming.textFits
  obtain ⟨started, phase⟩ := startText_streaming streaming
  generalize ctx.startText multiply = ctx at accepted started phase
  obtain ⟨counter, stream, streamPos, crypted, keyAt⟩ := gctr_keystream started.keyAt buf
  obtain ⟨other, _⟩ | ⟨_, hashed⟩ := started.hash
  · rw [phase] at other
    cases other
  have bytes : keyByte aes ctx = keystream (aes key) inc32
      (inc32 (Sp80038d.j0 multiply (aes key Block.zero) iv)) := by
    rw [keyByte, started.sameKey, started.sameJ0]
  have kept : Hashed multiply (ctx.withKey counter stream streamPos) _ := hashed
  have later := kept.absorb (Blocks.xorAt (keyByte aes ctx) plaintext.length buf)
  obtain ⟨state, absorbed⟩ := @absorb_withHash multiply (ctx.withKey counter stream streamPos)
    kept.short (Blocks.xorAt (keyByte aes ctx) plaintext.length buf)
  rw [absorbed, List.append_assoc] at later
  simp only [crypted, absorbed] at accepted
  cases accepted
  refine ⟨⟨started.sameKey, started.sameH, started.sameJ0, started.sameTagLen, started.aadLen,
    ?_, started.aadFits, ?_, ?_, ?_, Or.inr ⟨phase, ?_⟩⟩, phase, by rw [bytes]⟩
  · change ctx.textLen + _ = _
    rw [started.textLen, Blocks.xorAt_length, List.length_append]
  · rw [List.length_append]
    omega
  · rw [List.length_append, ← packetLengthsOk_text]
    exact packet
  · rw [List.length_append]
    exact keyAt
  · have joined := Blocks.xorAt_append (keyByte aes ctx) 0 plaintext buf
    rw [Nat.zero_add] at joined
    rw [← joined] at later
    exact later

end

structure Authenticating (aes : Cipher) (multiply : Block → Block → Block) (key iv : Bytes)
    (tagLen : Nat) (ctx : Gcm) (aad ciphertext : Bytes) : Prop where
  sameKey : ctx.key = key
  sameH : ctx.h = aes key Block.zero
  sameJ0 : ctx.j0 = Sp80038d.j0 multiply (aes key Block.zero) iv
  sameTagLen : ctx.tagLen = tagLen
  aadLen : ctx.aadLen = aad.length
  textLen : ctx.textLen = ciphertext.length
  hashed : Hashed multiply ctx (pad aad ++ ciphertext)

theorem finishGhash_withHash (multiply : Block → Block → Block) (ctx : Gcm) :
    ∃ state, ctx.finishGhash multiply = ctx.withHash state := by
  obtain ⟨state, padded⟩ := padGhash_withHash multiply ctx
  rw [finishGhash]
  simp only [padded]
  exact ⟨⟨ghashStep multiply ctx.h state.1 _, state.2⟩, rfl⟩

variable {ciphertext : Bytes}

theorem Authenticating.ghash
    (authenticating : Authenticating aes multiply key iv tagLen ctx aad ciphertext) :
    (ctx.finishGhash multiply).s = Sp80038d.ghash multiply ctx.h (pad aad ++ pad ciphertext ++
        (ByteCounter.ofValue 8 (aad.length * 8) ++
          ByteCounter.ofValue 8 (ciphertext.length * 8))) := by
  obtain ⟨state, padded⟩ := padGhash_withHash multiply ctx
  have done := authenticating.hashed.pad
  rw [pad_append (pad_length aad)] at done
  have full : (ByteCounter.ofValue 8 (aad.length * 8) ++
      ByteCounter.ofValue 8 (ciphertext.length * 8)).length = blockLen := by
    simp [blockLen]
  have last := (done.1.block done.2 full).ghash
  rw [finishGhash]
  rw [padded] at last ⊢
  change ((ctx.withHash state).ghashBlock multiply (ByteCounter.ofValue 8 (ctx.aadLen * 8) ++
    ByteCounter.ofValue 8 (ctx.textLen * 8))).s = _
  rw [authenticating.aadLen, authenticating.textLen]
  exact last

theorem Authenticating.tag
    (authenticating : Authenticating aes multiply key iv tagLen ctx aad ciphertext) :
    (ctx.finishGhash multiply).makeTag aes =
      Sp80038d.tag (aes key) multiply iv aad ciphertext tagLen := by
  obtain ⟨state, kept⟩ := finishGhash_withHash multiply ctx
  rw [makeTag, authenticating.ghash, kept]
  change ((aes ctx.key ctx.j0).xor _).bytes.take ctx.tagLen = _
  rw [authenticating.sameKey, authenticating.sameJ0, authenticating.sameTagLen,
    authenticating.sameH]
  simp only [Sp80038d.tag]
  rw [gctr_block]

theorem Streaming.authenticating
    (streaming : Streaming aes multiply key iv tagLen ctx aad plaintext)
    (phase : ctx.phase = .text) : Authenticating aes multiply key iv tagLen ctx aad
      (encrypt (aes key) multiply iv aad plaintext tagLen).1 := by
  have cipher : Blocks.xorAt (keyByte aes ctx) 0 plaintext =
      (encrypt (aes key) multiply iv aad plaintext tagLen).1 := by
    rw [keyByte, streaming.sameKey, streaming.sameJ0]
    rfl
  obtain ⟨other, _⟩ | ⟨_, hashed⟩ := streaming.hash
  · rw [phase] at other
    cases other
  · rw [cipher] at hashed
    refine ⟨streaming.sameKey, streaming.sameH, streaming.sameJ0, streaming.sameTagLen,
      streaming.aadLen, ?_, hashed⟩
    rw [← cipher, Blocks.xorAt_length, streaming.textLen]

theorem encryptFinish_streaming {next : Gcm} {capacity : Nat} {tag : Bytes}
    (streaming : Streaming aes multiply key iv tagLen ctx aad plaintext)
    (accepted : ctx.encryptFinish aes multiply capacity = some (next, tag)) :
    next = { cleared with phase := .final } ∧
      tag = (encrypt (aes key) multiply iv aad plaintext tagLen).2 := by
  rw [encryptFinish] at accepted
  split at accepted
  · cases accepted
  · obtain ⟨started, phase⟩ := startText_streaming streaming
    cases accepted
    exact ⟨rfl, (started.authenticating phase).tag⟩

end Gcm

end TinyCrypto.Aes
