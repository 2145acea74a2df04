import TinyCrypto.Aes.Gcm
import TinyCrypto.Mac.Core

/-! # The AEAD keystream

The counter loop of `aes_mac.c`. -/

namespace TinyCrypto.Aes

open Library Mac

section

variable (cipher : Block → Block)

def clearHigh (place : Nat) (b : Block) : Block :=
  ⟨b.bytes.set place (b.bytes.getD place 0 &&& 0x7f), by rw [List.length_set, b.size]⟩

/-- The loop of `tc_aes_mac_ctr_xor`. -/
def ctrXorLoop : (passes : Nat) → (counter : Block) → Bytes → Bytes
  | 0, _, _ => []
  | passes + 1, counter, input =>
    if input.length = 0 then []
    else
      let count := min input.length blockLen
      List.zipWith (· ^^^ ·) (input.take count) (cipher counter).bytes ++
        ctrXorLoop passes (counter.increment 0) (input.drop count)

/-- `tc_aes_mac_ctr_xor`. `bits` holds the places of the cleared bits when enabled. -/
def ctrXor (initial : Block) (input : Bytes) (bits : Option (Nat × Nat)) : Bytes :=
  let counter :=
    match bits with
    | some (first, second) => clearHigh second (clearHigh first initial)
    | none => initial
  ctrXorLoop cipher input.length counter input

end

section

variable {cipher : Block → Block}

theorem keystream_next (next : Block → Block) (start : Block) (n : Nat) :
    keystream cipher next start (blockLen + n) = keystream cipher next (next start) n := by
  have whole : (blockLen + n) / blockLen = n / blockLen + 1 := by
    rw [Nat.add_div_left n (by decide)]
  have part : (blockLen + n) % blockLen = n % blockLen := Nat.add_mod_left _ _
  rw [keystream, whole, part, Function.iterate_succ_apply]
  rfl

theorem xorAt_next (next : Block → Block) (start : Block) (n : Nat) (data : Bytes) :
    Blocks.xorAt (keystream cipher next start) (blockLen + n) data =
      Blocks.xorAt (keystream cipher next (next start)) n data := by
  induction data generalizing n with
  | nil => rfl
  | cons b rest ih => rw [Blocks.xorAt, Blocks.xorAt, keystream_next, Nat.add_assoc, ih]

theorem xorAt_first (next : Block → Block) (start : Block) {data : Bytes}
    (short : data.length ≤ blockLen) : Blocks.xorAt (keystream cipher next start) 0 data =
      List.zipWith (· ^^^ ·) data (cipher start).bytes := by
  have block := @Blocks.xorAt_block (keystream cipher next start) 0 0 data (cipher start).bytes
    (by rw [Octets.size]; omega) (by
      intro i small
      have inside : i < blockLen := by omega
      rw [Nat.zero_add, keystream, Nat.div_eq_of_lt inside, Nat.mod_eq_of_lt inside]
      rfl)
  rw [block, List.drop_zero]

theorem ctrXorLoop_keystream {passes : Nat} {input : Bytes} (enough : input.length ≤ passes)
    (counter : Block) : ctrXorLoop cipher passes counter input =
      Blocks.xorAt (keystream cipher (Block.increment 0) counter) 0 input := by
  induction passes generalizing counter input with
  | zero =>
    have none : input = [] := List.length_eq_zero_iff.mp (Nat.le_zero.mp enough)
    rw [none]
    rfl
  | succ passes ih =>
    rw [ctrXorLoop]
    split
    · rename_i none
      rw [List.length_eq_zero_iff.mp none]
      rfl
    rename_i some
    generalize taken : min input.length blockLen = count
    have size : (input.take count).length = count := by
      rw [List.length_take]
      omega
    have pos : 0 < blockLen := by decide
    have fewer : (input.drop count).length ≤ passes := by
      rw [List.length_drop]
      omega
    have parts := Blocks.xorAt_append (keystream cipher (Block.increment 0) counter) 0
      (input.take count) (input.drop count)
    have here := @xorAt_first cipher (Block.increment 0) counter (input.take count) (by omega)
    rw [List.take_append_drop, size, here] at parts
    rw [parts]
    simp only
    rw [ih fewer]
    congr 1
    rcases Nat.lt_or_ge input.length blockLen with short | long
    · rw [List.drop_of_length_le (by omega)]
      rfl
    · have whole : 0 + count = blockLen + 0 := by omega
      rw [whole, xorAt_next]

theorem ctrXor_keystream (initial : Block) (bits : Option (Nat × Nat)) :
    ∃ counter, ∀ input, ctrXor cipher initial input bits =
      Blocks.xorAt (keystream cipher (Block.increment 0) counter) 0 input :=
  ⟨_, fun _ => ctrXorLoop_keystream (Nat.le_refl _) _⟩

theorem ctrXor_none (counter : Block) (input : Bytes) : ctrXor cipher counter input none =
      Blocks.xorAt (keystream cipher (Block.increment 0) counter) 0 input :=
  ctrXorLoop_keystream (Nat.le_refl _) _

theorem ctrXor_block (counter : Block) {input : Bytes} {count : Nat}
    (taken : min input.length blockLen = count) : ctrXor cipher counter input none =
      ctrXor cipher counter (input.take count) none ++
        ctrXor cipher (counter.increment 0) (input.drop count) none := by
  have parts := Blocks.xorAt_append (keystream cipher (Block.increment 0) counter) 0
    (input.take count) (input.drop count)
  rw [List.take_append_drop] at parts
  rw [ctrXor_none, ctrXor_none, ctrXor_none, parts]
  congr 1
  rcases Nat.lt_or_ge input.length blockLen with short | long
  · rw [List.drop_of_length_le (by omega)]
    rfl
  · have whole : 0 + (input.take count).length = blockLen + 0 := by
      rw [List.length_take]
      omega
    rw [whole, xorAt_next]

theorem ctrXor_ctrXor (initial : Block) (input : Bytes) (bits : Option (Nat × Nat)) :
    ctrXor cipher initial (ctrXor cipher initial input bits) bits = input := by
  obtain ⟨counter, same⟩ := @ctrXor_keystream cipher initial bits
  rw [same, same, Blocks.xorAt_xorAt]

@[simp] theorem ctrXor_length (initial : Block) (input : Bytes) (bits : Option (Nat × Nat)) :
    (ctrXor cipher initial input bits).length = input.length := by
  obtain ⟨counter, same⟩ := @ctrXor_keystream cipher initial bits
  rw [same, Blocks.xorAt_length]

end

/-! # CCM, EAX and SIV

`aes_ccm.c`, `aes_eax.c` and `aes_siv.c`. As for GCM, checks of pointers and
overlaps are left out. `minTagLen` is the configured `TC_MIN_TAG_LEN`. A call that
encrypts gives the ciphertext and the tag. A call that decrypts gives its status
and the contents of the output buffer, which had the given contents before.
-/

/-- `tc_internal_tag_length_allowed`. -/
def tagLengthAllowed (minTagLen length maxLength : Nat) (shortTag : Bool) : Bool :=
  if length = 0 || length > maxLength then false
  else if shortTag then length < minTagLen else length ≥ minTagLen

def wipeOrKeep (ok : Bool) (output text : Bytes) (length : Nat) : Bool × Bytes :=
  if ok then (true, overwrite output text) else (false, overwrite output (List.replicate length 0))

namespace Ccm

def minNonceLen : Nat := 7
def maxNonceLen : Nat := 13

/-- `tc_aes_ccm_tag_length_allowed`. -/
def tagLengthAllowed (minTagLen tagLen : Nat) (shortTag : Bool) : Bool :=
  Aes.tagLengthAllowed minTagLen tagLen blockLen shortTag && tagLen ≥ 4 && tagLen % 2 = 0

/-- `tc_aes_ccm_length_field_size`. -/
def lengthFieldSize (nonceLen : Nat) : Nat := 15 - nonceLen

/-- `tc_aes_ccm_payload_length_is_valid`. -/
def payloadLengthIsValid (nonceLen length : Nat) : Bool :=
  let q := lengthFieldSize nonceLen
  if q = 8 then true else length ≤ 2 ^ (8 * q) - 1

/-- `tc_aes_ccm_make_counter`. -/
def makeCounter (nonce : Bytes) (value : Nat) : Block :=
  let q := lengthFieldSize nonce.length
  Block.ofBytes (UInt8.ofNat (q - 1) :: nonce ++ ByteCounter.ofValue q value)

def firstBlock (nonce : Bytes) (aadLen inputLen tagLen : Nat) : Bytes :=
  let q := lengthFieldSize nonce.length
  ((if aadLen ≠ 0 then (0x40 : UInt8) else 0) ||| UInt8.ofNat ((tagLen - 2) / 2) <<< 3 |||
    UInt8.ofNat (q - 1)) :: nonce ++ ByteCounter.ofValue q inputLen

def aadHeader (aadLen : Nat) : Bytes := if aadLen < 0xff00 then ByteCounter.ofValue 2 aadLen
  else if aadLen ≤ 2 ^ 32 - 1 then [0xff, 0xfe] ++ ByteCounter.ofValue 4 aadLen
  else [0xff, 0xff] ++ ByteCounter.ofValue 8 aadLen

section

variable (cipher : Block → Block)

def start (nonce aad : Bytes) (inputLen tagLen : Nat) : Chain blockLen :=
  let st : Chain blockLen :=
    ⟨cbcBlock cipher Block.zero (firstBlock nonce aad.length inputLen tagLen), []⟩
  if aad.length ≠ 0 then
    let st := cbcUpdate cipher st (aadHeader aad.length) false
    let st := cbcUpdate cipher st aad false
    cbcPad cipher st
  else st

/-- The first pass of a decryption: each block is decrypted into private storage and
    added to the MAC. -/
def decryptPass : (passes : Nat) → (counter : Block) → Chain blockLen → Bytes → Chain blockLen
  | 0, _, st, _ => st
  | passes + 1, counter, st, input =>
    if input.length = 0 then st
    else
      let length := min input.length blockLen
      let plain := ctrXor cipher counter (input.take length) none
      decryptPass passes (counter.increment 0) (cbcUpdate cipher st plain false)
        (input.drop length)

def finishTag (st : Chain blockLen) (nonce : Bytes) (tagLen : Nat) : Bytes :=
  ((cbcPad cipher st).mac.xor (cipher (makeCounter nonce 0))).bytes.take tagLen

end

/-- The argument checks of `tc_aes_ccm_crypt`. -/
def argsOk (nonceLen inputLen capacity : Nat) : Bool :=
  inputLen ≤ capacity && nonceLen ≥ minNonceLen && nonceLen ≤ maxNonceLen &&
    payloadLengthIsValid nonceLen inputLen

section

variable (aes : Cipher) (keyLen minTagLen : Nat)

/-- `TC_AES_CCM_encrypt` and its short tag form. -/
def encrypt (key nonce aad plaintext : Bytes) (capacity tagLen : Nat) (shortTag : Bool) :
    Option (Bytes × Bytes) :=
  if key.length ≠ keyLen then none
  else if !tagLengthAllowed minTagLen tagLen shortTag then none
  else if !argsOk nonce.length plaintext.length capacity then none
  else
    let st := start (aes key) nonce aad plaintext.length tagLen
    let counter := (makeCounter nonce 0).increment 0
    let st := cbcUpdate (aes key) st plaintext false
    some (ctrXor (aes key) counter plaintext none, finishTag (aes key) st nonce tagLen)

/-- `TC_AES_CCM_decrypt` and its short tag form. -/
def decrypt (key nonce aad ciphertext tag output : Bytes) (shortTag : Bool) : Bool × Bytes :=
  if key.length ≠ keyLen then (false, output)
  else if !tagLengthAllowed minTagLen tag.length shortTag then (false, output)
  else if !argsOk nonce.length ciphertext.length output.length then (false, output)
  else
    let st := start (aes key) nonce aad ciphertext.length tag.length
    let counter := (makeCounter nonce 0).increment 0
    let st := decryptPass (aes key) ciphertext.length counter st ciphertext
    wipeOrKeep (finishTag (aes key) st nonce tag.length = tag) output
      (ctrXor (aes key) counter ciphertext none) ciphertext.length

end

end Ccm

namespace Eax

section

variable (cipher : Block → Block)

/-- `tc_aes_eax_constants` without EAX'. -/
def constants : Block × Block := deriveSubkeys cipher 0x87

/-- `tc_aes_eax_cmac` with a domain prefix. -/
def cmac (domain : UInt8) (data : Bytes) : Block :=
  cmacParts cipher Block.zero [List.replicate 15 0 ++ [domain], data] (constants cipher).1
    (constants cipher).2

def fullTag (nonce aad ciphertext : Bytes) (tagLen : Nat) : Bytes :=
  (((cmac cipher 0 nonce).xor (cmac cipher 1 aad)).xor (cmac cipher 2 ciphertext)).bytes.take tagLen

/-- `tc_aes_eax_ctr_xor` without EAX'. -/
def eaxCtrXor (initial : Block) (input : Bytes) : Bytes := ctrXor cipher initial input none

end

section

variable (aes : Cipher) (keyLen minTagLen : Nat)

/-- `TC_AES_EAX_encrypt` and its short tag form. -/
def encrypt (key nonce aad plaintext : Bytes) (capacity tagLen : Nat) (shortTag : Bool) :
    Option (Bytes × Bytes) :=
  if key.length ≠ keyLen then none
  else if !tagLengthAllowed minTagLen tagLen blockLen shortTag then none
  else if plaintext.length > capacity || tagLen = 0 || tagLen > blockLen then none
  else
    let ciphertext := eaxCtrXor (aes key) (cmac (aes key) 0 nonce) plaintext
    some (ciphertext, fullTag (aes key) nonce aad ciphertext tagLen)

/-- `TC_AES_EAX_decrypt` and its short tag form. -/
def decrypt (key nonce aad ciphertext tag output : Bytes) (shortTag : Bool) : Bool × Bytes :=
  if key.length ≠ keyLen then (false, output)
  else if !tagLengthAllowed minTagLen tag.length blockLen shortTag then (false, output)
  else if ciphertext.length > output.length || tag.length = 0 || tag.length > blockLen then
    (false, output)
  else
    wipeOrKeep (fullTag (aes key) nonce aad ciphertext tag.length = tag) output
      (eaxCtrXor (aes key) (cmac (aes key) 0 nonce) ciphertext) ciphertext.length

end

end Eax

namespace Siv

def maxAd : Nat := 126

section

variable (cipher : Block → Block)

/-- `tc_aes_siv_cmac` with the subkeys of `tc_aes_cmac_generate_subkeys`. -/
def cmac (parts : List Bytes) : Block :=
  cmacParts cipher Block.zero parts (deriveSubkeys cipher 0x87).1 (deriveSubkeys cipher 0x87).2

/-- `tc_aes_siv_s2v`. -/
def s2v (ad : List Bytes) (last : Bytes) : Block :=
  let d := cmac cipher [Block.zero.bytes]
  let d := ad.foldl (fun d part => (gfDouble 0x87 d).xor (cmac cipher [part])) d
  if last.length ≥ blockLen then
    let lastBlock := (Block.ofBytes (last.drop (last.length - blockLen))).xor d
    cmac cipher [last.take (last.length - blockLen), lastBlock.bytes]
  else
    let t := (gfDouble 0x87 d).xor (Block.ofBytes (last ++ [0x80]))
    cmac cipher [t.bytes]

/-- `tc_aes_siv_ctr`. -/
def sivCtr (v : Block) (input : Bytes) : Bytes := ctrXor cipher v input (some (8, 12))

end

section

variable (aes : Cipher) (keyLen : Nat)

/-- The argument checks of `tc_aes_siv_crypt`. -/
def argsOk (ad : List Bytes) (inputLen capacity : Nat) : Bool :=
  ad.length ≤ maxAd && inputLen ≤ capacity

/-- `TC_AES_SIV_encrypt`. The tag is the synthetic nonce. -/
def encrypt (key : Bytes) (ad : List Bytes) (plaintext : Bytes) (capacity tagCapacity : Nat) :
    Option (Bytes × Bytes) :=
  if key.length ≠ keyLen * 2 || tagCapacity < blockLen then none
  else if !argsOk ad plaintext.length capacity then none
  else
    let v := s2v (aes (key.take keyLen)) ad plaintext
    some (sivCtr (aes (key.drop keyLen)) v plaintext, v.bytes)

/-- `TC_AES_SIV_decrypt`. -/
def decrypt (key : Bytes) (ad : List Bytes) (ciphertext tag output : Bytes) : Bool × Bytes :=
  if key.length ≠ keyLen * 2 || tag.length ≠ blockLen then (false, output)
  else if !argsOk ad ciphertext.length output.length then (false, output)
  else
    let plaintext := sivCtr (aes (key.drop keyLen)) (Block.ofBytes tag) ciphertext
    let computed := s2v (aes (key.take keyLen)) ad plaintext
    wipeOrKeep (computed.bytes = tag) output plaintext ciphertext.length

end

end Siv

end TinyCrypto.Aes
