import TinyCrypto.Piv.Unprotect
import TinyCrypto.Piv.Verify

/-! # Padding and CBC

The padding of a response is found exactly where ISO 7816-4 puts it, and decryption of what
CBC enciphered gives the blocks back.
-/

namespace TinyCrypto.Piv

def scanned (scan : Bool × Bool × Nat) : Nat := if scan.1 && !scan.2.1 then scan.2.2 else 0

theorem paddingLength_scanned (block : Block) :
    paddingLength block = scanned (block.bytes.reverse.foldl paddingStep (false, false, 0)) := rfl

theorem scanned_bad (bytes : Bytes) (seen : Bool) (count : Nat) :
    scanned (bytes.foldl paddingStep (seen, true, count)) = 0 := by
  induction bytes generalizing seen count with
  | nil => cases seen <;> rfl
  | cons value bytes ih => exact ih _ _

theorem scanned_seen (bytes : Bytes) (count : Nat) :
    scanned (bytes.foldl paddingStep (true, false, count)) = count := by
  induction bytes with
  | nil => rfl
  | cons value bytes ih =>
    have step : paddingStep (true, false, count) value = (true, false, count) := rfl
    rw [List.foldl_cons, step, ih]

theorem scanned_iff {bytes : Bytes} {count k : Nat} :
    scanned (bytes.foldl paddingStep (false, false, count)) = k ∧ 0 < k ↔
      ∃ zeros before, bytes = List.replicate zeros 0 ++ 0x80 :: before ∧ k = count + zeros + 1 := by
  induction bytes generalizing count with
  | nil =>
    constructor
    · rintro ⟨rfl, pos⟩
      cases pos
    · rintro ⟨zeros, before, split, -⟩
      simp at split
  | cons value bytes ih =>
    rw [List.foldl_cons]
    by_cases zero : value = 0
    · have step : paddingStep (false, false, count) value = (false, false, count + 1) := by
        rw [zero]
        rfl
      rw [step, ih, zero]
      constructor
      · rintro ⟨zeros, before, rfl, rfl⟩
        exact ⟨zeros + 1, before, rfl, by omega⟩
      · rintro ⟨zeros, before, split, rfl⟩
        cases zeros with
        | zero => simp at split
        | succ zeros => exact ⟨zeros, before, (List.cons.inj split).2, by omega⟩
    · by_cases marker : value = 0x80
      · have step : paddingStep (false, false, count) value = (true, false, count + 1) := by
          rw [marker]
          rfl
        rw [step, scanned_seen, marker]
        constructor
        · rintro ⟨rfl, -⟩
          exact ⟨0, bytes, rfl, rfl⟩
        · rintro ⟨zeros, before, split, rfl⟩
          cases zeros with
          | zero => exact ⟨rfl, by omega⟩
          | succ zeros => exact absurd (List.cons.inj split).1 (by decide)
      · have step : paddingStep (false, false, count) value = (false, true, count + 1) := by
          simp [paddingStep, zero, marker]
        rw [step, scanned_bad]
        constructor
        · rintro ⟨rfl, pos⟩
          cases pos
        · rintro ⟨zeros, before, split, -⟩
          cases zeros with
          | zero => exact absurd (List.cons.inj split).1 marker
          | succ zeros => exact absurd (List.cons.inj split).1 zero

/-- The block ends in the marker and `k - 1` zeros. -/
theorem paddingLength_iff {block : Block} {k : Nat} : paddingLength block = k ∧ 0 < k ↔
    0 < k ∧ ∃ before, block.bytes = before ++ 0x80 :: List.replicate (k - 1) 0 := by
  rw [paddingLength_scanned, scanned_iff]
  constructor
  · rintro ⟨zeros, before, split, rfl⟩
    refine ⟨by omega, before.reverse, ?_⟩
    rw [← List.reverse_reverse block.bytes, split, show 0 + zeros + 1 - 1 = zeros by omega]
    simp
  · rintro ⟨pos, before, split⟩
    refine ⟨k - 1, before.reverse, ?_, by omega⟩
    rw [split]
    simp

theorem ofBytes_append (block : Block) (rest : Bytes) :
    Block.ofBytes (block.bytes ++ rest) = block := by
  apply Octets.ext
  have size := block.size
  rw [ofBytes_bytes (by rw [List.length_append]; omega)]
  exact List.take_left' size

variable {aes : Cipher} {iv : Block}

theorem cbcDecrypt_cbcEncrypt {count : Nat} {plaintext : Bytes}
    (size : plaintext.length = 16 * count) :
    cbcDecrypt aes iv count (cbcEncrypt aes iv count plaintext) = plaintext := by
  induction count generalizing iv plaintext with
  | zero => exact (List.length_eq_zero_iff.mp size).symm
  | succ count ih =>
    rw [cbcEncrypt, cbcDecrypt]
    generalize enciphered : aes.encrypt ((Block.ofBytes plaintext).xor iv) = block
    rw [ofBytes_append, ← enciphered, aes.decrypt_encrypt, Octets.xor_xor, enciphered,
      List.drop_left' block.size, ih (by rw [List.length_drop]; omega), ofBytes_bytes (by omega),
      List.take_append_drop]

theorem cbcDecrypt_finalBlock {count : Nat} {ciphertext : Bytes}
    (size : ciphertext.length = 16 * (count + 1)) : cbcDecrypt aes iv (count + 1) ciphertext =
      cbcDecrypt aes iv count ciphertext ++ (finalBlock aes iv ciphertext).bytes := by
  induction count generalizing iv ciphertext with
  | zero =>
    rw [cbcDecrypt, cbcDecrypt, cbcDecrypt, finalBlock, size]
    simp
  | succ count ih =>
    have later : (ciphertext.drop 16).length = 16 * (count + 1) := by
      rw [List.length_drop, size]
      omega
    have final : finalBlock aes (Block.ofBytes ciphertext) (ciphertext.drop 16) =
        finalBlock aes iv ciphertext := by
      have tail : 16 + (16 * (count + 1) - 16) = 16 * (count + 1 + 1) - 16 := by omega
      have double : 16 * (count + 1 + 1) ≠ 16 := by omega
      unfold finalBlock
      rw [later, size, List.drop_drop, List.drop_drop, tail, if_neg double]
      by_cases single : 16 * (count + 1) = 16
      · rw [if_pos single, show 16 * (count + 1 + 1) - 32 = 0 by omega]
        rfl
      · rw [if_neg single, show 16 + (16 * (count + 1) - 32) = 16 * (count + 1 + 1) - 32 by omega]
    rw [cbcDecrypt, ih later, final, cbcDecrypt, List.append_assoc]

theorem paddedBytes_pos (n : Nat) : n < paddedBytes n ∧ paddedBytes n ≤ n + 16 := by
  unfold paddedBytes
  omega

theorem padPlaintext_length (plaintext : Bytes) :
    (padPlaintext plaintext (paddedBytes plaintext.length)).length =
      16 * (plaintext.length / 16 + 1) := by
  have room := paddedBytes_pos plaintext.length
  rw [padPlaintext, List.length_append, List.length_cons, List.length_replicate]
  unfold paddedBytes at *
  omega

/-- Enciphered padded plaintext: its last block shows the padding, and the rest is the
    plaintext. -/
theorem padded_deciphers {plaintext ciphertext : Bytes}
    (enciphered : cbcEncrypt aes iv (plaintext.length / 16 + 1)
      (padPlaintext plaintext (paddedBytes plaintext.length)) = ciphertext) :
    paddingLength (finalBlock aes iv ciphertext) = paddedBytes plaintext.length - plaintext.length ∧
      responsePlaintext aes iv ciphertext plaintext.length = plaintext := by
  have size := padPlaintext_length plaintext
  have room := paddedBytes_pos plaintext.length
  have count : paddedBytes plaintext.length = 16 * (plaintext.length / 16 + 1) := by
    rw [paddedBytes, Nat.mul_comm]
  have blocks := @cbcDecrypt_cbcEncrypt aes iv _ _ size
  rw [enciphered] at blocks
  have width : ciphertext.length = 16 * (plaintext.length / 16 + 1) := by
    rw [← enciphered, cbcEncrypt_length]
  rw [cbcDecrypt_finalBlock width] at blocks
  have whole : responsePlaintext aes iv ciphertext plaintext.length =
      (padPlaintext plaintext (paddedBytes plaintext.length)).take plaintext.length := by
    rw [responsePlaintext, width, Nat.mul_div_cancel_left _ (by decide), Nat.add_sub_cancel, blocks]
  constructor
  · refine (paddingLength_iff.mpr ⟨by omega, plaintext.drop (16 * (plaintext.length / 16)), ?_⟩).1
    have tail := congrArg (List.drop (16 * (plaintext.length / 16))) blocks
    rw [List.drop_left' (cbcDecrypt_length _ _ _ _), padPlaintext,
      List.drop_append_of_le_length (by omega)] at tail
    exact tail
  · rw [whole, padPlaintext, List.take_left]

open Apdu

/-- `long_form_octets`. -/
def longFormOctets (value : Nat) : Nat := if value = 0 then 0 else longFormOctets (value / 256) + 1
termination_by value
decreasing_by omega

/-- `tc_tlv_header_size`: zero where the header does not fit. -/
def tlvHeaderSize (tagLength valueLength : Nat) : Nat := if tagLength = 0 ∨ tagLength > 6 then 0
  else if valueLength ≤ 0x7f then tagLength + 1
  else
    let octets := longFormOctets valueLength
    if octets ≤ 3 then tagLength + 1 + octets else 0

def lengthOctets (value : Nat) : (octets : Nat) → Bytes
  | 0 => []
  | octets + 1 => UInt8.ofNat (value / 256 ^ octets) :: lengthOctets value octets

/-- `tc_tlv_header_write`. -/
def tlvHeaderWrite (tag : Bytes) (valueLength : Nat) : Bytes := tag ++
    if valueLength ≤ 0x7f then [UInt8.ofNat valueLength]
    else
      let octets := longFormOctets valueLength
      UInt8.ofNat (0x80 + octets) :: lengthOctets valueLength octets

/-- `command_layout`. -/
structure CommandLayout where
  ciphertextOffset : Nat
  ciphertextLength : Nat
  authenticatedLength : Nat
  fieldLength : Nat
  deriving DecidableEq

/-- `layout_get` with every field it computes. -/
def commandLayout (nc : Nat) (hasLe : Bool) : Option CommandLayout :=
  if nc ≠ 0 ∧ nc > smMaxPlainNc then none
  else
    let ciphertextLength := if nc = 0 then 0 else paddedBytes nc
    let header := if nc = 0 then 0 else tlvHeaderSize 1 (ciphertextLength + 1) + 1
    let authenticatedLength := header + ciphertextLength + if hasLe then 3 else 0
    some ⟨header, ciphertextLength, authenticatedLength, authenticatedLength + 10⟩

/-- The bytes `command_protect` stores in the scratch buffer before `TC_PIV_SM_protect`. -/
def writeHeaders (layout : CommandLayout) (hasLe : Bool) (scratch : Bytes) : Bytes :=
  let header := tlvHeaderWrite [0x87] (layout.ciphertextLength + 1)
  let scratch := if layout.ciphertextLength ≠ 0 then
      overlay (overlay scratch 0 header) header.length [0x01]
    else scratch
  let scratch := if hasLe then
      overlay scratch (layout.ciphertextOffset + layout.ciphertextLength) [0x97, 0x01, 0x00]
    else scratch
  overlay scratch layout.authenticatedLength [0x8e, 0x08]

/-- The scratch buffer after `TC_PIV_SM_protect` stored the ciphertext and the tag. -/
def writeCommand (layout : CommandLayout) (hasLe : Bool) (ciphertext tag scratch : Bytes) : Bytes :=
  overlay (overlay (writeHeaders layout hasLe scratch) layout.ciphertextOffset ciphertext)
    (layout.authenticatedLength + 2) tag

theorem longFormOctets_zero : longFormOctets 0 = 0 := by rw [longFormOctets, if_pos rfl]

theorem longFormOctets_succ {value : Nat} (pos : 0 < value) :
    longFormOctets value = longFormOctets (value / 256) + 1 := by
  rw [longFormOctets, if_neg (by omega)]

theorem longFormOctets_one {value : Nat} (pos : 0 < value) (small : value < 256) :
    longFormOctets value = 1 := by
  rw [longFormOctets_succ pos, Nat.div_eq_of_lt small, longFormOctets_zero]

theorem longFormOctets_two {value : Nat} (large : 256 ≤ value) (small : value < 65536) :
    longFormOctets value = 2 := by
  rw [longFormOctets_succ (by omega), longFormOctets_one (by omega) (by omega)]

theorem tlvHeaderWrite_eq {tag : UInt8} {n : Nat} (small : n < 65536) :
    tlvHeaderWrite [tag] n = tag :: lengthField n := by
  unfold tlvHeaderWrite lengthField
  by_cases short : n ≤ 0x7f
  · rw [if_pos short, if_pos short]
    rfl
  · rw [if_neg short, if_neg short]
    by_cases one : n ≤ 0xff
    · rw [if_pos one, longFormOctets_one (by omega) (by omega)]
      simp [lengthOctets]
    · rw [if_neg one, longFormOctets_two (by omega) small]
      simp [lengthOctets]

theorem tlvHeaderSize_eq {tag : UInt8} {n : Nat} (small : n < 65536) :
    tlvHeaderSize 1 n = (tag :: lengthField n).length := by
  unfold tlvHeaderSize lengthField
  rw [if_neg (by decide)]
  by_cases short : n ≤ 0x7f
  · rw [if_pos short, if_pos short]
    rfl
  · rw [if_neg short, if_neg short]
    by_cases one : n ≤ 0xff
    · rw [if_pos one, longFormOctets_one (by omega) (by omega)]
      rfl
    · rw [if_neg one, longFormOctets_two (by omega) small]
      rfl

variable {nc : Nat} {hasLe : Bool} {layout : CommandLayout} {ciphertext tag scratch : Bytes}

structure CommandLayout.Sizes (layout : CommandLayout) (nc : Nat) (hasLe : Bool) : Prop where
  ciphertext : layout.ciphertextLength = if nc = 0 then 0 else paddedBytes nc
  small : layout.ciphertextLength + 1 < 65536
  offset : layout.ciphertextOffset = if nc = 0 then 0
    else (0x87 :: lengthField (layout.ciphertextLength + 1)).length + 1
  authenticated : layout.authenticatedLength =
    layout.ciphertextOffset + layout.ciphertextLength + if hasLe then 3 else 0
  field : layout.fieldLength = layout.authenticatedLength + 10

theorem commandLayout_sizes (computed : commandLayout nc hasLe = some layout) :
    layout.Sizes nc hasLe := by
  unfold commandLayout at computed
  split at computed
  · cases computed
  rename_i bounded
  cases computed
  by_cases empty : nc = 0
  · subst empty
    exact ⟨rfl, show 0 + 1 < 65536 by decide, rfl, rfl, rfl⟩
  · have small : paddedBytes nc + 1 < 65536 := by
      have room := paddedBytes_pos nc
      have : ¬nc > smMaxPlainNc := fun large => bounded ⟨empty, large⟩
      unfold paddedBytes smMaxPlainNc at *
      omega
    refine ⟨rfl, ?_, ?_, rfl, rfl⟩
    · dsimp only
      rw [if_neg empty]
      exact small
    · dsimp only
      rw [if_neg empty, if_neg empty, if_neg empty, @tlvHeaderSize_eq 0x87 _ small]

def leading (ciphertextLength : Nat) : Bytes :=
  if ciphertextLength = 0 then [] else 0x87 :: lengthField (ciphertextLength + 1) ++ [0x01]

def leObject (hasLe : Bool) : Bytes := if hasLe then [0x97, 0x01, 0x00] else []

theorem leObject_length : (leObject hasLe).length = if hasLe then 3 else 0 := by
  cases hasLe <;> rfl

theorem authenticatedField_eq (size : ciphertext.length = layout.ciphertextLength) :
    authenticatedField layout.ciphertextLength hasLe ciphertext =
      leading layout.ciphertextLength ++ ciphertext ++ leObject hasLe := by
  unfold authenticatedField leading leObject
  by_cases empty : layout.ciphertextLength = 0
  · rw [if_pos empty, if_pos empty, List.length_eq_zero_iff.mp (size.trans empty)]
    rfl
  · rw [if_neg empty, if_neg empty]
    simp

theorem CommandLayout.Sizes.leading (sizes : layout.Sizes nc hasLe) :
    (leading layout.ciphertextLength).length = layout.ciphertextOffset := by
  have same := sizes.ciphertext
  rw [sizes.offset]
  unfold Piv.leading
  by_cases empty : nc = 0
  · rw [if_pos empty] at same
    rw [if_pos empty, if_pos same]
    rfl
  · have pos : layout.ciphertextLength ≠ 0 := by
      have room := paddedBytes_pos nc
      rw [if_neg empty] at same
      omega
    rw [if_neg empty, if_neg pos]
    simp

theorem CommandLayout.Sizes.objects (sizes : layout.Sizes nc hasLe)
    (size : ciphertext.length = layout.ciphertextLength) :
    (authenticatedField layout.ciphertextLength hasLe ciphertext).length =
      layout.authenticatedLength := by
  rw [authenticatedField_eq size, List.length_append, List.length_append, sizes.leading,
    leObject_length, size, sizes.authenticated]

theorem overlay_extend {memory bytes more : Bytes} {offset : Nat} (next : offset = bytes.length)
    (room : bytes.length + more.length ≤ memory.length) :
    overlay (overlay memory 0 bytes) offset more = overlay memory 0 (bytes ++ more) := by
  have joined := @overlay_append memory bytes more 0 (by omega)
  rw [Nat.zero_add] at joined
  rw [next, joined]

theorem writeHeaders_eq (sizes : layout.Sizes nc hasLe) (room : layout.fieldLength ≤ scratch.length) :
    writeHeaders layout hasLe scratch =
      overlay (overlay (overlay scratch 0 (leading layout.ciphertextLength))
        (layout.ciphertextOffset + layout.ciphertextLength) (leObject hasLe))
        layout.authenticatedLength [0x8e, 0x08] := by
  have field := sizes.field
  have authenticated := sizes.authenticated
  have offset := sizes.leading
  have header : tlvHeaderWrite [0x87] (layout.ciphertextLength + 1) =
      0x87 :: lengthField (layout.ciphertextLength + 1) := tlvHeaderWrite_eq sizes.small
  have first : (if layout.ciphertextLength ≠ 0 then
      overlay (overlay scratch 0 (0x87 :: lengthField (layout.ciphertextLength + 1)))
        (0x87 :: lengthField (layout.ciphertextLength + 1)).length [0x01]
      else scratch) = overlay scratch 0 (leading layout.ciphertextLength) := by
    unfold leading at *
    by_cases empty : layout.ciphertextLength = 0
    · rw [if_neg (not_not.mpr empty), if_pos empty, overlay_nil]
    · rw [if_neg empty] at offset ⊢
      rw [if_pos empty]
      generalize 0x87 :: lengthField (layout.ciphertextLength + 1) = start at offset ⊢
      rw [List.length_append, List.length_singleton] at offset
      apply overlay_extend rfl
      rw [List.length_singleton]
      omega
  unfold writeHeaders
  dsimp only
  rw [header, first]
  cases hasLe with
  | false =>
    have none : leObject false = [] := rfl
    rw [none, overlay_nil]
    rfl
  | true => rfl

theorem writeCommand_eq (sizes : layout.Sizes nc hasLe) (room : layout.fieldLength ≤ scratch.length)
    (size : ciphertext.length = layout.ciphertextLength) (mac : tag.length = 8) :
    writeCommand layout hasLe ciphertext tag scratch = overlay scratch 0
        (authenticatedField layout.ciphertextLength hasLe ciphertext ++ [0x8e, 0x08] ++ tag) := by
  have field := sizes.field
  have authenticated := sizes.authenticated
  have offset := sizes.leading
  have le := @leObject_length hasLe
  unfold writeCommand
  rw [writeHeaders_eq sizes room, authenticatedField_eq size]
  generalize leading layout.ciphertextLength = first at *
  generalize leObject hasLe = last at *
  have beforeMac := @overlay_comm
    (overlay (overlay scratch 0 first) (layout.ciphertextOffset + layout.ciphertextLength) last)
    ciphertext [0x8e, 0x08] layout.ciphertextOffset layout.authenticatedLength
    (by simp only [overlay_length]; omega)
    (by simp only [overlay_length, List.length_cons, List.length_nil]; omega) (by omega)
  have beforeLe := @overlay_comm (overlay scratch 0 first) ciphertext last layout.ciphertextOffset
    (layout.ciphertextOffset + layout.ciphertextLength) (by rw [overlay_length]; omega)
    (by rw [overlay_length]; omega) (by omega)
  rw [beforeMac, beforeLe, overlay_extend offset.symm (by omega),
    overlay_extend (by rw [List.length_append]; omega) (by rw [List.length_append]; omega),
    overlay_extend (by simp only [List.length_append]; omega)
      (by simp only [List.length_append, List.length_cons, List.length_nil]; omega),
    overlay_extend (by simp only [List.length_append, List.length_cons, List.length_nil]; omega)
      (by simp only [List.length_append, List.length_cons, List.length_nil]; omega)]

variable {p : LinkPrimitives} {crypto : Crypto} {session after : Session} {command : Command}
  {field : Bytes}

theorem ciphertextSize_eq {sizeMax length needed : Nat}
    (computed : ciphertextSize sizeMax length = some needed) :
    needed = if length = 0 then 0 else paddedBytes length := by
  unfold ciphertextSize at computed
  split at computed
  · rename_i empty
    rw [if_pos empty]
    exact (Option.some.inj computed).symm
  · rename_i filled
    rw [if_neg filled]
    dsimp only at computed
    split at computed
    · cases computed
    · rw [← Option.some.inj computed, paddedBytes]
      omega

theorem protect_sizes {r : ProtectRequest} {reply : Reply}
    (made : protect crypto session r = (reply, after)) (delivered : reply.status = .ok) :
    reply.output.length = (if r.plaintext.length = 0 then 0 else paddedBytes r.plaintext.length) ∧
      reply.tag.length = 8 := by
  obtain ⟨needed, checked, output, tag⟩ := protect_delivered made delivered
  have exact : needed = if r.plaintext.length = 0 then 0 else paddedBytes r.plaintext.length := by
    unfold protectChecks at checked
    split at checked
    · exact ciphertextSize_eq (Option.filter_eq_some_iff.mp checked).1
    · cases checked
  have whole : needed % 16 = 0 := by
    rw [exact, paddedBytes]
    split <;> omega
  rw [← exact]
  exact ⟨by omega, tag⟩

/-- The writer fills exactly the length that `layout_get` computed, and leaves the rest of the
    scratch buffer. -/
theorem commandProtect_written
    (computed : commandLayout command.data.length (command.ne ≠ 0) = some layout)
    (made : commandProtect p session command layout.ciphertextLength = (some field, after)) :
    field.length = layout.fieldLength ∧ ∃ ciphertext tag,
      field = authenticatedField layout.ciphertextLength (command.ne ≠ 0) ciphertext ++
        [0x8e, 0x08] ++ tag ∧ ∀ scratch : Bytes, layout.fieldLength ≤ scratch.length →
        writeCommand layout (command.ne ≠ 0) ciphertext tag scratch =
          field ++ scratch.drop layout.fieldLength := by
  have sizes := commandLayout_sizes computed
  unfold commandProtect at made
  extract_lets objects at made
  generalize outcome : protect p.crypto session _ = result at made
  obtain ⟨reply, session'⟩ := result
  dsimp only at made
  split at made
  · rename_i delivered
    obtain ⟨output, tag⟩ := protect_sizes outcome delivered
    dsimp only at output
    rw [← sizes.ciphertext] at output
    cases made
    have length : (objects reply.output ++ [0x8e, 0x08] ++ reply.tag).length =
        layout.fieldLength := by
      rw [List.length_append, List.length_append, sizes.objects output, tag, sizes.field]
      rfl
    refine ⟨length, reply.output, reply.tag, rfl, ?_⟩
    intro scratch room
    rw [writeCommand_eq sizes room output tag]
    change overlay scratch 0 (objects reply.output ++ [0x8e, 0x08] ++ reply.tag) = _
    rw [overlay, List.take_zero, List.nil_append, List.take_of_length_le (length.trans_le room),
      Nat.zero_add, length]
  · cases made

end TinyCrypto.Piv
