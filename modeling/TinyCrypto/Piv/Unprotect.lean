import TinyCrypto.Apdu.Trace
import TinyCrypto.Piv.Session

/-! # Unprotecting in memory

`TC_PIV_SM_unprotect` as it reads and writes memory. Each block is read before its plaintext
is written, so the plaintext may replace the ciphertext.
-/

namespace TinyCrypto.Piv

open Apdu

/-- `TC_PIV_SM_unprotect_request` with the plaintext buffer, by where they are in memory. The
    spans and the tag are read before anything is written. -/
structure MemoryRequest where
  ciphertext : Nat
  length : Nat
  plaintext : Nat
  capacity : Nat
  tag : Bytes
  authenticated : List Bytes
  layout : Bool

def MemoryRequest.values (r : MemoryRequest) (memory : Bytes) : UnprotectRequest :=
  ⟨(memory.drop r.ciphertext).take r.length, r.tag, r.authenticated, r.capacity, r.layout⟩

/-- What a call leaves: `length` is what it wrote to `*plaintext_length`. -/
structure MemoryReply where
  status : Result
  length : Option Nat
  session : Session
  memory : Bytes

def decryptLoop (aes : Cipher) (r : MemoryRequest) (length : Nat) :
    (passes offset : Nat) → (iv : Block) → (memory : Bytes) → Bytes
  | 0, _, _, memory => memory
  | passes + 1, offset, iv, memory =>
    if offset + 16 < r.length ∧ offset < length then
      let block := Block.ofBytes (memory.drop (r.ciphertext + offset))
      let plain := (aes.decrypt block).xor iv
      decryptLoop aes r length passes (offset + 16) block
        (overlay memory (r.plaintext + offset) plain.bytes)
    else memory

def lastBlock (aes : Cipher) (iv : Block) (r : MemoryRequest) (memory : Bytes) : Block :=
  let previous := if r.length = 16 then iv
    else Block.ofBytes (memory.drop (r.ciphertext + r.length - 32))
  (aes.decrypt (Block.ofBytes (memory.drop (r.ciphertext + r.length - 16)))).xor previous

def storePlaintext (aes : Cipher) (iv : Block) (r : MemoryRequest) (length : Nat)
    (memory : Bytes) : Bytes :=
  let last := r.length - 16
  let stored := if length > last then
      overlay memory (r.plaintext + last) ((lastBlock aes iv r memory).bytes.take (length - last))
    else memory
  decryptLoop aes r length (r.length / 16) 0 iv stored

def acceptMemory (session : Session) (digest : Block) (length : Nat) (memory : Bytes) :
    MemoryReply :=
  ⟨.ok, some length, { session with responseMcv := digest, state := .ready }, memory⟩

def decryptMemory (crypto : Crypto) (keyBytes : Nat) (session : Session) (r : MemoryRequest)
    (digest : Block) (memory : Bytes) : MemoryReply :=
  if r.length = 0 then acceptMemory session digest 0 memory
  else
    match prepareCipher crypto keyBytes session true with
    | none => ⟨.error, none, .zero, memory⟩
    | some (aes, iv) =>
      let padding := paddingLength (lastBlock aes iv r memory)
      if padding = 0 then ⟨.error, none, .zero, memory⟩
      else
        let length := r.length - padding
        if r.capacity < length then ⟨.error, none, session, memory⟩
        else acceptMemory session digest length (storePlaintext aes iv r length memory)

/-- `TC_PIV_SM_unprotect`. -/
def unprotectMemory (crypto : Crypto) (session : Session) (r : MemoryRequest) (memory : Bytes) :
    MemoryReply :=
  if !unprotectChecks session (r.values memory) then ⟨.error, none, session, memory⟩
  else
    match suiteKeyBytes crypto session.suite with
    | none => ⟨.error, none, .zero, memory⟩
    | some keyBytes =>
      if !counterNonzero session.counter then ⟨.error, none, .zero, memory⟩
      else
        match smMac crypto (session.rmacKey.take keyBytes) session.responseMcv.bytes
          r.authenticated with
        | none => ⟨.error, none, .zero, memory⟩
        | some digest =>
          if digest.bytes.take 8 ≠ r.tag then ⟨.invalid, none, .zero, memory⟩
          else decryptMemory crypto keyBytes session r digest memory

/-- The buffers are in memory, and the plaintext buffer is apart from the ciphertext, or starts
    where it does and is not longer. -/
structure MemoryRequest.Placed (r : MemoryRequest) (memory : Bytes) : Prop where
  source : r.ciphertext + r.length ≤ memory.length
  target : r.plaintext + r.capacity ≤ memory.length
  apart : r.plaintext = r.ciphertext ∧ r.capacity ≤ r.length ∨
    r.plaintext + r.capacity ≤ r.ciphertext ∨ r.ciphertext + r.length ≤ r.plaintext

variable {memory bytes more : Bytes} {offset : Nat}

theorem overlay_get (room : offset + bytes.length ≤ memory.length) (i : Nat) :
    (overlay memory offset bytes)[i]? =
      if offset ≤ i ∧ i < offset + bytes.length then bytes[i - offset]? else memory[i]? := by
  simp only [overlay, List.getElem?_append, List.getElem?_take, List.getElem?_drop,
    List.length_take, List.length_append]
  grind

theorem overlay_nil : overlay memory offset [] = memory := by
  have short : (memory.take offset).length ≤ memory.length := by
    rw [List.length_take]
    omega
  rw [overlay, List.append_nil, List.take_of_length_le short, List.length_nil, Nat.add_zero,
    List.take_append_drop]

theorem overlay_append (room : offset + bytes.length + more.length ≤ memory.length) :
    overlay (overlay memory offset bytes) (offset + bytes.length) more =
      overlay memory offset (bytes ++ more) := by
  apply List.ext_getElem?
  intro i
  rw [overlay_get (by rw [overlay_length]; omega), overlay_get (by omega),
    overlay_get (by rw [List.length_append]; omega)]
  grind

theorem overlay_prepend (room : offset + bytes.length + more.length ≤ memory.length) :
    overlay (overlay memory (offset + bytes.length) more) offset bytes =
      overlay memory offset (bytes ++ more) := by
  apply List.ext_getElem?
  intro i
  rw [overlay_get (by rw [overlay_length]; omega), overlay_get (by omega),
    overlay_get (by rw [List.length_append]; omega)]
  grind

theorem overlay_comm {other : Nat} (room : offset + bytes.length ≤ memory.length)
    (room' : other + more.length ≤ memory.length)
    (apart : offset + bytes.length ≤ other ∨ other + more.length ≤ offset) :
    overlay (overlay memory other more) offset bytes =
      overlay (overlay memory offset bytes) other more := by
  apply List.ext_getElem?
  intro i
  rw [overlay_get (by rw [overlay_length]; omega), overlay_get room',
    overlay_get (by rw [overlay_length]; omega), overlay_get room]
  grind

theorem overlay_slice {start count : Nat} (room : offset + bytes.length ≤ memory.length)
    (apart : start + count ≤ offset ∨ offset + bytes.length ≤ start) :
    ((overlay memory offset bytes).drop start).take count = (memory.drop start).take count := by
  apply List.ext_getElem?
  intro i
  simp only [List.getElem?_take, List.getElem?_drop, overlay_get room]
  grind

theorem ofBytes_bytes {source : Bytes} (enough : 16 ≤ source.length) :
    (Block.ofBytes source).bytes = source.take 16 := by
  change (source ++ List.replicate 16 0).take 16 = source.take 16
  rw [List.take_append_of_le_length enough]

theorem ofBytes_congr {first second : Bytes} (enough : 16 ≤ first.length)
    (same : first.take 16 = second.take 16) : Block.ofBytes first = Block.ofBytes second := by
  have enough' : 16 ≤ second.length := by
    have sizes := congrArg List.length same
    rw [List.length_take, List.length_take] at sizes
    omega
  apply Octets.ext
  rw [ofBytes_bytes enough, ofBytes_bytes enough', same]

theorem cbcDecrypt_length (aes : Cipher) (iv : Block) (count : Nat) (source : Bytes) :
    (cbcDecrypt aes iv count source).length = 16 * count := by
  induction count generalizing iv source with
  | zero => rfl
  | succ count ih =>
    rw [cbcDecrypt, List.length_append, ih, Octets.size]
    omega

variable {aes : Cipher} {iv : Block} {r : MemoryRequest}

theorem decryptLoop_overlay {length passes count : Nat} {source : Bytes}
    (blocks : offset + 16 * count + 16 = r.length) (fits : r.length - 16 ≤ length)
    (enough : count ≤ passes)
    (slice : (memory.drop (r.ciphertext + offset)).take (16 * count) = source.take (16 * count))
    (inside : r.ciphertext + offset + 16 * count ≤ memory.length)
    (room : r.plaintext + offset + 16 * count ≤ memory.length)
    (apart : r.plaintext = r.ciphertext ∨ r.plaintext + (r.length - 16) ≤ r.ciphertext ∨
      r.ciphertext + r.length ≤ r.plaintext) : decryptLoop aes r length passes offset iv memory =
      overlay memory (r.plaintext + offset) (cbcDecrypt aes iv count source) := by
  induction count generalizing passes offset iv memory source with
  | zero =>
    rw [cbcDecrypt, overlay_nil]
    cases passes with
    | zero => rfl
    | succ passes => rw [decryptLoop, if_neg (by omega)]
  | succ count ih =>
    cases passes with
    | zero => cases enough
    | succ passes =>
      rw [decryptLoop, if_pos ⟨by omega, by omega⟩, cbcDecrypt]
      have long : 16 ≤ (memory.drop (r.ciphertext + offset)).length := by
        rw [List.length_drop]
        omega
      have first : Block.ofBytes (memory.drop (r.ciphertext + offset)) = Block.ofBytes source := by
        have cut := congrArg (List.take 16) slice
        rw [List.take_take, List.take_take, Nat.min_eq_left (by omega)] at cut
        exact ofBytes_congr long cut
      dsimp only
      rw [first]
      generalize plain : ((aes.decrypt (Block.ofBytes source)).xor iv) = block
      have size := block.size
      have later := @ih (overlay memory (r.plaintext + offset) block.bytes) (offset + 16)
        (Block.ofBytes source) passes (source.drop 16) (by omega) (by omega) ?_
        (by rw [overlay_length]; omega) (by rw [overlay_length]; omega)
      · rw [later, ← Nat.add_assoc, ← overlay_append (by rw [cbcDecrypt_length]; omega), size]
      · have cut := congrArg (List.drop 16) slice
        rw [List.drop_take, List.drop_take, List.drop_drop,
          show 16 * (count + 1) - 16 = 16 * count by omega] at cut
        rw [overlay_slice (by omega) (by omega), ← Nat.add_assoc, cut]

theorem lastBlock_eq {ciphertext : Bytes}
    (slice : (memory.drop r.ciphertext).take r.length = ciphertext)
    (source : r.ciphertext + r.length ≤ memory.length) (filled : r.length ≠ 0)
    (whole : r.length % 16 = 0) : lastBlock aes iv r memory = finalBlock aes iv ciphertext := by
  have size : ciphertext.length = r.length := by
    rw [← slice, List.length_take, List.length_drop]
    omega
  have part (back : Nat) (pos : 16 ≤ back) (inside : back ≤ r.length) :
      Block.ofBytes (memory.drop (r.ciphertext + r.length - back)) =
        Block.ofBytes (ciphertext.drop (r.length - back)) := by
    apply ofBytes_congr
    · rw [List.length_drop]
      omega
    · rw [← slice, List.drop_take, List.drop_drop, List.take_take, Nat.min_eq_left (by omega),
        Nat.add_sub_assoc inside]
  unfold lastBlock finalBlock
  rw [size, part 16 le_rfl (by omega)]
  by_cases single : r.length = 16
  · rw [if_pos single, if_pos single]
  · rw [if_neg single, if_neg single, part 32 (by decide) (by omega)]

theorem storePlaintext_eq {ciphertext : Bytes} {length : Nat} (placed : r.Placed memory)
    (slice : (memory.drop r.ciphertext).take r.length = ciphertext) (filled : r.length ≠ 0)
    (whole : r.length % 16 = 0) (low : r.length - 16 ≤ length) (high : length ≤ r.length)
    (fits : length ≤ r.capacity) : storePlaintext aes iv r length memory =
      overlay memory r.plaintext (responsePlaintext aes iv ciphertext length) := by
  have source := placed.source
  have target := placed.target
  have apart := placed.apart
  have size : ciphertext.length = r.length := by
    rw [← slice, List.length_take, List.length_drop]
    omega
  have earlier : (cbcDecrypt aes iv (ciphertext.length / 16 - 1) ciphertext).length =
      r.length - 16 := by
    rw [cbcDecrypt_length, size]
    omega
  have final := @lastBlock_eq memory aes iv r ciphertext slice source filled whole
  have lastSize := (finalBlock aes iv ciphertext).size
  have split : responsePlaintext aes iv ciphertext length =
      cbcDecrypt aes iv (ciphertext.length / 16 - 1) ciphertext ++
        (finalBlock aes iv ciphertext).bytes.take (length - (r.length - 16)) := by
    rw [responsePlaintext, List.take_append, earlier, List.take_of_length_le (by omega)]
  have stored : (if length > r.length - 16 then
      overlay memory (r.plaintext + (r.length - 16))
        ((lastBlock aes iv r memory).bytes.take (length - (r.length - 16)))
      else memory) = overlay memory (r.plaintext + (r.length - 16))
        ((finalBlock aes iv ciphertext).bytes.take (length - (r.length - 16))) := by
    rw [final]
    split
    · rfl
    · rw [show length - (r.length - 16) = 0 by omega, List.take_zero, overlay_nil]
  unfold storePlaintext
  dsimp only
  rw [stored, split]
  generalize tail : (finalBlock aes iv ciphertext).bytes.take (length - (r.length - 16)) = last
  have lastLength : last.length = length - (r.length - 16) := by
    rw [← tail, List.length_take]
    omega
  have loop := @decryptLoop_overlay (overlay memory (r.plaintext + (r.length - 16)) last) 0 aes iv r
    length (r.length / 16) (ciphertext.length / 16 - 1) ciphertext (by omega) low (by omega) ?_
    (by rw [overlay_length]; omega) (by rw [overlay_length]; omega) (by omega)
  · have size := earlier
    rw [loop, Nat.add_zero, ← earlier, overlay_prepend (by omega)]
  · have cut := congrArg (List.take (16 * (ciphertext.length / 16 - 1))) slice
    rw [List.take_take, Nat.min_eq_left (by omega)] at cut
    rw [overlay_slice (by omega) (by omega), Nat.add_zero, cut]

/-- What a call leaves in memory, from its reply: the plaintext in its buffer with OK. -/
def Reply.inMemory (reply : Reply) (after : Session) (r : MemoryRequest) (memory : Bytes) :
    MemoryReply :=
  if reply.status = .ok then
    ⟨.ok, some reply.output.length, after, overlay memory r.plaintext reply.output⟩
  else ⟨reply.status, none, after, memory⟩

variable {crypto : Crypto} {keyBytes : Nat} {session : Session} {digest : Block}

theorem responsePlaintext_length {ciphertext : Bytes} {length : Nat}
    (high : length ≤ ciphertext.length) (whole : ciphertext.length % 16 = 0) :
    (responsePlaintext aes iv ciphertext length).length = length := by
  have size := (finalBlock aes iv ciphertext).size
  rw [responsePlaintext, List.length_take, List.length_append, cbcDecrypt_length, size]
  omega

theorem paddingStep_count (bytes : Bytes) (seen bad : Bool) (count : Nat) :
    (bytes.foldl paddingStep (seen, bad, count)).2.2 ≤ count + bytes.length := by
  induction bytes generalizing seen bad count with
  | nil => exact le_rfl
  | cons value bytes ih =>
    rw [List.foldl_cons, paddingStep]
    refine le_trans (ih _ _ _) ?_
    rw [List.length_cons]
    split <;> omega

theorem paddingLength_le (block : Block) : paddingLength block ≤ 16 := by
  have most := paddingStep_count block.bytes.reverse false false 0
  rw [List.length_reverse, block.size] at most
  unfold paddingLength
  split
  rename_i scanned
  rw [scanned] at most
  split
  · omega
  · exact Nat.zero_le _

theorem decryptMemory_eq (placed : r.Placed memory) (whole : r.length % 16 = 0) :
    decryptMemory crypto keyBytes session r digest memory =
      (decryptResponse crypto keyBytes session (r.values memory) digest).1.inMemory
        (decryptResponse crypto keyBytes session (r.values memory) digest).2 r memory := by
  have source := placed.source
  generalize slice : (memory.drop r.ciphertext).take r.length = ciphertext
  have size : ciphertext.length = r.length := by
    rw [← slice, List.length_take, List.length_drop]
    omega
  have values : r.values memory = ⟨ciphertext, r.tag, r.authenticated, r.capacity, r.layout⟩ := by
    rw [MemoryRequest.values, slice]
  rw [values]
  unfold decryptMemory decryptResponse
  by_cases empty : r.length = 0
  · have none : ciphertext = [] := List.length_eq_zero_iff.mp (size.trans empty)
    rw [if_pos empty, if_pos none]
    exact (congrArg _ overlay_nil.symm : acceptMemory session digest 0 memory = _)
  · have some : ciphertext ≠ [] := by
      rintro rfl
      exact empty size.symm
    rw [if_neg empty, if_neg some]
    cases prepared : prepareCipher crypto keyBytes session true with
    | none => rfl
    | some cipher =>
      obtain ⟨aes, iv⟩ := cipher
      dsimp only
      rw [@lastBlock_eq memory aes iv r ciphertext slice source empty whole, size]
      have most := paddingLength_le (finalBlock aes iv ciphertext)
      generalize paddingLength (finalBlock aes iv ciphertext) = padding at most ⊢
      by_cases malformed : padding = 0
      · rw [if_pos malformed, if_pos malformed]
        rfl
      · rw [if_neg malformed, if_neg malformed]
        by_cases small : r.capacity < r.length - padding
        · rw [if_pos small, if_pos small]
          rfl
        · rw [if_neg small, if_neg small, storePlaintext_eq placed slice empty whole (by omega)
            (by omega) (by omega)]
          unfold acceptMemory acceptResponse Reply.inMemory
          rw [if_pos rfl, responsePlaintext_length (by omega) (by omega)]

theorem unprotectMemory_eq (placed : r.Placed memory) : unprotectMemory crypto session r memory =
      (unprotect crypto session (r.values memory)).1.inMemory
        (unprotect crypto session (r.values memory)).2 r memory := by
  have size : (r.values memory).ciphertext.length = r.length := by
    have source := placed.source
    rw [MemoryRequest.values, List.length_take, List.length_drop]
    omega
  unfold unprotectMemory unprotect
  cases checks : unprotectChecks session (r.values memory) with
  | false => rfl
  | true =>
    simp only [Bool.not_true, Bool.false_eq_true, if_false]
    have whole : r.length % 16 = 0 := by
      simp only [unprotectChecks, Bool.and_eq_true, decide_eq_true_eq, size] at checks
      exact checks.1.2
    cases suiteKeyBytes crypto session.suite with
    | none => rfl
    | some keyBytes =>
      cases counterNonzero session.counter with
      | false => rfl
      | true =>
        simp only [Bool.not_true, Bool.false_eq_true, if_false]
        change (match smMac crypto (session.rmacKey.take keyBytes) session.responseMcv.bytes
          (r.values memory).authenticated with
          | none => _
          | some digest => _) = _
        cases smMac crypto (session.rmacKey.take keyBytes) session.responseMcv.bytes
          (r.values memory).authenticated with
        | none => rfl
        | some digest =>
          by_cases forged : digest.bytes.take 8 ≠ r.tag
          · simp only [if_pos forged]
            rw [if_pos (show digest.bytes.take 8 ≠ (r.values memory).tag from forged)]
            rfl
          · simp only [if_neg forged]
            rw [if_neg (show ¬digest.bytes.take 8 ≠ (r.values memory).tag from forged)]
            exact decryptMemory_eq placed whole

end TinyCrypto.Piv
