import TinyCrypto.Piv.CommandWrite
import TinyCrypto.Piv.ResponseRead

/-! # The card's protected responses

What a card sends in answer to a protected command, and that the host reads the plaintext and
the status out of it.
-/

namespace TinyCrypto.Piv

open Apdu Library

/-- A session awaits the response to the command it enciphered under `command`. -/
structure Awaiting (crypto : Crypto) (session : Session) (command : Block) (keyBytes : Nat) :
    Prop where
  state : session.state = .pending
  suite : suiteKeyBytes crypto session.suite = some keyBytes
  counter : session.counter.value = command.value + 1

section

variable (crypto : Crypto) (session : Session) (command : Block) (keyBytes sizeT : Nat)

/-- The cryptogram of a response under a key schedule: the padded plaintext, enciphered under
    the command's counter with the high byte 80. -/
def responseCryptogram (aes : Cipher) (command : Block) (plaintext : Bytes) : Bytes :=
  cbcEncrypt aes (aes.encrypt (command.setHead 0x80)) (plaintext.length / 16 + 1)
    (padPlaintext plaintext (paddedBytes plaintext.length))

inductive ResponseCryptogram : (plaintext ciphertext object : Bytes) → Prop where
  | absent : ResponseCryptogram [] [] []
  | present {aes : Cipher} {plaintext object : Bytes} :
      plaintext ≠ [] → crypto.aes (session.encKey.take keyBytes) = some aes →
      DataObject sizeT 0x87 (0x01 :: responseCryptogram aes command plaintext) object →
      ResponseCryptogram plaintext (responseCryptogram aes command plaintext) object

/-- The response of a card with the session's keys: the cryptogram, the status, and the MAC
    over both, chained to the last response. -/
structure CardResponse (plaintext : Bytes) (sw1 sw2 : UInt8) (fields : ResponseFields)
    (object : Bytes) (digest : Block) : Prop where
  cryptogram : ResponseCryptogram crypto session command keyBytes sizeT plaintext
    fields.ciphertext object
  authenticated : fields.authenticated = object ++ [0x99, 0x02, sw1, sw2]
  chained : crypto.cmac (session.rmacKey.take keyBytes)
    (session.responseMcv.bytes ++ fields.authenticated) = some digest
  mac : fields.mac = digest.bytes.take 8
  sw : fields.sw = sw1.toNat * 256 + sw2.toNat

end

def ResponseFields.bytes (fields : ResponseFields) : Bytes :=
  fields.authenticated ++ [0x8e, 0x08] ++ fields.mac

structure MemoryRequest.Requests (r : MemoryRequest) (memory : Bytes) (fields : ResponseFields) :
    Prop where
  ciphertext : (r.values memory).ciphertext = fields.ciphertext
  tag : r.tag = fields.mac
  authenticated : r.authenticated.flatten = fields.authenticated
  few : r.authenticated.length ≤ authenticatedSpansMax
  layout : r.layout = true

variable {crypto : Crypto} {session : Session} {command : Block} {keyBytes sizeT : Nat}
  {plaintext object : Bytes} {sw1 sw2 ins : UInt8} {ber : Bool} {fields : ResponseFields}
  {digest : Block}

theorem Awaiting.decrement (awaiting : Awaiting crypto session command keyBytes) :
    session.counter.decrement = command := by
  have lowered : session.counter.decrement.value + 1 = session.counter.value := by
    apply ByteCounter.value_decrement
    have pos := awaiting.counter
    unfold Block.value at pos
    omega
  have same : session.counter.decrement.value = command.value := by
    have next := awaiting.counter
    omega
  apply Octets.ext
  apply ByteCounter.value_injective _ same
  rw [Octets.size, Octets.size]

theorem counterNonzero_of_value {counter : Block} (pos : 0 < counter.value) :
    counterNonzero counter = true := by
  by_contra zero
  have none : counter.value = 0 := by
    apply ByteCounter.value_eq_zero_iff.mpr
    intro b member
    by_contra nonzero
    apply zero
    simp only [counterNonzero, List.any_eq_true]
    exact ⟨b, member, by simpa using nonzero⟩
  omega

theorem protect_awaiting {after : Session} {r : ProtectRequest} {reply : Reply}
    (made : protect crypto session r = (reply, after)) (delivered : reply.status = .ok) :
    ∃ keyBytes, Awaiting crypto after session.counter keyBytes := by
  have exits := protect_exits crypto session r
  rw [made] at exits
  cases exits with
  | refused => cases delivered
  | cleared failed => exact absurd delivered failed
  | sent ready top suite => exact ⟨_, rfl, suite, Block.value_increment_of_head top⟩

theorem dataObject_short {tag : UInt8} {value : Bytes} {n : UInt8} (size : value.length = n.toNat)
    (short : n.toNat < 128) : DataObject sizeT tag value (tag :: n :: value) :=
  ⟨[n], rfl, size ▸ .short short⟩

theorem responseCryptogram_length {aes : Cipher} :
    (responseCryptogram aes command plaintext).length = 16 * (plaintext.length / 16 + 1) :=
  cbcEncrypt_length _ _ _ _

theorem CardResponse.reads
    (response : CardResponse crypto session command keyBytes sizeT plaintext sw1 sw2 fields
      object digest) (plain : plaintext = [] ∨ ins ≠ insVerify) :
    responseRead (isoReading ber sizeT) fields.bytes ins = some fields := by
  apply responseRead_iff.mpr
  have width : fields.mac.length = 8 := by
    have size := digest.size
    rw [response.mac, List.length_take]
    omega
  refine ⟨object, [0x99, 0x02, sw1, sw2], [0x8e, 0x08] ++ fields.mac, ?_, ?_, ?_,
    response.authenticated, dataObject_short width (by decide), width⟩
  · rw [ResponseFields.bytes, response.authenticated, List.append_assoc (_ ++ _)]
  · have cryptogram := response.cryptogram
    generalize fields.ciphertext = ciphertext at cryptogram ⊢
    cases cryptogram with
    | absent => exact .inl ⟨rfl, rfl⟩
    | @present aes _ _ filled keyed data =>
      have size := @responseCryptogram_length command plaintext aes
      refine .inr ⟨plain.resolve_left filled, ?_, by omega, data⟩
      intro empty
      rw [empty] at size
      cases size
  · exact ⟨sw1, sw2, dataObject_short rfl (by decide), response.sw⟩

section

variable (awaiting : Awaiting crypto session command keyBytes)

include awaiting

theorem decryptResponse_card {r : UnprotectRequest}
    (cryptogram : ResponseCryptogram crypto session command keyBytes sizeT plaintext
      r.ciphertext object) (fits : plaintext.length ≤ r.capacity) :
    ∃ used, decryptResponse crypto keyBytes session r digest =
      acceptResponse session digest plaintext used := by
  unfold decryptResponse
  generalize r.ciphertext = ciphertext at cryptogram
  cases cryptogram with
  | absent =>
    rw [if_pos rfl]
    exact ⟨none, rfl⟩
  | @present aes _ _ filled keyed data =>
    have size := @responseCryptogram_length command plaintext aes
    have nonempty : responseCryptogram aes command plaintext ≠ [] := by
      intro empty
      rw [empty] at size
      cases size
    have prepared : prepareCipher crypto keyBytes session true =
        some (aes, aes.encrypt (command.setHead 0x80)) := by
      unfold prepareCipher counterBlock
      rw [keyed, if_pos rfl, awaiting.decrement]
      rfl
    obtain ⟨padding, deciphered⟩ := @padded_deciphers aes (aes.encrypt (command.setHead 0x80))
      plaintext _ rfl
    have room := paddedBytes_pos plaintext.length
    have width : (responseCryptogram aes command plaintext).length =
        paddedBytes plaintext.length := by
      rw [size, paddedBytes, Nat.mul_comm]
    have length : (responseCryptogram aes command plaintext).length -
        (paddedBytes plaintext.length - plaintext.length) = plaintext.length := by omega
    rw [if_neg nonempty, prepared]
    refine ⟨some (aes.encrypt (command.setHead 0x80)), ?_⟩
    dsimp only
    unfold responseCryptogram at *
    rw [padding, if_neg (by omega), length, if_neg (Nat.not_lt.mpr fits), deciphered]

theorem CardResponse.unprotects {r : UnprotectRequest}
    (response : CardResponse crypto session command keyBytes sizeT plaintext sw1 sw2 fields
      object digest) (ciphertext : r.ciphertext = fields.ciphertext) (tag : r.tag = fields.mac)
    (authenticated : r.authenticated.flatten = fields.authenticated)
    (few : r.authenticated.length ≤ authenticatedSpansMax) (layout : r.layout = true)
    (fits : plaintext.length ≤ r.capacity) :
    ∃ used, unprotect crypto session r = acceptResponse session digest plaintext used := by
  have cryptogram := response.cryptogram
  rw [← ciphertext] at cryptogram
  have whole : r.ciphertext.length % 16 = 0 := by
    generalize r.ciphertext = bytes at cryptogram
    cases cryptogram with
    | absent => rfl
    | present filled keyed data =>
      rw [responseCryptogram_length]
      omega
  have width : r.tag.length = 8 := by
    have size := digest.size
    rw [tag, response.mac, List.length_take]
    omega
  have checks : unprotectChecks session r = true := by
    simp [unprotectChecks, layout, width, few, whole, awaiting.state]
  have counter : counterNonzero session.counter = true := by
    apply counterNonzero_of_value
    rw [awaiting.counter]
    omega
  have mac : smMac crypto (session.rmacKey.take keyBytes) session.responseMcv.bytes
      r.authenticated = some digest := by
    rw [smMac, authenticated]
    exact response.chained
  have same : digest.bytes.take 8 = r.tag := (tag.trans response.mac).symm
  rw [unprotect_of_checks checks awaiting.suite counter, mac]
  dsimp only
  rw [if_neg (not_not.mpr same)]
  exact decryptResponse_card awaiting cryptogram fits

theorem CardResponse.unprotects_memory {r : MemoryRequest} {memory : Bytes}
    (response : CardResponse crypto session command keyBytes sizeT plaintext sw1 sw2 fields
      object digest) (placed : r.Placed memory) (requests : r.Requests memory fields)
    (fits : plaintext.length ≤ r.capacity) : unprotectMemory crypto session r memory =
      ⟨.ok, some plaintext.length, { session with responseMcv := digest, state := .ready },
        overlay memory r.plaintext plaintext⟩ := by
  have delivered := @CardResponse.unprotects crypto session command keyBytes sizeT plaintext
    object sw1 sw2 fields digest awaiting (r.values memory) response requests.ciphertext
    requests.tag requests.authenticated requests.few requests.layout fits
  obtain ⟨used, delivered⟩ := delivered
  rw [unprotectMemory_eq placed, delivered]
  rfl

end

/-- The response to the session's command is read, and its plaintext is stored, in a buffer
    apart from the ciphertext or in its place. -/
structure Undone (crypto : Crypto) (r : Tlv.Reading) (session : Session) (ins : UInt8)
    (plaintext : Bytes) (sw : Nat) (digest : Block) (fields : ResponseFields) : Prop where
  reads : responseRead r fields.bytes ins = some fields
  status : fields.sw = sw
  stored : ∀ (request : MemoryRequest) (memory : Bytes), request.Placed memory →
    request.Requests memory fields → plaintext.length ≤ request.capacity →
    ∃ after, unprotectMemory crypto session request memory =
        ⟨.ok, some plaintext.length, { session with responseMcv := digest, state := .ready },
          after⟩ ∧
      (after.drop request.plaintext).take plaintext.length = plaintext ∧
      after = overlay memory request.plaintext plaintext

/-- Unprotecting undoes the card's protection. What is read as a response is the objects in
    order, under any ISO 7816 length fields. -/
theorem protected_exchange (crypto : Crypto) (ber : Bool) (sizeT : Nat) :
    (∀ (session after : Session) (r : ProtectRequest) (reply : Reply),
      protect crypto session r = (reply, after) → reply.status = .ok →
        ∃ keyBytes, Awaiting crypto after session.counter keyBytes) ∧
    (∀ (session : Session) (command : Block) (keyBytes : Nat) (plaintext object : Bytes)
      (sw1 sw2 ins : UInt8) (fields : ResponseFields) (digest : Block),
      Awaiting crypto session command keyBytes →
      CardResponse crypto session command keyBytes sizeT plaintext sw1 sw2 fields object digest →
      plaintext = [] ∨ ins ≠ insVerify → Undone crypto (isoReading ber sizeT) session ins plaintext
          (sw1.toNat * 256 + sw2.toNat) digest fields) ∧
    (∀ (data : Bytes) (ins : UInt8) (fields : ResponseFields),
      responseRead (isoReading ber sizeT) data ins = some fields ↔
        ProtectedResponse sizeT ins data fields) ∧
    (∀ (block : Block) (k : Nat), paddingLength block = k ∧ 0 < k ↔
      0 < k ∧ ∃ before, block.bytes = before ++ 0x80 :: List.replicate (k - 1) 0) ∧
    ∀ (p : LinkPrimitives) (session after : Session) (command : Command)
      (layout : CommandLayout) (field : Bytes),
      commandLayout command.data.length (command.ne ≠ 0) = some layout →
      commandProtect p session command layout.ciphertextLength = (some field, after) →
        field.length = layout.fieldLength ∧ ∃ ciphertext tag,
          field = authenticatedField layout.ciphertextLength (command.ne ≠ 0) ciphertext ++
            [0x8e, 0x08] ++ tag ∧ ∀ scratch : Bytes, layout.fieldLength ≤ scratch.length →
            writeCommand layout (command.ne ≠ 0) ciphertext tag scratch =
              field ++ scratch.drop layout.fieldLength := by
  refine ⟨fun _ _ _ _ => protect_awaiting, ?_, fun _ _ _ => responseRead_iff,
    fun _ _ => paddingLength_iff, fun _ _ _ _ _ _ => commandProtect_written⟩
  intro session command keyBytes plaintext object sw1 sw2 ins fields digest awaiting response plain
  refine ⟨response.reads plain, response.sw, ?_⟩
  intro request memory placed requests fits
  have room : request.plaintext + plaintext.length ≤ memory.length := by
    have target := placed.target
    omega
  exact ⟨_, response.unprotects_memory awaiting placed requests fits, overlay_written room, rfl⟩

/-- The strings with length fields of one byte for the status and the MAC. -/
def ShortResponse (data : Bytes) : Prop :=
  ∃ (object mac : Bytes) (sw1 sw2 : UInt8), mac.length = 8 ∧
    (object = [] ∨ ∃ length ciphertext, object = 0x87 :: length ++ 0x01 :: ciphertext) ∧
    data = object ++ [0x99, 0x02, sw1, sw2] ++ [0x8e, 0x08] ++ mac

/-- A status object with the length field `81 02` is read too. -/
theorem protected_exchange_long_length :
    ¬ ∀ data : Bytes, (responseRead (isoReading false 8) data insGetData).isSome →
      ShortResponse data := by
  intro short
  obtain ⟨object, mac, sw1, sw2, size, shape, split⟩ :=
    short [0x99, 0x81, 0x02, 0x90, 0x00, 0x8e, 0x08, 1, 2, 3, 4, 5, 6, 7, 8] (by decide)
  rcases shape with rfl | ⟨length, ciphertext, rfl⟩
  · simp at split
  · simp at split

end TinyCrypto.Piv
