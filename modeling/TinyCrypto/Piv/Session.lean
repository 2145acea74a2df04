import TinyCrypto.Common.Bytes
import TinyCrypto.Library.ByteCounter

/-! # PIV secure messaging sessions

`piv_sm.c` establishes a session and `piv_sm_message.c` protects one command
and unprotects one response at a time. AES and CMAC are parameters: AES is a
permutation of blocks for each key it accepts. A reply records, beside the
outputs, the IV block that the call used under the ENC key.
-/

namespace TinyCrypto.Piv

open Library

abbrev Block := Octets 16

namespace Block

abbrev zero : Block := Octets.zero 16

abbrev ofBytes (bytes : Bytes) : Block := Octets.ofBytes 16 bytes

def value (b : Block) : Nat := ByteCounter.value b.bytes

/-- `tc_internal_increment_be`. -/
def increment (b : Block) : Block := ⟨ByteCounter.increment b.bytes, by simp [b.size]⟩

/-- The borrow loop of `prepare_cipher`. -/
def decrement (b : Block) : Block := ⟨ByteCounter.decrement b.bytes, by simp [b.size]⟩

def head (b : Block) : UInt8 := b.bytes.headD 0

def setHead (b : Block) (top : UInt8) : Block := ⟨top :: b.bytes.tail, by simp [b.size]⟩

end Block

/-- `TC_PIV_SM_state`. -/
inductive SessionState where
  | idle
  | establishing
  | ready
  | pending
  deriving DecidableEq

/-- `TC_PIV_SM` with its traffic data. -/
structure Session where
  macKey : Bytes
  encKey : Bytes
  rmacKey : Bytes
  counter : Block
  commandMcv : Block
  responseMcv : Block
  suite : UInt8
  state : SessionState
  deriving DecidableEq

/-- `TC_PIV_SM_clear` leaves a zeroed session. -/
def Session.zero : Session := ⟨[], [], [], .zero, .zero, .zero, 0, .idle⟩

structure Cipher where
  encrypt : Block → Block
  decrypt : Block → Block
  decrypt_encrypt : ∀ b, decrypt (encrypt b) = b

theorem Cipher.encrypt_injective (aes : Cipher) : Function.Injective aes.encrypt :=
  Function.LeftInverse.injective aes.decrypt_encrypt

structure Crypto where
  /-- `TC_AES_dynamic_key_init`. -/
  aes : Bytes → Option Cipher
  /-- CMAC of a key over the concatenated spans. -/
  cmac : Bytes → Bytes → Option Block
  /-- `TC_PIV_SM_ENABLE_CS2` and `TC_PIV_SM_ENABLE_CS7`. -/
  cs2 : Bool
  cs7 : Bool
  sizeMax : Nat

/-- `tc_sm_suite_get`, as the suite's key length. -/
def suiteKeyBytes (crypto : Crypto) (suite : UInt8) : Option Nat :=
  if crypto.cs2 && suite = 0x27 then some 16
  else if crypto.cs7 && suite = 0x2e then some 32
  else none

/-- `tc_sm_mac`: the prefix, then the spans in order. -/
def smMac (crypto : Crypto) (key : Bytes) (prefixed : Bytes) (spans : List Bytes) : Option Block :=
  crypto.cmac key (prefixed ++ spans.flatten)

/-- A cipher suite of `tc_sm_suite`. -/
structure Suite where
  coordinateBytes : Nat
  keyBytes : Nat
  nonceBytes : Nat
  identifiers : Bytes

def suiteSettings : UInt8 → Suite
  | 0x27 => ⟨32, 16, 16, [4, 9, 9, 9, 9, 8]⟩
  | _ => ⟨48, 32, 24, [4, 13, 13, 13, 13, 8]⟩

structure Handshake where
  scalar : Bytes
  publicKey : Bytes
  hostId : Bytes
  suite : UInt8

/-- `TC_PIV_SM_peer`. -/
structure Peer where
  certificate : Bytes
  nonce : Bytes
  cryptogram : Bytes
  cardControl : UInt8

structure Agreement where
  ecdh : (suite : UInt8) → (scalar key : Bytes) → Option Bytes
  sha256 : Bytes → Bytes
  derive : (suite : UInt8) → (secret info : Bytes) → (length : Nat) → Option Bytes

/-- The traffic keys cut out of the derived material, behind the confirmation
    key. -/
def establish (keyBytes : Nat) (suite : UInt8) (material : Bytes) : Session where
  macKey := (material.drop keyBytes).take keyBytes
  encKey := (material.drop (2 * keyBytes)).take keyBytes
  rmacKey := (material.drop (3 * keyBytes)).take keyBytes
  counter := Block.zero.increment
  commandMcv := .zero
  responseMcv := .zero
  suite := suite
  state := .ready

/-- The checks of `finish_response` on the peer's fields. -/
def peerFits (suite : Suite) (peer : Peer) (authenticatedKey : Bytes) : Bool :=
  peer.cardControl = 0 && authenticatedKey.length = 1 + 2 * suite.coordinateBytes &&
    peer.nonce.length = suite.nonceBytes && peer.cryptogram.length = 16 &&
    peer.certificate ≠ []

/-- `OtherInfo` of the key derivation. -/
def otherInfo (suite : Suite) (handshake : Handshake) (peer : Peer) (digest : Bytes) : Bytes :=
  suite.identifiers ++ handshake.hostId ++ [1, 0, 16] ++ (handshake.publicKey.drop 1).take 16 ++
    [8] ++ digest.take 8 ++ [UInt8.ofNat suite.nonceBytes] ++ peer.nonce ++ [1] ++
    [peer.cardControl]

/-- The spans of the key confirmation MAC, which start with `KC_1_V`. -/
def confirmation (suite : Suite) (handshake : Handshake) (digest : Bytes) : List Bytes :=
  [[0x4b, 0x43, 0x5f, 0x31, 0x5f, 0x56], digest.take 8, handshake.hostId,
    (handshake.publicKey.drop 1).take (2 * suite.coordinateBytes)]

/-- The material `finish_response` derives from an acceptable peer. -/
def deriveMaterial (agreement : Agreement) (keyBytes : Nat) (handshake : Handshake) (peer : Peer)
    (authenticatedKey : Bytes) : Option Bytes := do
  let suite := suiteSettings handshake.suite
  guard (peerFits suite peer authenticatedKey)
  let secret ← agreement.ecdh handshake.suite handshake.scalar authenticatedKey
  agreement.derive handshake.suite secret
    (otherInfo suite handshake peer (agreement.sha256 peer.certificate)) (4 * keyBytes)

/-- The confirmation step of `finish_response`. -/
def confirmKeys (crypto : Crypto) (agreement : Agreement) (keyBytes : Nat) (handshake : Handshake)
    (peer : Peer) (material : Bytes) : Result × Session :=
  match smMac crypto (material.take keyBytes) [] (confirmation (suiteSettings handshake.suite)
    handshake (agreement.sha256 peer.certificate)) with
  | none => (.error, .zero)
  | some cryptogram =>
    if cryptogram.bytes = peer.cryptogram then
      (.ok, establish keyBytes handshake.suite material)
    else (.invalid, .zero)

/-- `finish_response`. -/
def finishResponse (crypto : Crypto) (agreement : Agreement) (handshake : Handshake)
    (peer : Peer) (authenticatedKey : Bytes) : Result × Session :=
  match suiteKeyBytes crypto handshake.suite with
  | none => (.error, .zero)
  | some keyBytes =>
    match deriveMaterial agreement keyBytes handshake peer authenticatedKey with
    | none => (.error, .zero)
    | some material => confirmKeys crypto agreement keyBytes handshake peer material

structure Established (crypto : Crypto) where
  agreement : Agreement
  handshake : Handshake
  peer : Peer
  authenticatedKey : Bytes
  finished : (finishResponse crypto agreement handshake peer authenticatedKey).1 = .ok

def Established.session {crypto : Crypto} (e : Established crypto) : Session :=
  (finishResponse crypto e.agreement e.handshake e.peer e.authenticatedKey).2

theorem finishResponse_ok {crypto : Crypto} {agreement : Agreement} {handshake : Handshake}
    {peer : Peer} {authenticatedKey : Bytes}
    (finished : (finishResponse crypto agreement handshake peer authenticatedKey).1 = .ok) :
    ∃ keyBytes material, suiteKeyBytes crypto handshake.suite = some keyBytes ∧
      (finishResponse crypto agreement handshake peer authenticatedKey).2 =
        establish keyBytes handshake.suite material := by
  unfold finishResponse at *
  cases hSuite : suiteKeyBytes crypto handshake.suite with
  | none => simp [hSuite] at finished
  | some keyBytes =>
    simp only [hSuite] at finished ⊢
    cases hMaterial : deriveMaterial agreement keyBytes handshake peer authenticatedKey with
    | none => simp [hMaterial] at finished
    | some material =>
      simp only [hMaterial] at finished ⊢
      refine ⟨keyBytes, material, rfl, ?_⟩
      unfold confirmKeys at *
      split at finished
      · cases finished
      · split at finished
        · rename_i same
          simp [same]
        · cases finished

theorem Established.fresh {crypto : Crypto} (e : Established crypto) :
    ∃ keyBytes, suiteKeyBytes crypto e.session.suite = some keyBytes ∧
      e.session.state = .ready ∧ e.session.counter = Block.zero.increment ∧
      e.session.commandMcv = .zero ∧ e.session.responseMcv = .zero := by
  obtain ⟨keyBytes, material, suite, left⟩ := finishResponse_ok e.finished
  unfold Established.session
  rw [left]
  exact ⟨keyBytes, suite, rfl, rfl, rfl, rfl⟩

/-! ## Protecting commands and unprotecting responses

`TC_PIV_SM_protect` and `TC_PIV_SM_unprotect`. The NULL, span and overlap
checks depend on the caller's memory only; `layout` is their outcome. A span
may hold the ciphertext that the call writes, so it is read as a function of
it.
-/

/-- `TC_PIV_SM_protect_request` with the tag buffer. -/
structure ProtectRequest where
  plaintext : Bytes
  capacity : Nat
  spans : List (Bytes → Bytes)
  tagCapacity : Nat
  layout : Bool

/-- `TC_PIV_SM_unprotect_request` with the plaintext buffer. -/
structure UnprotectRequest where
  ciphertext : Bytes
  tag : Bytes
  authenticated : List Bytes
  capacity : Nat
  layout : Bool
  deriving DecidableEq

inductive Exit where
  /-- Arguments or state were refused before anything was done. -/
  | refused
  /-- The plaintext buffer is too small for an authentic response. -/
  | tooSmall
  /-- The session was cleared. -/
  | cleared
  | delivered
  deriving DecidableEq

/-- What a call returns. `used` is the IV block it used under the ENC key. -/
structure Reply where
  exit : Exit
  status : Result
  output : Bytes
  tag : Bytes
  used : Option Block
  deriving DecidableEq

def Reply.refused : Reply := ⟨.refused, .error, [], [], none⟩

def Reply.cleared (status : Result) (used : Option Block) : Reply := ⟨.cleared, status, [], [], used⟩

/-- `TC_PIV_SM_AUTHENTICATED_SPANS_MAX`. -/
def authenticatedSpansMax : Nat := 8

/-- `TC_PIV_SM_ciphertext_size`. -/
def ciphertextSize (sizeMax length : Nat) : Option Nat := if length = 0 then some 0
  else
    let padding := 16 - length % 16
    if length > sizeMax - padding then none else some (length + padding)

def padPlaintext (plaintext : Bytes) (needed : Nat) : Bytes :=
  plaintext ++ 0x80 :: List.replicate (needed - plaintext.length - 1) 0

/-- `tc_block_cbc_encrypt` over `count` blocks. -/
def cbcEncrypt (aes : Cipher) : Block → Nat → Bytes → Bytes
  | _, 0, _ => []
  | iv, count + 1, bytes =>
    let block := aes.encrypt ((Block.ofBytes bytes).xor iv)
    block.bytes ++ cbcEncrypt aes block count (bytes.drop 16)

/-- `tc_block_cbc_decrypt` over `count` blocks. -/
def cbcDecrypt (aes : Cipher) : Block → Nat → Bytes → Bytes
  | _, 0, _ => []
  | iv, count + 1, bytes =>
    let block := Block.ofBytes bytes
    ((aes.decrypt block).xor iv).bytes ++ cbcDecrypt aes block count (bytes.drop 16)

/-- The counter block a command or a response is enciphered under. A response
    uses the preceding command's counter with its high byte replaced by 80. -/
def counterBlock (session : Session) (response : Bool) : Block :=
  if response then session.counter.decrement.setHead 0x80 else session.counter

/-- `prepare_cipher`: the key schedule and the IV. -/
def prepareCipher (crypto : Crypto) (keyBytes : Nat) (session : Session) (response : Bool) :
    Option (Cipher × Block) := do
  let aes ← crypto.aes (session.encKey.take keyBytes)
  return (aes, aes.encrypt (counterBlock session response))

/-- `counter_nonzero`. -/
def counterNonzero (counter : Block) : Bool := counter.bytes.any (· ≠ 0)

/-- The argument and state checks of `TC_PIV_SM_protect`, giving the ciphertext
    length. -/
def protectChecks (crypto : Crypto) (session : Session) (r : ProtectRequest) : Option Nat :=
  if r.layout && 8 ≤ r.tagCapacity && r.spans.length ≤ authenticatedSpansMax &&
      session.state = .ready then
    (ciphertextSize crypto.sizeMax r.plaintext.length).filter (· ≤ r.capacity)
  else none

/-- The MAC and state change of `TC_PIV_SM_protect`. -/
def protectMac (crypto : Crypto) (keyBytes : Nat) (session : Session) (r : ProtectRequest)
    (ciphertext : Bytes) (used : Option Block) : Reply × Session :=
  match smMac crypto (session.macKey.take keyBytes) session.commandMcv.bytes
    (r.spans.map (· ciphertext)) with
  | none => (.cleared .error used, .zero)
  | some digest =>
    (⟨.delivered, .ok, ciphertext, digest.bytes.take 8, used⟩,
      { session with
        commandMcv := digest, counter := session.counter.increment, state := .pending })

/-- `TC_PIV_SM_protect`. The session stops before the low 120 bits of the
    counter repeat. -/
def protect (crypto : Crypto) (session : Session) (r : ProtectRequest) : Reply × Session :=
  match protectChecks crypto session r with
  | none => (.refused, session)
  | some needed =>
    match suiteKeyBytes crypto session.suite with
    | none => (.cleared .error none, .zero)
    | some keyBytes =>
      if session.counter.head ≠ 0 || !counterNonzero session.counter then
        (.cleared .error none, .zero)
      else if needed = 0 then protectMac crypto keyBytes session r [] none
      else
        match prepareCipher crypto keyBytes session false with
        | none => (.cleared .error none, .zero)
        | some (aes, iv) =>
          protectMac crypto keyBytes session r
            (cbcEncrypt aes iv (needed / 16) (padPlaintext r.plaintext needed)) (some iv)

/-- One byte of the scan in `padding_length`: marker seen, malformed, count. -/
def paddingStep : Bool × Bool × Nat → UInt8 → Bool × Bool × Nat
  | (seen, bad, count), value =>
    (seen || value = 0x80, bad || (!seen && value ≠ 0 && value ≠ 0x80),
      if seen then count else count + 1)

/-- `padding_length`: the ISO 7816 padding of the final block, zero if malformed. -/
def paddingLength (block : Block) : Nat :=
  match block.bytes.reverse.foldl paddingStep (false, false, 0) with
  | (seen, bad, count) => if seen && !bad then count else 0

/-- The argument and state checks of `TC_PIV_SM_unprotect`. -/
def unprotectChecks (session : Session) (r : UnprotectRequest) : Bool :=
  r.layout && r.tag.length = 8 && r.authenticated.length ≤ authenticatedSpansMax &&
    r.ciphertext.length % 16 = 0 && session.state = .pending

def finalBlock (aes : Cipher) (iv : Block) (ciphertext : Bytes) : Block :=
  let before := if ciphertext.length = 16 then iv
    else Block.ofBytes (ciphertext.drop (ciphertext.length - 32))
  (aes.decrypt (Block.ofBytes (ciphertext.drop (ciphertext.length - 16)))).xor before

/-- The plaintext of `length` bytes. -/
def responsePlaintext (aes : Cipher) (iv : Block) (ciphertext : Bytes) (length : Nat) : Bytes :=
  (cbcDecrypt aes iv (ciphertext.length / 16 - 1) ciphertext ++
    (finalBlock aes iv ciphertext).bytes).take length

def acceptResponse (session : Session) (digest : Block) (plaintext : Bytes)
    (used : Option Block) : Reply × Session :=
  (⟨.delivered, .ok, plaintext, [], used⟩, { session with responseMcv := digest, state := .ready })

/-- Decrypt an authentic response. A buffer that is too small preserves the
    session. -/
def decryptResponse (crypto : Crypto) (keyBytes : Nat) (session : Session)
    (r : UnprotectRequest) (digest : Block) : Reply × Session :=
  if r.ciphertext = [] then acceptResponse session digest [] none
  else
    match prepareCipher crypto keyBytes session true with
    | none => (.cleared .error none, .zero)
    | some (aes, iv) =>
      let padding := paddingLength (finalBlock aes iv r.ciphertext)
      if padding = 0 then (.cleared .error (some iv), .zero)
      else if r.capacity < r.ciphertext.length - padding then
        (⟨.tooSmall, .error, [], [], some iv⟩, session)
      else
        acceptResponse session digest
          (responsePlaintext aes iv r.ciphertext (r.ciphertext.length - padding)) (some iv)

/-- `TC_PIV_SM_unprotect`. -/
def unprotect (crypto : Crypto) (session : Session) (r : UnprotectRequest) : Reply × Session :=
  if !unprotectChecks session r then (.refused, session)
  else
    match suiteKeyBytes crypto session.suite with
    | none => (.cleared .error none, .zero)
    | some keyBytes =>
      if !counterNonzero session.counter then (.cleared .error none, .zero)
      else
        match smMac crypto (session.rmacKey.take keyBytes) session.responseMcv.bytes
          r.authenticated with
        | none => (.cleared .error none, .zero)
        | some digest =>
          if digest.bytes.take 8 ≠ r.tag then (.cleared .invalid none, .zero)
          else decryptResponse crypto keyBytes session r digest

inductive Call where
  | protect (r : ProtectRequest)
  | unprotect (r : UnprotectRequest)

def Call.isProtect : Call → Bool
  | .protect _ => true
  | .unprotect _ => false

def Session.step (crypto : Crypto) (session : Session) : Call → Reply × Session
  | .protect r => Piv.protect crypto session r
  | .unprotect r => Piv.unprotect crypto session r

end TinyCrypto.Piv
