import TinyCrypto.Library.Program
import TinyCrypto.Piv.Session

/-! # Sessions over whole runs

Every call takes one of five exits. Only two of them deliver, and they carry
the state, the counter and the chaining values forward; one exit clears the
session, and the refusals leave it as it was.
-/

namespace TinyCrypto.Piv

open Library

abbrev History := List (Call × Reply)

/-- The IV block of a call is the one `prepare_cipher` makes in this session. -/
def Enciphers (crypto : Crypto) (session : Session) (call : Call) (used : Option Block) : Prop :=
  ∀ iv, used = some iv → session.state = (if call.isProtect then .ready else .pending) ∧
    (call.isProtect = true → session.counter.head = 0) ∧
    ∃ keyBytes aes, suiteKeyBytes crypto session.suite = some keyBytes ∧
      prepareCipher crypto keyBytes session (!call.isProtect) = some (aes, iv)

inductive Exits (crypto : Crypto) (session : Session) : Call → Reply → Session → Prop
  | refused (call : Call) : Exits crypto session call .refused session
  | cleared {call : Call} {status : Result} {used : Option Block} (failed : status ≠ .ok)
      (enciphers : Enciphers crypto session call used) :
      Exits crypto session call (.cleared status used) .zero
  | tooSmall {r : UnprotectRequest} {iv : Block}
      (enciphers : Enciphers crypto session (.unprotect r) (some iv)) :
      Exits crypto session (.unprotect r) ⟨.tooSmall, .error, [], [], some iv⟩ session
  | sent {r : ProtectRequest} {keyBytes : Nat} {ciphertext : Bytes} {digest : Block}
      {used : Option Block} (ready : session.state = .ready) (top : session.counter.head = 0)
      (suite : suiteKeyBytes crypto session.suite = some keyBytes)
      (mac : smMac crypto (session.macKey.take keyBytes) session.commandMcv.bytes
        (r.spans.map (· ciphertext)) = some digest)
      (enciphers : Enciphers crypto session (.protect r) used) :
      Exits crypto session (.protect r)
        ⟨.delivered, .ok, ciphertext, digest.bytes.take 8, used⟩
        { session with
          commandMcv := digest, counter := session.counter.increment, state := .pending }
  | received {r : UnprotectRequest} {keyBytes : Nat} {plaintext : Bytes} {digest : Block}
      {used : Option Block} (pending : session.state = .pending)
      (suite : suiteKeyBytes crypto session.suite = some keyBytes)
      (mac : smMac crypto (session.rmacKey.take keyBytes) session.responseMcv.bytes
        r.authenticated = some digest)
      (enciphers : Enciphers crypto session (.unprotect r) used) :
      Exits crypto session (.unprotect r) ⟨.delivered, .ok, plaintext, [], used⟩
        { session with responseMcv := digest, state := .ready }

variable {crypto : Crypto} {session : Session} {call : Call}

theorem enciphers_none : Enciphers crypto session call none := by
  intro iv used
  cases used

variable {keyBytes : Nat}

variable {r : ProtectRequest} {b iv : Block}

theorem protectMac_exits {ciphertext : Bytes} {used : Option Block} (ready : session.state = .ready)
    (top : session.counter.head = 0) (suite : suiteKeyBytes crypto session.suite = some keyBytes)
    (enciphers : Enciphers crypto session (.protect r) used) :
    Exits crypto session (.protect r) (protectMac crypto keyBytes session r ciphertext used).1
      (protectMac crypto keyBytes session r ciphertext used).2 := by
  unfold protectMac
  split
  · exact .cleared (by decide) enciphers
  · rename_i digest mac
    exact .sent ready top suite mac enciphers

theorem protectChecks_ready {needed : Nat} (passed : protectChecks crypto session r = some needed) :
    session.state = .ready := by
  unfold protectChecks at passed
  split at passed
  · rename_i checks
    simp only [Bool.and_eq_true, decide_eq_true_eq] at checks
    exact checks.2
  · cases passed

theorem protect_exits (crypto : Crypto) (session : Session) (r : ProtectRequest) :
    Exits crypto session (.protect r) (protect crypto session r).1
      (protect crypto session r).2 := by
  unfold protect
  cases hChecks : protectChecks crypto session r with
  | none => exact .refused _
  | some needed =>
    have ready := protectChecks_ready hChecks
    cases hSuite : suiteKeyBytes crypto session.suite with
    | none => exact .cleared (by decide) enciphers_none
    | some keyBytes =>
      simp only
      split
      · exact .cleared (by decide) enciphers_none
      · rename_i counter
        simp only [ne_eq, Bool.or_eq_true, decide_eq_true_eq, not_or, not_not] at counter
        split
        · exact protectMac_exits ready counter.1 hSuite enciphers_none
        · cases hCipher : prepareCipher crypto keyBytes session false with
          | none => exact .cleared (by decide) enciphers_none
          | some prepared =>
            refine protectMac_exits ready counter.1 hSuite ?_
            rintro iv ⟨⟩
            exact ⟨ready, fun _ => counter.1, keyBytes, prepared.1, hSuite, hCipher⟩

theorem decryptResponse_exits {r : UnprotectRequest} {digest : Block}
    (pending : session.state = .pending)
    (suite : suiteKeyBytes crypto session.suite = some keyBytes)
    (mac : smMac crypto (session.rmacKey.take keyBytes) session.responseMcv.bytes r.authenticated = some digest) :
    Exits crypto session (.unprotect r) (decryptResponse crypto keyBytes session r digest).1
      (decryptResponse crypto keyBytes session r digest).2 := by
  unfold decryptResponse
  split
  · exact .received pending suite mac enciphers_none
  · cases hCipher : prepareCipher crypto keyBytes session true with
    | none => exact .cleared (by decide) enciphers_none
    | some prepared =>
      have enciphers : Enciphers crypto session (.unprotect r) (some prepared.2) := by
        rintro iv ⟨⟩
        exact ⟨pending, by simp [Call.isProtect], keyBytes, prepared.1, suite, hCipher⟩
      simp only
      split
      · exact .cleared (by decide) enciphers
      · split
        · exact .tooSmall enciphers
        · exact .received pending suite mac enciphers

theorem unprotectChecks_pending {r : UnprotectRequest} (passed : unprotectChecks session r = true) :
    session.state = .pending := by
  unfold unprotectChecks at passed
  simp only [Bool.and_eq_true, decide_eq_true_eq] at passed
  exact passed.2

theorem unprotect_exits (crypto : Crypto) (session : Session) (r : UnprotectRequest) :
    Exits crypto session (.unprotect r) (unprotect crypto session r).1
      (unprotect crypto session r).2 := by
  unfold unprotect
  cases hChecks : unprotectChecks session r with
  | false => exact .refused _
  | true =>
    have pending := unprotectChecks_pending hChecks
    simp only [Bool.not_true, Bool.false_eq_true, if_false]
    cases hSuite : suiteKeyBytes crypto session.suite with
    | none => exact .cleared (by decide) enciphers_none
    | some keyBytes =>
      simp only
      split
      · exact .cleared (by decide) enciphers_none
      · cases hMac : smMac crypto (session.rmacKey.take keyBytes) session.responseMcv.bytes
          r.authenticated with
        | none => exact .cleared (by decide) enciphers_none
        | some digest =>
          simp only
          split
          · exact .cleared (by decide) enciphers_none
          · exact decryptResponse_exits pending hSuite hMac

theorem step_exits (crypto : Crypto) (session : Session) (call : Call) :
    Exits crypto session call (session.step crypto call).1 (session.step crypto call).2 := by
  cases call with
  | protect r => exact protect_exits crypto session r
  | unprotect r => exact unprotect_exits crypto session r

def delivered (e : Call × Reply) : Bool := e.2.status = .ok

def commandsSent (history : History) : Nat := history.countP fun e => e.1.isProtect && delivered e

def awaiting : History → Bool
  | [] => false
  | e :: older => if delivered e then e.1.isProtect else awaiting older

/-- The deliveries of a run, newest first: `true` for a command. -/
def deliveries (history : History) : List Bool := (history.filter delivered).map (·.1.isProtect)

/-- The command chaining value after a run: each delivered command chains the
    MAC of its spans onto it. -/
def commandChain (crypto : Crypto) (macKey : Bytes) : History → Block
  | [] => .zero
  | (.protect r, reply) :: older =>
    let before := commandChain crypto macKey older
    if reply.status = .ok then
      (smMac crypto macKey before.bytes (r.spans.map (· reply.output))).getD .zero
    else before
  | (.unprotect _, _) :: older => commandChain crypto macKey older

def responseChain (crypto : Crypto) (rmacKey : Bytes) : History → Block
  | [] => .zero
  | (.unprotect r, reply) :: older =>
    let before := responseChain crypto rmacKey older
    if reply.status = .ok then
      (smMac crypto rmacKey before.bytes r.authenticated).getD .zero
    else before
  | (.protect _, _) :: older => responseChain crypto rmacKey older

structure Live (crypto : Crypto) (start : Session) (keyBytes : Nat) (history : History)
    (session : Session) : Prop where
  keys : session.macKey = start.macKey ∧ session.encKey = start.encKey ∧
    session.rmacKey = start.rmacKey ∧ session.suite = start.suite
  counter : session.counter.value = commandsSent history + 1
  bounded : commandsSent history < 256 ^ 15
  state : session.state = if awaiting history then .pending else .ready
  commandMcv : session.commandMcv = commandChain crypto (start.macKey.take keyBytes) history
  responseMcv : session.responseMcv = responseChain crypto (start.rmacKey.take keyBytes) history

theorem Block.value_lt_iff : b.value < 256 ^ 15 ↔ b.head = 0 := by
  obtain ⟨bytes, size⟩ := b
  cases bytes with
  | nil => simp at size
  | cons first rest =>
    have length : rest.length = 15 := by simpa using size
    have small := @ByteCounter.value_cons_lt_iff first rest
    rwa [length] at small

theorem Block.value_increment_of_head (top : b.head = 0) : b.increment.value = b.value + 1 := by
  apply ByteCounter.value_increment
  have small : b.value < 256 ^ 15 := value_lt_iff.mpr top
  rw [b.size]
  unfold Block.value at small
  omega

theorem Live.start (state : session.state = .ready)
    (counter : session.counter = Block.zero.increment) (command : session.commandMcv = .zero)
    (response : session.responseMcv = .zero) : Live crypto session keyBytes [] session := by
  refine ⟨⟨rfl, rfl, rfl, rfl⟩, ?_, by decide, state, command, response⟩
  rw [counter]
  decide

variable {history : History}

theorem Live.step {start session session' : Session} {reply : Reply}
    (live : Live crypto start keyBytes history session)
    (suite : suiteKeyBytes crypto start.suite = some keyBytes)
    (exits : Exits crypto session call reply session') :
    reply.exit ≠ .cleared ∧ Live crypto start keyBytes ((call, reply) :: history) session' ∨
      reply.exit = .cleared ∧ session' = .zero := by
  cases exits with
  | refused =>
    refine .inl ⟨by simp [Reply.refused], live.keys, ?_, ?_, ?_, ?_, ?_⟩
    · simpa [commandsSent, delivered, Reply.refused] using live.counter
    · simpa [commandsSent, delivered, Reply.refused] using live.bounded
    · simpa [awaiting, delivered, Reply.refused] using live.state
    · cases call <;> simpa [commandChain, Reply.refused] using live.commandMcv
    · cases call <;> simpa [responseChain, Reply.refused] using live.responseMcv
  | cleared failed enciphers => exact .inr ⟨rfl, rfl⟩
  | tooSmall enciphers =>
    refine .inl ⟨by simp, live.keys, ?_, ?_, ?_, ?_, ?_⟩
    · simpa [commandsSent, delivered] using live.counter
    · simpa [commandsSent, delivered] using live.bounded
    · simpa [awaiting, delivered] using live.state
    · simpa [commandChain] using live.commandMcv
    · simpa [responseChain] using live.responseMcv
  | @sent r ownKeyBytes ciphertext digest used ready top ownSuite mac enciphers =>
    rw [live.keys.2.2.2, suite, Option.some.injEq] at ownSuite
    subst ownSuite
    have advanced := Block.value_increment_of_head top
    have small := Block.value_lt_iff.mpr top
    rw [live.counter] at advanced small
    refine .inl ⟨by simp, live.keys, ?_, ?_, ?_, ?_, ?_⟩
    · simpa [commandsSent, delivered, Call.isProtect] using advanced
    · simpa [commandsSent, delivered, Call.isProtect] using small
    · simp [awaiting, delivered, Call.isProtect]
    · rw [live.keys.1, live.commandMcv] at mac
      simp [commandChain, mac]
    · simpa [responseChain] using live.responseMcv
  | @received r ownKeyBytes plaintext digest used pending ownSuite mac enciphers =>
    rw [live.keys.2.2.2, suite, Option.some.injEq] at ownSuite
    subst ownSuite
    refine .inl ⟨by simp, live.keys, ?_, ?_, ?_, ?_, ?_⟩
    · simpa [commandsSent, Call.isProtect] using live.counter
    · simpa [commandsSent, Call.isProtect] using live.bounded
    · simp [awaiting, delivered, Call.isProtect]
    · simpa [commandChain] using live.commandMcv
    · rw [live.keys.2.2.1, live.responseMcv] at mac
      simp [responseChain, mac]

theorem zero_step (crypto : Crypto) (call : Call) :
    Session.zero.step crypto call = (.refused, .zero) := by
  cases call with
  | protect r =>
    have refused : protectChecks crypto .zero r = none := by simp [protectChecks, Session.zero]
    simp [Session.step, protect, refused]
  | unprotect r =>
    have refused : unprotectChecks .zero r = false := by simp [unprotectChecks, Session.zero]
    simp [Session.step, unprotect, refused]

theorem zero_reaches (reached : Reaches (Session.step crypto) .zero history session) :
    session = .zero ∧ ∀ e ∈ history, e.2 = .refused := by
  induction reached with
  | start => simp
  | call reached c ih =>
    obtain ⟨rfl, refused⟩ := ih
    rw [zero_step]
    refine ⟨rfl, ?_⟩
    intro e member
    rcases List.mem_cons.mp member with rfl | member
    · rfl
    · exact refused e member

theorem reaches_live {start session : Session} (fresh : Live crypto start keyBytes [] start)
    (suite : suiteKeyBytes crypto start.suite = some keyBytes)
    (reached : Reaches (Session.step crypto) start history session) :
    (∀ e ∈ history, e.2.exit ≠ .cleared) ∧ Live crypto start keyBytes history session ∨
      (∃ e ∈ history, e.2.exit = .cleared) ∧ session = .zero := by
  induction reached with
  | start => exact .inl ⟨by simp, fresh⟩
  | @call history session reached c ih =>
    rcases ih with ⟨open_, live⟩ | ⟨⟨e, member, cleared⟩, rfl⟩
    · rcases live.step suite (step_exits crypto session c) with ⟨kept, live⟩ | ⟨cleared, closed⟩
      · refine .inl ⟨?_, live⟩
        intro e member
        rcases List.mem_cons.mp member with rfl | member
        · exact kept
        · exact open_ e member
      · exact .inr ⟨⟨_, List.mem_cons_self, cleared⟩, closed⟩
    · exact .inr ⟨⟨e, List.mem_cons_of_mem _ member, cleared⟩, by rw [zero_step]⟩

def Block.low (b : Block) : Nat := ByteCounter.value b.bytes.tail

theorem Block.value_eq (b : Block) : b.value = b.head.toNat * 256 ^ 15 + b.low := by
  obtain ⟨bytes, size⟩ := b
  cases bytes with
  | nil => simp at size
  | cons first rest =>
    have length : rest.length = 15 := by simpa using size
    have value := ByteCounter.value_cons first rest
    rw [length] at value
    exact value

@[simp] theorem Block.setHead_head (b : Block) (top : UInt8) : (b.setHead top).head = top := rfl

@[simp] theorem Block.setHead_low (b : Block) (top : UInt8) : (b.setHead top).low = b.low := rfl

/-- The counter block of the command after `sent` commands, or of the response
    to the last of them: the command's counter, with 80 on top for a response. -/
def HasCounter (call : Call) (sent : Nat) (block : Block) : Prop :=
  if call.isProtect then block.head = 0x00 ∧ block.low = sent + 1
  else block.head = 0x80 ∧ block.low = sent

/-- `iv` is the encrypted counter block of the call. -/
def IvOf (crypto : Crypto) (start : Session) (keyBytes : Nat) (call : Call) (sent : Nat)
    (iv : Block) : Prop :=
  ∃ aes block, crypto.aes (start.encKey.take keyBytes) = some aes ∧
    iv = aes.encrypt block ∧ HasCounter call sent block

theorem Live.counterBlock {start session : Session}
    (live : Live crypto start keyBytes history session)
    (top : call.isProtect = true → session.counter.head = 0) :
    HasCounter call (commandsSent history) (Piv.counterBlock session (!call.isProtect)) := by
  unfold HasCounter Piv.counterBlock
  cases hCall : call.isProtect with
  | true =>
    have top := top hCall
    have value := live.counter
    rw [Block.value_eq, top] at value
    simp only [if_true, Bool.not_true, Bool.false_eq_true, if_false]
    exact ⟨top, by simpa using value⟩
  | false =>
    have lowered : session.counter.decrement.value + 1 = session.counter.value :=
      ByteCounter.value_decrement (by
        have pos : 0 < session.counter.value := by rw [live.counter]; omega
        exact pos)
    have value : session.counter.decrement.value = commandsSent history := by
      rw [live.counter] at lowered
      omega
    have top : session.counter.decrement.head = 0 :=
      Block.value_lt_iff.mp (by rw [value]; exact live.bounded)
    rw [Block.value_eq, top] at value
    simp only [Bool.not_false, if_true, Bool.false_eq_true, if_false, Block.setHead_head,
      Block.setHead_low, true_and]
    simpa using value

theorem Live.ivOf {start session : Session} (live : Live crypto start keyBytes history session)
    (suite : suiteKeyBytes crypto start.suite = some keyBytes) {used : Option Block}
    (enciphers : Enciphers crypto session call used) (uses : used = some iv) :
    IvOf crypto start keyBytes call (commandsSent history) iv ∧
      awaiting history = !call.isProtect := by
  obtain ⟨state, top, ownKeyBytes, aes, ownSuite, prepared⟩ := enciphers iv uses
  rw [live.keys.2.2.2, suite, Option.some.injEq] at ownSuite
  subst ownSuite
  refine ⟨?_, ?_⟩
  · simp only [prepareCipher, bind, Option.bind_eq_some_iff, pure, Option.some.injEq,
      Prod.mk.injEq] at prepared
    obtain ⟨aes', keyed, rfl, rfl⟩ := prepared
    rw [live.keys.2.1] at keyed
    exact ⟨aes', _, keyed, rfl, live.counterBlock top⟩
  · have expected := live.state
    rw [state] at expected
    cases hCall : call.isProtect <;> cases hAwait : awaiting history <;>
      simp [hCall, hAwait] at expected ⊢

theorem IvOf.same {start : Session} {call call' : Call} {sent sent' : Nat}
    (first : IvOf crypto start keyBytes call sent iv)
    (second : IvOf crypto start keyBytes call' sent' iv) :
    call.isProtect = call'.isProtect ∧ sent = sent' := by
  obtain ⟨aes, block, keyed, rfl, counter⟩ := first
  obtain ⟨aes', block', keyed', equal, counter'⟩ := second
  rw [keyed] at keyed'
  cases keyed'
  have same := aes.encrypt_injective equal
  subst same
  unfold HasCounter at counter counter'
  cases hCall : call.isProtect <;> cases hCall' : call'.isProtect <;>
    simp [hCall, hCall'] at counter counter' <;> grind

end TinyCrypto.Piv
