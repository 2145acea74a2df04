import TinyCrypto.Aes.Rounds
import TinyCrypto.Mac.Cmac
import TinyCrypto.Piv.SessionRuns

/-! # What a session guarantees

The guarantees are stated over every run from an established session, with any
calls and any responses, and for every next call in the session it leaves.
-/

namespace TinyCrypto.Piv

open Library

def Alternates (history : History) : Prop :=
  (deliveries history).IsChain (· ≠ ·) ∧ ∀ first ∈ (deliveries history).getLast?, first = true

/-- Two uses of one IV are attempts at the response to one pending command: the
    older attempt was refused for its small buffer and nothing was delivered
    since. -/
def ReusesOnlyOnRetry (history : History) : Prop :=
  ∀ newer e middle e' older iv, history = newer ++ e :: (middle ++ e' :: older) →
    e.2.used = some iv → e'.2.used = some iv →
      e.1.isProtect = false ∧ e'.1.isProtect = false ∧ e'.2.exit = .tooSmall ∧
        ∀ m ∈ middle, delivered m = false

/-- The guarantees of a run that left `session`. -/
structure RunSafe (crypto : Crypto) (start : Session) (keyBytes : Nat) (history : History)
    (session : Session) : Prop where
  alternates : Alternates history
  ivs : ∀ newer e older iv, history = newer ++ e :: older → e.2.used = some iv →
    IvOf crypto start keyBytes e.1 (commandsSent older) iv
  reuse : ReusesOnlyOnRetry history
  chained : (∀ e ∈ history, e.2.exit ≠ .cleared) →
    session.commandMcv = commandChain crypto (start.macKey.take keyBytes) history ∧
      session.responseMcv = responseChain crypto (start.rmacKey.take keyBytes) history
  closed : ∀ newer e older, history = newer ++ e :: older → e.2.exit = .cleared →
    session = .zero ∧ ∀ m ∈ newer, m.2.status = .error

section

variable {crypto : Crypto} {start session : Session} {keyBytes : Nat} {history : History}

theorem not_delivered_of_awaiting {newer older : History}
    (awaits : awaiting (newer ++ older) = true)
    (same : commandsSent (newer ++ older) = commandsSent older) :
    ∀ m ∈ newer, delivered m = false := by
  induction newer with
  | nil => simp
  | cons e newer ih =>
    have counts : commandsSent (e :: newer ++ older) =
        commandsSent (newer ++ older) + if e.1.isProtect && delivered e then 1 else 0 := by
      simp [commandsSent, List.countP_cons]
    have grows : commandsSent older ≤ commandsSent (newer ++ older) := by
      simp [commandsSent, List.countP_append]
    rw [List.cons_append, awaiting] at awaits
    cases hDelivered : delivered e with
    | true =>
      simp only [hDelivered, if_true] at awaits
      simp only [hDelivered, awaits, Bool.and_self, if_true] at counts
      omega
    | false =>
      simp only [hDelivered, Bool.false_eq_true, if_false] at awaits
      simp only [hDelivered, Bool.and_false, Bool.false_eq_true, if_false] at counts
      intro m member
      rcases List.mem_cons.mp member with rfl | member
      · exact hDelivered
      · exact ih awaits (by omega) m member

theorem deliveries_head (history : History) :
    (deliveries history).head? = some true ↔ awaiting history = true := by
  induction history with
  | nil => simp [deliveries, awaiting]
  | cons e older ih =>
    cases hDelivered : delivered e with
    | true => simp [deliveries, awaiting, hDelivered]
    | false =>
      have same : deliveries (e :: older) = deliveries older := by simp [deliveries, hDelivered]
      rw [same, ih]
      simp [awaiting, hDelivered]

theorem Alternates.cons {older : History} {e : Call × Reply} (before : Alternates older)
    (turn : delivered e = true → e.1.isProtect = !awaiting older) : Alternates (e :: older) := by
  cases hDelivered : delivered e with
  | false => simpa [Alternates, deliveries, hDelivered] using before
  | true =>
    have turn := turn hDelivered
    have front : deliveries (e :: older) = e.1.isProtect :: deliveries older := by
      simp [deliveries, hDelivered]
    have newest := deliveries_head older
    unfold Alternates
    rw [front]
    cases hOlder : deliveries older with
    | nil =>
      rw [hOlder] at newest
      simp only [List.head?_nil, reduceCtorEq, false_iff, Bool.not_eq_true] at newest
      simp [turn, newest]
    | cons newestDelivery rest =>
      rw [hOlder] at newest
      obtain ⟨chain, oldest⟩ := before
      rw [hOlder] at chain oldest
      refine ⟨List.IsChain.cons_cons ?_ chain, by simpa using oldest⟩
      rw [turn]
      cases newestDelivery <;> cases hAwait : awaiting older <;> simp [hAwait] at newest ⊢

variable {session' : Session} {reply : Reply} {call : Call}

theorem Live.turn (live : Live crypto start keyBytes history session)
    (exits : Exits crypto session call reply session') (delivers : delivered (call, reply) = true) :
    call.isProtect = !awaiting history := by
  have expected := live.state
  cases exits with
  | refused => simp [delivered, Reply.refused] at delivers
  | cleared failed => simp [delivered, Reply.cleared, failed] at delivers
  | tooSmall => simp [delivered] at delivers
  | sent ready top suite mac enciphers =>
    rw [ready] at expected
    cases hAwait : awaiting history <;> simp [hAwait, Call.isProtect] at expected ⊢
  | received pending suite mac enciphers =>
    rw [pending] at expected
    cases hAwait : awaiting history <;> simp [hAwait, Call.isProtect] at expected ⊢

theorem Exits.enciphers (exits : Exits crypto session call reply session') :
    Enciphers crypto session call reply.used := by
  cases exits with
  | refused => exact enciphers_none
  | cleared failed enciphers => exact enciphers
  | tooSmall enciphers => exact enciphers
  | sent ready top suite mac enciphers => exact enciphers
  | received pending suite mac enciphers => exact enciphers

theorem Exits.tooSmall_of_used {iv : Block} (exits : Exits crypto session call reply session')
    (uses : reply.used = some iv) (kept : reply.exit ≠ .cleared)
    (undelivered : delivered (call, reply) = false) :
    reply.exit = .tooSmall ∧ call.isProtect = false := by
  cases exits with
  | refused => simp [Reply.refused] at uses
  | cleared => exact absurd rfl kept
  | tooSmall => exact ⟨rfl, rfl⟩
  | sent => simp [delivered] at undelivered
  | received => simp [delivered] at undelivered

variable (fresh : Live crypto start keyBytes [] start)
variable (suite : suiteKeyBytes crypto start.suite = some keyBytes)

include fresh suite

theorem reaches_alternates (reached : Reaches (Session.step crypto) start history session) :
    Alternates history := by
  induction reached with
  | start => simp [Alternates, deliveries]
  | @call history session reached c ih =>
    apply ih.cons
    intro delivers
    rcases reaches_live fresh suite reached with ⟨-, live⟩ | ⟨-, rfl⟩
    · exact live.turn (step_exits crypto session c) delivers
    · simp [zero_step, delivered, Reply.refused] at delivers

theorem used_in_live {older : History} {e : Call × Reply} {iv : Block}
    (reached : Reaches (Session.step crypto) start (e :: older) session)
    (uses : e.2.used = some iv) :
    ∃ before, Live crypto start keyBytes older before ∧ (∀ m ∈ older, m.2.exit ≠ .cleared) ∧
      Exits crypto before e.1 e.2 session := by
  obtain ⟨before, reached, answered⟩ := reaches_cons.mp reached
  have exits := step_exits crypto before e.1
  rw [answered] at exits
  rcases reaches_live fresh suite reached with ⟨open_, live⟩ | ⟨-, rfl⟩
  · exact ⟨before, live, open_, exits⟩
  · rw [zero_step] at answered
    cases e
    cases answered
    simp at uses

section

variable (reached : Reaches (Session.step crypto) start history session)

include reached

theorem reaches_ivs : ∀ newer e older iv, history = newer ++ e :: older → e.2.used = some iv →
      IvOf crypto start keyBytes e.1 (commandsSent older) iv := by
  rintro newer e older iv rfl uses
  obtain ⟨middle, reached, -⟩ := reached.split
  obtain ⟨before, live, -, exits⟩ := used_in_live fresh suite reached uses
  exact (live.ivOf suite exits.enciphers uses).1

theorem reaches_reuse : ReusesOnlyOnRetry history := by
  rintro newer e middle e' older iv rfl uses uses'
  obtain ⟨_, reached, -⟩ := reached.split
  obtain ⟨before, live, open_, exits⟩ := used_in_live fresh suite reached uses
  obtain ⟨own, awaits⟩ := live.ivOf suite exits.enciphers uses
  have whole : Reaches (Session.step crypto) start ((e :: middle) ++ e' :: older) _ := reached
  obtain ⟨_, earlier, -⟩ := whole.split
  obtain ⟨before', live', -, exits'⟩ := used_in_live fresh suite earlier uses'
  obtain ⟨own', -⟩ := live'.ivOf suite exits'.enciphers uses'
  obtain ⟨kind, count⟩ := own.same own'
  have open' : e'.2.exit ≠ .cleared := open_ e' (by simp)
  have grouped : middle ++ e' :: older = (middle ++ [e']) ++ older := by simp
  rw [grouped] at count awaits
  cases hKind : e.1.isProtect with
  | true =>
    have delivers : delivered e' = true := by
      by_contra undelivered
      have small := exits'.tooSmall_of_used uses' open' (by simpa using undelivered)
      rw [← kind, hKind] at small
      cases small.2
    have grows : commandsSent older < commandsSent ((middle ++ [e']) ++ older) := by
      rw [hKind] at kind
      simp only [commandsSent, List.countP_append, List.countP_singleton, ← kind, delivers,
        Bool.and_self, if_true]
      omega
    omega
  | false =>
    rw [hKind] at kind awaits
    have still := not_delivered_of_awaiting awaits count
    have undelivered : delivered e' = false := still e' (by simp)
    refine ⟨rfl, kind.symm, (exits'.tooSmall_of_used uses' open' undelivered).1, ?_⟩
    intro m member
    exact still m (by simp [member])

theorem reaches_closed : ∀ newer e older, history = newer ++ e :: older → e.2.exit = .cleared →
      session = .zero ∧ ∀ m ∈ newer, m.2.status = .error := by
  rintro newer e older rfl cleared
  obtain ⟨middle, reached, later⟩ := reached.split
  have closed : middle = .zero := by
    rcases reaches_live fresh suite reached with ⟨open_, -⟩ | ⟨-, closed⟩
    · exact absurd cleared (open_ e (by simp))
    · exact closed
  subst closed
  obtain ⟨left, refused⟩ := zero_reaches later
  refine ⟨left, ?_⟩
  intro m member
  rw [refused m member]
  rfl

theorem reaches_runSafe : RunSafe crypto start keyBytes history session := by
  refine ⟨reaches_alternates fresh suite reached, reaches_ivs fresh suite reached,
    reaches_reuse fresh suite reached, ?_, reaches_closed fresh suite reached⟩
  intro open_
  rcases reaches_live fresh suite reached with ⟨-, live⟩ | ⟨⟨e, member, cleared⟩, -⟩
  · exact ⟨live.commandMcv, live.responseMcv⟩
  · exact absurd cleared (open_ e member)

end

end

def Refuses (crypto : Crypto) (session : Session) : Call → Prop
  | .protect r => protectChecks crypto session r = none
  | .unprotect r => unprotectChecks session r = false

/-- The response carries its MAC under the session's chaining value. -/
def Authentic (crypto : Crypto) (session : Session) (r : UnprotectRequest) : Prop :=
  ∃ keyBytes digest, suiteKeyBytes crypto session.suite = some keyBytes ∧
    smMac crypto (session.rmacKey.take keyBytes) session.responseMcv.bytes r.authenticated =
      some digest ∧ digest.bytes.take 8 = r.tag

/-- The final block of a nonempty response has `padding` bytes of padding, zero
    if it is malformed. -/
def HasPadding (crypto : Crypto) (session : Session) (r : UnprotectRequest) (padding : Nat) :
    Prop :=
  r.ciphertext ≠ [] ∧ ∃ keyBytes aes iv, suiteKeyBytes crypto session.suite = some keyBytes ∧
    prepareCipher crypto keyBytes session true = some (aes, iv) ∧
    paddingLength (finalBlock aes iv r.ciphertext) = padding

/-- The guarantees of the next call in `session`. -/
structure CallSafe (crypto : Crypto) (session : Session) : Prop where
  refused : ∀ call, Refuses crypto session call →
    (session.step crypto call).1.status = .error ∧ (session.step crypto call).2 = session
  rejected : ∀ r, unprotectChecks session r = true →
    ¬ Authentic crypto session r ∨ HasPadding crypto session r 0 →
      (unprotect crypto session r).1.exit = .cleared ∧ (unprotect crypto session r).2 = .zero
  tooSmall : ∀ r padding, unprotectChecks session r = true → Authentic crypto session r →
    HasPadding crypto session r (padding + 1) →
    r.capacity < r.ciphertext.length - (padding + 1) →
      (unprotect crypto session r).1.status = .error ∧ (unprotect crypto session r).2 = session ∧
        ∀ capacity, r.ciphertext.length - (padding + 1) ≤ capacity →
          (unprotect crypto session { r with capacity := capacity }).1.status = .ok

section

variable {crypto : Crypto} {session : Session} {keyBytes : Nat}

theorem step_refused {call : Call} (refuses : Refuses crypto session call) :
    session.step crypto call = (.refused, session) := by
  cases call with
  | protect r =>
    have refuses : protectChecks crypto session r = none := refuses
    simp [Session.step, protect, refuses]
  | unprotect r =>
    have refuses : unprotectChecks session r = false := refuses
    simp [Session.step, unprotect, refuses]

variable {r : UnprotectRequest}

theorem unprotect_of_checks (checks : unprotectChecks session r = true)
    (suite : suiteKeyBytes crypto session.suite = some keyBytes)
    (counter : counterNonzero session.counter = true) :
    unprotect crypto session r =
      match smMac crypto (session.rmacKey.take keyBytes) session.responseMcv.bytes
        r.authenticated with
      | none => (.cleared .error none, .zero)
      | some digest =>
        if digest.bytes.take 8 ≠ r.tag then (.cleared .invalid none, .zero)
        else decryptResponse crypto keyBytes session r digest := by
  cases mac : smMac crypto (session.rmacKey.take keyBytes) session.responseMcv.bytes
      r.authenticated with
  | none => simp [unprotect, checks, suite, counter, mac]
  | some digest => simp [unprotect, checks, suite, counter, mac]

theorem unprotect_of_authentic (checks : unprotectChecks session r = true)
    (counter : counterNonzero session.counter = true)
    (suite : suiteKeyBytes crypto session.suite = some keyBytes)
    (authentic : Authentic crypto session r) :
    ∃ digest, unprotect crypto session r = decryptResponse crypto keyBytes session r digest := by
  obtain ⟨ownKeyBytes, digest, ownSuite, mac, tag⟩ := authentic
  rw [suite, Option.some.injEq] at ownSuite
  subst ownSuite
  exact ⟨digest, by rw [unprotect_of_checks checks suite counter]; simp [mac, tag]⟩

theorem unprotect_not_authentic (checks : unprotectChecks session r = true)
    (counter : counterNonzero session.counter = true)
    (suite : suiteKeyBytes crypto session.suite = some keyBytes)
    (forged : ¬ Authentic crypto session r) :
    (unprotect crypto session r).1.exit = .cleared ∧ (unprotect crypto session r).2 = .zero := by
  rw [unprotect_of_checks checks suite counter]
  cases hMac : smMac crypto (session.rmacKey.take keyBytes) session.responseMcv.bytes
    r.authenticated with
  | none => exact ⟨rfl, rfl⟩
  | some digest =>
    have differs : digest.bytes.take 8 ≠ r.tag := by
      intro tag
      exact forged ⟨keyBytes, digest, suite, hMac, tag⟩
    simp [differs, Reply.cleared]

theorem decryptResponse_of_padding {padding : Nat} (digest : Block)
    (suite : suiteKeyBytes crypto session.suite = some keyBytes)
    (padded : HasPadding crypto session r padding) :
    ∃ plaintext iv, decryptResponse crypto keyBytes session r digest =
      if padding = 0 then (.cleared .error (some iv), .zero)
      else if r.capacity < r.ciphertext.length - padding then
        (⟨.tooSmall, .error, [], [], some iv⟩, session)
      else acceptResponse session digest plaintext (some iv) := by
  obtain ⟨nonempty, ownKeyBytes, aes, iv, ownSuite, prepared, scan⟩ := padded
  rw [suite, Option.some.injEq] at ownSuite
  subst ownSuite
  refine ⟨responsePlaintext aes iv r.ciphertext (r.ciphertext.length - padding), iv, ?_⟩
  simp only [decryptResponse, nonempty, if_false, prepared, scan]

theorem callSafe_of_live (suite : suiteKeyBytes crypto session.suite = some keyBytes)
    (counter : counterNonzero session.counter = true) : CallSafe crypto session := by
  refine ⟨?_, ?_, ?_⟩
  · intro call refuses
    simp [step_refused refuses, Reply.refused]
  · rintro r checks (forged | malformed)
    · exact unprotect_not_authentic checks counter suite forged
    · by_cases authentic : Authentic crypto session r
      · obtain ⟨digest, deciphers⟩ := unprotect_of_authentic checks counter suite authentic
        obtain ⟨_, iv, exit⟩ := decryptResponse_of_padding digest suite malformed
        simp [deciphers, exit, Reply.cleared]
      · exact unprotect_not_authentic checks counter suite authentic
  · intro r padding checks authentic padded small
    obtain ⟨digest, deciphers⟩ := unprotect_of_authentic checks counter suite authentic
    obtain ⟨_, iv, exit⟩ := decryptResponse_of_padding digest suite padded
    refine ⟨by simp [deciphers, exit, small], by simp [deciphers, exit, small], ?_⟩
    intro capacity large
    obtain ⟨digest, deciphers⟩ := unprotect_of_authentic
      (r := { r with capacity := capacity }) checks counter suite authentic
    obtain ⟨plaintext, iv, exit⟩ := decryptResponse_of_padding
      (r := { r with capacity := capacity }) digest suite padded
    simp [deciphers, exit, Nat.not_lt.mpr large, acceptResponse]

theorem callSafe_zero (crypto : Crypto) : CallSafe crypto .zero := by
  refine ⟨?_, ?_, ?_⟩
  · intro call _
    simp [zero_step, Reply.refused]
  · intro r checks
    simp [unprotectChecks, Session.zero] at checks
  · intro r padding checks
    simp [unprotectChecks, Session.zero] at checks

end

theorem Live.counterNonzero {crypto : Crypto} {start session : Session} {keyBytes : Nat}
    {history : History} (live : Live crypto start keyBytes history session) :
    Piv.counterNonzero session.counter = true := by
  by_contra zero
  have none : session.counter.value = 0 := by
    apply ByteCounter.value_eq_zero_iff.mpr
    intro b member
    by_contra nonzero
    apply zero
    simp only [Piv.counterNonzero, List.any_eq_true]
    exact ⟨b, member, by simpa using nonzero⟩
  rw [live.counter] at none
  omega

def SessionSafe (crypto : Crypto) (e : Established crypto) : Prop :=
  ∃ keyBytes, suiteKeyBytes crypto e.session.suite = some keyBytes ∧
    ∀ history session, Reaches (Session.step crypto) e.session history session →
      RunSafe crypto e.session keyBytes history session ∧ CallSafe crypto session

/-- The modelled AES and its CMAC. -/
def aesCrypto (mode : Aes.SboxMode) : Crypto where
  aes key :=
    if key.length = 16 || key.length = 24 || key.length = 32 then
      some ⟨Aes.encryptBlock mode key, Aes.decryptBlock mode key,
        Aes.decryptBlock_encryptBlock mode key⟩
    else none
  cmac key message :=
    let cipher := Aes.encryptBlock mode key
    let (k1, k2) := Mac.deriveSubkeys cipher 0x87
    some (Mac.cmacParts cipher (.zero 16) [message] k1 k2)
  cs2 := true
  cs7 := true
  sizeMax := 2 ^ 64 - 1

theorem aesCrypto_cmac (mode : Aes.SboxMode) (key message : Bytes) :
    ∃ tag, (aesCrypto mode).cmac key message = some tag ∧
      Mac.Sp38b.Cmac (Aes.encryptBlock mode key) message tag := by
  have specified := @Mac.cmacParts_cmac _ (Aes.encryptBlock mode key) _ Mac.reduces_aes [message]
  rw [List.flatten_cons, List.flatten_nil, List.append_nil] at specified
  exact ⟨_, rfl, specified⟩

/-- Primitives for fixed runs: blocks are enciphered as they are, and the MAC is
    the end of its input. -/
def plainCrypto : Crypto where
  aes := fun _ => some ⟨id, id, fun _ => rfl⟩
  cmac := fun _ message => some (Block.ofBytes message.reverse)
  cs2 := true
  cs7 := true
  sizeMax := 2 ^ 32 - 1

/-- A session established over `plainCrypto`. -/
def plainEstablished : Established plainCrypto where
  agreement := ⟨fun _ _ _ => some [], fun _ => List.replicate 32 0,
    fun _ _ _ length => some (List.replicate length 0)⟩
  handshake := ⟨[], List.replicate 65 0, List.replicate 8 0, 0x27⟩
  peer := ⟨[0], List.replicate 16 0, List.replicate 16 0, 0⟩
  authenticatedKey := List.replicate 65 0
  finished := by decide

/-- A response of one block with plaintext `byte`, as answer to the first
    command, and its tag. -/
def plainResponse (byte : UInt8) : UnprotectRequest where
  ciphertext := (0x80 ^^^ byte) :: 0x80 :: List.replicate 13 0 ++ [1]
  tag := 1 :: List.replicate 7 0
  authenticated := [(0x80 ^^^ byte) :: 0x80 :: List.replicate 13 0 ++ [1]]
  capacity := 0
  layout := true

def plainCalls : List Call :=
  [.protect ⟨[], 0, [], 8, true⟩, .unprotect (plainResponse 5), .unprotect (plainResponse 6)]

def plainRun : History × Session := runFrom (Session.step plainCrypto) [] plainEstablished.session plainCalls

end TinyCrypto.Piv
