import TinyCrypto.Apdu.Resend
import TinyCrypto.Piv.LinkRuns

/-! # VERIFY

`piv_verify.c` and the status words of `piv_status.c`: the retry query and the submission of
a PIN on a link.
-/

namespace TinyCrypto.Piv

open Apdu

/-- `TC_PIV_interface`. No operation on a link changes it. -/
inductive Interface where
  | contact
  | contactless
  deriving DecidableEq

/-- `TC_PIV_reference_status`. -/
structure ReferenceStatus where
  retries : Nat
  verified : Bool
  submitted : Bool
  retriesKnown : Bool
  deriving DecidableEq

/-- `TC_PIV_command`. -/
inductive CommandKind where
  | select
  | getData
  | verify
  | generalAuthenticate
  deriving DecidableEq

/-- `TC_PIV_status`. -/
inductive StatusMeaning where
  | success
  | endOfObject
  | verifyFailed
  | smUnsupported
  | securityStatus
  | blocked
  | smMissing
  | smIncorrect
  | wrongData
  | notSupported
  | notFound
  | noMemory
  | wrongP1P2
  | referenceNotFound
  | other
  deriving DecidableEq

/-- `verify_status` of `piv_status.c`, with what it writes to the retries. -/
def verifyMeaning (sw : Nat) : StatusMeaning × Option Nat :=
  if sw = 0x6300 then (.verifyFailed, none)
  else if sw / 16 = 0x63c then (.verifyFailed, some (sw % 16))
  else (.other, none)

/-- `TC_PIV_status_classify`. -/
def statusMeaning (twic : Bool) (sw : Nat) (command : CommandKind) (application : Application) :
    StatusMeaning × Option Nat :=
  if sw = 0x9000 then (.success, none)
  else if sw = 0x6282 then (if command = .getData then .endOfObject else .other, none)
  else if sw = 0x6882 then (.smUnsupported, none)
  else if sw = 0x6982 then (.securityStatus, none)
  else if sw = 0x6983 then (.blocked, none)
  else if sw = 0x6987 then (.smMissing, none)
  else if sw = 0x6988 then (.smIncorrect, none)
  else if sw = 0x6a80 then (.wrongData, none)
  else if sw = 0x6a81 then (.notSupported, none)
  else if sw = 0x6a82 then (.notFound, none)
  else if sw = 0x6a84 then (.noMemory, none)
  else if sw = 0x6a86 then (.wrongP1P2, none)
  else if sw = 0x6a88 then
    (if twic && command = .getData && application = .twic then .notFound else .referenceNotFound,
      none)
  else if command = .verify then verifyMeaning sw
  else (.other, none)

/-- `RETRIES_FLOOR` and `RETRIES_MAXIMUM`. -/
def retriesFloor : Nat := 2

def retriesMaximum : Nat := 15

/-- `pin_reference`. -/
def pinReference (reference : UInt8) : Bool := reference = 0x80 || reference = 0x00

/-- The contents of `answer_bytes` before the call: DO 99, DO 8E and SW1 SW2. -/
structure AnswerBytes where
  bytes : Bytes
  size : bytes.length = 16

def World.withLink (w : World) (link : Link) : World := { w with link := link }

/-- `verify_allowed`. -/
def verifyAllowed (interface : Interface) (link : Link) (reference : UInt8) : Result :=
  if link.application = .none then .refused
  else if link.application ≠ .piv then .unsupported
  else if interface ≠ .contactless then .ok
  else if pinReference reference then
    if link.vci && link.secured then .ok else .refused
  else if link.secured then .ok
  else .refused

/-- The command of `verify_send`. -/
def verifyCommand (reference : UInt8) (data : Bytes) : Command :=
  ⟨data, 0, 0x00, insVerify, 0x00, reference⟩

/-- `pin_status_record`. -/
def pinStatusRecord (link : Link) (reference : UInt8) (sw : Nat) : Link :=
  if !pinReference reference then link
  else if sw = 0x9000 then { link with pinVerified := true }
  else { link with pinVerified := false }

/-- `tc_piv_digits_valid`. -/
def digitsValid (digits : Bytes) (minimum : Nat) : Bool :=
  if digits.length < minimum || digits.length > 8 then false
  else digits.all fun digit => 0x30 ≤ digit.toNat && digit.toNat ≤ 0x39

def paddedDigits (digits : Bytes) : Bytes := digits ++ List.replicate (8 - digits.length) 0xff

section

variable (p : LinkPrimitives) (card : Card) (twic : Bool) (interface : Interface)

/-- `verify_send` on a link that is ready. -/
def verifySend (w : World) (reference : UInt8) (data : Bytes) (memory : AnswerBytes) :
    Except Result Nat × World :=
  match w.link.channel with
  | .none => (.error .argument, w)
  | some channel =>
    match linkTransceive p card w channel true (verifyCommand reference data) memory.bytes with
    | (reply, w) =>
      if reply.result ≠ .ok then (.error reply.result, w)
      else if reply.response.data ≠ [] then
        (.error .invalid, w.withLink { w.link with status := 0 })
      else (.ok reply.response.sw, w)

/-- `query_result`. -/
def queryResult (link : Link) (reference : UInt8) (sw : Nat) :
    Except Result ReferenceStatus × Link :=
  let (meaning, written) := statusMeaning twic sw .verify link.application
  let retries := written.getD (retriesMaximum + 1)
  let link := pinStatusRecord link reference sw
  if meaning = .success then (.ok ⟨0, true, false, false⟩, link)
  else if meaning ≠ .verifyFailed then (.error .cardStatus, link)
  else if retries ≤ retriesMaximum then (.ok ⟨retries, false, false, true⟩, link)
  else (.ok ⟨0, false, false, false⟩, link)

/-- The query with which `TC_PIV_verify_status` and `TC_PIV_pin_verify` start, after their
    argument checks. -/
def referenceQuery (w : World) (reference : UInt8) (memory : AnswerBytes) :
    Except Result ReferenceStatus × World :=
  match verifyAllowed interface w.link reference with
  | .ok =>
    match verifySend p card w reference [] memory with
    | (.error e, w) => (.error e, w)
    | (.ok sw, w) =>
      match queryResult twic w.link reference sw with
      | (outcome, link) => (outcome, w.withLink link)
  | failure => (.error failure, w)

/-- What a call returns: the result, the caller's `*out` and the world. -/
structure VerifyReply where
  result : Result
  out : ReferenceStatus
  after : World

/-- `TC_PIV_verify_status`. -/
def verifyStatus (w : World) (arguments : Bool) (reference : UInt8) (memory : AnswerBytes)
    (out : ReferenceStatus) : VerifyReply :=
  if w.link.channel.isNone || !arguments then ⟨.argument, out, w⟩
  else if reference = 0x96 || reference = 0x97 then ⟨.unsupported, out, w⟩
  else if !pinReference reference && reference ≠ 0x98 then ⟨.argument, out, w⟩
  else
    match referenceQuery p card twic interface w reference memory with
    | (.error e, w) => ⟨e, out, w⟩
    | (.ok status, w) => ⟨.ok, status, w⟩

/-- `pin_submit` with `tc_piv_verify_submit`. -/
def pinSubmit (w : World) (reference : UInt8) (pin : Bytes) (memory : AnswerBytes)
    (status : ReferenceStatus) : Except Result ReferenceStatus × World :=
  match verifySend p card w reference (paddedDigits pin) memory with
  | (.error e, w) => (.error e, w)
  | (.ok sw, w) =>
    let w := w.withLink (pinStatusRecord w.link reference sw)
    if sw ≠ 0x9000 then (.error .cardStatus, w)
    else
      (.ok { status with retries := 0, retriesKnown := false, verified := true, submitted := true },
        w)

/-- `TC_PIV_pin_verify`. -/
def pinVerify (w : World) (arguments : Bool) (reference : UInt8) (pin : Bytes)
    (minimumRetries : Nat) (queried submitted : AnswerBytes) (out : ReferenceStatus) :
    VerifyReply :=
  if w.link.channel.isNone || !arguments || !pinReference reference ||
      !digitsValid pin 6 || minimumRetries < retriesFloor || minimumRetries > retriesMaximum then
    ⟨.argument, out, w⟩
  else
    match referenceQuery p card twic interface w reference queried with
    | (.error e, w) => ⟨e, out, w⟩
    | (.ok status, w) =>
      if status.verified then ⟨.ok, status, w⟩
      else if !status.retriesKnown || status.retries < minimumRetries then ⟨.refused, out, w⟩
      else
        match pinSubmit p card w reference pin submitted status with
        | (.error e, w) => ⟨e, out, w⟩
        | (.ok status, w) => ⟨.ok, status, w⟩

inductive VerifyCall where
  | status (arguments : Bool) (reference : UInt8) (memory : AnswerBytes) (out : ReferenceStatus)
  | verify (arguments : Bool) (reference : UInt8) (pin : Bytes) (minimumRetries : Nat)
      (queried submitted : AnswerBytes) (out : ReferenceStatus)

def verifyStep (w : World) : VerifyCall → VerifyReply
  | .status arguments reference memory out =>
    verifyStatus p card twic interface w arguments reference memory out
  | .verify arguments reference pin minimumRetries queried submitted out =>
    pinVerify p card twic interface w arguments reference pin minimumRetries queried submitted out

def verifyRun (w : World) (calls : List VerifyCall) : World :=
  calls.foldl (fun w call => (verifyStep p card twic interface w call).after) w

end

open Library

section

variable (p : LinkPrimitives)

inductive Carries (command : Command) : Bytes → Prop where
  | plain {ne : Nat} {form : Form} : Carries command (write { command with ne := ne } form)
  | guarded {session : Session} {ciphertextLength ne : Nat} {field : Bytes} {form : Form} :
      (commandProtect p session command ciphertextLength).1 = some field →
      Carries command (write ⟨field, ne, smCla, command.ins, command.p1, command.p2⟩ form)

/-- The transmits of one command, each newest first: itself once at most, and GET RESPONSE. -/
structure Exchanges (command : Command) (main gets : List Bytes) : Prop where
  once : main.length ≤ 1
  carries : ∀ bytes ∈ main, Carries p command bytes
  responses : ∀ bytes ∈ gets, GetsResponse bytes

/-- Between two states of the line the card answered a command with a status: its last answer
    has it, or the authentic response to the protected command has. -/
inductive CardAnswered (card : Card) (command : Command) (sent sent' : List Bytes) (sw : Nat) :
    Prop where
  | plain {channel : Channel} {buffer : Bytes} {call : Transceived} :
      call = transceiveFormat card p.crypto.sizeMax channel.format channel sent command buffer →
      AnsweredLast card p.crypto.sizeMax channel.format channel sent buffer call sw →
      call.sent = sent' → CardAnswered card command sent sent' sw
  | guarded {channel : Channel} {buffer : Bytes} {session session' : Session}
      {ciphertextLength : Nat} {field : Bytes} {call : Transceived} {fields : ResponseFields} :
      commandProtect p session command ciphertextLength = (some field, session') →
      call = transceiveFormat card p.crypto.sizeMax .short channel sent
        ⟨field, shortMaxNe, smCla, command.ins, command.p1, command.p2⟩ buffer →
      AnsweredLast card p.crypto.sizeMax .short channel sent buffer call 0x9000 →
      call.sent = sent' → p.responseFields call.response.data command.ins = some fields →
      (responseUnprotect p session' fields).1.status = .ok → fields.sw = sw →
      CardAnswered card command sent sent' sw

end

variable {p : LinkPrimitives} {card : Card} {w : World} {channel : Channel} {buffer : Bytes}
  {command : Command}

theorem cbcEncrypt_length (aes : Cipher) (iv : Block) (count : Nat) (bytes : Bytes) :
    (cbcEncrypt aes iv count bytes).length = 16 * count := by
  induction count generalizing iv bytes with
  | zero => rfl
  | succ count ih =>
    rw [cbcEncrypt, List.length_append, ih, Octets.size]
    omega

variable {session after : Session}

theorem protect_delivered {crypto : Crypto} {r : ProtectRequest} {reply : Reply}
    (made : protect crypto session r = (reply, after)) (delivered : reply.status = .ok) :
    ∃ needed, protectChecks crypto session r = some needed ∧
      reply.output.length = 16 * (needed / 16) ∧ reply.tag.length = 8 := by
  have maced {keyBytes : Nat} {ciphertext : Bytes} {used : Option Block}
      (made : protectMac crypto keyBytes session r ciphertext used = (reply, after)) :
      reply.output = ciphertext ∧ reply.tag.length = 8 := by
    unfold protectMac at made
    split at made
    · cases made
      cases delivered
    · rename_i digest _
      cases made
      exact ⟨rfl, by simp [digest.size]⟩
  unfold protect at made
  split at made
  · cases made
    cases delivered
  rename_i needed checked
  refine ⟨needed, checked, ?_⟩
  split at made
  · cases made
    cases delivered
  split at made
  · cases made
    cases delivered
  split at made
  · rename_i empty
    obtain ⟨output, tag⟩ := maced made
    rw [output, empty]
    exact ⟨rfl, tag⟩
  split at made
  · cases made
    cases delivered
  · obtain ⟨output, tag⟩ := maced made
    rw [output, cbcEncrypt_length]
    exact ⟨rfl, tag⟩

theorem protect_output {crypto : Crypto} {r : ProtectRequest} {reply : Reply}
    (made : protect crypto session r = (reply, after)) (delivered : reply.status = .ok) :
    reply.output.length ≤ r.capacity ∧ reply.tag.length ≤ 8 := by
  obtain ⟨needed, checked, output, tag⟩ := protect_delivered made delivered
  have fits : needed ≤ r.capacity := by
    unfold protectChecks at checked
    split at checked
    · exact of_decide_eq_true (Option.filter_eq_some_iff.mp checked).2
    · cases checked
  omega

theorem lengthField_short {n : Nat} (short : n ≤ 0x7f) : lengthField n = [UInt8.ofNat n] :=
  if_pos short

variable {ciphertextLength : Nat}

theorem commandProtect_length {field : Bytes} (short : ciphertextLength ≤ 100)
    (made : commandProtect p session command ciphertextLength = (some field, after)) :
    field.length ≤ shortMaxNc := by
  unfold commandProtect at made
  extract_lets objects at made
  generalize outcome : protect p.crypto session _ = result at made
  obtain ⟨reply, session'⟩ := result
  dsimp only at made
  split at made
  · rename_i delivered
    obtain ⟨output, tag⟩ := protect_output outcome delivered
    dsimp only at output
    cases made
    have head : (objects reply.output).length ≤ 6 + reply.output.length := by
      simp only [objects, authenticatedField, lengthField_short (show ciphertextLength + 1 ≤ 0x7f by
        omega)]
      split <;> split <;> simp <;> omega
    simp only [List.length_append, List.length_cons, List.length_nil, shortMaxNc]
    omega
  · cases made

variable {arguments : Bool}

theorem commandFits_length {link : Link}
    (fits : commandFits p link channel arguments command = .ok ciphertextLength) :
    ciphertextLength = if command.data.length = 0 then 0 else paddedBytes command.data.length := by
  unfold commandFits at fits
  split at fits
  · cases fits
  · rename_i length total layout
    have same : length = ciphertextLength := by
      split at fits
      · cases fits
      split at fits
      · cases fits
      split at fits
      · exact Except.ok.inj fits
      · cases fits
    unfold layoutGet at layout
    split at layout
    · cases layout
    · rw [← same]
      exact (congrArg Prod.fst (Option.some.inj layout)).symm

theorem smCla_sm (guarded : command.cla = smCla) : command.sm = true := by
  rw [Command.sm, guarded]
  decide

theorem plainTransceive_exchanges (short : command.data.length ≤ shortMaxNc)
    (once : command.ne = 0) :
    ∃ main gets, (plainTransceive p card w channel command buffer).2.sent =
        gets ++ main ++ w.sent ∧ Exchanges p command main gets := by
  obtain ⟨main, gets, sent, single, carries, responses⟩ :=
    @transceiveFormat_once card p.crypto.sizeMax channel.format channel w.sent command buffer
      (fun chained => absurd chained.2 (Nat.not_lt.mpr short)) (fun resendable => resendable.2.2 once)
  refine ⟨main, gets, sent, single, fun bytes member => ?_, responses⟩
  obtain ⟨ne, form, rfl⟩ := carries bytes member
  exact .plain

theorem protectedTransceive_exchanges {session : Session} (short : ciphertextLength ≤ 100) :
    ∃ main gets,
      (protectedTransceive p card w channel session command ciphertextLength buffer).2.sent =
        gets ++ main ++ w.sent ∧ Exchanges p command main gets := by
  unfold protectedTransceive
  split
  · exact ⟨[], [], rfl, Nat.zero_le 1, nofun, nofun⟩
  · rename_i field session' made
    obtain ⟨main, gets, sent, single, carries, responses⟩ :=
      @transceiveFormat_once card p.crypto.sizeMax .short channel w.sent
        ⟨field, shortMaxNe, smCla, command.ins, command.p1, command.p2⟩ buffer
        (fun chained => absurd chained.2 (Nat.not_lt.mpr (commandProtect_length short made)))
        (fun resendable => Bool.noConfusion ((smCla_sm rfl).symm.trans resendable.2.1))
    have exchanges : Exchanges p command main gets := by
      refine ⟨single, fun bytes member => ?_, responses⟩
      obtain ⟨ne, form, rfl⟩ := carries bytes member
      exact .guarded (by rw [made])
    dsimp only
    split
    · exact ⟨main, gets, sent, exchanges⟩
    split
    · exact ⟨main, gets, sent, exchanges⟩
    · exact ⟨main, gets, sent, exchanges⟩

theorem linkTransceive_exchanges (short : command.data.length ≤ 8) (once : command.ne = 0) :
    ∃ main gets, (linkTransceive p card w channel arguments command buffer).2.sent =
        gets ++ main ++ w.sent ∧ Exchanges p command main gets := by
  have silent : ∃ main gets, w.sent = gets ++ main ++ w.sent ∧ Exchanges p command main gets :=
    ⟨[], [], rfl, Nat.zero_le 1, nofun, nofun⟩
  unfold linkTransceive
  extract_lets eligible begun
  split
  · exact silent
  split
  · split
    · exact silent
    · rw [finishTransceive_sent]
      unfold smTransceive
      split
      · exact silent
      · rename_i ciphertextLength fits
        refine protectedTransceive_exchanges ?_
        rw [commandFits_length fits, paddedBytes]
        split <;> omega
  · rw [finishTransceive_sent]
    exact plainTransceive_exchanges (Nat.le_trans short (by decide)) once

variable {reply : LinkReply} {w' : World}

theorem protectedTransceive_answered {session : Session}
    (run : protectedTransceive p card w channel session command ciphertextLength buffer = (reply, w'))
    (completed : reply.result = .ok) :
    CardAnswered p card command w.sent w'.sent reply.response.sw := by
  unfold protectedTransceive at run
  split at run
  · cases run
    cases completed
  rename_i field session' made
  dsimp only at run
  split at run
  · rename_i failed
    cases run
    exact absurd (channelResult_ok.mp completed) failed
  rename_i sent
  split at run
  · cases run
    cases completed
  rename_i success
  have answered := transceiveFormat_answered (not_not.mp sent)
  rw [not_not.mp success] at answered
  unfold protectedAnswer at run
  split at run
  · cases run
    cases completed
  · rename_i fields read
    generalize outcome : responseUnprotect p session' fields = result at run
    obtain ⟨inner, after⟩ := result
    dsimp only at run
    split at run
    · rename_i authentic
      cases run
      exact .guarded made rfl answered rfl read (by rw [outcome]; exact authentic) rfl
    · cases run
      cases completed

theorem smTransceive_answered {session : Session}
    (run : smTransceive p card w channel session arguments command buffer = (reply, w'))
    (completed : reply.result = .ok) :
    CardAnswered p card command w.sent w'.sent reply.response.sw := by
  unfold smTransceive at run
  split at run
  · rename_i e refused
    cases run
    rcases commandFits_errors refused with rfl | rfl <;> cases completed
  · exact protectedTransceive_answered run completed

theorem finishTransceive_ok {outcome : LinkReply × World}
    (run : finishTransceive outcome = (reply, w')) (completed : reply.result = .ok) :
    outcome.1 = reply ∧ outcome.2.sent = w'.sent := by
  unfold finishTransceive at run
  dsimp only at run
  split at run
  · cases run
    exact ⟨rfl, rfl⟩
  · rename_i failed
    cases run
    exact absurd completed failed

theorem linkTransceive_answered
    (run : linkTransceive p card w channel arguments command buffer = (reply, w'))
    (completed : reply.result = .ok) :
    CardAnswered p card command w.sent w'.sent reply.response.sw := by
  unfold linkTransceive at run
  dsimp only at run
  split at run
  · cases run
    cases completed
  split at run
  · split at run
    · cases run
      cases completed
    · obtain ⟨inner, sent⟩ := finishTransceive_ok run completed
      rw [← inner] at completed ⊢
      rw [← sent]
      exact @smTransceive_answered p card w.begun channel buffer command _ _ _ _ rfl completed
  · obtain ⟨inner, sent⟩ := finishTransceive_ok run completed
    rw [← inner] at completed ⊢
    rw [← sent]
    exact .plain rfl (transceiveFormat_answered (channelResult_ok.mp completed)) rfl

def KeepsMarks (link link' : Link) : Prop :=
  link'.pinVerified = link.pinVerified ∧ link'.smLost = link.smLost ∨
    link'.pinVerified = false ∧ link'.smLost = true

theorem Exchanged.marks {outcome : LinkReply × World} (exchanged : Exchanged w buffer outcome) :
    KeepsMarks w.link outcome.2.link ∧
      (outcome.1.result = .ok → outcome.2.link.pinVerified = w.link.pinVerified ∧
        outcome.2.link.smLost = w.link.smLost) := by
  cases exchanged with
  | kept same _ _ => exact ⟨Or.inl ⟨same.pinVerified, same.smLost⟩, fun _ => ⟨same.pinVerified, same.smLost⟩⟩
  | lost failed lost _ =>
    exact ⟨Or.inr ⟨lost.pinVerified, lost.smLost⟩, fun completed => absurd completed failed⟩

theorem linkTransceive_ready (ready : w.link.channel.isSome = true) :
    Exchanged w buffer (linkTransceive p card w channel arguments command buffer) := by
  unfold linkTransceive
  dsimp only
  split
  · exact .kept ⟨rfl, rfl, rfl, rfl, rfl, rfl⟩ ready (by simp [LinkReply.wiped])
  split
  · split
    · exact .kept ⟨rfl, rfl, rfl, rfl, rfl, rfl⟩ ready (by simp [LinkReply.wiped])
    · rename_i session held
      exact (finishTransceive_exchanged (@smTransceive_exchanged p card w.begun channel session
        arguments command buffer (Option.isSome_of_mem held) ready)).1.of_begun
  · exact (finishTransceive_exchanged (@plainTransceive_exchanged p card w.begun channel command
      buffer)).1.of_begun

end TinyCrypto.Piv
