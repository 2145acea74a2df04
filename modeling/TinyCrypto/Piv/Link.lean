import TinyCrypto.Apdu.Channel
import TinyCrypto.Piv.Session

/-! # PIV links

`piv_link.c`, `piv_sm_apdu.c`, `piv_select.c` and `piv_sm_key_request.c`: one
card session over an APDU channel, and the secure messaging session bound to
it. NULL and overlap checks depend on the caller's memory only; `arguments` is
their outcome. The application owns the bound session and may work on it
between calls, as it does to authenticate the card.
-/

namespace TinyCrypto.Piv

open Apdu

/-- `TC_PIV_application_id`. -/
inductive Application where
  | none
  | piv
  | twic
  deriving DecidableEq

/-- `TC_PIV_link`. `security` is whether the secure messaging operations are
    installed, and `sm` the content of the bound session. -/
structure Link where
  channel : Option Channel
  security : Bool
  sm : Option Session
  smScratchCapacity : Nat
  status : Nat
  application : Application
  profile : Nat
  smSuite : UInt8
  secured : Bool
  smLost : Bool
  vci : Bool
  pinVerified : Bool

def Link.zero : Link := ⟨.none, false, .none, 0, 0, .none, 0, 0, false, false, false, false⟩

structure ResponseFields where
  ciphertext : Bytes
  authenticated : Bytes
  mac : Bytes
  sw : Nat

/-- The fields of `TC_PIV_application` that a link records. -/
structure Selected where
  profile : Nat
  smSuite : UInt8
  maxCommandBytes : Nat
  maxResponseBytes : Nat

structure LinkPrimitives where
  crypto : Crypto
  /-- `response_read` for an instruction. -/
  responseFields : Bytes → UInt8 → Option ResponseFields
  /-- `TC_PIV_application_read` for the selection's flags. -/
  applicationRead : Bytes → Application → (twicCompatible : Bool) → Except Result Selected
  /-- `peer_read`. -/
  peerRead : Bytes → UInt8 → Bool
  /-- The AID a SELECT sends. -/
  aid : Application → Bytes
  /-- `TC_PIV_EXTENDED_SCRATCH_BYTES` and `TC_PIV_COMMAND_MAX_NC`. -/
  extendedScratchBytes : Nat
  commandMaxNc : Nat

structure World where
  link : Link
  sent : List Bytes

/-- What a link operation returns: its result, the answer with OK, and after a
    failure the contents of the response buffer. -/
structure LinkReply where
  result : Result
  response : Response
  buffer : Bytes

def LinkReply.early (result : Result) (buffer : Bytes) : LinkReply := ⟨result, ⟨[], 0⟩, buffer⟩

def LinkReply.wiped (result : Result) (buffer : Bytes) : LinkReply :=
  ⟨result, ⟨[], 0⟩, List.replicate buffer.length 0⟩

/-- `sm_unbind`, installed with the secure messaging operations. -/
def smUnbind (link : Link) : Link :=
  { link with security := false, sm := .none, smScratchCapacity := 0, secured := false }

/-- `tc_piv_link_unbind`. -/
def linkUnbind (link : Link) : Link :=
  { (if link.security then smUnbind link else link) with secured := false }

/-- `tc_piv_link_session_lost`. -/
def linkSessionLost (link : Link) : Link :=
  { linkUnbind link with smLost := true, vci := false, pinVerified := false }

/-- `session_lost`: with the outer status that is reported. -/
def sessionLost (link : Link) (status : Nat) : Link :=
  { linkSessionLost link with status := status }

def insVerify : UInt8 := 0x20
def insGeneralAuthenticate : UInt8 := 0x87
def insGetData : UInt8 := 0xcb

/-- `SM_CLA`. -/
def smCla : UInt8 := 0x0c

/-- `sm_eligible`. -/
def smEligible (ins : UInt8) : Bool :=
  ins = insGetData || ins = insVerify || ins = insGeneralAuthenticate

/-- `TC_PIV_SM_MAX_PLAIN_NC`. -/
def smMaxPlainNc : Nat := 65503

/-- `TC_PIV_PADDED_BYTES`. -/
def paddedBytes (n : Nat) : Nat := (n / 16 + 1) * 16

def lengthField (n : Nat) : Bytes := if n ≤ 0x7f then [UInt8.ofNat n]
  else if n ≤ 0xff then [0x81, UInt8.ofNat n]
  else [0x82, UInt8.ofNat (n / 256), UInt8.ofNat n]

/-- `[87 L 01 ciphertext] [97 01 00]`, the objects after the header block. -/
def authenticatedField (ciphertextLength : Nat) (hasLe : Bool) (ciphertext : Bytes) : Bytes :=
  (if ciphertextLength = 0 then []
    else 0x87 :: lengthField (ciphertextLength + 1) ++ 0x01 :: ciphertext) ++
    if hasLe then [0x97, 0x01, 0x00] else []

/-- `layout_get`: the ciphertext length and the length of the whole field. -/
def layoutGet (nc : Nat) (hasLe : Bool) : Option (Nat × Nat) := if nc > smMaxPlainNc then .none
  else
    let ciphertextLength := if nc = 0 then 0 else paddedBytes nc
    some (ciphertextLength,
      (authenticatedField ciphertextLength hasLe (List.replicate ciphertextLength 0)).length + 10)

/-- `tc_piv_channel_result`. -/
def channelResult : Result → Result
  | .ok => .ok
  | .invalid => .invalid
  | .limit => .limit
  | .argument => .argument
  | .unsupported => .unsupported
  | _ => .error

section

variable (p : LinkPrimitives) (card : Card)

/-- `command_fits`: ARGUMENT or LIMIT before protection keeps the session. -/
def commandFits (link : Link) (channel : Channel) (arguments : Bool) (command : Command) :
    Except Result Nat :=
  match layoutGet command.data.length (command.ne ≠ 0) with
  | .none => .error .argument
  | some (ciphertextLength, fieldLength) =>
    if command.cla ≠ 0 || !arguments then .error .argument
    else if fieldLength > link.smScratchCapacity then .error .limit
    else
      match channelResult (channelFits p.crypto.sizeMax .short channel fieldLength shortMaxNe) with
      | .ok => .ok ciphertextLength
      | failure => .error failure

def headerBlock (command : Command) : Bytes :=
  [smCla, command.ins, command.p1, command.p2, 0x80] ++ List.replicate 11 0

/-- `command_protect`: the data field of the protected command. -/
def commandProtect (session : Session) (command : Command) (ciphertextLength : Nat) :
    Option Bytes × Session :=
  let field := authenticatedField ciphertextLength (command.ne ≠ 0)
  match protect p.crypto session
    { plaintext := command.data, capacity := ciphertextLength,
      spans := [fun _ => headerBlock command, field], tagCapacity := 8, layout := true } with
  | (reply, session) =>
    if reply.status = .ok then
      (some (field reply.output ++ [0x8e, 0x08] ++ reply.tag), session)
    else (.none, session)

/-- `response_unprotect`: the plaintext replaces the ciphertext. -/
def responseUnprotect (session : Session) (fields : ResponseFields) : Reply × Session :=
  unprotect p.crypto session
    { ciphertext := fields.ciphertext, tag := fields.mac, authenticated := [fields.authenticated],
      capacity := fields.ciphertext.length, layout := true }

def protectedAnswer (link : Link) (session : Session) (ins : UInt8) (answer : Response)
    (buffer : Bytes) : LinkReply × Link :=
  match p.responseFields answer.data ins with
  | .none => (.wiped .invalid buffer, sessionLost link 0)
  | some fields =>
    match responseUnprotect p session fields with
    | (reply, session) =>
      if reply.status = .ok then
        (⟨.ok, ⟨reply.output, fields.sw⟩, buffer⟩, { link with sm := some session })
      else (.wiped .invalid buffer, sessionLost { link with sm := some session } 0)

/-- `sm_transceive` after `command_fits`. -/
def protectedTransceive (w : World) (channel : Channel) (session : Session) (command : Command)
    (ciphertextLength : Nat) (buffer : Bytes) : LinkReply × World :=
  match commandProtect p session command ciphertextLength with
  | (.none, session) =>
    (.wiped .error buffer, { w with link := sessionLost { w.link with sm := some session } 0 })
  | (some field, session) =>
    let outer : Command := ⟨field, shortMaxNe, smCla, command.ins, command.p1, command.p2⟩
    let t := transceiveFormat card p.crypto.sizeMax .short channel w.sent outer buffer
    let link := { w.link with channel := some t.channel, sm := some session }
    if t.result ≠ .ok then
      (.wiped (channelResult t.result) buffer, ⟨sessionLost link 0, t.sent⟩)
    else if t.response.sw ≠ 0x9000 then
      (.wiped .cardStatus buffer, ⟨sessionLost link t.response.sw, t.sent⟩)
    else
      let (reply, link) := protectedAnswer p link session command.ins t.response t.buffer
      (reply, ⟨link, t.sent⟩)

/-- `sm_transceive`. -/
def smTransceive (w : World) (channel : Channel) (session : Session) (arguments : Bool)
    (command : Command) (buffer : Bytes) : LinkReply × World :=
  match commandFits p w.link channel arguments command with
  | .error e => (.early e buffer, w)
  | .ok ciphertextLength =>
    protectedTransceive p card w channel session command ciphertextLength buffer

/-- `TC_APDU_transceive` on the link's channel. -/
def plainTransceive (w : World) (channel : Channel) (command : Command) (buffer : Bytes) :
    LinkReply × World :=
  let t := transceiveFormat card p.crypto.sizeMax channel.format channel w.sent command buffer
  (⟨channelResult t.result, t.response, t.buffer⟩,
    ⟨{ w.link with channel := some t.channel }, t.sent⟩)

/-- The end of `tc_piv_link_transceive`: a failed exchange leaves no answer, and
    a stopped channel ends a bound session. -/
def finishTransceive (outcome : LinkReply × World) : LinkReply × World := match outcome with
  | (reply, w) =>
    if reply.result = .ok then (reply, { w with link := { w.link with status := reply.response.sw } })
    else
      (.wiped reply.result reply.buffer, if reply.result = .error && w.link.security then
          { w with link := linkSessionLost w.link }
        else w)

/-- `tc_piv_link_transceive` on an initialized link. -/
def linkTransceive (w : World) (channel : Channel) (arguments : Bool) (command : Command)
    (buffer : Bytes) : LinkReply × World :=
  let guarded := smEligible command.ins && (w.link.secured || w.link.smLost)
  if guarded && (!w.link.secured || !w.link.security) then (.wiped .refused buffer, w)
  else
    let w := { w with link := { w.link with status := 0 } }
    if guarded then
      match w.link.sm with
      | .none => (.wiped .error buffer, w)
      | some session =>
        finishTransceive (smTransceive p card w channel session arguments command buffer)
    else finishTransceive (plainTransceive p card w channel command buffer)

/-- `scratch_minimum`. -/
def scratchMinimum (options : ChannelOptions) : Nat := if options.format = .short then 261
  else if options.maxCommandBytes ≠ 0 && options.maxCommandBytes < p.extendedScratchBytes then
    options.maxCommandBytes
  else p.extendedScratchBytes

/-- `TC_PIV_link_init`. -/
def linkInit (w : World) (arguments : Bool) (options : ChannelOptions) (scratchCapacity : Nat) :
    Result × World :=
  if !arguments || scratchCapacity < scratchMinimum p options then (.argument, w)
  else
    match channelInit options scratchCapacity with
    | .none => (.argument, w)
    | some channel => (.ok, { w with link := { Link.zero with channel := some channel } })

/-- `selection_reset`. -/
def selectionReset (link : Link) : Link :=
  { linkUnbind link with
    application := .none, profile := 0, smSuite := 0, vci := false, pinVerified := false }

/-- `selection_apply`. -/
def selectionApply (link : Link) (application : Application) (selected : Selected) :
    Result × Link :=
  match link.channel with
  | .none => (.invalid, link)
  | some channel =>
    match channelRestrict channel selected.maxCommandBytes selected.maxResponseBytes true with
    | (.ok, channel) =>
      (.ok,
        { link with
          channel := some channel, application := application,
          profile := selected.profile, smSuite := selected.smSuite })
    | (.error, _) => (.error, link)
    | _ => (.invalid, link)

/-- `template_result`. -/
def templateResult : Result → Result
  | .limit => .limit
  | .unsupported => .unsupported
  | _ => .invalid

def selectAnswer (link : Link) (application : Application) (twicCompatible : Bool)
    (reply : LinkReply) : LinkReply × Link :=
  if reply.response.sw ≠ 0x9000 then
    (.wiped .cardStatus reply.buffer, { link with status := reply.response.sw })
  else
    match p.applicationRead reply.response.data application twicCompatible with
    | .error e => (.wiped (templateResult e) reply.buffer, { link with status := 0 })
    | .ok selected =>
      match selectionApply link application selected with
      | (.ok, link) => (reply, link)
      | (failure, link) => (.wiped failure reply.buffer, { link with status := 0 })

/-- `TC_PIV_select`. -/
def select (w : World) (arguments : Bool) (application : Application) (twicCompatible : Bool)
    (buffer : Bytes) : LinkReply × World :=
  match w.link.channel with
  | .none => (.early .argument buffer, w)
  | some channel =>
    if !arguments || application = .none || buffer.length < statusBytes then
      (.early .argument buffer, w)
    else
      let switching := decide (w.link.application ≠ application)
      let command : Command := ⟨p.aid application, shortMaxNe, 0x00, 0xa4, 0x04, 0x00⟩
      match linkTransceive p card w channel true command buffer with
      | (reply, w) =>
        let link := if switching && (reply.result ≠ .ok || reply.response.sw = 0x9000) then
            selectionReset w.link
          else w.link
        if reply.result ≠ .ok then (reply, { w with link := link })
        else
          let (reply, link) := selectAnswer p link application twicCompatible reply
          (reply, { w with link := link })

/-- `TC_PIV_SM_key_request`. `began` is what `TC_PIV_SM_begin` made of the
    session, with the request's data field. -/
def keyRequest (w : World) (arguments : Bool) (suite : UInt8) (began : Option (Session × Bytes))
    (buffer : Bytes) : LinkReply × World :=
  match w.link.channel with
  | .none => (.early .argument buffer, w)
  | some channel =>
    if !arguments || !(suite = 0x27 || suite = 0x2e) || buffer.length < statusBytes then
      (.early .argument buffer, w)
    else if (suiteKeyBytes p.crypto suite).isNone ||
        (w.link.smSuite ≠ 0 && w.link.smSuite ≠ suite) then
      (.early .unsupported buffer, w)
    else if w.link.application ≠ .piv || w.link.secured || w.link.smLost then
      (.early .refused buffer, w)
    else
      let w := { w with link := { linkUnbind w.link with vci := false, pinVerified := false } }
      match began with
      | .none => (.wiped .error buffer, { w with link := { w.link with status := 0 } })
      | some (session, data) =>
        let command : Command := ⟨data, shortMaxNe, 0x00, insGeneralAuthenticate, suite, 0x04⟩
        match linkTransceive p card w channel true command buffer with
        | (reply, w) =>
          if reply.result ≠ .ok then
            (.wiped reply.result reply.buffer, { w with link := { w.link with status := 0 } })
          else if reply.response.sw ≠ 0x9000 then
            (.wiped .cardStatus reply.buffer,
              { w with link := { w.link with status := reply.response.sw } })
          else if !p.peerRead reply.response.data suite then
            (.wiped .invalid reply.buffer, { w with link := { w.link with status := 0 } })
          else
            (reply, { w with link := { w.link with security := true, sm := some session } })

/-- `TC_PIV_link_secure`. -/
def secure (w : World) (arguments : Bool) (scratchCapacity : Nat) : Result × World :=
  if !arguments || w.link.channel.isNone ||
      scratchCapacity < paddedBytes p.commandMaxNc + 5 + 3 + 10 || !w.link.security ||
      w.link.secured || w.link.sm.map Session.state ≠ some .ready then (.argument, w)
  else
    (.ok, { w with link := { w.link with smScratchCapacity := scratchCapacity, secured := true } })

/-- `TC_PIV_link_unsecure`. -/
def unsecure (w : World) : World :=
  { w with link := { linkUnbind w.link with smLost := false, vci := false } }

inductive LinkCall where
  | init (arguments : Bool) (options : ChannelOptions) (scratchCapacity : Nat)
  | select (arguments : Bool) (application : Application) (twicCompatible : Bool)
      (buffer : Bytes)
  | keyRequest (arguments : Bool) (suite : UInt8) (began : Option (Session × Bytes))
      (buffer : Bytes)
  /-- The application works on the bound session. -/
  | session (session : Session)
  /-- VERIFY and VCI establishment record what their exchanges proved. -/
  | marks (vci pinVerified : Bool)
  | secure (arguments : Bool) (scratchCapacity : Nat)
  | unsecure
  | transceive (arguments : Bool) (command : Command) (buffer : Bytes)

def World.step (w : World) : LinkCall → LinkReply × World
  | .init arguments options scratchCapacity =>
    let (result, w) := linkInit p w arguments options scratchCapacity
    (.early result [], w)
  | .select arguments application twicCompatible buffer =>
    Piv.select p card w arguments application twicCompatible buffer
  | .keyRequest arguments suite began buffer =>
    Piv.keyRequest p card w arguments suite began buffer
  | .session session =>
    (.early .ok [], { w with link := { w.link with sm := w.link.sm.map fun _ => session } })
  | .marks vci pinVerified =>
    (.early .ok [], { w with link := { w.link with vci := vci, pinVerified := pinVerified } })
  | .secure arguments scratchCapacity =>
    let (result, w) := Piv.secure p w arguments scratchCapacity
    (.early result [], w)
  | .unsecure => (.early .ok [], Piv.unsecure w)
  | .transceive arguments command buffer =>
    match w.link.channel with
    | .none => (.early .argument buffer, w)
    | some channel => linkTransceive p card w channel arguments command buffer

end

end TinyCrypto.Piv
