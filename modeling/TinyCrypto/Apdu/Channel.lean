import TinyCrypto.Apdu.Encoding
import TinyCrypto.Library.Program

/-! # The command-response channel

`apdu_channel.c` sends one command as one or more transmits: command chaining,
GET RESPONSE after 61XX and one corrected resend after 6CXX. The card is any
function of everything transmitted so far, so it may answer equal commands
differently.
-/

namespace TinyCrypto.Apdu

open Library Library.Program

/-- What one transmit did: the callback's status, the bytes it wrote into the
    offered space and the length it reported. -/
structure Answer where
  ok : Bool
  written : Bytes
  length : Nat

/-- A card behind its transport: `card sent offered` answers the newest command
    of `sent`. -/
abbrev Card := List Bytes → Nat → Answer

/-- `TC_APDU_channel` with an installed transport. A zero limit is no limit. -/
structure Channel where
  scratchCapacity : Nat
  exchangesLeft : Nat
  maxCommandBytes : Nat
  maxResponseBytes : Nat
  getResponsePlainCla : Bool
  format : Format
  stopped : Bool
  deriving DecidableEq

/-- `TC_APDU_channel_options`. -/
structure ChannelOptions where
  format : Format
  getResponsePlainCla : Bool
  exchanges : Nat
  maxCommandBytes : Nat
  maxResponseBytes : Nat

/-- `limits_valid`. -/
def limitsValid (maxCommandBytes maxResponseBytes : Nat) : Bool :=
  (maxCommandBytes = 0 || 4 ≤ maxCommandBytes) && (maxResponseBytes = 0 || 3 ≤ maxResponseBytes)

/-- `TC_APDU_channel_init`. -/
def channelInit (options : ChannelOptions) (scratchCapacity : Nat) : Option Channel :=
  if scratchCapacity < headerBytes || options.exchanges = 0 ||
      !limitsValid options.maxCommandBytes options.maxResponseBytes then none
  else some
    { scratchCapacity, exchangesLeft := options.exchanges,
      maxCommandBytes := options.maxCommandBytes, maxResponseBytes := options.maxResponseBytes,
      getResponsePlainCla := options.getResponsePlainCla, format := options.format,
      stopped := false }

/-- `tighter`. -/
def tighter (current requested : Nat) : Nat :=
  if requested ≠ 0 && (current = 0 || requested < current) then requested else current

/-- `TC_APDU_channel_restrict`. -/
def channelRestrict (channel : Channel) (maxCommandBytes maxResponseBytes : Nat)
    (getResponsePlainCla : Bool) : Result × Channel :=
  if !limitsValid maxCommandBytes maxResponseBytes then (.argument, channel)
  else if channel.stopped then (.error, channel)
  else (.ok,
    { channel with
      maxCommandBytes := tighter channel.maxCommandBytes maxCommandBytes,
      maxResponseBytes := tighter channel.maxResponseBytes maxResponseBytes,
      getResponsePlainCla := getResponsePlainCla })

/-- The channel, the commands transmitted so far (newest first) and the progress
    of the running exchange (`exchange_state`) over the response buffer. -/
structure Wire where
  channel : Channel
  sent : List Bytes
  response : Bytes
  used : Nat
  highWater : Nat
  sw : Nat

abbrev WireProgram := Program Result Wire

/-- Overwrite a buffer from `offset`; its length stays. -/
def overlay (buffer : Bytes) (offset : Nat) (bytes : Bytes) : Bytes :=
  (buffer.take offset ++ bytes).take buffer.length ++ buffer.drop (offset + bytes.length)

@[simp] theorem overlay_length (buffer : Bytes) (offset : Nat) (bytes : Bytes) :
    (overlay buffer offset bytes).length = buffer.length := by
  simp only [overlay, List.length_append, List.length_take, List.length_drop]
  omega

section

variable (card : Card) (sizeMax : Nat) (format : Format)

def transmit (command : Bytes) (w : Wire) : Answer × Wire :=
  let offered := w.response.length - w.used
  let answer := card (command :: w.sent) offered
  (answer,
    { w with
      channel := { w.channel with exchangesLeft := w.channel.exchangesLeft - 1 },
      sent := command :: w.sent,
      response := overlay w.response w.used (answer.written.take offered) })

/-- Check an answer against the transport's contract; a broken contract stops the
    channel. -/
def acceptAnswer (offered : Nat) (answer : Answer) (w : Wire) : Except Result Nat × Wire :=
  if !answer.ok || answer.length < statusBytes || answer.length > offered then
    (.error .error, { w with channel := { w.channel with stopped := true } })
  else (.ok answer.length, { w with highWater := max w.highWater (w.used + answer.length) })

def transmitted (command : Bytes) : WireProgram Nat := ExceptT.mk fun w =>
    acceptAnswer (w.response.length - w.used) (transmit card command w).1
      (transmit card command w).2

/-- `transmit_step`. -/
def transmitStep (step : Command) : WireProgram Nat := do
  let form ← lift (formGet sizeMax step.data.length step.ne format)
  let w ← state
  if form.size > w.channel.scratchCapacity ||
      (w.channel.maxCommandBytes ≠ 0 && form.size > w.channel.maxCommandBytes) ||
      w.response.length - w.used < statusBytes || w.channel.exchangesLeft = 0 then throw .limit
  else transmitted card (write step form)

/-- `answer_read`. -/
def answerRead (received : Nat) : WireProgram Response := do
  let w ← state
  match responseRead ((w.response.drop w.used).take received) with
  | .ok answer => return answer
  | .error _ => throw .invalid

/-- One fragment of `chain_send`: `true` when its answer ended the chain. -/
def chainFragment (command : Command) (offset : Nat) : WireProgram Bool := do
  let received ← transmitStep card sizeMax format
    { command with
      data := (command.data.drop offset).take shortMaxNc, ne := 0,
      cla := command.cla ||| claChaining }
  let answer ← answerRead received
  if answer.data.length ≠ 0 || statusClassify answer.sw = .warning then throw .invalid
  else if answer.sw ≠ 0x9000 then
    change fun w => { w with sw := answer.sw }
    return true
  else return false

/-- `chain_send` over the fragments before the last, the first of them at
    `offset`: `none` when the chain ended early, else the offset reached. -/
def chainSend (command : Command) : (fragments offset : Nat) → WireProgram (Option Nat)
  | 0, offset => return some offset
  | fragments + 1, offset => do
    if ← chainFragment card sizeMax format command offset then return none
    else chainSend command fragments (offset + shortMaxNc)

/-- `response_ne`. -/
def responseNe (channel : Channel) (ne : Nat) : Nat :=
  if channel.maxResponseBytes ≠ 0 && ne > channel.maxResponseBytes - statusBytes then
    channel.maxResponseBytes - statusBytes
  else ne

/-- `get_response`. -/
def getResponse (channel : Channel) (cla : UInt8) (sw2 : Nat) : Command where
  data := []
  ne := responseNe channel (if sw2 = 0 then shortMaxNe else sw2)
  cla := if channel.getResponsePlainCla then cla &&& claChannelMask else cla
  ins := 0xc0
  p1 := 0
  p2 := 0

/-- The variables of `response_collect`. -/
structure Collect where
  step : Command
  correctable : Bool
  corrected : Bool
  cardStated : Bool

/-- One pass of the loop in `response_collect`: `none` when the exchange is
    complete. -/
def collectStep (cla : UInt8) (sm : Bool) (c : Collect) : WireProgram (Option Collect) := do
  let w ← state
  if c.cardStated && w.response.length - w.used < c.step.ne + statusBytes then throw .limit
  else
    let received ← transmitStep card sizeMax format c.step
    let answer ← answerRead received
    if answer.data.length > c.step.ne then throw .invalid
    else
      change fun w => { w with sw := answer.sw }
      let sw1 := answer.sw / 256
      let sw2 := answer.sw % 256
      if sw1 = 0x6c then
        if !c.correctable || c.corrected then return none
        else
          return some
            { c with
              step := { c.step with ne := if sw2 = 0 then shortMaxNe else sw2 },
              corrected := true, cardStated := true }
      else
        change fun w => { w with used := w.used + answer.data.length }
        if sw1 ≠ 0x61 then return none
        else
          let w ← state
          return some
            { step := getResponse w.channel cla sw2, correctable := !sm, corrected := false,
              cardStated := true }

/-- `response_collect`. Every pass spends an exchange, so passes are bounded by
    the exchanges left; the pass after the last one fails with LIMIT. -/
def collectLoop (cla : UInt8) (sm : Bool) : Nat → Collect → WireProgram Unit
  | 0, _ => throw .limit
  | passes + 1, c => do
    match ← collectStep card sizeMax format cla sm c with
    | none => return ()
    | some c => collectLoop cla sm passes c

/-- `response_collect`. -/
def responseCollect (step : Command) (chained : Bool) : WireProgram Unit := do
  let w ← state
  let sm := decide (step.cla &&& claSmMask ≠ 0)
  collectLoop card sizeMax format step.cla sm (w.channel.exchangesLeft + 1)
    { step, correctable := !chained && !sm && step.ne ≠ 0, corrected := false, cardStated := false }

/-- `chain_check`. -/
def chainCheck (channel : Channel) (nc ne : Nat) : Result :=
  let fragments := nc / shortMaxNc + (if nc % shortMaxNc ≠ 0 then 1 else 0)
  let last := nc - (fragments - 1) * shortMaxNc
  let largest := max (headerBytes + 1 + shortMaxNc)
    (headerBytes + 1 + last + if ne = 0 then 0 else 1)
  if largest > channel.scratchCapacity ||
      (channel.maxCommandBytes ≠ 0 && largest > channel.maxCommandBytes) ||
      channel.exchangesLeft < fragments then .limit
  else .ok

/-- `tc_apdu_channel_fits`. -/
def channelFits (channel : Channel) (nc ne : Nat) : Result :=
  if format = .short && nc > shortMaxNc && nc ≤ maxNc then chainCheck channel nc ne
  else
    match formGet sizeMax nc ne format with
    | .error e => e
    | .ok form =>
      if form.size > channel.scratchCapacity ||
          (channel.maxCommandBytes ≠ 0 && form.size > channel.maxCommandBytes) ||
          channel.exchangesLeft = 0 then .limit
      else .ok

/-- `transceive_run`. -/
def transceiveRun (command : Command) : WireProgram Unit := do
  let w ← state
  if format = .short && command.data.length > shortMaxNc then
    match chainCheck w.channel command.data.length command.ne with
    | .ok =>
      match ← chainSend card sizeMax format command
        ((command.data.length - 1) / shortMaxNc) 0 with
      | none => return ()
      | some offset =>
        responseCollect card sizeMax format
          { command with
            data := command.data.drop offset, ne := responseNe w.channel command.ne } true
    | failure => throw failure
  else
    responseCollect card sizeMax format { command with ne := responseNe w.channel command.ne }
      false

/-- `transceive_check`, without the overlap checks. -/
def transceiveCheck (command : Command) (capacity : Nat) : Result :=
  if capacity < statusBytes then .argument
  else
    let nc := command.data.length
    let nc := if format = .short && nc > shortMaxNc && nc ≤ maxNc then shortMaxNc else nc
    match formGet sizeMax nc command.ne format with
    | .error e => e
    | .ok _ => classCheck command.cla

structure Transceived where
  result : Result
  response : Response
  buffer : Bytes
  channel : Channel
  sent : List Bytes

/-- `tc_apdu_transceive_format`, for a response buffer with the given contents.
    `response` is meaningful only with OK. -/
def transceiveFormat (channel : Channel) (sent : List Bytes) (command : Command)
    (buffer : Bytes) : Transceived :=
  match transceiveCheck sizeMax format command buffer.length with
  | .ok =>
    if channel.stopped then ⟨.error, ⟨[], 0⟩, buffer, channel, sent⟩
    else
      match (transceiveRun card sizeMax format command).exec ⟨channel, sent, buffer, 0, 0, 0⟩ with
      | (.error e, w) =>
        ⟨e, ⟨[], 0⟩, List.replicate buffer.length 0, w.channel, w.sent⟩
      | (.ok _, w) =>
        ⟨.ok, ⟨w.response.take w.used, w.sw⟩,
          overlay w.response w.used (List.replicate (w.highWater - w.used) 0),
          w.channel, w.sent⟩
  | failure => ⟨failure, ⟨[], 0⟩, buffer, channel, sent⟩

end

/-- An encoded step of `command`: its own header, with the chaining bit on
    fragments before the last, or a GET RESPONSE. -/
def StepOf (command : Command) (bytes : Bytes) : Prop := bytes.getD 1 0 = 0xc0 ∨
    bytes.getD 1 0 = command.ins ∧
      (bytes.getD 0 0 = command.cla ∨ bytes.getD 0 0 = command.cla ||| claChaining)

/-- A command whose encoding is a step of `command`. -/
def HeaderOf (command step : Command) : Prop := step.ins = 0xc0 ∨
    step.ins = command.ins ∧ (step.cla = command.cla ∨ step.cla = command.cla ||| claChaining)

/-- Only steps of `command` were transmitted, and the response buffer kept its
    size. -/
def Sends (command : Command) (w w' : Wire) : Prop := w'.response.length = w.response.length ∧
    ∃ new, w'.sent = new ++ w.sent ∧ ∀ bytes ∈ new, StepOf command bytes

instance (command : Command) : Std.Refl (Sends command) := ⟨fun _ => ⟨rfl, [], rfl, by simp⟩⟩

instance (command : Command) : IsTrans Wire (Sends command) := by
  constructor
  rintro first second third ⟨size, new, sent, steps⟩ ⟨size', new', sent', steps'⟩
  refine ⟨size'.trans size, new' ++ new, by rw [sent', sent, List.append_assoc], ?_⟩
  intro bytes member
  rcases List.mem_append.mp member with member | member
  · exact steps' bytes member
  · exact steps bytes member

variable {card : Card} {sizeMax : Nat} {format : Format} {command : Command}

variable {step : Command}

theorem stepOf_write {form : Form} (header : HeaderOf command step) :
    StepOf command (write step form) := by
  simpa [StepOf, HeaderOf, write] using header

theorem transmitted_sends {bytes : Bytes} (step : StepOf command bytes) :
    Moves (Sends command) (transmitted card bytes) := by
  intro w
  change Sends command w (acceptAnswer _ _ _).2
  unfold acceptAnswer
  split
  · exact ⟨by simp [transmit], [bytes], rfl, by simpa using step⟩
  · exact ⟨by simp [transmit], [bytes], rfl, by simpa using step⟩

theorem transmitStep_sends (header : HeaderOf command step) :
    Moves (Sends command) (transmitStep card sizeMax format step) := by
  unfold transmitStep
  refine .bind (.lift _) ?_
  intro form
  refine .bind Moves.state ?_
  intro w
  split
  · exact .throw _
  · exact transmitted_sends (stepOf_write header)

theorem answerRead_sends {received : Nat} : Moves (Sends command) (answerRead received) := by
  unfold answerRead
  refine .bind Moves.state ?_
  intro w
  split
  · exact .pure _
  · exact .throw _

theorem change_sends {f : Wire → Wire}
    (same : ∀ w, (f w).sent = w.sent ∧ (f w).response = w.response) :
    Moves (Sends command) (change f : WireProgram Unit) :=
  Moves.change fun w => ⟨by rw [(same w).2], [], by rw [(same w).1, List.nil_append], by simp⟩

theorem chainFragment_sends {offset : Nat} :
    Moves (Sends command) (chainFragment card sizeMax format command offset) := by
  unfold chainFragment
  refine .bind (transmitStep_sends (.inr ⟨rfl, .inr rfl⟩)) ?_
  intro received
  refine .bind answerRead_sends ?_
  intro answer
  split
  · exact .throw _
  split
  · refine .bind (change_sends (by intro w; exact ⟨rfl, rfl⟩)) ?_
    intro _
    exact .pure _
  · exact .pure _

theorem chainSend_sends (fragments offset : Nat) :
    Moves (Sends command) (chainSend card sizeMax format command fragments offset) := by
  induction fragments generalizing offset with
  | zero => exact .pure _
  | succ fragments ih =>
    unfold chainSend
    refine .bind chainFragment_sends ?_
    intro ended
    cases ended with
    | true => exact .pure _
    | false => exact ih _

variable {cla : UInt8} {c : Collect}

theorem collectStep_sends {sm : Bool} (header : HeaderOf command c.step) :
    Moves (Sends command) (collectStep card sizeMax format cla sm c) := by
  unfold collectStep
  refine .bind Moves.state ?_
  intro w
  split
  · exact .throw _
  refine .bind (transmitStep_sends header) ?_
  intro received
  refine .bind answerRead_sends ?_
  intro answer
  split
  · exact .throw _
  refine .bind (change_sends (by intro w; exact ⟨rfl, rfl⟩)) ?_
  intro _
  simp only
  split
  · split
    · exact .pure _
    · exact .pure _
  refine .bind (change_sends (by intro w; exact ⟨rfl, rfl⟩)) ?_
  intro _
  split
  · exact .pure _
  refine .bind Moves.state ?_
  intro w
  exact .pure _

theorem collectStep_header {sm : Bool} {next : Option Collect} {w w' : Wire}
    (header : HeaderOf command c.step)
    (given : Gives (collectStep card sizeMax format cla sm c) w next w') :
    ∀ c' ∈ next, HeaderOf command c'.step := by
  simp only [collectStep, gives_bind, gives_state] at given
  obtain ⟨_, _, ⟨rfl, rfl⟩, given⟩ := given
  split at given
  · exact absurd given gives_throw
  simp only [gives_bind] at given
  obtain ⟨_, _, _, answer, _, _, given⟩ := given
  split at given
  · exact absurd given gives_throw
  simp only [gives_bind, gives_change] at given
  obtain ⟨_, _, _, given⟩ := given
  split at given
  · split at given
    · obtain ⟨rfl, _⟩ := gives_pure.mp given
      simp
    · obtain ⟨rfl, _⟩ := gives_pure.mp given
      rintro c' ⟨⟩
      exact header
  · simp only [gives_bind, gives_change] at given
    obtain ⟨_, _, _, given⟩ := given
    split at given
    · obtain ⟨rfl, _⟩ := gives_pure.mp given
      simp
    · simp only [gives_bind, gives_state, gives_pure] at given
      obtain ⟨_, _, _, rfl, _⟩ := given
      rintro c' ⟨⟩
      exact .inl rfl

theorem collectLoop_sends {sm : Bool} (passes : Nat) (header : HeaderOf command c.step) :
    Moves (Sends command) (collectLoop card sizeMax format cla sm passes c) := by
  induction passes generalizing c with
  | zero => exact .throw _
  | succ passes ih =>
    unfold collectLoop
    refine Moves.bind_of (collectStep_sends header) (fun s next s' => collectStep_header header) ?_
    intro next header'
    cases next with
    | none => exact .pure _
    | some c' => exact ih (header' c' rfl)

theorem responseCollect_sends {chained : Bool} (header : HeaderOf command step) :
    Moves (Sends command) (responseCollect card sizeMax format step chained) := by
  unfold responseCollect
  refine .bind Moves.state ?_
  intro w
  exact collectLoop_sends _ header

theorem transceiveRun_sends : Moves (Sends command) (transceiveRun card sizeMax format command) := by
  unfold transceiveRun
  refine .bind Moves.state ?_
  intro w
  split
  · split
    · apply Moves.bind (chainSend_sends _ _)
      intro reached
      cases reached with
      | none => exact .pure _
      | some offset => exact responseCollect_sends (.inr ⟨rfl, .inl rfl⟩)
    · exact .throw _
  · exact responseCollect_sends (.inr ⟨rfl, .inl rfl⟩)

theorem transceiveFormat_sends (channel : Channel) (sent : List Bytes) (buffer : Bytes) :
    (transceiveFormat card sizeMax format channel sent command buffer).buffer.length =
        buffer.length ∧
      ∃ new, (transceiveFormat card sizeMax format channel sent command buffer).sent = new ++ sent ∧
        ∀ bytes ∈ new, StepOf command bytes := by
  unfold transceiveFormat
  split
  · split
    · exact ⟨rfl, [], rfl, by simp⟩
    · have sends := @transceiveRun_sends card sizeMax format command
        ⟨channel, sent, buffer, 0, 0, 0⟩
      split
      · rename_i w ran
        rw [ran] at sends
        exact ⟨by simp, sends.2⟩
      · rename_i w ran
        rw [ran] at sends
        exact ⟨by simpa using sends.1, sends.2⟩
  · exact ⟨rfl, [], rfl, by simp⟩

end TinyCrypto.Apdu
