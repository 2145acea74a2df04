import TinyCrypto.Apdu.Trace

/-! # What a transceive delivers and transmits

The results are about one call of `tc_apdu_transceive_format` for any channel,
command, buffer and card, and about any sequence of calls on one channel.
-/

namespace TinyCrypto.Apdu

open Library Library.Program

section

variable (card : Card) (sizeMax : Nat) (format : Format) (channel : Channel) (sent : List Bytes)
  (buffer : Bytes)

/-- The exchanges of a call: what it transmitted after `sent`, each transmit one
    unit of the budget. -/
structure Made (trace : List Exchange) (call : Transceived) : Prop where
  bytes : call.sent = (trace.map Exchange.bytes).reverse ++ sent
  genuine : Genuine card sizeMax format buffer.length sent trace
  budget : call.channel.exchangesLeft + trace.length = channel.exchangesLeft

end

/-- The caller's `*out` after the call. -/
def Transceived.out (call : Transceived) (before : Response) : Response := match call.result with
  | .ok => call.response
  | _ => before

variable {card : Card} {sizeMax : Nat} {format : Format} {channel : Channel} {sent : List Bytes}
  {command : Command} {buffer : Bytes}

/-- How a call ends that passed the checks on a channel that is not stopped. -/
structure Ended (trace : List Exchange) (out : Option Response) (buffer : Bytes)
    (call : Transceived) : Prop where
  failed : out = none → call.result ≠ .ok ∧ call.buffer = List.replicate buffer.length 0
  delivered : ∀ response, out = some response → call.result = .ok ∧ call.response = response ∧
    call.buffer.take response.data.length = response.data ∧
    response.data.length ≤ buffer.length ∧
    ∀ i, response.data.length ≤ i →
      (∃ x ∈ trace, x.Accepted ∧ i < x.place + x.answer.length) → call.buffer[i]? = some 0

theorem overlay_zero {buffer : Bytes} {offset count i : Nat} (after : offset ≤ i)
    (inside : i < offset + count) (room : i < buffer.length) :
    (overlay buffer offset (List.replicate count 0))[i]? = some 0 := by
  simp only [overlay, List.getElem?_append, List.getElem?_take, List.getElem?_replicate,
    List.length_take, List.length_append, List.length_replicate]
  grind

variable {trace : List Exchange}

theorem genuine_offered {capacity : Nat} (genuine : Genuine card sizeMax format capacity sent trace) :
    ∀ x ∈ trace, x.place + x.offered = capacity := by
  induction trace generalizing sent with
  | nil => simp
  | cons y rest ih =>
    intro x member
    rcases List.mem_cons.mp member with rfl | member
    · exact genuine.1.offered
    · exact ih genuine.2 x member

theorem formGet_error {nc ne : Nat} {e : Result} (failed : formGet sizeMax nc ne format = .error e) :
    e ≠ .ok := by
  unfold formGet at failed
  split at failed
  · cases failed
    decide
  split at failed
  · cases failed
  split at failed
  · cases failed
    decide
  split at failed
  · cases failed
    decide
  · cases failed

theorem transmitStep_throws {step : Command} :
    Throws (· ≠ Result.ok) (transmitStep card sizeMax format step) := by
  refine .bind (.lift fun e => formGet_error) fun _ form _ _ => ?_
  refine .bind throws_state fun _ w _ _ => ?_
  split
  · exact .throw (by decide)
  · intro w e w' failed
    change acceptAnswer _ _ _ = (.error e, w') at failed
    unfold acceptAnswer at failed
    split at failed
    · cases failed
      decide
    · cases failed

theorem answerRead_throws {received : Nat} : Throws (· ≠ Result.ok) (answerRead received) := by
  refine .bind throws_state fun _ w _ _ => ?_
  split
  · exact .pure _
  · exact .throw (by decide)

variable {cla : UInt8}

theorem collectLoop_throws {sm : Bool} (passes : Nat) (c : Collect) :
    Throws (· ≠ Result.ok) (collectLoop card sizeMax format cla sm passes c) := by
  induction passes generalizing c with
  | zero => exact .throw (by decide)
  | succ passes ih =>
    refine .bind ?_ fun _ next _ _ => ?_
    · refine .bind throws_state fun _ w _ _ => ?_
      split
      · exact .throw (by decide)
      refine .bind transmitStep_throws fun _ received _ _ => ?_
      refine .bind answerRead_throws fun _ answer _ _ => ?_
      split
      · exact .throw (by decide)
      refine .bind throws_change fun _ _ _ _ => ?_
      simp only
      split
      · split
        · exact .pure _
        · exact .pure _
      refine .bind throws_change fun _ _ _ _ => ?_
      split
      · exact .pure _
      · exact .bind throws_state fun _ w _ _ => .pure _
    · cases next with
      | none => exact .pure _
      | some c' => exact ih c'

theorem chainSend_throws (fragments offset : Nat) :
    Throws (· ≠ Result.ok) (chainSend card sizeMax format command fragments offset) := by
  induction fragments generalizing offset with
  | zero => exact .pure _
  | succ fragments ih =>
    refine .bind ?_ fun _ ended _ _ => ?_
    · refine .bind transmitStep_throws fun _ received _ _ => ?_
      refine .bind answerRead_throws fun _ answer _ _ => ?_
      split
      · exact .throw (by decide)
      split
      · exact .bind throws_change fun _ _ _ _ => .pure _
      · exact .pure _
    · split
      · exact .pure _
      · exact ih _

theorem transceiveRun_throws :
    Throws (· ≠ Result.ok) (transceiveRun card sizeMax format command) := by
  refine .bind throws_state fun _ w _ _ => ?_
  split
  · split
    · refine .bind (chainSend_throws _ _) fun _ reached _ _ => ?_
      cases reached with
      | none => exact .pure _
      | some offset =>
        exact .bind throws_state fun _ w _ _ => collectLoop_throws _ _
    · rename_i failed
      exact .throw failed
  · exact .bind throws_state fun _ w _ _ => collectLoop_throws _ _

theorem transceiveFormat_traced
    (checked : transceiveCheck sizeMax format command buffer.length = .ok)
    (running : channel.stopped = false) : ∃ trace out, Transcript channel format command trace out ∧
      Made card sizeMax format channel sent buffer trace
        (transceiveFormat card sizeMax format channel sent command buffer) ∧ Ended trace out buffer
        (transceiveFormat card sizeMax format channel sent command buffer) := by
  generalize ran : (transceiveRun card sizeMax format command).exec ⟨channel, sent, buffer, 0, 0, 0⟩ =
    outcome
  obtain ⟨result, w⟩ := outcome
  obtain ⟨trace, out, transcript, traces, outcome⟩ := transceiveRun_traced ran
  refine ⟨trace, out, transcript, ?_⟩
  have size : w.response.length = buffer.length := traces.size
  unfold transceiveFormat
  simp only [checked, running, ran]
  cases result with
  | error e =>
    refine ⟨⟨traces.sent, traces.genuine, traces.budget⟩, ?_, ?_⟩
    · intro _
      exact ⟨transceiveRun_throws _ _ _ ran, rfl⟩
    · rintro response rfl
      exact outcome.elim
  | ok _ =>
    refine ⟨⟨traces.sent, traces.genuine, traces.budget⟩, ?_, ?_⟩
    · rintro rfl
      exact outcome.elim
    · rintro response rfl
      have used : w.used = response.data.length := by
        rw [outcome.used, Nat.zero_add]
      have data : w.response.take w.used = response.data := by
        rw [outcome.data, List.take_zero, List.nil_append]
      have fits : response.data.length ≤ buffer.length := by
        rw [← data, List.length_take, size]
        exact Nat.min_le_right _ _
      refine ⟨rfl, ?_, ?_, fits, ?_⟩
      · change Response.mk _ _ = response
        rw [data, outcome.sw]
      · change (overlay w.response w.used _).take _ = _
        rw [← used, overlay_take]
        exact data
      · rintro i after ⟨x, member, accepted, inside⟩
        have water := traces.water x member accepted
        have placed : x.place + x.offered = buffer.length := genuine_offered traces.genuine x member
        have short := accepted.2.2
        exact overlay_zero (by omega) (by omega) (by omega)

theorem transceiveFormat_refused
    (refused : transceiveCheck sizeMax format command buffer.length ≠ .ok ∨
      channel.stopped = true) :
    (transceiveFormat card sizeMax format channel sent command buffer).result ≠ .ok ∧
      (transceiveFormat card sizeMax format channel sent command buffer).buffer = buffer ∧
      (transceiveFormat card sizeMax format channel sent command buffer).channel = channel ∧
      (transceiveFormat card sizeMax format channel sent command buffer).sent = sent := by
  unfold transceiveFormat
  split
  · rename_i checked
    rcases refused with failed | stopped
    · exact absurd checked failed
    · rw [if_pos stopped]
      exact ⟨by simp, rfl, rfl, rfl⟩
  · rename_i failed
    exact ⟨failed, rfl, rfl, rfl⟩

def Exchange.data (x : Exchange) : Bytes := match responseRead x.received with
  | .ok answer => answer.data
  | .error _ => []

def IsGetResponse (step : Command) : Prop :=
  step.ins = 0xc0 ∧ step.p1 = 0 ∧ step.p2 = 0 ∧ step.data = []

def IsLast (format : Format) (command step : Command) : Prop :=
  ∃ offset, (Chained format command ∧ offset = shortMaxNc * fragmentCount command ∨
      ¬ Chained format command ∧ offset = 0) ∧
    step = { command with data := command.data.drop offset, ne := step.ne }

theorem says_data {x : Exchange} {answer : Response} (read : x.Says answer) :
    x.data = answer.data := by
  simp [Exchange.data, read.2]

theorem Collected.response {sm : Bool} {c : Collect} {out : Option Response}
    (collected : Collected channel cla sm c trace out) {response : Response}
    (done : out = some response) : response.data = (trace.map Exchange.data).flatten ∧
      ∃ before x answer, trace = before ++ [x] ∧ x.Says answer ∧ answer.sw = response.sw := by
  induction collected generalizing response with
  | refused => cases done
  | failed same => cases done
  | @ended c x answer same read within last =>
    cases done
    exact ⟨by simp [says_data read], [], x, answer, rfl, read, rfl⟩
  | @again c x answer rest out same read wrong correctable first later ih =>
    obtain ⟨data, before, final, answer', rfl, read', status⟩ := ih done
    refine ⟨?_, x :: before, final, answer', rfl, read', status⟩
    rw [List.map_cons, List.flatten_cons, says_data read, responseRead_wrongLe read.2 wrong,
      List.nil_append]
    exact data
  | @more c x answer rest out same read within more later ih =>
    obtain ⟨tail, rfl, rfl⟩ := Option.map_eq_some_iff.mp done
    obtain ⟨data, before, final, answer', rfl, read', status⟩ := ih rfl
    refine ⟨?_, x :: before, final, answer', rfl, read', status⟩
    rw [List.map_cons, List.flatten_cons, says_data read, ← data]

theorem Collected.steps {sm : Bool} {c : Collect} {out : Option Response}
    (collected : Collected channel cla sm c trace out) :
    ∀ x ∈ trace, x.step = { c.step with ne := x.step.ne } ∨ IsGetResponse x.step := by
  induction collected with
  | refused => simp
  | failed same =>
    rintro x member
    obtain rfl := List.mem_singleton.mp member
    exact .inl (by rw [same])
  | ended same read within last =>
    rintro x member
    obtain rfl := List.mem_singleton.mp member
    exact .inl (by rw [same])
  | again same read wrong correctable first later ih =>
    intro x member
    rcases List.mem_cons.mp member with rfl | member
    · exact .inl (by rw [same])
    · exact ih x member
  | more same read within more later ih =>
    intro x member
    rcases List.mem_cons.mp member with rfl | member
    · exact .inl (by rw [same])
    · rcases ih x member with step | get
      · refine .inr ?_
        rw [step]
        exact ⟨rfl, rfl, rfl, rfl⟩
      · exact .inr get

/-- What `out` holds after OK: the data of the answers to the last command step
    and to every GET RESPONSE, in order, and the status of the last answer. -/
structure Delivered (format : Format) (command : Command) (fragments collected : List Exchange)
    (out : Response) : Prop where
  chain : Fragments command 0 fragments
  steps : ∀ x ∈ collected, IsLast format command x.step ∨ IsGetResponse x.step
  data : out.data = (collected.map Exchange.data).flatten
  status : ∃ before x answer, fragments ++ collected = before ++ [x] ∧ x.Says answer ∧
    answer.sw = out.sw

theorem Transcript.delivered {response : Response}
    (transcript : Transcript channel format command trace (some response)) :
    ∃ fragments collected, trace = fragments ++ collected ∧
      Delivered format command fragments collected response := by
  cases transcript with
  | whole unchained collected =>
    obtain ⟨data, status⟩ := collected.response rfl
    refine ⟨[], trace, rfl, trivial, ?_, data, status⟩
    intro x member
    rcases collected.steps x member with step | get
    · exact .inl ⟨0, .inr ⟨unchained, rfl⟩, step⟩
    · exact .inr get
  | @refused before x sw chained fragments few read =>
    refine ⟨before ++ [x], [], by simp, fragments, by simp, rfl, before, x, _, by simp, read, rfl⟩
  | @chain sent rest _ chained fragments all collected =>
    obtain ⟨data, before, x, answer, rfl, read, status⟩ := collected.response rfl
    refine ⟨sent, before ++ [x], rfl, fragments, ?_, data, sent ++ before, x, answer, by simp,
      read, status⟩
    intro y member
    rcases collected.steps y member with step | get
    · exact .inl ⟨_, .inl ⟨chained, rfl⟩, step⟩
    · exact .inr get

inductive ChannelCall where
  | transceive (format : Format) (command : Command) (buffer : Bytes)
  | restrict (maxCommandBytes maxResponseBytes : Nat) (getResponsePlainCla : Bool)

def ChannelCall.Checked (sizeMax : Nat) : ChannelCall → Prop
  | .transceive format command buffer =>
    transceiveCheck sizeMax format command buffer.length = .ok
  | .restrict maxCommandBytes maxResponseBytes _ =>
    limitsValid maxCommandBytes maxResponseBytes = true

def ChannelCall.run (card : Card) (sizeMax : Nat) (line : Channel × List Bytes) :
    ChannelCall → Result × Channel × List Bytes
  | .transceive format command buffer =>
    let call := transceiveFormat card sizeMax format line.1 line.2 command buffer
    (call.result, call.channel, call.sent)
  | .restrict maxCommandBytes maxResponseBytes getResponsePlainCla =>
    let (result, channel) :=
      channelRestrict line.1 maxCommandBytes maxResponseBytes getResponsePlainCla
    (result, channel, line.2)

def runCalls (card : Card) (sizeMax : Nat) (line : Channel × List Bytes)
    (calls : List ChannelCall) : Channel × List Bytes :=
  calls.foldl (fun line call => (call.run card sizeMax line).2) line

theorem ChannelCall.run_stopped {line : Channel × List Bytes} (stopped : line.1.stopped = true)
    (call : ChannelCall) : (call.run card sizeMax line).2 = line ∧
      (call.Checked sizeMax → (call.run card sizeMax line).1 = .error) := by
  cases call with
  | transceive format command buffer =>
    obtain ⟨_, _, same, silent⟩ := transceiveFormat_refused (.inr stopped)
    refine ⟨Prod.ext same silent, ?_⟩
    intro checked
    have checked' : transceiveCheck sizeMax format command buffer.length = .ok := checked
    simp [ChannelCall.run, transceiveFormat, checked', stopped]
  | restrict maxCommandBytes maxResponseBytes plain =>
    simp only [ChannelCall.run, channelRestrict]
    split
    · rename_i broken
      refine ⟨rfl, ?_⟩
      intro checked
      have checked' : limitsValid maxCommandBytes maxResponseBytes = true := checked
      simp [checked'] at broken
    · exact ⟨rfl, fun _ => rfl⟩

theorem runCalls_stopped {line : Channel × List Bytes} (stopped : line.1.stopped = true)
    (calls : List ChannelCall) : runCalls card sizeMax line calls = line := by
  induction calls with
  | nil => rfl
  | cons call rest ih =>
    change runCalls card sizeMax (call.run card sizeMax line).2 rest = line
    rw [(call.run_stopped stopped).1]
    exact ih

/-- OK delivers the data of the answers in order and wipes what they left after
    it. Any other result leaves `out` alone, and wipes the buffer unless nothing
    was started: the checks failed, or the channel is stopped. A stopped channel
    stays silent in every later call. -/
theorem transceive_delivers_or_wipes (card : Card) (sizeMax : Nat) (format : Format)
    (channel : Channel) (sent : List Bytes) (command : Command) (buffer : Bytes)
    (before : Response) :
    let call := transceiveFormat card sizeMax format channel sent command buffer
    let out := call.out before
    ∃ trace, Made card sizeMax format channel sent buffer trace call ∧ (call.result = .ok →
        (∃ fragments collected, trace = fragments ++ collected ∧
          Delivered format command fragments collected out) ∧
        call.buffer.take out.data.length = out.data ∧ out.data.length ≤ buffer.length ∧
        ∀ i, out.data.length ≤ i →
          (∃ x ∈ trace, x.Accepted ∧ i < x.place + x.answer.length) → call.buffer[i]? = some 0) ∧
      (call.result ≠ .ok → out = before ∧
        (transceiveCheck sizeMax format command buffer.length = .ok → channel.stopped = false →
          call.buffer = List.replicate buffer.length 0)) ∧
      (channel.stopped = true → trace = [] ∧ call.buffer = buffer ∧
        (transceiveCheck sizeMax format command buffer.length = .ok → call.result = .error) ∧
        ∀ (calls : List ChannelCall) (next : ChannelCall),
          let line := runCalls card sizeMax (channel, sent) calls
          line = (channel, sent) ∧
            (next.Checked sizeMax → (next.run card sizeMax line).1 = .error)) := by
  intro call out
  have unchanged : call.result ≠ .ok → out = before := by
    intro failed
    simp only [out, Transceived.out]
  by_cases started : transceiveCheck sizeMax format command buffer.length = .ok ∧
      channel.stopped = false
  · obtain ⟨trace, response, transcript, made, ended⟩ :=
      @transceiveFormat_traced card sizeMax format channel sent command buffer started.1 started.2
    refine ⟨trace, made, ?_, ?_, ?_⟩
    · intro ok
      cases response with
      | none => exact absurd ok (ended.failed rfl).1
      | some response =>
        obtain ⟨_, same, data, fits, wiped⟩ := ended.delivered response rfl
        have outcome : out = response := by
          simp only [out, Transceived.out, ok]
          exact same
        rw [outcome]
        exact ⟨transcript.delivered, data, fits, wiped⟩
    · intro failed
      refine ⟨unchanged failed, ?_⟩
      intro _ _
      cases response with
      | none => exact (ended.failed rfl).2
      | some response => exact absurd (ended.delivered response rfl).1 failed
    · intro stopped
      rw [started.2] at stopped
      cases stopped
  · have refused : transceiveCheck sizeMax format command buffer.length ≠ .ok ∨
        channel.stopped = true := by
      simp only [not_and, Bool.not_eq_false] at started
      by_cases checked : transceiveCheck sizeMax format command buffer.length = .ok
      · exact .inr (started checked)
      · exact .inl checked
    obtain ⟨failed, same, kept, silent⟩ :=
      @transceiveFormat_refused card sizeMax format channel sent command buffer refused
    refine ⟨[], ⟨silent, trivial, by rw [kept]; rfl⟩, fun ok => absurd ok failed, ?_, ?_⟩
    · intro _
      refine ⟨unchanged failed, ?_⟩
      intro checked running
      exact absurd ⟨checked, running⟩ started
    · intro stopped
      refine ⟨rfl, same, ?_, ?_⟩
      · intro checked
        exact (ChannelCall.run_stopped (show (channel, sent).1.stopped = true from stopped)
          (.transceive format command buffer)).2 checked
      · intro calls next
        simp only [runCalls_stopped (show (channel, sent).1.stopped = true from stopped)]
        exact ⟨trivial, (next.run_stopped stopped).2⟩

/-- A stopped channel reports an error for a good command and leaves the buffer
    as it was. -/
theorem transceive_stopped_keeps_buffer :
    let channel : Channel := ⟨261, 4, 0, 0, false, .short, true⟩
    let command : Command := ⟨[], 0, 0, 0xa4, 0, 0⟩
    let call := transceiveFormat (fun _ _ => ⟨true, [0x90, 0x00], 2⟩) 1000 .short channel []
      command [1, 2, 3]
    transceiveCheck 1000 .short command 3 = .ok ∧ call.result = .error ∧
      call.buffer = [1, 2, 3] := by
  decide

end TinyCrypto.Apdu
