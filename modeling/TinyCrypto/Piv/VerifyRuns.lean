import TinyCrypto.Piv.Verify

/-! # PIN submission

A call submits the PIN once at most, after the card stated enough retries in the same call.
Over any calls the PIN mark of the link is that of the card's last answer for a PIN.
-/

namespace TinyCrypto.Piv

open Apdu Library

/-- An exchange that ended with OK and without data, as every answer to VERIFY is. -/
def LinkReply.accepted (reply : LinkReply) : Bool := reply.result = .ok && reply.response.data = []

/-- The status of the last accepted answer for a PIN, the newest exchange first. -/
def lastPinAnswer (log : List (UInt8 × LinkReply)) : Option Nat :=
  (log.find? fun entry => pinReference entry.1 && entry.2.accepted).map (·.2.response.sw)

theorem lastPinAnswer_append (newer older : List (UInt8 × LinkReply)) :
    lastPinAnswer (newer ++ older) = (lastPinAnswer newer).or (lastPinAnswer older) := by
  rw [lastPinAnswer, List.find?_append, lastPinAnswer, lastPinAnswer]
  cases newer.find? fun entry => pinReference entry.1 && entry.2.accepted <;> rfl

theorem lastPinAnswer_single (reference : UInt8) (reply : LinkReply) :
    lastPinAnswer [(reference, reply)] =
      if pinReference reference && reply.accepted then some reply.response.sw else none := by
  rw [lastPinAnswer]
  cases named : pinReference reference && reply.accepted <;> simp [named]

/-- The VERIFY exchanges between two states of a link, newest first: for each the reference and
    what the link made of the card's answer, whose status an OK reply has. -/
inductive Verifies (p : LinkPrimitives) (card : Card) (w : World) :
    List (UInt8 × LinkReply) → World → Prop where
  | done : Verifies p card w [] w
  | send {log : List (UInt8 × LinkReply)} {middle after w' : World} {channel : Channel}
      {reference : UInt8} {data : Bytes} {memory : AnswerBytes} {reply : LinkReply} :
      Verifies p card w log middle → middle.link.channel = some channel →
      linkTransceive p card middle channel true (verifyCommand reference data) memory.bytes =
        (reply, after) →
      w'.sent = after.sent →
      (reply.result = .ok →
        CardAnswered p card (verifyCommand reference data) middle.sent w'.sent reply.response.sw) →
      Verifies p card w ((reference, reply) :: log) w'

section

variable (p : LinkPrimitives) (card : Card)

def Transmits (reference : UInt8) (data : Bytes) (w w' : World) : Prop :=
  ∃ main gets, w'.sent = gets ++ main ++ w.sent ∧
    Exchanges p (verifyCommand reference data) main gets

/-- A call transmits the empty VERIFY and then the PIN, each once at most. The PIN follows only
    when the card answered the empty VERIFY of this call with a sufficient count. -/
def PinBounded (reference : UInt8) (pin : Bytes) (minimumRetries : Nat) (w w' : World) : Prop :=
  ∃ query queryGets submission gets,
    w'.sent = gets ++ submission ++ (queryGets ++ query ++ w.sent) ∧
    Exchanges p (verifyCommand reference []) query queryGets ∧
    Exchanges p (verifyCommand reference (paddedDigits pin)) submission gets ∧
    (gets ++ submission ≠ [] → ∃ retries, 2 ≤ minimumRetries ∧ minimumRetries ≤ retries ∧
      retries ≤ 15 ∧ CardAnswered p card (verifyCommand reference []) w.sent
          (queryGets ++ query ++ w.sent) (0x63c0 + retries))

end

variable {p : LinkPrimitives} {card : Card} {twic : Bool} {interface : Interface}
  {w w' : World} {reference : UInt8} {memory : AnswerBytes}

variable {data : Bytes}

theorem Transmits.silent (same : w'.sent = w.sent) : Transmits p reference data w w' :=
  ⟨[], [], same, Nat.zero_le 1, nofun, nofun⟩

theorem Verifies.relink {entry : UInt8 × LinkReply} {log : List (UInt8 × LinkReply)}
    {w'' : World} (exchanges : Verifies p card w (entry :: log) w') (same : w''.sent = w'.sent) :
    Verifies p card w (entry :: log) w'' := by
  cases exchanges with
  | send earlier held run sent answered =>
    exact .send earlier held run (same.trans sent) (by rwa [same])

theorem Verifies.trans {log log' : List (UInt8 × LinkReply)} {w'' : World}
    (first : Verifies p card w log w') (second : Verifies p card w' log' w'') :
    Verifies p card w (log' ++ log) w'' := by
  induction second with
  | done => exact first
  | send _ held run sent answered ih => exact .send ih held run sent answered

/-- No PIN answer was accepted: the marks are kept, or the session was lost. -/
structure Unanswered (p : LinkPrimitives) (card : Card) (log : List (UInt8 × LinkReply))
    (w w' : World) : Prop where
  exchanges : Verifies p card w log w'
  last : lastPinAnswer log = none
  marks : KeepsMarks w.link w'.link

theorem Unanswered.refl (w : World) : Unanswered p card [] w w := ⟨.done, rfl, Or.inl ⟨rfl, rfl⟩⟩

inductive VerifyEnds (p : LinkPrimitives) (card : Card) (reference : UInt8) (data : Bytes)
    (w w' : World) : Except Result Nat → Prop where
  | failed {e : Result} {log : List (UInt8 × LinkReply)} : Unanswered p card log w w' →
      VerifyEnds p card reference data w w' (.error e)
  | answered {reply : LinkReply} : Verifies p card w [(reference, reply)] w' →
      reply.accepted = true →
      CardAnswered p card (verifyCommand reference data) w.sent w'.sent reply.response.sw →
      w'.link.pinVerified = w.link.pinVerified → w'.link.smLost = w.link.smLost →
      VerifyEnds p card reference data w w' (.ok reply.response.sw)

theorem verifySend_ends {outcome : Except Result Nat} (short : data.length ≤ 8)
    (run : verifySend p card w reference data memory = (outcome, w')) :
    Transmits p reference data w w' ∧ VerifyEnds p card reference data w w' outcome := by
  unfold verifySend at run
  split at run
  · cases run
    exact ⟨.silent rfl, .failed (.refl w)⟩
  · rename_i channel held
    have ready : w.link.channel.isSome = true := Option.isSome_of_mem held
    have exchanged := @linkTransceive_ready p card w channel memory.bytes
      (verifyCommand reference data) true ready
    obtain ⟨main, gets, sent, exchanges⟩ := @linkTransceive_exchanges p card w channel
      memory.bytes (verifyCommand reference data) true short rfl
    generalize transceived : linkTransceive p card w channel true
      (verifyCommand reference data) memory.bytes = result at run exchanged sent
    obtain ⟨reply, after⟩ := result
    have marks := exchanged.marks
    have answered (completed : reply.result = .ok) := linkTransceive_answered transceived completed
    have verifies : Verifies p card w [(reference, reply)] after :=
      .send .done held transceived rfl answered
    have unaccepted (rejected : reply.accepted = false) :
        lastPinAnswer [(reference, reply)] = none := by
      rw [lastPinAnswer_single, rejected, Bool.and_false]
      rfl
    dsimp only at run
    split at run
    · rename_i failed
      cases run
      have rejected : reply.accepted = false := by simp [LinkReply.accepted, failed]
      exact ⟨⟨main, gets, sent, exchanges⟩, .failed ⟨verifies, unaccepted rejected, marks.1⟩⟩
    split at run
    · rename_i data
      cases run
      have rejected : reply.accepted = false := by simp [LinkReply.accepted, data]
      exact ⟨⟨main, gets, sent, exchanges⟩,
        .failed ⟨verifies.relink rfl, unaccepted rejected, marks.1⟩⟩
    · rename_i completed empty
      cases run
      have completed := not_not.mp completed
      obtain ⟨pin, lost⟩ := marks.2 completed
      have accepted : reply.accepted = true := by
        simp [LinkReply.accepted, completed, not_not.mp empty]
      exact ⟨⟨main, gets, sent, exchanges⟩,
        .answered verifies accepted (answered completed) pin lost⟩

theorem statusMeaning_retries {sw retries : Nat} {kind : CommandKind} {application : Application}
    {meaning : StatusMeaning}
    (stated : statusMeaning twic sw kind application = (meaning, some retries)) :
    sw = 0x63c0 + retries ∧ retries ≤ 15 := by
  have later {c : Prop} [Decidable c] {first : StatusMeaning} {others : StatusMeaning × Option Nat}
      (whole : (if c then (first, none) else others) = (meaning, some retries)) :
      others = (meaning, some retries) := by
    split at whole
    · cases whole
    · exact whole
  unfold statusMeaning at stated
  iterate 13 replace stated := later stated
  split at stated
  · unfold verifyMeaning at stated
    split at stated
    · cases stated
    split at stated
    · cases stated
      omega
    · cases stated
  · cases stated

variable {status : ReferenceStatus} {sw : Nat}

theorem queryResult_retries {link : Link}
    (outcome : (queryResult twic link reference sw).1 = .ok status)
    (known : status.retriesKnown = true) : sw = 0x63c0 + status.retries ∧ status.retries ≤ 15 := by
  unfold queryResult at outcome
  rcases stated : statusMeaning twic sw .verify link.application with ⟨meaning, written⟩
  rw [stated] at outcome
  dsimp only at outcome
  split at outcome
  · cases outcome
    cases known
  split at outcome
  · cases outcome
  split at outcome
  · rename_i within
    cases outcome
    cases written with
    | none => exact absurd within (by decide)
    | some retries => exact statusMeaning_retries stated
  · cases outcome
    cases known

theorem queryResult_link (link : Link) (sw : Nat) :
    (queryResult twic link reference sw).2 = pinStatusRecord link reference sw := by
  unfold queryResult
  dsimp only
  split
  · rfl
  split
  · rfl
  split <;> rfl

theorem pinStatusRecord_marks (link : Link) (sw : Nat) :
    (pinStatusRecord link reference sw).pinVerified =
        (if pinReference reference then decide (sw = 0x9000) else link.pinVerified) ∧
      (pinStatusRecord link reference sw).smLost = link.smLost := by
  unfold pinStatusRecord
  cases pinReference reference with
  | false => exact ⟨rfl, rfl⟩
  | true => by_cases success : sw = 0x9000 <;> simp [success]

/-- The card's answer for a reference was accepted and recorded. -/
structure Recorded (p : LinkPrimitives) (card : Card) (reference : UInt8) (sw : Nat)
    (log : List (UInt8 × LinkReply)) (w w' : World) : Prop where
  exchanges : Verifies p card w log w'
  last : lastPinAnswer log = if pinReference reference then some sw else none
  mark : w'.link.pinVerified =
    if pinReference reference then decide (sw = 0x9000) else w.link.pinVerified
  lost : w'.link.smLost = w.link.smLost

theorem VerifyEnds.recorded (ends : VerifyEnds p card reference data w w' (.ok sw)) :
    ∃ log, Recorded p card reference sw log w
      (w'.withLink (pinStatusRecord w'.link reference sw)) := by
  cases ends with
  | @answered reply exchanges accepted _ pin lost =>
    obtain ⟨mark, kept⟩ := @pinStatusRecord_marks reference w'.link reply.response.sw
    refine ⟨_, exchanges.relink rfl, ?_, by rw [← pin]; exact mark, kept.trans lost⟩
    rw [lastPinAnswer_single, accepted, Bool.and_true]

variable {outcome : Except Result ReferenceStatus}

theorem referenceQuery_ends
    (run : referenceQuery p card twic interface w reference memory = (outcome, w')) :
    Transmits p reference [] w w' ∧
      ((∃ e, outcome = .error e) ∧ (∃ log, Unanswered p card log w w') ∨
        ∃ sw link, (∃ log, Recorded p card reference sw log w w') ∧
          CardAnswered p card (verifyCommand reference []) w.sent w'.sent sw ∧
          outcome = (queryResult twic link reference sw).1) := by
  unfold referenceQuery at run
  split at run
  · generalize sent : verifySend p card w reference [] memory = result at run
    obtain ⟨answer, middle⟩ := result
    obtain ⟨transmits, ends⟩ := verifySend_ends (by decide) sent
    cases answer with
    | error e =>
      cases run
      cases ends with
      | failed unanswered => exact ⟨transmits, Or.inl ⟨⟨e, rfl⟩, _, unanswered⟩⟩
    | ok sw =>
      have recorded := ends.recorded
      cases ends with
      | @answered reply _ _ answered _ _ =>
        have link := @queryResult_link twic reference middle.link reply.response.sw
        dsimp only at run
        rw [← link] at recorded
        cases run
        exact ⟨transmits, Or.inr ⟨_, middle.link, recorded, answered, rfl⟩⟩
  · cases run
    exact ⟨.silent rfl, Or.inl ⟨⟨_, rfl⟩, [], .refl w⟩⟩

variable {pin : Bytes}

theorem paddedDigits_length (valid : digitsValid pin 6 = true) : (paddedDigits pin).length ≤ 8 := by
  unfold digitsValid at valid
  split at valid
  · cases valid
  · rename_i sizes
    rw [paddedDigits, List.length_append, List.length_replicate]
    simp only [Bool.or_eq_true, decide_eq_true_eq, not_or, not_lt] at sizes
    omega

theorem pinSubmit_ends (valid : digitsValid pin 6 = true)
    (run : pinSubmit p card w reference pin memory status = (outcome, w')) :
    Transmits p reference (paddedDigits pin) w w' ∧
      ∃ log, Unanswered p card log w w' ∨ ∃ sw, Recorded p card reference sw log w w' := by
  unfold pinSubmit at run
  generalize sent : verifySend p card w reference (paddedDigits pin) memory = result at run
  obtain ⟨answer, middle⟩ := result
  obtain ⟨transmits, ends⟩ := verifySend_ends (paddedDigits_length valid) sent
  cases answer with
  | error e =>
    cases run
    cases ends with
    | failed unanswered => exact ⟨transmits, _, Or.inl unanswered⟩
  | ok sw =>
    obtain ⟨log, recorded⟩ := ends.recorded
    dsimp only at run
    split at run
    · cases run
      exact ⟨transmits, log, Or.inr ⟨sw, recorded⟩⟩
    · cases run
      exact ⟨transmits, log, Or.inr ⟨sw, recorded⟩⟩

theorem queryResult_verified {link : Link}
    (outcome : (queryResult twic link reference sw).1 = .ok status)
    (known : status.retriesKnown = true) : sw ≠ 0x9000 := by
  have stated := queryResult_retries outcome known
  omega

/-- The steps of `TC_PIV_pin_verify`: nothing, a query, or a query and a submission. -/
inductive PinSteps (p : LinkPrimitives) (card : Card) (twic : Bool) (interface : Interface)
    (reference : UInt8) (pin : Bytes) (minimumRetries : Nat) (w : World) :
    World → Prop where
  | refused : PinSteps p card twic interface reference pin minimumRetries w w
  | queried {w' : World} {memory : AnswerBytes} {outcome : Except Result ReferenceStatus} :
      pinReference reference = true →
      referenceQuery p card twic interface w reference memory = (outcome, w') →
      PinSteps p card twic interface reference pin minimumRetries w w'
  | submitted {middle w' : World} {memory memory' : AnswerBytes} {status : ReferenceStatus}
      {outcome : Except Result ReferenceStatus} :
      pinReference reference = true → digitsValid pin 6 = true → retriesFloor ≤ minimumRetries →
      referenceQuery p card twic interface w reference memory = (.ok status, middle) →
      status.retriesKnown = true → minimumRetries ≤ status.retries →
      pinSubmit p card middle reference pin memory' status = (outcome, w') →
      PinSteps p card twic interface reference pin minimumRetries w w'

theorem pinVerify_steps (arguments : Bool) (pin : Bytes) (minimumRetries : Nat)
    (queried submitted : AnswerBytes) (out : ReferenceStatus) :
    PinSteps p card twic interface reference pin minimumRetries w
      (pinVerify p card twic interface w arguments reference pin minimumRetries queried submitted
        out).after := by
  unfold pinVerify
  split
  · exact .refused
  rename_i checked
  simp only [Bool.or_eq_true, Bool.not_eq_true', decide_eq_true_eq, not_or, Bool.not_eq_false,
    not_lt] at checked
  obtain ⟨⟨⟨⟨_, named⟩, valid⟩, floor⟩, _⟩ := checked
  split
  · rename_i run
    exact .queried named run
  rename_i status middle run
  split
  · exact .queried named run
  split
  · exact .queried named run
  rename_i sufficient
  simp only [Bool.or_eq_true, Bool.not_eq_true', decide_eq_true_eq, not_or, Bool.not_eq_false,
    not_lt] at sufficient
  split
  · rename_i submission
    exact .submitted named valid floor run sufficient.1 sufficient.2 submission
  · rename_i submission
    exact .submitted named valid floor run sufficient.1 sufficient.2 submission

variable {minimumRetries : Nat}

theorem PinSteps.bounded (steps : PinSteps p card twic interface reference pin minimumRetries w w') :
    PinBounded p card reference pin minimumRetries w w' := by
  have quiet (query gets : List Bytes) (sent : w'.sent = gets ++ query ++ w.sent)
      (exchanges : Exchanges p (verifyCommand reference []) query gets) :
      PinBounded p card reference pin minimumRetries w w' :=
    ⟨query, gets, [], [], sent, exchanges, ⟨Nat.zero_le 1, nofun, nofun⟩, fun sent => absurd rfl sent⟩
  cases steps with
  | refused => exact quiet [] [] rfl ⟨Nat.zero_le 1, nofun, nofun⟩
  | queried _ run =>
    obtain ⟨⟨query, gets, sent, exchanges⟩, _⟩ := referenceQuery_ends run
    exact quiet query gets sent exchanges
  | @submitted middle _ _ _ status _ _ valid floor run known sufficient submission =>
    obtain ⟨⟨query, queryGets, sent, exchanges⟩, ends⟩ := referenceQuery_ends run
    obtain ⟨⟨main, gets, sent', exchanges'⟩, _⟩ := pinSubmit_ends valid submission
    rw [sent] at sent'
    refine ⟨query, queryGets, main, gets, sent', exchanges, exchanges', fun _ => ?_⟩
    rcases ends with ⟨⟨e, failed⟩, _⟩ | ⟨sw, link, _, answered, outcome⟩
    · cases failed
    · obtain ⟨stated, most⟩ := queryResult_retries outcome.symm known
      rw [stated, sent] at answered
      exact ⟨status.retries, floor, sufficient, most, answered⟩

/-- The PIN mark after the exchanges of a log: that of the last accepted PIN answer, or the old
    one without such an answer, and in both cases unset by a lost session. -/
structure Tracked (p : LinkPrimitives) (card : Card) (log : List (UInt8 × LinkReply))
    (w w' : World) : Prop where
  exchanges : Verifies p card w log w'
  sound : ∀ sw, lastPinAnswer log = some sw → w'.link.pinVerified = true → sw = 0x9000
  complete : ∀ sw, lastPinAnswer log = some sw → sw = 0x9000 →
    w'.link.pinVerified = true ∨ w'.link.smLost = true
  unset : lastPinAnswer log = none → w'.link.pinVerified = true → w.link.pinVerified = true
  kept : lastPinAnswer log = none → w.link.pinVerified = true →
    w'.link.pinVerified = true ∨ w'.link.smLost = true
  lost : w.link.smLost = true → w'.link.smLost = true

variable {log : List (UInt8 × LinkReply)}

theorem Unanswered.tracked (unanswered : Unanswered p card log w w') : Tracked p card log w w' := by
  obtain ⟨exchanges, last, ⟨pin, lost⟩ | ⟨pin, lost⟩⟩ := unanswered
  · refine ⟨exchanges, ?_, ?_, fun _ set => pin ▸ set, fun _ set => .inl (pin ▸ set),
      fun before => lost ▸ before⟩ <;> simp [last]
  · refine ⟨exchanges, ?_, ?_, fun _ set => ?_, fun _ _ => .inr lost, fun _ => lost⟩
    · simp [last]
    · simp [last]
    · rw [pin] at set
      cases set

theorem Recorded.tracked (recorded : Recorded p card reference sw log w w') :
    Tracked p card log w w' := by
  obtain ⟨exchanges, last, mark, lost⟩ := recorded
  refine ⟨exchanges, ?_, ?_, ?_, ?_, fun before => lost ▸ before⟩ <;>
    rw [last, mark] <;> cases pinReference reference <;> simp +contextual

theorem Tracked.trans {log' : List (UInt8 × LinkReply)} {w'' : World}
    (first : Tracked p card log w w') (second : Tracked p card log' w' w'') :
    Tracked p card (log' ++ log) w w'' := by
  refine ⟨first.exchanges.trans second.exchanges, ?_, ?_, ?_, ?_,
    fun before => second.lost (first.lost before)⟩ <;> rw [lastPinAnswer_append] <;>
    cases last : lastPinAnswer log' with
  | some sw =>
    have sound := second.sound sw last
    have complete := second.complete sw last
    simp_all
  | none =>
    have unset := second.unset last
    have kept := second.kept last
    have sound := first.sound
    have complete := first.complete
    have unset' := first.unset
    have kept' := first.kept
    have lost := second.lost
    grind

def Exact (log : List (UInt8 × LinkReply)) (w' : World) : Prop :=
  ∀ sw, lastPinAnswer log = some sw → (w'.link.pinVerified = true ↔ sw = 0x9000)

theorem Unanswered.exact (unanswered : Unanswered p card log w w') : Exact log w' := by
  intro sw same
  rw [unanswered.last] at same
  cases same

theorem Recorded.exact (recorded : Recorded p card reference sw log w w') : Exact log w' := by
  intro last named
  rw [recorded.last] at named
  rw [recorded.mark]
  split at named
  · rename_i pin
    cases named
    rw [if_pos pin, decide_eq_true_eq]
  · cases named

theorem referenceQuery_tracked
    (run : referenceQuery p card twic interface w reference memory = (outcome, w')) :
    ∃ log, Tracked p card log w w' ∧ Exact log w' := by
  rcases (referenceQuery_ends run).2 with ⟨_, log, unanswered⟩ | ⟨_, _, ⟨log, recorded⟩, _⟩
  · exact ⟨log, unanswered.tracked, unanswered.exact⟩
  · exact ⟨log, recorded.tracked, recorded.exact⟩

theorem PinSteps.tracked (steps : PinSteps p card twic interface reference pin minimumRetries w w') :
    ∃ log, Tracked p card log w w' ∧ Exact log w' := by
  cases steps with
  | refused =>
    have silent : Unanswered p card [] w w := .refl w
    exact ⟨[], silent.tracked, silent.exact⟩
  | queried _ run => exact referenceQuery_tracked run
  | @submitted middle _ _ _ status _ named valid _ run known _ submission =>
    rcases (referenceQuery_ends run).2 with
      ⟨⟨e, failed⟩, _⟩ | ⟨sw, link, ⟨log, recorded⟩, _, outcome⟩
    · cases failed
    obtain ⟨-, log', unanswered | ⟨sw', recorded'⟩⟩ := pinSubmit_ends valid submission
    · have other := queryResult_verified outcome.symm known
      refine ⟨log' ++ log, recorded.tracked.trans unanswered.tracked, fun last same => ?_⟩
      rw [lastPinAnswer_append, unanswered.last, recorded.last, if_pos named] at same
      cases same
      have unmarked : middle.link.pinVerified = false := by
        rw [recorded.mark, if_pos named]
        exact decide_eq_false other
      have still : w'.link.pinVerified = false := by
        rcases unanswered.marks with ⟨pin, _⟩ | ⟨pin, _⟩
        · exact pin.trans unmarked
        · exact pin
      rw [still]
      exact iff_of_false (by simp) other
    · refine ⟨log' ++ log, recorded.tracked.trans recorded'.tracked,
        fun last same => recorded'.exact last ?_⟩
      rw [lastPinAnswer_append, recorded'.last, if_pos named] at same
      rw [recorded'.last, if_pos named]
      exact same

theorem verifyStatus_tracked (arguments : Bool) (out : ReferenceStatus) :
    ∃ log, Tracked p card log w
        (verifyStatus p card twic interface w arguments reference memory out).after ∧
      Exact log (verifyStatus p card twic interface w arguments reference memory out).after := by
  have silent : ∃ log, Tracked p card log w w ∧ Exact log w :=
    have refused : Unanswered p card [] w w := .refl w
    ⟨[], refused.tracked, refused.exact⟩
  unfold verifyStatus
  split
  · exact silent
  split
  · exact silent
  split
  · exact silent
  split
  · rename_i run
    exact referenceQuery_tracked run
  · rename_i run
    exact referenceQuery_tracked run

theorem step_tracked (call : VerifyCall) :
    ∃ log, Tracked p card log w (verifyStep p card twic interface w call).after ∧
      Exact log (verifyStep p card twic interface w call).after := by
  cases call with
  | status arguments reference memory out => exact verifyStatus_tracked arguments out
  | verify arguments reference pin minimumRetries queried submitted out =>
    exact (pinVerify_steps arguments pin minimumRetries queried submitted out).tracked

theorem run_tracked (calls : List VerifyCall) (w : World) :
    ∃ log, Tracked p card log w (verifyRun p card twic interface w calls) := by
  induction calls generalizing w with
  | nil => exact ⟨[], (Unanswered.refl w).tracked⟩
  | cons call calls ih =>
    obtain ⟨log, first, _⟩ := @step_tracked p card twic interface w call
    obtain ⟨log', others⟩ := ih (verifyStep p card twic interface w call).after
    exact ⟨log' ++ log, first.trans others⟩

theorem pinVerify_contactless {arguments : Bool} {queried submitted : AnswerBytes}
    {out : ReferenceStatus} (closed : ¬(w.link.secured = true ∧ w.link.vci = true)) :
    (pinVerify p card twic .contactless w arguments reference pin minimumRetries queried submitted
      out).after = w := by
  unfold pinVerify
  split
  · rfl
  rename_i checked
  simp only [Bool.or_eq_true, Bool.not_eq_true', decide_eq_true_eq, not_or, Bool.not_eq_false,
    not_lt] at checked
  have refused : verifyAllowed .contactless w.link reference ≠ .ok := by
    unfold verifyAllowed
    rw [checked.1.1.1.2]
    grind
  unfold referenceQuery
  generalize allowed : verifyAllowed .contactless w.link reference = outcome at refused
  cases outcome <;> first | exact absurd rfl refused | rfl

/-- The caller's `*out` before a call. -/
def VerifyCall.out : VerifyCall → ReferenceStatus
  | .status _ _ _ out => out
  | .verify _ _ _ _ _ _ out => out

theorem step_out (call : VerifyCall)
    (failed : (verifyStep p card twic interface w call).result ≠ .ok) :
    (verifyStep p card twic interface w call).out = call.out := by
  cases call with
  | status arguments reference memory out =>
    unfold verifyStep verifyStatus at failed ⊢
    grind [VerifyCall.out]
  | verify arguments reference pin minimumRetries queried submitted out =>
    unfold verifyStep pinVerify at failed ⊢
    grind [VerifyCall.out]

/-- Every call bounds the PIN, and is silent on a contactless link without a secured VCI. In
    every run the PIN mark is that of the last answer for a PIN that the link accepted, except
    that a lost session clears it, and `*out` is written only with OK. -/
theorem pin_submission (p : LinkPrimitives) (card : Card) (twic : Bool) (interface : Interface) :
    (∀ (w : World) arguments reference pin minimumRetries queried submitted out,
      PinBounded p card reference pin minimumRetries w
        (pinVerify p card twic interface w arguments reference pin minimumRetries queried submitted
          out).after) ∧ (∀ (w : World) arguments reference pin minimumRetries queried submitted out,
      ¬(w.link.secured = true ∧ w.link.vci = true) →
        (pinVerify p card twic .contactless w arguments reference pin minimumRetries queried
          submitted out).after.sent = w.sent) ∧
    (∀ (w : World) (calls : List VerifyCall) (call : VerifyCall),
      let before := verifyRun p card twic interface w calls
      let after := (verifyStep p card twic interface before call).after
      ∃ log, Verifies p card before log after ∧
        ∀ sw, lastPinAnswer log = some sw → (after.link.pinVerified = true ↔ sw = 0x9000)) ∧
    (∀ (w : World) (calls : List VerifyCall),
      ∃ log, Tracked p card log w (verifyRun p card twic interface w calls)) ∧
    ∀ (w : World) (call : VerifyCall), (verifyStep p card twic interface w call).result ≠ .ok →
        (verifyStep p card twic interface w call).out = call.out := by
  refine ⟨fun w arguments reference pin minimumRetries queried submitted out => ?_, ?_, ?_, ?_, ?_⟩
  · exact (pinVerify_steps arguments pin minimumRetries queried submitted out).bounded
  · intro w arguments reference pin minimumRetries queried submitted out closed
    rw [pinVerify_contactless closed]
  · intro w calls call before after
    obtain ⟨log, tracked, exact⟩ := @step_tracked p card twic interface before call
    exact ⟨log, tracked.exchanges, exact⟩
  · exact fun w calls => run_tracked calls w
  · exact fun w call failed => step_out call failed

def pivLink : Link :=
  { Link.zero with channel := channelInit ⟨.short, false, 20, 0, 0⟩ 300, application := .piv }

def pinQuery : VerifyCall := .status true 0x80 ⟨List.replicate 16 0, rfl⟩ ⟨0, false, false, false⟩

/-- 9000 and then, with a byte of data, 63C0. -/
def talkativeCard : Card := fun sent _ =>
  if sent.length = 1 then ⟨true, [0x90, 0x00], 2⟩ else ⟨true, [0xaa, 0x63, 0xc0], 3⟩

/-- An answer that the link does not accept leaves the PIN mark. -/
theorem unaccepted_answer_keeps_mark : ¬ ∀ (card : Card) (queries : Nat) (answer : Response),
      let w := verifyRun plainLink card false .contact ⟨pivLink, []⟩
        (List.replicate queries pinQuery)
      w.sent ≠ [] → Apdu.responseRead (card w.sent 16).written = .ok answer →
        (w.link.pinVerified = true ↔ answer.sw = 0x9000) := by
  intro follows
  have marked := (follows talkativeCard 2 ⟨[0xaa], 0x63c0⟩ (by decide) (by decide)).mp (by decide)
  exact absurd marked (by decide)

end TinyCrypto.Piv
