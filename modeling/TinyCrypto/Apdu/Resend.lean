import TinyCrypto.Apdu.Transceive

/-! # What is sent twice

A transcript falls into attempts: one for the command or its last fragment and
one for each GET RESPONSE. An attempt is one transmit, or two when the card
corrected the Le of the first.
-/

namespace TinyCrypto.Apdu

open Library Library.Program

/-- The card answers with the status `sw`, which is 6CXX, and no data. -/
def Exchange.Corrects (x : Exchange) (sw : Nat) : Prop := x.Says ⟨[], sw⟩ ∧ sw / 256 = 0x6c

/-- The transmits of one step: none when it was refused, one, or two when it may
    be sent again and was answered 6CXX; the second has the Le of that SW2. -/
inductive Attempts (resendable : Prop) (step : Command) : List Exchange → Prop
  | refused : Attempts resendable step []
  | once {x : Exchange} (same : x.step = step) : Attempts resendable step [x]
  | twice {x again : Exchange} {sw : Nat} (allowed : resendable) (same : x.step = step)
      (corrects : x.Corrects sw) (corrected : again.step = { step with ne := statedNe sw }) :
      Attempts resendable step [x, again]

def Resendable (format : Format) (command : Command) : Prop :=
  ¬ Chained format command ∧ command.sm = false ∧ command.ne ≠ 0

/-- The GET RESPONSE steps that follow `before`: each asks for the SW2 of a 61XX
    answer to the transmit just before it. -/
def Responses (channel : Channel) (cla : UInt8) (sm : Bool) :
    (before : List Exchange) → (gets : List (List Exchange)) → Prop
  | _, [] => True
  | before, group :: gets =>
    (∃ x answer, before.getLast? = some x ∧ x.Says answer ∧ answer.sw / 256 = 0x61 ∧
      Attempts (sm = false) (getResponse channel cla (answer.sw % 256)) group) ∧
    Responses channel cla sm group gets

/-- The attempts of a call: the fragments before the last, each once and in order,
    the command or its last fragment, and the GET RESPONSE steps. -/
structure Sequence (channel : Channel) (format : Format) (command : Command)
    (fragments main : List Exchange) (gets : List (List Exchange)) : Prop where
  chain : Fragments command 0 fragments
  few : fragments.length ≤ fragmentCount command
  unchained : ¬ Chained format command → fragments = []
  last : Attempts (Resendable format command)
    (lastStep channel command (shortMaxNc * fragments.length)) main
  whole : main ≠ [] → Chained format command → fragments.length = fragmentCount command
  responses : Responses channel command.cla command.sm main gets

variable {card : Card} {sizeMax : Nat} {format : Format} {channel : Channel} {sent : List Bytes}
  {command : Command} {buffer : Bytes}

theorem responseNe_le (channel : Channel) (ne : Nat) : responseNe channel ne ≤ ne := by
  unfold responseNe
  split
  · rename_i above
    simp only [Bool.and_eq_true, decide_eq_true_eq] at above
    omega
  · exact Nat.le_refl ne

variable {step : Command} {group : List Exchange}

theorem Attempts.mono {first second : Prop} (attempts : Attempts first step group)
    (wider : first → second) : Attempts second step group := by
  cases attempts with
  | refused => exact .refused
  | once same => exact .once same
  | twice allowed same corrects corrected => exact .twice (wider allowed) same corrects corrected

variable {trace : List Exchange}

variable {cla : UInt8} {sm : Bool} {before : List Exchange} {gets : List (List Exchange)}

theorem Responses.cons (responses : Responses channel cla sm before gets) (x : Exchange) :
    Responses channel cla sm (x :: before) gets := by
  cases gets with
  | nil => trivial
  | cons group gets =>
    obtain ⟨⟨last, answer, ended, asked⟩, later⟩ := responses
    exact ⟨⟨last, answer, by rw [List.getLast?_cons, ended]; rfl, asked⟩, later⟩

theorem Responses.attempts (responses : Responses channel cla sm before gets) :
    ∀ later ∈ gets, ∃ sw2, Attempts (sm = false) (getResponse channel cla sw2) later := by
  induction gets generalizing before with
  | nil => exact fun _ member => absurd member List.not_mem_nil
  | cons group gets ih =>
    obtain ⟨⟨_, answer, _, _, _, attempts⟩, rest⟩ := responses
    intro later member
    rcases List.mem_cons.mp member with rfl | member
    · exact ⟨answer.sw % 256, attempts⟩
    · exact ih rest later member

theorem Collected.attempts {c : Collect} {out : Option Response}
    (collected : Collected channel cla sm c trace out) :
    ∃ group gets, trace = group ++ List.flatten gets ∧
      Attempts (c.correctable = true ∧ c.corrected = false) c.step group ∧
      Responses channel cla sm group gets := by
  induction collected with
  | refused => exact ⟨[], [], rfl, .refused, trivial⟩
  | @failed c x same => exact ⟨[x], [], rfl, .once same, trivial⟩
  | @ended c x answer same read within last => exact ⟨[x], [], rfl, .once same, trivial⟩
  | @again c x answer rest out same read wrong correctable first later ih =>
    obtain ⟨group, gets, rfl, attempts, others⟩ := ih
    have empty := responseRead_wrongLe read.2 wrong
    have corrects : x.Corrects answer.sw := by
      refine ⟨?_, wrong⟩
      rw [← empty]
      exact read
    refine ⟨x :: group, gets, rfl, ?_, others.cons x⟩
    cases attempts with
    | refused => exact .once same
    | once same' => exact .twice ⟨correctable, first⟩ same corrects same'
    | twice allowed => exact absurd allowed.2 (by simp [Collect.correct])
  | @more c x answer rest out same read within more later ih =>
    obtain ⟨group, gets, rfl, attempts, others⟩ := ih
    refine ⟨[x], group :: gets, rfl, .once same,
      ⟨x, answer, rfl, read, more, attempts.mono ?_⟩, others⟩
    rintro ⟨allowed, _⟩
    simpa [Collect.getResponse] using allowed

theorem start_resendable {chained : Bool}
    (allowed : (Collect.start step chained).correctable = true) :
    chained = false ∧ step.sm = false ∧ step.ne ≠ 0 := by
  simpa [Collect.start, and_assoc] using allowed

theorem lastStep_resendable {offset : Nat} {chained : Bool}
    (allowed : (Collect.start (lastStep channel command offset) chained).correctable = true)
    (whole : chained = false → ¬ Chained format command) : Resendable format command := by
  obtain ⟨unchained, plain, le⟩ := start_resendable allowed
  refine ⟨whole unchained, plain, ?_⟩
  intro zero
  have bound := responseNe_le channel command.ne
  change responseNe channel command.ne ≠ 0 at le
  omega

theorem Transcript.sequence {out : Option Response}
    (transcript : Transcript channel format command trace out) :
    ∃ fragments main gets, trace = fragments ++ main ++ List.flatten gets ∧
      Sequence channel format command fragments main gets := by
  cases transcript with
  | whole unchained collected =>
    obtain ⟨main, gets, rfl, attempts, others⟩ := collected.attempts
    refine ⟨[], main, gets, rfl, trivial, Nat.zero_le _, fun _ => rfl, attempts.mono ?_,
      fun _ chained => absurd chained unchained, others⟩
    rintro ⟨allowed, _⟩
    exact lastStep_resendable allowed fun _ => unchained
  | broken chained fragments few =>
    exact ⟨trace, [], [], by simp, fragments, few, fun unchained => absurd chained unchained,
      .refused, fun full => absurd rfl full, trivial⟩
  | @refused before x sw chained fragments few read =>
    refine ⟨before ++ [x], [], [], by simp, fragments, ?_,
      fun unchained => absurd chained unchained, .refused, fun full => absurd rfl full,
      trivial⟩
    rw [List.length_append]
    exact few
  | @chain first rest _ chained fragments all collected =>
    obtain ⟨main, gets, rfl, attempts, others⟩ := collected.attempts
    refine ⟨first, main, gets, by simp, fragments, Nat.le_of_eq all,
      fun unchained => absurd chained unchained, ?_, fun _ _ => all, others⟩
    rw [all]
    refine attempts.mono ?_
    rintro ⟨allowed, _⟩
    exact absurd (start_resendable allowed).1 (by simp)

theorem transceiveFormat_sequence (card : Card) (sizeMax : Nat) (format : Format)
    (channel : Channel) (sent : List Bytes) (command : Command) (buffer : Bytes) :
    ∃ fragments main gets, Sequence channel format command fragments main gets ∧
      Made card sizeMax format channel sent buffer (fragments ++ main ++ List.flatten gets)
        (transceiveFormat card sizeMax format channel sent command buffer) := by
  by_cases started : transceiveCheck sizeMax format command buffer.length = .ok ∧
      channel.stopped = false
  · obtain ⟨trace, out, transcript, made, -⟩ :=
      @transceiveFormat_traced card sizeMax format channel sent command buffer started.1 started.2
    obtain ⟨fragments, main, gets, rfl, sequence⟩ := transcript.sequence
    exact ⟨fragments, main, gets, sequence, made⟩
  · have refused : transceiveCheck sizeMax format command buffer.length ≠ .ok ∨
        channel.stopped = true := by
      by_contra both
      simp only [not_or, not_not, Bool.not_eq_true] at both
      exact started both
    obtain ⟨-, -, kept, silent⟩ :=
      @transceiveFormat_refused card sizeMax format channel sent command buffer refused
    exact ⟨[], [], [], ⟨trivial, Nat.zero_le _, fun _ => rfl, .refused, fun full => absurd rfl full,
      trivial⟩, silent, trivial, by rw [kept]; rfl⟩

/-- Every call is such a sequence: it spends one exchange for each transmit, and
    nothing is sent again but a step that the card corrected. -/
theorem transceive_resends_only_corrected (card : Card) (sizeMax : Nat) (format : Format)
    (channel : Channel) (sent : List Bytes) (command : Command) (buffer : Bytes) :
    let call := transceiveFormat card sizeMax format channel sent command buffer
    ∃ fragments main gets, Sequence channel format command fragments main gets ∧
      Made card sizeMax format channel sent buffer (fragments ++ main ++ List.flatten gets) call ∧
      (fragments ++ main ++ List.flatten gets).length ≤ channel.exchangesLeft := by
  intro call
  obtain ⟨fragments, main, gets, sequence, made⟩ :=
    transceiveFormat_sequence card sizeMax format channel sent command buffer
  refine ⟨fragments, main, gets, sequence, made, ?_⟩
  have budget := made.budget
  omega

def GetsResponse (bytes : Bytes) : Prop := ∃ step form, IsGetResponse step ∧ bytes = write step form

def AnsweredLast (card : Card) (sizeMax : Nat) (format : Format) (channel : Channel)
    (sent : List Bytes) (buffer : Bytes) (call : Transceived) (sw : Nat) : Prop :=
  ∃ before x answer, Made card sizeMax format channel sent buffer (before ++ [x]) call ∧
    x.Says answer ∧ answer.sw = sw

variable {resendable : Prop}

theorem Attempts.steps (attempts : Attempts resendable step group) :
    ∀ x ∈ group, ∃ ne, x.step = { step with ne := ne } := by
  intro x member
  cases attempts with
  | refused => cases member
  | once same =>
    obtain rfl := List.mem_singleton.mp member
    exact ⟨step.ne, same⟩
  | @twice first again sw _ same _ corrected =>
    rcases List.mem_pair.mp member with rfl | rfl
    · exact ⟨step.ne, same⟩
    · exact ⟨_, corrected⟩

theorem genuine_encoded {capacity : Nat} (genuine : Genuine card sizeMax format capacity sent trace) :
    ∀ x ∈ trace, ∃ form, x.bytes = write x.step form := by
  induction trace generalizing sent with
  | nil => nofun
  | cons y others ih =>
    intro x member
    rcases List.mem_cons.mp member with rfl | member
    · obtain ⟨form, _, same⟩ := genuine.1.encoded
      exact ⟨form, same⟩
    · exact ih genuine.2 x member

theorem transceiveFormat_once (unchained : ¬ Chained format command)
    (once : ¬ Resendable format command) :
    ∃ main gets, (transceiveFormat card sizeMax format channel sent command buffer).sent =
        gets ++ main ++ sent ∧
      main.length ≤ 1 ∧ (∀ bytes ∈ main, ∃ ne form, bytes = write { command with ne := ne } form) ∧
      ∀ bytes ∈ gets, GetsResponse bytes := by
  obtain ⟨fragments, main, gets, sequence, made⟩ :=
    transceiveFormat_sequence card sizeMax format channel sent command buffer
  have whole := sequence.unchained unchained
  subst whole
  have encoded := genuine_encoded made.genuine
  refine ⟨(main.map Exchange.bytes).reverse, (gets.flatten.map Exchange.bytes).reverse, ?_, ?_, ?_,
    ?_⟩
  · rw [made.bytes]
    simp
  · rw [List.length_reverse, List.length_map]
    cases sequence.last with
    | refused => exact Nat.zero_le 1
    | once => exact le_rfl
    | twice allowed => exact absurd allowed once
  · intro bytes member
    rw [List.mem_reverse, List.mem_map] at member
    obtain ⟨x, inside, rfl⟩ := member
    obtain ⟨form, same⟩ := encoded x (by simp [inside])
    obtain ⟨ne, step⟩ := sequence.last.steps x inside
    exact ⟨ne, form, by rw [same, step]; rfl⟩
  · intro bytes member
    rw [List.mem_reverse, List.mem_map] at member
    obtain ⟨x, inside, rfl⟩ := member
    obtain ⟨form, same⟩ := encoded x (by simp [inside])
    obtain ⟨group, listed, member⟩ := List.mem_flatten.mp inside
    obtain ⟨sw2, attempts⟩ := sequence.responses.attempts group listed
    obtain ⟨ne, step⟩ := attempts.steps x member
    exact ⟨x.step, form, by rw [step]; exact ⟨rfl, rfl, rfl, rfl⟩, same⟩

theorem transceiveFormat_answered
    (completed : (transceiveFormat card sizeMax format channel sent command buffer).result = .ok) :
    AnsweredLast card sizeMax format channel sent buffer
      (transceiveFormat card sizeMax format channel sent command buffer)
      (transceiveFormat card sizeMax format channel sent command buffer).response.sw := by
  by_cases started : transceiveCheck sizeMax format command buffer.length = .ok ∧
      channel.stopped = false
  · obtain ⟨trace, out, transcript, made, ended⟩ :=
      @transceiveFormat_traced card sizeMax format channel sent command buffer started.1 started.2
    cases out with
    | none => exact absurd completed (ended.failed rfl).1
    | some response =>
      obtain ⟨_, same, _⟩ := ended.delivered response rfl
      obtain ⟨fragments, collected, rfl, delivered⟩ := transcript.delivered
      obtain ⟨before, x, answer, split, read, status⟩ := delivered.status
      refine ⟨before, x, answer, ?_, read, ?_⟩
      · rw [← split]
        exact made
      · rw [same]
        exact status
  · refine absurd completed (transceiveFormat_refused ?_).1
    simp only [not_and, Bool.not_eq_false] at started
    by_cases checked : transceiveCheck sizeMax format command buffer.length = .ok
    · exact .inr (started checked)
    · exact .inl checked

def Exchange.Overstates (limit : Nat) (x : Exchange) : Prop :=
  ∃ sw, x.Corrects sw ∧ limit - statusBytes < statedNe sw

/-- The first transmit of a step that may be sent again is not overstated. -/
def Modest (limit : Nat) (resendable : Prop) (group : List Exchange) : Prop :=
  resendable → ∀ x ∈ group.head?, ¬ x.Overstates limit

variable {limit : Nat}

theorem responseNe_within (set : channel.maxResponseBytes = limit) (limited : limit ≠ 0) (ne : Nat) :
    responseNe channel ne ≤ limit - statusBytes := by
  unfold responseNe
  rw [set]
  split
  · exact Nat.le_refl _
  · rename_i below
    simp only [Bool.and_eq_true, decide_eq_true_eq, not_and, Nat.not_lt] at below
    exact below limited

theorem Attempts.within (attempts : Attempts resendable step group)
    (first : step.ne ≤ limit - statusBytes) (modest : Modest limit resendable group) :
    ∀ x ∈ group, x.step.ne ≤ limit - statusBytes := by
  cases attempts with
  | refused => simp
  | once same =>
    intro x member
    obtain rfl := List.mem_singleton.mp member
    rw [same]
    exact first
  | @twice x again sw allowed same corrects corrected =>
    have stated : statedNe sw ≤ limit - statusBytes := by
      by_contra above
      exact modest allowed x rfl ⟨sw, corrects, Nat.not_le.mp above⟩
    intro y member
    rcases List.mem_pair.mp member with rfl | rfl
    · rw [same]
      exact first
    · rw [corrected]
      exact stated

theorem Attempts.beyond {x again : Exchange} (attempts : Attempts resendable step [x, again])
    (overstates : x.Overstates limit) : limit - statusBytes < again.step.ne := by
  obtain ⟨stated, corrects', above⟩ := overstates
  cases attempts with
  | @twice _ _ sw allowed same corrects corrected =>
    have agree : sw = stated := by
      have both := corrects.1.2.symm.trans corrects'.1.2
      simpa using both
    rw [corrected, agree]
    exact above

theorem fragments_ne {offset : Nat} {fragments : List Exchange}
    (chain : Fragments command offset fragments) : ∀ x ∈ fragments, x.step.ne = 0 := by
  induction fragments generalizing offset with
  | nil => simp
  | cons y rest ih =>
    intro x member
    rcases List.mem_cons.mp member with rfl | member
    · rw [chain.1]
      rfl
    · exact ih chain.2 x member

/-- Every step stays within the card's response buffer as long as the card does
    not correct a step that may be sent again to more than that buffer holds; a
    step that is sent again after such an answer exceeds it. -/
theorem transceive_within_response_buffer (card : Card) (sizeMax : Nat) (format : Format)
    (channel : Channel) (sent : List Bytes) (command : Command) (buffer : Bytes) :
    let call := transceiveFormat card sizeMax format channel sent command buffer
    let limit := channel.maxResponseBytes
    ∃ fragments main gets, Sequence channel format command fragments main gets ∧
      Made card sizeMax format channel sent buffer (fragments ++ main ++ List.flatten gets) call ∧
      (limit ≠ 0 → Modest limit (Resendable format command) main →
        (∀ group ∈ gets, Modest limit (command.sm = false) group) →
        ∀ x ∈ fragments ++ main ++ List.flatten gets, x.step.ne ≤ limit - statusBytes) ∧
      ∀ x again, main = [x, again] ∨ [x, again] ∈ gets → x.Overstates limit →
        limit - statusBytes < again.step.ne := by
  intro call limit
  obtain ⟨fragments, main, gets, sequence, made⟩ :=
    transceiveFormat_sequence card sizeMax format channel sent command buffer
  refine ⟨fragments, main, gets, sequence, made, ?_, ?_⟩
  · intro limited modest modests x member
    simp only [List.mem_append, List.mem_flatten] at member
    rcases member with (member | member) | ⟨group, inside, member⟩
    · rw [fragments_ne sequence.chain x member]
      exact Nat.zero_le _
    · exact sequence.last.within (responseNe_within rfl limited _) modest x member
    · obtain ⟨sw2, attempts⟩ := sequence.responses.attempts group inside
      exact attempts.within (responseNe_within rfl limited _) (modests group inside) x member
  · rintro x again (rfl | inside) overstates
    · exact sequence.last.beyond overstates
    · obtain ⟨sw2, attempts⟩ := sequence.responses.attempts _ inside
      exact attempts.beyond overstates

/-- READ BINARY with Le 5 on a card that takes responses of 10 bytes: the answer
    6C20 makes the channel ask for 32 bytes. -/
theorem transceive_correction_exceeds_response_buffer :
    let channel : Channel := ⟨261, 4, 0, 10, false, .short, false⟩
    let command : Command := ⟨[], 5, 0, 0xb0, 0, 0⟩
    let card : Card := fun sent _ =>
      if sent.length = 1 then ⟨true, [0x6c, 0x20], 2⟩ else ⟨true, [0x90, 0x00], 2⟩
    let call := transceiveFormat card 1000 .short channel [] command (List.replicate 64 0)
    call.result = .ok ∧ call.sent = [[0, 0xb0, 0, 0, 32], [0, 0xb0, 0, 0, 5]] ∧
      channel.maxResponseBytes - statusBytes < 32 := by
  decide

end TinyCrypto.Apdu
