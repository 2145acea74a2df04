import TinyCrypto.Apdu.Resend

/-! # Command chaining

What a SHORT chain transmits, and why its preflight leaves no step of it to be
refused.
-/

namespace TinyCrypto.Apdu

open Library Library.Program

def SameBounds (w w' : Wire) : Prop := w'.channel.scratchCapacity = w.channel.scratchCapacity ∧
    w'.channel.maxCommandBytes = w.channel.maxCommandBytes ∧
    w'.channel.exchangesLeft ≤ w.channel.exchangesLeft

instance : Std.Refl SameBounds := ⟨fun _ => ⟨rfl, rfl, Nat.le_refl _⟩⟩

instance : IsTrans Wire SameBounds :=
  ⟨fun _ _ _ first second => ⟨second.1.trans first.1, second.2.1.trans first.2.1,
    Nat.le_trans second.2.2 first.2.2⟩⟩

variable {card : Card} {sizeMax : Nat} {format : Format} {command : Command}

theorem transmitted_bounds {bytes : Bytes} : Moves SameBounds (transmitted card bytes) := by
  intro w
  change SameBounds w (acceptAnswer _ _ _).2
  unfold acceptAnswer
  split <;> exact ⟨rfl, rfl, Nat.sub_le _ _⟩

variable {step : Command}

theorem transmitStep_bounds : Moves SameBounds (transmitStep card sizeMax format step) := by
  unfold transmitStep
  refine .bind (.lift _) ?_
  intro form
  refine .bind Moves.state ?_
  intro w
  split
  · exact .throw _
  · exact transmitted_bounds

theorem answerRead_bounds {received : Nat} : Moves SameBounds (answerRead received) := by
  unfold answerRead
  refine .bind Moves.state ?_
  intro w
  split
  · exact .pure _
  · exact .throw _

theorem change_bounds {f : Wire → Wire} (same : ∀ w, (f w).channel = w.channel) :
    Moves SameBounds (change f : WireProgram Unit) :=
  Moves.change fun w => by
    rw [SameBounds, same w]
    exact ⟨rfl, rfl, Nat.le_refl _⟩

variable {offset : Nat}

theorem chainFragment_bounds :
    Moves SameBounds (chainFragment card sizeMax format command offset) := by
  unfold chainFragment
  refine .bind transmitStep_bounds ?_
  intro received
  refine .bind answerRead_bounds ?_
  intro answer
  split
  · exact .throw _
  split
  · refine .bind (change_bounds (by intro w; rfl)) ?_
    intro _
    exact .pure _
  · exact .pure _

/-- A step within the limits of the channel, with an exchange left and room for the status. -/
structure Ready (sizeMax : Nat) (format : Format) (w : Wire) (step : Command) : Prop where
  fits : ∃ form, formGet sizeMax step.data.length step.ne format = .ok form ∧
    form.size ≤ w.channel.scratchCapacity ∧
    (w.channel.maxCommandBytes ≠ 0 → form.size ≤ w.channel.maxCommandBytes)
  room : statusBytes ≤ w.response.length - w.used
  left : w.channel.exchangesLeft ≠ 0

variable {w : Wire}

theorem transmitStep_ready (ready : Ready sizeMax format w step) :
    ∃ form, formGet sizeMax step.data.length step.ne format = .ok form ∧
      (transmitStep card sizeMax format step).exec w =
        (transmitted card (write step form)).exec w := by
  obtain ⟨form, encoded, scratch, limit⟩ := ready.fits
  refine ⟨form, encoded, ?_⟩
  have room := ready.room
  have passes : (form.size > w.channel.scratchCapacity ||
      (w.channel.maxCommandBytes ≠ 0 && form.size > w.channel.maxCommandBytes) ||
      w.response.length - w.used < statusBytes || w.channel.exchangesLeft = 0) = false := by
    simp only [Bool.or_eq_false_iff, Bool.and_eq_false_iff, decide_eq_false_iff_not, Nat.not_lt,
      gt_iff_lt]
    exact ⟨⟨⟨scratch, by tauto⟩, room⟩, ready.left⟩
  simp only [transmitStep, exec_bind, encoded, lift, exec_pure, exec_state, passes,
    Bool.false_eq_true, if_false]

theorem answered_when_ready {A : Type} (ready : Ready sizeMax format w step)
    (rest : Response → WireProgram A) :
    let program : WireProgram A := do
      let received ← transmitStep card sizeMax format step
      let answer ← answerRead received
      rest answer
    ∃ x w', x.step = step ∧ Traces card sizeMax format w [x] w' ∧
      ((∃ e, program.exec w = (.error e, w') ∧ e ≠ .limit ∧ ∀ answer, ¬ x.Says answer) ∨
        ∃ answer, x.Says answer ∧ w'.used = w.used ∧ program.exec w = (rest answer).exec w') := by
  intro program
  obtain ⟨form, encoded, run⟩ := @transmitStep_ready card _ _ _ _ ready
  obtain ⟨x, same, traces, ends⟩ :=
    @transmitted_exchanged card _ _ _ _ _ encoded ready.room ready.left
  rw [← run] at traces ends
  generalize ran : (transmitStep card sizeMax format step).exec w = outcome at traces ends
  obtain ⟨value, w'⟩ := outcome
  refine ⟨x, w', same, traces, ?_⟩
  rcases ends with ⟨failed, broken⟩ | ⟨received, done, answered⟩
  · obtain rfl : value = .error .error := failed
    exact .inl ⟨.error, by simp [program, exec_bind, ran], by decide,
      fun answer said => broken said.1⟩
  · obtain rfl : value = .ok received := done
    have bytes : (w'.response.drop w'.used).take received = x.received := by
      rw [answered.used]
      exact answered.bytes
    cases read : responseRead x.received with
    | error e =>
      refine .inl ⟨.invalid, ?_, by decide, ?_⟩
      · simp [program, exec_bind, ran, answerRead, bytes, read]
      · rintro answer ⟨-, other⟩
        rw [read] at other
        cases other
    | ok answer =>
      exact .inr ⟨answer, ⟨answered.accepted, read⟩, answered.used,
        by simp [program, exec_bind, ran, answerRead, bytes, read]⟩

variable {x : Exchange}

theorem Exchange.says_unique {first second : Response} (h : x.Says first) (h' : x.Says second) :
    first = second := by
  have same := h.2.symm.trans h'.2
  exact Except.ok.inj same

def Exchange.Continues (x : Exchange) : Prop := x.Says ⟨[], 0x9000⟩

theorem chainFragment_ready (ready : Ready sizeMax format w (fragment command offset)) :
    ∃ x w' result, x.step = fragment command offset ∧
      (chainFragment card sizeMax format command offset).exec w = (result, w') ∧
      Traces card sizeMax format w [x] w' ∧ (x.Continues ∧ result = .ok false ∧ w'.used = w.used ∨
        ¬ x.Continues ∧ result ≠ .ok false ∧ result ≠ .error .limit) := by
  unfold chainFragment
  obtain ⟨x, w', same, traces, ⟨e, failed, other, silent⟩ | ⟨answer, read, used, went⟩⟩ :=
    answered_when_ready ready _
  · exact ⟨x, w', .error e, same, failed, traces, .inr ⟨silent _, by simp, by simpa using other⟩⟩
  · rw [fragment] at went
    rw [went]
    split
    · rename_i bad
      refine ⟨x, w', .error .invalid, same, rfl, traces, .inr ⟨?_, by simp, by simp⟩⟩
      intro continues
      obtain rfl := Exchange.says_unique read continues
      exact absurd bad (by decide)
    rename_i bare
    simp only [Bool.or_eq_true, decide_eq_true_eq, not_or, not_not] at bare
    have empty : answer.data = [] := List.length_eq_zero_iff.mp bare.1
    split
    · rename_i ends
      refine ⟨x, { w' with sw := answer.sw }, .ok true, same, rfl, traces.counters _ _,
        .inr ⟨?_, by simp, by simp⟩⟩
      intro continues
      obtain rfl := Exchange.says_unique read continues
      exact ends rfl
    · rename_i goes
      have status : answer.sw = 0x9000 := not_not.mp goes
      have continues : x.Continues := by
        rw [Exchange.Continues, ← status, ← empty]
        exact read
      exact ⟨x, w', .ok false, same, rfl, traces, .inl ⟨continues, rfl, used⟩⟩

variable {nc ne : Nat}

theorem formGet_short (data : nc ≤ shortMaxNc) (le : ne ≤ shortMaxNe) :
    formGet sizeMax nc ne format = .ok
      ⟨headerBytes + (if nc = 0 then 0 else 1 + nc) + (if ne = 0 then 0 else 1), false⟩ := by
  have data' : nc ≤ maxNc := Nat.le_trans data (by decide)
  have le' : ne ≤ maxNe := Nat.le_trans le (by decide)
  simp [formGet, data, le, Nat.not_lt.mpr data', Nat.not_lt.mpr le']

/-- Commands of `size` bytes fit, and the budget covers `fragments` steps and one more. -/
structure Prepared (size fragments : Nat) (w : Wire) : Prop where
  scratch : size ≤ w.channel.scratchCapacity
  limit : w.channel.maxCommandBytes ≠ 0 → size ≤ w.channel.maxCommandBytes
  left : fragments < w.channel.exchangesLeft
  room : statusBytes ≤ w.response.length - w.used

variable {fragments k : Nat} {cla : UInt8} {w' : Wire} {trace : List Exchange}

theorem Prepared.ready {size : Nat} (prepared : Prepared size fragments w)
    (data : step.data.length ≤ shortMaxNc) (le : step.ne ≤ shortMaxNe)
    (fits : headerBytes + (1 + step.data.length) + (if step.ne = 0 then 0 else 1) ≤ size) :
    Ready sizeMax format w step := by
  have left := prepared.left
  have small : headerBytes + (if step.data.length = 0 then 0 else 1 + step.data.length) +
      (if step.ne = 0 then 0 else 1) ≤ size := by
    split <;> omega
  exact ⟨⟨_, formGet_short data le, Nat.le_trans small prepared.scratch,
    fun limited => Nat.le_trans small (prepared.limit limited)⟩, prepared.room, by omega⟩

theorem Prepared.fragment {size offset : Nat} (prepared : Prepared size fragments w)
    (full : headerBytes + (1 + shortMaxNc) ≤ size) :
    Ready sizeMax format w (fragment command offset) := by
  have few : (Apdu.fragment command offset).data.length ≤ shortMaxNc := by
    rw [Apdu.fragment, List.length_take]
    exact Nat.min_le_left _ _
  refine prepared.ready few (Nat.zero_le _) ?_
  have none : (Apdu.fragment command offset).ne = 0 := rfl
  rw [if_pos none]
  omega

theorem chainSend_ready {size : Nat} (full : headerBytes + (1 + shortMaxNc) ≤ size)
    (fragments offset : Nat) (prepared : Prepared size fragments w) :
    ∃ trace w' result, (chainSend card sizeMax format command fragments offset).exec w =
        (result, w') ∧ Traces card sizeMax format w trace w' ∧ Fragments command offset trace ∧
      (trace.length = fragments ∧ (∀ x ∈ trace, x.Continues) ∧ w'.used = w.used ∧
          Prepared size 0 w' ∧ result = .ok (some (offset + shortMaxNc * fragments)) ∨
        trace.length ≤ fragments ∧ result ≠ .error .limit ∧ (∀ reached, result ≠ .ok (some reached)) ∧
          ∃ before x, trace = before ++ [x] ∧ ¬ x.Continues) := by
  induction fragments generalizing offset w with
  | zero =>
    exact ⟨[], w, .ok (some offset), rfl, Traces.refl w, trivial,
      .inl ⟨rfl, by simp, rfl, prepared, rfl⟩⟩
  | succ fragments ih =>
    obtain ⟨x, w₁, value, same, first, traces, ends⟩ :=
      @chainFragment_ready card sizeMax format command offset w (prepared.fragment full)
    have kept : SameBounds w w₁ := by
      have moved := @chainFragment_bounds card sizeMax format command offset w
      rw [first] at moved
      exact moved
    rw [chainSend, exec_bind, first]
    rcases ends with ⟨continues, rfl, used⟩ | ⟨stops, notFalse, notLimit⟩
    · have spent : w₁.channel.exchangesLeft + 1 = w.channel.exchangesLeft := traces.budget
      have left := prepared.left
      have room := prepared.room
      have size' := traces.size
      have later : Prepared size fragments w₁ := by
        refine ⟨?_, ?_, by omega, ?_⟩
        · rw [kept.1]
          exact prepared.scratch
        · rw [kept.2.1]
          exact prepared.limit
        · rw [size', used]
          exact room
      obtain ⟨rest, w', result, ran, more, steps, outcome⟩ := ih (offset + shortMaxNc) later
      refine ⟨x :: rest, w', result, ran, traces.trans more, ⟨same, steps⟩, ?_⟩
      rcases outcome with ⟨all, go, used', ready, rfl⟩ | ⟨few, other, ended, before, last, rfl, stop⟩
      · refine .inl ⟨by simp [all], ?_, used'.trans used, ready, ?_⟩
        · intro y member
          rcases List.mem_cons.mp member with rfl | member
          · exact continues
          · exact go y member
        · rw [Nat.mul_succ]
          congr 2
          omega
      · exact .inr ⟨by simpa using few, other, ended, x :: before, last, rfl, stop⟩
    · cases value with
      | error e =>
        exact ⟨[x], w₁, .error e, rfl, traces, ⟨same, trivial⟩,
          .inr ⟨by simp, by simpa using notLimit, by simp, [], x, rfl, stops⟩⟩
      | ok ended =>
        cases ended with
        | false => exact absurd rfl notFalse
        | true =>
          exact ⟨[x], w₁, .ok none, rfl, traces, ⟨same, trivial⟩,
            .inr ⟨by simp, by simp, by simp, [], x, rfl, stops⟩⟩

def lastLength (nc : Nat) : Nat := nc - shortMaxNc * ((nc - 1) / shortMaxNc)

theorem lastLength_bounds {nc : Nat} (nonempty : 0 < nc) :
    1 ≤ lastLength nc ∧ lastLength nc ≤ shortMaxNc := by
  simp only [lastLength, shortMaxNc]
  omega

def largest (nc ne : Nat) : Nat := max (headerBytes + 1 + shortMaxNc)
    (headerBytes + 1 + lastLength nc + if ne = 0 then 0 else 1)

variable {channel : Channel}

theorem chainCheck_ok (nonempty : 0 < nc) (pass : chainCheck channel nc ne = .ok) :
    largest nc ne ≤ channel.scratchCapacity ∧
      (channel.maxCommandBytes ≠ 0 → largest nc ne ≤ channel.maxCommandBytes) ∧
      (nc - 1) / shortMaxNc < channel.exchangesLeft := by
  have count : nc / shortMaxNc + (if nc % shortMaxNc ≠ 0 then 1 else 0) =
      (nc - 1) / shortMaxNc + 1 := by
    split <;> simp only [shortMaxNc] at * <;> omega
  have last : nc - ((nc - 1) / shortMaxNc + 1 - 1) * shortMaxNc = lastLength nc := by
    rw [Nat.add_sub_cancel, Nat.mul_comm, lastLength]
  have unfolded : chainCheck channel nc ne = if largest nc ne > channel.scratchCapacity ||
          (channel.maxCommandBytes ≠ 0 && largest nc ne > channel.maxCommandBytes) ||
          channel.exchangesLeft < (nc - 1) / shortMaxNc + 1 then .limit
      else .ok := by
    simp only [chainCheck, count, last, largest]
    congr 1
  rw [unfolded] at pass
  split at pass
  · cases pass
  · rename_i fits
    simp only [Bool.or_eq_true, Bool.and_eq_true, decide_eq_true_eq, not_or, not_and, Nat.not_lt,
      gt_iff_lt] at fits
    exact ⟨fits.1.1, fits.1.2, fits.2⟩

theorem lastStep_ready (nonempty : 0 < command.data.length) (le : command.ne ≤ shortMaxNe)
    (prepared : Prepared (largest command.data.length command.ne) fragments w) :
    Ready sizeMax format w (lastStep channel command (shortMaxNc * fragmentCount command)) := by
  have length : (lastStep channel command (shortMaxNc * fragmentCount command)).data.length =
      lastLength command.data.length := by
    rw [lastStep, List.length_drop, fragmentCount, lastLength]
  have lowered : responseNe channel command.ne ≤ command.ne := responseNe_le channel command.ne
  refine prepared.ready ?_ (Nat.le_trans lowered le) ?_
  · rw [length]
    exact (lastLength_bounds nonempty).2
  · rw [length]
    have le_bytes : (if (lastStep channel command (shortMaxNc * fragmentCount command)).ne = 0
        then 0 else 1) ≤ if command.ne = 0 then 0 else 1 := by
      change (if responseNe channel command.ne = 0 then 0 else 1) ≤ _
      split <;> split <;> omega
    simp only [largest]
    omega

theorem collectStep_ready {sm : Bool} {c : Collect} {w : Wire}
    {result : Except Result (Option Collect)} (fresh : c.cardStated = false)
    (ready : Ready sizeMax format w c.step)
    (ran : (collectStep card sizeMax format cla sm c).exec w = (result, w')) :
    ∃ x, x.step = c.step ∧ Traces card sizeMax format w [x] w' := by
  rw [collectStep, exec_bind] at ran
  simp only [exec_state, fresh, Bool.false_and, Bool.false_eq_true, if_false] at ran
  obtain ⟨x, w₁, same, traces, ⟨e, failed, -, -⟩ | ⟨answer, read, used, went⟩⟩ :=
    answered_when_ready ready _
  · rw [failed] at ran
    cases ran
    exact ⟨x, same, traces⟩
  · rw [went] at ran
    refine ⟨x, same, ?_⟩
    split at ran
    · cases ran
      exact traces
    simp only [exec_bind, exec_change] at ran
    split at ran
    · split at ran
      · cases ran
        exact traces.counters _ _
      · cases ran
        exact traces.counters _ _
    · simp only [exec_bind, exec_change] at ran
      split at ran
      · cases ran
        exact traces.counters _ _
      · simp only [exec_bind, exec_state] at ran
        cases ran
        exact traces.counters _ _

theorem responseCollect_ready {chained : Bool} {w : Wire} {result : Except Result Unit}
    (ready : Ready sizeMax format w step)
    (ran : (responseCollect card sizeMax format step chained).exec w = (result, w')) :
    w'.channel.exchangesLeft < w.channel.exchangesLeft := by
  rw [responseCollect, exec_bind] at ran
  simp only [exec_state] at ran
  rw [collectLoop, exec_bind] at ran
  generalize stepped : (collectStep card sizeMax format step.cla
    (decide (step.cla &&& claSmMask ≠ 0))
    { step, correctable := !chained && !decide (step.cla &&& claSmMask ≠ 0) && step.ne ≠ 0,
      corrected := false, cardStated := false }).exec w = outcome at ran
  obtain ⟨value, w₁⟩ := outcome
  obtain ⟨x, -, traces⟩ := collectStep_ready rfl ready stepped
  have spent : w₁.channel.exchangesLeft + 1 = w.channel.exchangesLeft := traces.budget
  rcases value with e | next
  · cases ran
    omega
  · cases next with
    | none =>
      cases ran
      omega
    | some c =>
      obtain ⟨trace, out, -, later, -⟩ := @collectLoop_traced _ _ _ _ _ w₁.channel _ _ _ _ _ ran
        rfl rfl
      have := later.budget
      omega

theorem Collected.chained {sm : Bool} {out : Option Response}
    (collected : Collected channel cla sm (Collect.start step true) trace out) (sent : trace ≠ []) :
    ∃ x rest, trace = x :: rest ∧ x.step = step ∧ ∀ y ∈ rest, IsGetResponse y.step := by
  cases collected with
  | refused => exact absurd rfl sent
  | failed same => exact ⟨_, [], rfl, same, by simp⟩
  | ended same read within last => exact ⟨_, [], rfl, same, by simp⟩
  | again same read wrong correctable first later => cases correctable
  | more same read within more later =>
    refine ⟨_, _, rfl, same, ?_⟩
    intro y member
    rcases later.steps y member with repeated | get
    · rw [repeated]
      exact ⟨rfl, rfl, rfl, rfl⟩
    · exact get

inductive ChainSent (channel : Channel) (command : Command) : List Exchange → Prop
  | cut {before : List Exchange} {x : Exchange} (fragments : Fragments command 0 (before ++ [x]))
      (few : (before ++ [x]).length ≤ fragmentCount command) (stops : ¬ x.Continues) :
      ChainSent channel command (before ++ [x])
  | whole {before : List Exchange} {x : Exchange} (fragments : Fragments command 0 before)
      (all : before.length = fragmentCount command) (answered : ∀ y ∈ before, y.Continues)
      (last : x.step = lastStep channel command (shortMaxNc * fragmentCount command)) :
      ChainSent channel command (before ++ [x])

theorem transceiveRun_chained {w w' : Wire} {result : Except Result Unit}
    (long : shortMaxNc < command.data.length) (le : command.ne ≤ shortMaxNe)
    (room : statusBytes ≤ w.response.length - w.used)
    (pass : chainCheck w.channel command.data.length command.ne = .ok)
    (ran : (transceiveRun card sizeMax .short command).exec w = (result, w')) :
    ∃ chain rest, Traces card sizeMax .short w (chain ++ rest) w' ∧
      ChainSent w.channel command chain ∧ (∀ y ∈ rest, IsGetResponse y.step) ∧
      (chain.length ≤ fragmentCount command → result ≠ .error .limit) := by
  have nonempty : 0 < command.data.length := by omega
  obtain ⟨scratch, limit, left⟩ := chainCheck_ok nonempty pass
  have prepared : Prepared (largest command.data.length command.ne) (fragmentCount command) w :=
    ⟨scratch, limit, left, room⟩
  have full : headerBytes + (1 + shortMaxNc) ≤ largest command.data.length command.ne := by
    simp only [largest]
    omega
  rw [transceiveRun, exec_bind] at ran
  simp only [exec_state] at ran
  rw [if_pos (by simpa using long)] at ran
  simp only [pass] at ran
  rw [exec_bind] at ran
  obtain ⟨sent, w₁, reached, sends, traces, fragments, ends⟩ :=
    @chainSend_ready card sizeMax .short command w _ full (fragmentCount command) 0 prepared
  rw [fragmentCount] at sends
  rw [sends] at ran
  rcases ends with ⟨all, answered, used, ready, rfl⟩ |
    ⟨few, other, ended, before, x, rfl, stops⟩
  · simp only [Nat.zero_add] at ran
    have ready' : Ready sizeMax .short w₁
        (lastStep w.channel command (shortMaxNc * fragmentCount command)) :=
      lastStep_ready nonempty le ready
    have spent := responseCollect_ready ready' ran
    obtain ⟨trace, out, collected, later, -⟩ := responseCollect_traced ran traces.limit traces.plain
    have transmitted : trace ≠ [] := by
      rintro rfl
      have := later.budget
      simp only [List.length_nil] at this
      omega
    obtain ⟨x, rest, rfl, last, gets⟩ := collected.chained transmitted
    refine ⟨sent ++ [x], rest, ?_, .whole fragments all answered last, gets, ?_⟩
    · rw [List.append_assoc]
      exact traces.trans later
    · intro short
      rw [List.length_append, List.length_singleton, all] at short
      omega
  · refine ⟨before ++ [x], [], ?_, .cut fragments few stops, by simp, ?_⟩
    · rw [List.append_nil]
      cases reached with
      | error e =>
        cases ran
        exact traces
      | ok reached =>
        cases reached with
        | none =>
          cases ran
          exact traces
        | some offset => exact absurd rfl (ended offset)
    · intro _
      cases reached with
      | error e =>
        cases ran
        simpa using other
      | ok reached =>
        cases reached with
        | none =>
          cases ran
          simp
        | some offset => exact absurd rfl (ended offset)

def SameHeader (command step : Command) : Prop :=
  step.ins = command.ins ∧ step.p1 = command.p1 ∧ step.p2 = command.p2

structure ChainSteps (channel : Channel) (command : Command) (steps : List Command) : Prop where
  few : steps.length ≤ fragmentCount command + 1
  data : (steps.map Command.data).flatten <+: command.data
  between : ∀ k step, k < fragmentCount command → steps[k]? = some step →
    step.data.length = shortMaxNc ∧ step.ne = 0 ∧ step.cla = command.cla ||| claChaining ∧
      SameHeader command step
  last : ∀ step, steps[fragmentCount command]? = some step →
    1 ≤ step.data.length ∧ step.data.length ≤ shortMaxNc ∧
      step.ne = responseNe channel command.ne ∧ step.cla = command.cla ∧ SameHeader command step

theorem fragments_data (fragments : Fragments command offset trace) :
    (trace.map (·.step.data)).flatten =
      (command.data.drop offset).take (shortMaxNc * trace.length) := by
  induction trace generalizing offset with
  | nil => simp
  | cons x rest ih =>
    have here : x.step.data = (command.data.drop offset).take shortMaxNc := by
      rw [fragments.1]
      rfl
    rw [List.map_cons, List.flatten_cons, ih fragments.2, here, List.length_cons, Nat.mul_succ,
      Nat.add_comm (shortMaxNc * rest.length), List.take_add, List.drop_drop]

variable {run : List Exchange}

theorem fragments_get {offset : Nat} (fragments : Fragments command offset run)
    (got : run[k]? = some x) : x.step = fragment command (offset + shortMaxNc * k) := by
  induction run generalizing offset k with
  | nil => simp at got
  | cons y rest ih =>
    cases k with
    | zero =>
      obtain rfl : y = x := by simpa using got
      exact fragments.1
    | succ k =>
      rw [ih fragments.2 (by simpa using got), Nat.mul_succ]
      congr 1
      omega

theorem fragment_fields (inside : offset + shortMaxNc ≤ command.data.length) :
    (fragment command offset).data.length = shortMaxNc ∧ (fragment command offset).ne = 0 ∧
      (fragment command offset).cla = command.cla ||| claChaining ∧
      SameHeader command (fragment command offset) := by
  refine ⟨?_, rfl, rfl, rfl, rfl, rfl⟩
  rw [fragment, List.length_take, List.length_drop]
  omega

theorem fragmentCount_bounds (nonempty : 0 < command.data.length) :
    shortMaxNc * fragmentCount command < command.data.length ∧
      command.data.length ≤ shortMaxNc * fragmentCount command + shortMaxNc := by
  simp only [fragmentCount, shortMaxNc]
  omega

theorem fragments_between (nonempty : 0 < command.data.length) (fragments : Fragments command 0 run)
    (before : k < fragmentCount command) (got : run[k]? = some x) :
    x.step.data.length = shortMaxNc ∧ x.step.ne = 0 ∧ x.step.cla = command.cla ||| claChaining ∧
      SameHeader command x.step := by
  have bounds := fragmentCount_bounds nonempty
  have whole : shortMaxNc * k + shortMaxNc ≤ shortMaxNc * fragmentCount command :=
    Nat.mul_succ shortMaxNc k ▸ Nat.mul_le_mul_left _ before
  rw [fragments_get fragments got]
  exact fragment_fields (by omega)

theorem fragments_whole {before : List Exchange} (fragments : Fragments command 0 before)
    (all : before.length = fragmentCount command)
    (last : x.step = lastStep channel command (shortMaxNc * fragmentCount command)) :
    ((before ++ [x]).map (·.step.data)).flatten = command.data := by
  have parts := fragments_data fragments
  rw [all, List.drop_zero] at parts
  have data : x.step.data = command.data.drop (shortMaxNc * fragmentCount command) := by
    rw [last]
    rfl
  rw [List.map_append, List.flatten_append, parts]
  simp only [List.map_cons, List.map_nil, List.flatten_cons, List.flatten_nil, List.append_nil]
  rw [data, List.take_append_drop]

variable {chain : List Exchange}

theorem ChainSent.steps (nonempty : 0 < command.data.length)
    (sent : ChainSent channel command chain) :
    ChainSteps channel command (chain.map Exchange.step) := by
  have bounds := fragmentCount_bounds nonempty
  cases sent with
  | @cut before x fragments few stops =>
    refine ⟨by rw [List.length_map]; omega, ?_, ?_, ?_⟩
    · rw [List.map_map]
      exact (fragments_data fragments).symm ▸ List.take_prefix _ _
    · intro k step early got
      rw [List.getElem?_map] at got
      obtain ⟨y, found, rfl⟩ := Option.map_eq_some_iff.mp got
      exact fragments_between nonempty fragments early found
    · intro step got
      rw [List.getElem?_eq_none (by rw [List.length_map]; exact few)] at got
      cases got
  | @whole before x fragments all answered last =>
    refine ⟨by simp [all], ?_, ?_, ?_⟩
    · rw [List.map_map]
      exact (fragments_whole fragments all last).symm ▸ List.prefix_refl _
    · intro k step early got
      rw [List.map_append, List.getElem?_append_left (by simpa [all] using early),
        List.getElem?_map] at got
      obtain ⟨y, found, rfl⟩ := Option.map_eq_some_iff.mp got
      exact fragments_between nonempty fragments early found
    · intro step got
      rw [List.map_append, List.getElem?_append_right (by simp [all])] at got
      simp only [List.length_map, all, Nat.sub_self, List.map_cons, List.map_nil,
        List.getElem?_cons_zero, Option.some.injEq] at got
      subst got
      have length : x.step.data.length = lastLength command.data.length := by
        rw [last, lastStep, List.length_drop, fragmentCount, lastLength]
      rw [length, last]
      exact ⟨(lastLength_bounds nonempty).1, (lastLength_bounds nonempty).2, rfl, rfl, rfl, rfl,
        rfl⟩

theorem ChainSent.complete (sent : ChainSent channel command chain)
    (answered : ∀ k < fragmentCount command, ∃ x, chain[k]? = some x ∧ x.Continues) :
    (chain.map (·.step.data)).flatten = command.data := by
  cases sent with
  | @cut before x fragments few stops =>
    rw [List.length_append, List.length_singleton] at few
    obtain ⟨y, got, continues⟩ := answered before.length few
    rw [List.getElem?_append_right (Nat.le_refl _)] at got
    obtain rfl : x = y := by simpa using got
    exact absurd continues stops
  | @whole before x fragments all _ last => exact fragments_whole fragments all last

theorem ChainSent.incomplete (sent : ChainSent channel command chain) :
    chain ≠ [] ∧ (chain.length ≤ fragmentCount command →
      ∃ before x, chain = before ++ [x] ∧ ¬ x.Continues) := by
  cases sent with
  | @cut before x fragments few stops => exact ⟨by simp, fun _ => ⟨before, x, rfl, stops⟩⟩
  | @whole before x fragments all answered last =>
    refine ⟨by simp, ?_⟩
    intro short
    rw [List.length_append, List.length_singleton, all] at short
    omega

theorem genuine_decode {capacity : Nat} {sent : List Bytes}
    (genuine : Genuine card sizeMax format capacity sent run) :
    ∀ x ∈ run, decode x.bytes = some (x.step.case, x.step) := by
  induction run generalizing sent with
  | nil => simp
  | cons y rest ih =>
    intro x member
    rcases List.mem_cons.mp member with rfl | member
    · obtain ⟨form, encoded, bytes⟩ := genuine.1.encoded
      rw [bytes]
      exact decode_write (formGet_form encoded)
    · exact ih genuine.2 x member

theorem formGet_short_bounds {form : Form} (got : formGet sizeMax nc ne .short = .ok form) :
    nc ≤ shortMaxNc ∧ ne ≤ shortMaxNe := by
  unfold formGet at got
  split at got
  · cases got
  split at got
  · rename_i short
    simpa using short
  · cases got

theorem transceiveCheck_bounds {capacity : Nat}
    (checked : transceiveCheck sizeMax .short command capacity = .ok) :
    statusBytes ≤ capacity ∧ command.ne ≤ shortMaxNe := by
  unfold transceiveCheck at checked
  split at checked
  · cases checked
  rename_i room
  simp only at checked
  split at checked
  · rename_i e failed
    exact absurd checked (formGet_error failed)
  · rename_i form got
    exact ⟨Nat.not_lt.mp room, (formGet_short_bounds got).2⟩

theorem transceiveRun_unprepared (long : shortMaxNc < command.data.length)
    (failed : chainCheck w.channel command.data.length command.ne ≠ .ok) :
    ((transceiveRun card sizeMax .short command).exec w).2 = w := by
  rw [transceiveRun, exec_bind]
  simp only [exec_state]
  rw [if_pos (by simpa using long)]
  rfl

/-- What a SHORT command with more than 255 data bytes puts on the line. The chain carries a
    prefix of the data, all of it when every intermediate answer is 9000. Past the preflight it
    is transmitted whole unless an answer stops it, so no limit cuts it short. -/
theorem chain_transmitted (card : Card) (sizeMax : Nat) (channel : Channel) (sent : List Bytes)
    (command : Command) (buffer : Bytes) (long : shortMaxNc < command.data.length) :
    let call := transceiveFormat card sizeMax .short channel sent command buffer
    ∃ chain rest, Made card sizeMax .short channel sent buffer (chain ++ rest) call ∧
      (∀ y ∈ rest, IsGetResponse y.step) ∧
      (∀ x ∈ chain, decode x.bytes = some (x.step.case, x.step)) ∧
      ChainSteps channel command (chain.map Exchange.step) ∧
      ((∀ k < fragmentCount command, ∃ x, chain[k]? = some x ∧ x.Continues) →
        (chain.map (·.step.data)).flatten = command.data) ∧
      (chainCheck channel command.data.length command.ne = .ok →
        transceiveCheck sizeMax .short command buffer.length = .ok → channel.stopped = false →
          chain ≠ [] ∧ (chain.length ≤ fragmentCount command →
            call.result ≠ .limit ∧ ∃ before x, chain = before ++ [x] ∧ ¬ x.Continues)) := by
  intro call
  have nonempty : 0 < command.data.length := by omega
  have several : 0 < fragmentCount command := by
    simp only [fragmentCount, shortMaxNc] at *
    omega
  by_cases started : transceiveCheck sizeMax .short command buffer.length = .ok ∧
      channel.stopped = false ∧ chainCheck channel command.data.length command.ne = .ok
  · obtain ⟨checked, running, pass⟩ := started
    have bounds := transceiveCheck_bounds checked
    generalize ran : (transceiveRun card sizeMax .short command).exec
      ⟨channel, sent, buffer, 0, 0, 0⟩ = outcome
    obtain ⟨result, w⟩ := outcome
    obtain ⟨chain, rest, traces, whole, gets, unlimited⟩ :=
      @transceiveRun_chained card sizeMax command ⟨channel, sent, buffer, 0, 0, 0⟩ w result long
        bounds.2 (by simpa using bounds.1) pass ran
    have ended : call.channel = w.channel ∧ call.sent = w.sent ∧
        (result ≠ .error .limit → call.result ≠ .limit) := by
      simp only [call, transceiveFormat, checked, running, ran]
      cases result with
      | error e => exact ⟨rfl, rfl, by simp⟩
      | ok u => exact ⟨rfl, rfl, by simp⟩
    refine ⟨chain, rest, ⟨?_, traces.genuine, ?_⟩, gets, ?_, whole.steps nonempty, whole.complete,
      ?_⟩
    · rw [ended.2.1]
      exact traces.sent
    · rw [ended.1]
      exact traces.budget
    · intro x member
      exact genuine_decode traces.genuine x (List.mem_append_left _ member)
    · intro _ _ _
      refine ⟨whole.incomplete.1, ?_⟩
      intro short
      exact ⟨ended.2.2 (unlimited short), whole.incomplete.2 short⟩
  · have silent : call.channel.exchangesLeft = channel.exchangesLeft ∧ call.sent = sent := by
      by_cases checked : transceiveCheck sizeMax .short command buffer.length = .ok ∧
          channel.stopped = false
      · have failed : chainCheck channel command.data.length command.ne ≠ .ok :=
          fun pass => started ⟨checked.1, checked.2, pass⟩
        have same := @transceiveRun_unprepared card sizeMax command
          ⟨channel, sent, buffer, 0, 0, 0⟩ long failed
        generalize ran : (transceiveRun card sizeMax .short command).exec
          ⟨channel, sent, buffer, 0, 0, 0⟩ = outcome at same
        obtain ⟨result, w⟩ := outcome
        obtain rfl : w = ⟨channel, sent, buffer, 0, 0, 0⟩ := same
        simp only [call, transceiveFormat, checked.1, checked.2, ran]
        cases result <;> exact ⟨rfl, rfl⟩
      · have refused : transceiveCheck sizeMax .short command buffer.length ≠ .ok ∨
            channel.stopped = true := by
          by_contra both
          simp only [not_or, not_not, Bool.not_eq_true] at both
          exact checked both
        obtain ⟨_, _, kept, same⟩ :=
          @transceiveFormat_refused card sizeMax .short channel sent command buffer refused
        exact ⟨congrArg Channel.exchangesLeft kept, same⟩
    refine ⟨[], [], ⟨by simp [silent.2], trivial, silent.1⟩, by simp, by simp, ?_, ?_, ?_⟩
    · exact ⟨Nat.zero_le _, List.nil_prefix, by simp, by simp⟩
    · intro answered
      obtain ⟨x, got, -⟩ := answered 0 several
      cases got
    · intro pass checked running
      exact absurd ⟨checked, running, pass⟩ started

/-- 256 bytes go out as two fragments. -/
theorem chain_transmitted_two : ∃ chain : List Exchange, chain ≠ [] ∧
      ChainSteps ⟨261, 4, 0, 0, false, .short, false⟩
        ⟨List.replicate 256 0x5a, 0, 0x00, 0xda, 0x01, 0x02⟩ (chain.map Exchange.step) := by
  obtain ⟨chain, rest, _, _, _, steps, _, run⟩ := chain_transmitted
    (fun _ _ => ⟨true, [0x90, 0x00], 2⟩) 65535 ⟨261, 4, 0, 0, false, .short, false⟩ []
    ⟨List.replicate 256 0x5a, 0, 0x00, 0xda, 0x01, 0x02⟩ [0, 0] (by decide +kernel)
  exact ⟨chain, (run (by decide +kernel) (by decide +kernel) rfl).1, steps⟩

end TinyCrypto.Apdu
