import TinyCrypto.Apdu.Channel

/-! # The exchanges of a transceive

The trace of a call has one entry for each transmit: the step, its encoding, the
card's answer and the bytes that were read. Every run, failed or not, has a
trace, and its shape is that of `response_collect`.
-/

namespace TinyCrypto.Apdu

open Library Library.Program

/-- One transmit. `place` is where the answer goes in the response buffer, and
    `received` what is read there. -/
structure Exchange where
  step : Command
  bytes : Bytes
  place : Nat
  offered : Nat
  answer : Answer
  received : Bytes

def Exchange.Accepted (x : Exchange) : Prop :=
  x.answer.ok = true ∧ statusBytes ≤ x.answer.length ∧ x.answer.length ≤ x.offered

/-- The bytes read are the reported number, and are those that the transport
    wrote, as far as it wrote. -/
def Exchange.Reads (x : Exchange) : Prop := x.Accepted → x.received.length = x.answer.length ∧
    x.received.take x.answer.written.length = x.answer.written.take x.answer.length

section

variable (card : Card) (sizeMax : Nat) (format : Format)

/-- A real transmit after `sent`. -/
structure Exchange.Real (capacity : Nat) (sent : List Bytes) (x : Exchange) : Prop where
  encoded : ∃ form, formGet sizeMax x.step.data.length x.step.ne format = .ok form ∧
    x.bytes = write x.step form
  answered : x.answer = card (x.bytes :: sent) x.offered
  offered : x.place + x.offered = capacity
  reads : x.Reads

def Exchange.Says (x : Exchange) (response : Response) : Prop :=
  x.Accepted ∧ responseRead x.received = .ok response

def Genuine (capacity : Nat) : List Bytes → List Exchange → Prop
  | _, [] => True
  | sent, x :: rest => x.Real card sizeMax format capacity sent ∧
      Genuine capacity (x.bytes :: sent) rest

/-- What the transmits in `trace` did to the wire. -/
structure Traces (w : Wire) (trace : List Exchange) (w' : Wire) : Prop where
  sent : w'.sent = (trace.map Exchange.bytes).reverse ++ w.sent
  genuine : Genuine card sizeMax format w.response.length w.sent trace
  budget : w'.channel.exchangesLeft + trace.length = w.channel.exchangesLeft
  size : w'.response.length = w.response.length
  limit : w'.channel.maxResponseBytes = w.channel.maxResponseBytes
  plain : w'.channel.getResponsePlainCla = w.channel.getResponsePlainCla
  rises : w.highWater ≤ w'.highWater
  water : ∀ x ∈ trace, x.Accepted → x.place + x.answer.length ≤ w'.highWater

end

variable {card : Card} {sizeMax : Nat} {format : Format}

variable {second : List Exchange} {w'' : Wire} {buffer encoded : Bytes} {offset : Nat}
  {result : Except Result Unit}

theorem genuine_append {capacity : Nat} {sent : List Bytes} {first : List Exchange} :
    Genuine card sizeMax format capacity sent (first ++ second) ↔
      Genuine card sizeMax format capacity sent first ∧
        Genuine card sizeMax format capacity ((first.map Exchange.bytes).reverse ++ sent)
          second := by
  induction first generalizing sent with
  | nil => simp [Genuine]
  | cons x rest ih =>
    simp only [List.cons_append, Genuine, ih, List.map_cons, List.reverse_cons,
      List.append_assoc, List.cons_append, List.nil_append, and_assoc]

theorem Traces.refl (w : Wire) : Traces card sizeMax format w [] w :=
  ⟨by simp, trivial, by simp, rfl, rfl, rfl, Nat.le_refl _, by simp⟩

theorem Traces.trans {w w' : Wire} {first : List Exchange}
    (here : Traces card sizeMax format w first w')
    (later : Traces card sizeMax format w' second w'') :
    Traces card sizeMax format w (first ++ second) w'' := by
  refine ⟨?_, ?_, ?_, later.size.trans here.size, later.limit.trans here.limit,
    later.plain.trans here.plain, Nat.le_trans here.rises later.rises, ?_⟩
  · rw [later.sent, here.sent]
    simp
  · rw [genuine_append, ← here.sent, ← here.size]
    exact ⟨by rw [here.size]; exact here.genuine, later.genuine⟩
  · have := here.budget
    have := later.budget
    simp only [List.length_append]
    omega
  · intro x member accepted
    rcases List.mem_append.mp member with member | member
    · exact Nat.le_trans (here.water x member accepted) later.rises
    · exact later.water x member accepted

theorem Traces.counters {w w' : Wire} {trace : List Exchange}
    (traces : Traces card sizeMax format w trace w') (used sw : Nat) :
    Traces card sizeMax format w trace { w' with used := used, sw := sw } :=
  ⟨traces.sent, traces.genuine, traces.budget, traces.size, traces.limit, traces.plain,
    traces.rises, traces.water⟩

theorem overlay_take {bytes : Bytes} :
    (overlay buffer offset bytes).take offset = buffer.take offset := by
  apply List.ext_getElem?
  intro i
  simp only [overlay, List.getElem?_take, List.getElem?_append, List.getElem?_drop,
    List.length_take, List.length_append]
  grind

theorem overlay_written {bytes : Bytes} (inside : offset + bytes.length ≤ buffer.length) :
    ((overlay buffer offset bytes).drop offset).take bytes.length = bytes := by
  apply List.ext_getElem?
  intro i
  simp only [overlay, List.getElem?_take, List.getElem?_append, List.getElem?_drop,
    List.length_take, List.length_append]
  grind

/-- How `transmit_step` ends when it transmitted `x`. -/
structure Answered (w : Wire) (x : Exchange) (received : Nat) (w' : Wire) : Prop where
  accepted : x.Accepted
  length : received = x.answer.length
  used : w'.used = w.used
  sw : w'.sw = w.sw
  bytes : (w'.response.drop w.used).take received = x.received
  kept : w'.response.take w.used = w.response.take w.used

theorem transmitted_exchanged {step : Command} {form : Form} {w : Wire}
    (encoded : formGet sizeMax step.data.length step.ne format = .ok form)
    (room : statusBytes ≤ w.response.length - w.used) (left : w.channel.exchangesLeft ≠ 0) :
    ∃ x, x.step = step ∧
      Traces card sizeMax format w [x] ((transmitted card (write step form)).exec w).2 ∧
      (((transmitted card (write step form)).exec w).1 = .error .error ∧ ¬ x.Accepted ∨
        ∃ received, ((transmitted card (write step form)).exec w).1 = .ok received ∧
          Answered w x received ((transmitted card (write step form)).exec w).2) := by
  let offered := w.response.length - w.used
  let answer := card (write step form :: w.sent) offered
  let after := overlay w.response w.used (answer.written.take offered)
  have inside : w.used + offered = w.response.length := by
    simp only [offered]
    have : statusBytes = 2 := rfl
    omega
  let x : Exchange := ⟨step, write step form, w.used, offered, answer,
    (after.drop w.used).take answer.length⟩
  have real : x.Real card sizeMax format w.response.length w.sent := by
    refine ⟨⟨form, encoded, rfl⟩, rfl, inside, ?_⟩
    rintro ⟨-, -, fits⟩
    have shorter : (answer.written.take offered).length ≤ offered := by
      rw [List.length_take]
      exact Nat.min_le_left _ _
    have placed : (after.drop w.used).take (answer.written.take offered).length =
        answer.written.take offered :=
      overlay_written (by omega)
    refine ⟨?_, ?_⟩
    · simp only [x, after, List.length_take, List.length_drop, overlay_length]
      exact Nat.min_eq_left fits
    · change ((after.drop w.used).take answer.length).take answer.written.length =
        answer.written.take answer.length
      have cut := congrArg (List.take answer.length) placed
      rw [List.take_take, List.take_take, List.length_take] at cut
      rw [List.take_take]
      have fits' : answer.length ≤ offered := fits
      rw [show min answer.length (min offered answer.written.length) =
        min answer.written.length answer.length by omega,
        show min answer.length offered = answer.length by omega] at cut
      exact cut
  have spent : w.channel.exchangesLeft - 1 + [x].length = w.channel.exchangesLeft := by
    rw [List.length_singleton]
    omega
  refine ⟨x, rfl, ?_⟩
  cases accepts : !answer.ok || answer.length < statusBytes || answer.length > offered with
  | true =>
    have run : (transmitted card (write step form)).exec w = (.error .error,
        { (transmit card (write step form) w).2 with
          channel := { w.channel with
            exchangesLeft := w.channel.exchangesLeft - 1, stopped := true } }) :=
      if_pos accepts
    have broken : ¬ x.Accepted := by
      rintro ⟨good, long, fits⟩
      have good' : answer.ok = true := good
      have long' : statusBytes ≤ answer.length := long
      have fits' : answer.length ≤ offered := fits
      simp only [good', Bool.not_true, Bool.false_or, Bool.or_eq_true, decide_eq_true_eq] at accepts
      omega
    rw [run]
    refine ⟨⟨rfl, ⟨real, trivial⟩, spent, overlay_length _ _ _, rfl, rfl, Nat.le_refl _, ?_⟩,
      .inl ⟨rfl, broken⟩⟩
    intro y member accepted
    obtain rfl : y = x := by simpa using member
    exact absurd accepted broken
  | false =>
    have run : (transmitted card (write step form)).exec w = (.ok answer.length,
        { (transmit card (write step form) w).2 with
          highWater := max w.highWater (w.used + answer.length) }) :=
      if_neg (Bool.eq_false_iff.mp accepts)
    simp only [Bool.or_eq_false_iff, Bool.not_eq_false', decide_eq_false_iff_not,
      Nat.not_lt] at accepts
    obtain ⟨⟨good, long⟩, fits⟩ := accepts
    rw [run]
    refine ⟨⟨rfl, ⟨real, trivial⟩, spent, overlay_length _ _ _, rfl, rfl, Nat.le_max_left _ _, ?_⟩,
      .inr ⟨answer.length, rfl, ⟨good, long, fits⟩, rfl, rfl, rfl, rfl, overlay_take⟩⟩
    intro y member _
    obtain rfl : y = x := by simpa using member
    exact Nat.le_max_right _ _

theorem transmitted_traced {step : Command} {form : Form} {w : Wire}
    (encoded : formGet sizeMax step.data.length step.ne format = .ok form)
    (room : statusBytes ≤ w.response.length - w.used) (left : w.channel.exchangesLeft ≠ 0) :
    ∃ x, x.step = step ∧
      Traces card sizeMax format w [x] ((transmitted card (write step form)).exec w).2 ∧
      (((transmitted card (write step form)).exec w).1 = .error .error ∨
        ∃ received, ((transmitted card (write step form)).exec w).1 = .ok received ∧
          Answered w x received ((transmitted card (write step form)).exec w).2) := by
  obtain ⟨x, same, traces, ends⟩ := @transmitted_exchanged card _ _ _ _ _ encoded room left
  exact ⟨x, same, traces, ends.imp And.left id⟩

theorem transmitStep_traced {step : Command} {w : Wire} :
    ((∃ e, (transmitStep card sizeMax format step).exec w = (.error e, w))) ∨ ∃ x, x.step = step ∧
        Traces card sizeMax format w [x] ((transmitStep card sizeMax format step).exec w).2 ∧
        (((transmitStep card sizeMax format step).exec w).1 = .error .error ∨
          ∃ received, ((transmitStep card sizeMax format step).exec w).1 = .ok received ∧
            Answered w x received ((transmitStep card sizeMax format step).exec w).2) := by
  cases encoded : formGet sizeMax step.data.length step.ne format with
  | error e =>
    refine .inl ⟨e, ?_⟩
    simp [transmitStep, encoded, lift]
  | ok form =>
    have run : (transmitStep card sizeMax format step).exec w =
        if form.size > w.channel.scratchCapacity ||
          (w.channel.maxCommandBytes ≠ 0 && form.size > w.channel.maxCommandBytes) ||
          w.response.length - w.used < statusBytes || w.channel.exchangesLeft = 0 then
          (.error .limit, w)
        else (transmitted card (write step form)).exec w := by
      simp only [transmitStep, exec_bind, encoded, lift, exec_pure, exec_state]
      split <;> rfl
    rw [run]
    split
    · exact .inl ⟨.limit, rfl⟩
    · rename_i fits
      simp only [Bool.or_eq_true, decide_eq_true_eq, not_or, Nat.not_lt] at fits
      exact .inr (transmitted_traced encoded fits.1.2 fits.2)

structure Holds (w : Wire) (answer : Response) (w' : Wire) : Prop where
  used : w'.used = w.used
  data : w'.response.take (w.used + answer.data.length) = w.response.take w.used ++ answer.data

theorem responseRead_take {answer : Response} (read : responseRead encoded = .ok answer) :
    answer.data = encoded.take answer.data.length := by
  unfold responseRead at read
  split at read
  · cases read
  simp only at read
  split at read
  · cases read
  split at read
  · cases read
  · cases read
    simp

theorem answered_or_failed {A : Type} {step : Command} {w : Wire} (rest : Response → WireProgram A) :
    let program : WireProgram A := do
      let received ← transmitStep card sizeMax format step
      let answer ← answerRead received
      rest answer
    (∃ e trace w', program.exec w = (.error e, w') ∧ Traces card sizeMax format w trace w' ∧
        (trace = [] ∨ ∃ x, x.step = step ∧ trace = [x])) ∨
      ∃ x answer w', x.step = step ∧ x.Says answer ∧ Traces card sizeMax format w [x] w' ∧
        Holds w answer w' ∧ program.exec w = (rest answer).exec w' := by
  intro program
  have traced := @transmitStep_traced card sizeMax format step w
  generalize ran : (transmitStep card sizeMax format step).exec w = outcome at traced
  obtain ⟨value, w'⟩ := outcome
  rcases traced with ⟨e, failed⟩ | ⟨x, same, traces, failed | ⟨received, done, answered⟩⟩
  · cases failed
    exact .inl ⟨e, [], w, by simp [program, exec_bind, ran], Traces.refl w, .inl rfl⟩
  · obtain rfl : value = .error .error := failed
    exact .inl ⟨.error, [x], w', by simp [program, exec_bind, ran], traces, .inr ⟨x, same, rfl⟩⟩
  · obtain rfl : value = .ok received := done
    have bytes : (w'.response.drop w'.used).take received = x.received := by
      rw [answered.used]
      exact answered.bytes
    cases read : responseRead x.received with
    | error e =>
      refine .inl ⟨.invalid, [x], w', ?_, traces, .inr ⟨x, same, rfl⟩⟩
      simp [program, exec_bind, ran, answerRead, bytes, read]
    | ok answer =>
      refine .inr ⟨x, answer, w', same, ⟨answered.accepted, read⟩, traces, ⟨answered.used, ?_⟩, ?_⟩
      · have taken := responseRead_take read
        have short : answer.data.length ≤ received := by
          rw [taken, ← answered.bytes, List.take_take, List.length_take]
          exact Nat.le_trans (Nat.min_le_left _ _) (Nat.min_le_right _ _)
        rw [← answered.bytes, List.take_take, Nat.min_eq_left short] at taken
        rw [List.take_add, answered.kept, ← taken]
      · simp [program, exec_bind, ran, answerRead, bytes, read]

def statedNe (sw : Nat) : Nat := if sw % 256 = 0 then shortMaxNe else sw % 256

def Collect.correct (c : Collect) (sw : Nat) : Collect :=
  { c with step := { c.step with ne := statedNe sw }, corrected := true, cardStated := true }

def Collect.getResponse (channel : Channel) (cla : UInt8) (sm : Bool) (sw : Nat) : Collect where
  step := Apdu.getResponse channel cla (sw % 256)
  correctable := !sm
  corrected := false
  cardStated := true

section

variable (channel : Channel) (cla : UInt8) (sm : Bool)

/-- The exchanges of `response_collect` from the variables `c` on, and its
    response: none when it fails. -/
inductive Collected : Collect → List Exchange → Option Response → Prop
  | refused {c : Collect} : Collected c [] none
  | failed {c : Collect} {x : Exchange} (same : x.step = c.step) : Collected c [x] none
  | ended {c : Collect} {x : Exchange} {answer : Response} (same : x.step = c.step)
      (read : x.Says answer) (within : answer.data.length ≤ c.step.ne)
      (last : answer.sw / 256 ≠ 0x61) : Collected c [x] (some answer)
  | again {c : Collect} {x : Exchange} {answer : Response} {rest : List Exchange}
      {out : Option Response} (same : x.step = c.step) (read : x.Says answer)
      (wrong : answer.sw / 256 = 0x6c) (correctable : c.correctable = true)
      (first : c.corrected = false) (later : Collected (c.correct answer.sw) rest out) :
      Collected c (x :: rest) out
  | more {c : Collect} {x : Exchange} {answer : Response} {rest : List Exchange}
      {out : Option Response} (same : x.step = c.step) (read : x.Says answer)
      (within : answer.data.length ≤ c.step.ne) (more : answer.sw / 256 = 0x61)
      (later : Collected (Collect.getResponse channel cla sm answer.sw) rest out) :
      Collected c (x :: rest) (out.map fun final => ⟨answer.data ++ final.data, final.sw⟩)

end

/-- The fragment of a chain at `offset`. -/
def fragment (command : Command) (offset : Nat) : Command :=
  { command with
    data := (command.data.drop offset).take shortMaxNc, ne := 0,
    cla := command.cla ||| claChaining }

/-- The fragments from `offset` on, each once and in order. -/
def Fragments (command : Command) : Nat → List Exchange → Prop
  | _, [] => True
  | offset, x :: rest => x.step = fragment command offset ∧
      Fragments command (offset + shortMaxNc) rest

def Command.sm (command : Command) : Bool := decide (command.cla &&& claSmMask ≠ 0)

/-- The variables with which `response_collect` starts. -/
def Collect.start (step : Command) (chained : Bool) : Collect where
  step := step
  correctable := !chained && !step.sm && step.ne ≠ 0
  corrected := false
  cardStated := false

/-- The command, or its last fragment, as `response_collect` gets it. -/
def lastStep (channel : Channel) (command : Command) (offset : Nat) : Command :=
  { command with data := command.data.drop offset, ne := responseNe channel command.ne }

def Chained (format : Format) (command : Command) : Prop :=
  format = .short ∧ command.data.length > shortMaxNc

def fragmentCount (command : Command) : Nat := (command.data.length - 1) / shortMaxNc

/-- The exchanges of `transceive_run` and its response: none when it fails. -/
inductive Transcript (channel : Channel) (format : Format) (command : Command) :
    List Exchange → Option Response → Prop
  | whole {trace : List Exchange} {out : Option Response} (unchained : ¬ Chained format command)
      (collected : Collected channel command.cla command.sm
        (Collect.start (lastStep channel command 0) false) trace out) :
      Transcript channel format command trace out
  | broken {trace : List Exchange} (chained : Chained format command)
      (fragments : Fragments command 0 trace) (few : trace.length ≤ fragmentCount command) :
      Transcript channel format command trace none
  | refused {trace : List Exchange} {x : Exchange} {sw : Nat} (chained : Chained format command)
      (fragments : Fragments command 0 (trace ++ [x]))
      (few : trace.length < fragmentCount command) (read : x.Says ⟨[], sw⟩) :
      Transcript channel format command (trace ++ [x]) (some ⟨[], sw⟩)
  | chain {sent trace : List Exchange} {out : Option Response} (chained : Chained format command)
      (fragments : Fragments command 0 sent) (all : sent.length = fragmentCount command)
      (collected : Collected channel command.cla command.sm
        (Collect.start (lastStep channel command (shortMaxNc * fragmentCount command)) true)
        trace out) :
      Transcript channel format command (sent ++ trace) out

structure Finished (w : Wire) (response : Response) (w' : Wire) : Prop where
  used : w'.used = w.used + response.data.length
  data : w'.response.take w'.used = w.response.take w.used ++ response.data
  sw : w'.sw = response.sw

def Outcome (w : Wire) (out : Option Response) (result : Except Result Unit) (w' : Wire) : Prop :=
  match result, out with
  | .ok _, some response => Finished w response w'
  | .error _, none => True
  | _, _ => False

variable {card : Card} {sizeMax : Nat} {format : Format} {cla : UInt8} {sm : Bool}

theorem responseRead_wrongLe {answer : Response} (read : responseRead encoded = .ok answer)
    (wrong : answer.sw / 256 = 0x6c) : answer.data = [] := by
  unfold responseRead at read
  split at read
  · cases read
  simp only at read
  split at read
  · cases read
  split at read
  · cases read
  · rename_i long _ plain
    cases read
    simp only at wrong
    have low := (encoded.getD (encoded.length - statusBytes + 1) 0).toNat_lt
    have high : (encoded.getD (encoded.length - statusBytes) 0).toNat = 0x6c := by omega
    simp only [high, Bool.and_eq_true, decide_eq_true_eq, not_and] at plain
    have empty : encoded.length - statusBytes = 0 := by
      by_contra full
      exact plain ⟨full, by decide⟩ (by decide)
    simp [empty]

variable {w w' : Wire}

theorem collectStep_traced {c : Collect} {result : Except Result (Option Collect)}
    (ran : (collectStep card sizeMax format cla sm c).exec w = (result, w')) :
    (∃ e trace, result = .error e ∧ Traces card sizeMax format w trace w' ∧
        (trace = [] ∨ ∃ x, x.step = c.step ∧ trace = [x])) ∨
      ∃ x answer, x.step = c.step ∧ x.Says answer ∧ answer.data.length ≤ c.step.ne ∧
        Traces card sizeMax format w [x] w' ∧ Finished w answer w' ∧
        (result = .ok none ∧ answer.sw / 256 ≠ 0x61 ∨
          answer.sw / 256 = 0x6c ∧ c.correctable = true ∧ c.corrected = false ∧
            result = .ok (some (c.correct answer.sw)) ∨ answer.sw / 256 = 0x61 ∧
            result = .ok (some (Collect.getResponse w.channel cla sm answer.sw))) := by
  rw [collectStep, exec_bind] at ran
  simp only [exec_state] at ran
  split at ran
  · cases ran
    exact .inl ⟨.limit, [], rfl, Traces.refl w, .inl rfl⟩
  rcases answered_or_failed _ with
    ⟨e, trace, w₁, failed, traces, shape⟩ | ⟨x, answer, w₁, same, read, traces, holds, went⟩
  · rw [failed] at ran
    cases ran
    exact .inl ⟨e, trace, rfl, traces, shape⟩
  · rw [went] at ran
    split at ran
    · cases ran
      exact .inl ⟨.invalid, [x], rfl, traces, .inr ⟨x, same, rfl⟩⟩
    rename_i within
    refine .inr ⟨x, answer, same, read, Nat.not_lt.mp within, ?_⟩
    simp only [exec_bind, exec_change] at ran
    split at ran
    · rename_i wrong
      have empty := responseRead_wrongLe read.2 wrong
      have finished : Finished w answer { w₁ with sw := answer.sw } :=
        ⟨by simpa [empty] using holds.used, by simpa [empty, holds.used] using holds.data, rfl⟩
      split at ran
      · cases ran
        exact ⟨traces.counters _ _, finished, .inl ⟨rfl, by omega⟩⟩
      · rename_i correctable
        simp only [Bool.or_eq_true, Bool.not_eq_true', not_or, Bool.not_eq_false,
          Bool.not_eq_true] at correctable
        cases ran
        exact ⟨traces.counters _ _, finished,
          .inr (.inl ⟨wrong, correctable.1, correctable.2, rfl⟩)⟩
    · have finished : Finished w answer
          { w₁ with used := w₁.used + answer.data.length, sw := answer.sw } :=
        ⟨by rw [holds.used], by rw [holds.used]; exact holds.data, rfl⟩
      simp only [exec_bind, exec_change] at ran
      split at ran
      · rename_i last
        cases ran
        exact ⟨traces.counters _ _, finished, .inl ⟨rfl, last⟩⟩
      · rename_i more
        simp only [exec_bind, exec_state] at ran
        cases ran
        refine ⟨traces.counters _ _, finished, .inr (.inr ⟨by omega, ?_⟩)⟩
        simp only [Collect.getResponse, getResponse, responseNe, traces.limit, traces.plain]

theorem Finished.trans {w w' : Wire} {first final : Response} (here : Finished w first w')
    (later : Finished w' final w'') : Finished w ⟨first.data ++ final.data, final.sw⟩ w'' := by
  refine ⟨?_, ?_, later.sw⟩
  · rw [later.used, here.used, List.length_append, Nat.add_assoc]
  · rw [later.data, here.data, List.append_assoc]

theorem collectLoop_traced {channel : Channel} (passes : Nat) {c : Collect} {w w' : Wire}
    {result : Except Result Unit}
    (ran : (collectLoop card sizeMax format cla sm passes c).exec w = (result, w'))
    (limit : w.channel.maxResponseBytes = channel.maxResponseBytes)
    (plain : w.channel.getResponsePlainCla = channel.getResponsePlainCla) :
    ∃ trace out, Collected channel cla sm c trace out ∧ Traces card sizeMax format w trace w' ∧
      Outcome w out result w' := by
  induction passes generalizing c w with
  | zero =>
    cases ran
    exact ⟨[], none, .refused, Traces.refl _, trivial⟩
  | succ passes ih =>
    rw [collectLoop, exec_bind] at ran
    generalize stepped : (collectStep card sizeMax format cla sm c).exec w = outcome at ran
    obtain ⟨value, w₁⟩ := outcome
    rcases collectStep_traced stepped with ⟨e, trace, rfl, traces, shape⟩ |
      ⟨x, answer, same, read, within, traces, finished, ends⟩
    · cases ran
      rcases shape with rfl | ⟨x, same, rfl⟩
      · exact ⟨[], none, .refused, traces, trivial⟩
      · exact ⟨[x], none, .failed same, traces, trivial⟩
    have limit' := traces.limit.trans limit
    have plain' := traces.plain.trans plain
    rcases ends with ⟨rfl, last⟩ | ⟨wrong, correctable, first, rfl⟩ | ⟨more, rfl⟩
    · cases ran
      exact ⟨[x], some answer, .ended same read within last, traces, finished⟩
    · obtain ⟨rest, out, collected, later, outcome⟩ := ih ran limit' plain'
      refine ⟨x :: rest, out, .again same read wrong correctable first collected,
        traces.trans later, ?_⟩
      have empty := responseRead_wrongLe read.2 wrong
      cases result with
      | error e =>
        cases out with
        | none => trivial
        | some final => exact outcome
      | ok _ =>
        cases out with
        | none => exact outcome
        | some final =>
          have both := finished.trans outcome
          rw [empty] at both
          exact both
    · have same' : Collect.getResponse w.channel cla sm answer.sw =
          Collect.getResponse channel cla sm answer.sw := by
        simp only [Collect.getResponse, getResponse, responseNe, limit, plain]
      simp only [same'] at ran
      obtain ⟨rest, out, collected, later, outcome⟩ := ih ran limit' plain'
      refine ⟨x :: rest, _, .more same read within more collected, traces.trans later, ?_⟩
      cases result with
      | error e =>
        cases out with
        | none => trivial
        | some final => exact outcome
      | ok _ =>
        cases out with
        | none => exact outcome
        | some final => exact finished.trans outcome

theorem responseCollect_traced {channel : Channel} {step : Command} {chained : Bool}
    (ran : (responseCollect card sizeMax format step chained).exec w = (result, w'))
    (limit : w.channel.maxResponseBytes = channel.maxResponseBytes)
    (plain : w.channel.getResponsePlainCla = channel.getResponsePlainCla) :
    ∃ trace out, Collected channel step.cla step.sm (Collect.start step chained) trace out ∧
      Traces card sizeMax format w trace w' ∧ Outcome w out result w' := by
  rw [responseCollect, exec_bind] at ran
  exact collectLoop_traced _ ran limit plain

variable {command : Command}

theorem chainFragment_traced {result : Except Result Bool}
    (ran : (chainFragment card sizeMax format command offset).exec w = (result, w')) :
    (∃ e trace, result = .error e ∧ Traces card sizeMax format w trace w' ∧
        (trace = [] ∨ ∃ x, x.step = fragment command offset ∧ trace = [x])) ∨
      ∃ x sw, x.step = fragment command offset ∧ x.Says ⟨[], sw⟩ ∧
        Traces card sizeMax format w [x] w' ∧
        w'.used = w.used ∧ w'.response.take w.used = w.response.take w.used ∧
        (result = .ok true ∧ w'.sw = sw ∨ result = .ok false) := by
  unfold chainFragment at ran
  rcases answered_or_failed _ with
    ⟨e, trace, w₁, failed, traces, shape⟩ | ⟨x, answer, w₁, same, read, traces, holds, went⟩
  · rw [failed] at ran
    cases ran
    exact .inl ⟨e, trace, rfl, traces, shape⟩
  · rw [went] at ran
    split at ran
    · cases ran
      exact .inl ⟨.invalid, [x], rfl, traces, .inr ⟨x, same, rfl⟩⟩
    rename_i bare
    simp only [Bool.or_eq_true, decide_eq_true_eq, not_or, not_not] at bare
    have empty : answer.data = [] := List.length_eq_zero_iff.mp bare.1
    have kept : w₁.response.take w.used = w.response.take w.used := by
      simpa [empty] using holds.data
    have read' : x.Says ⟨[], answer.sw⟩ := by
      rw [← empty]
      exact read
    split at ran
    · simp only [exec_bind, exec_change] at ran
      cases ran
      exact .inr ⟨x, answer.sw, same, read', traces.counters _ _, holds.used, kept, .inl ⟨rfl, rfl⟩⟩
    · cases ran
      exact .inr ⟨x, answer.sw, same, read', traces, holds.used, kept, .inr rfl⟩

theorem chainSend_traced (fragments offset : Nat) {result : Except Result (Option Nat)}
    (ran : (chainSend card sizeMax format command fragments offset).exec w = (result, w')) :
    ∃ trace, Traces card sizeMax format w trace w' ∧ Fragments command offset trace ∧
      trace.length ≤ fragments ∧ ((∃ e, result = .error e) ∨
        w'.used = w.used ∧ w'.response.take w.used = w.response.take w.used ∧
          ((∃ before x, trace = before ++ [x] ∧ x.Says ⟨[], w'.sw⟩ ∧ result = .ok none) ∨
            trace.length = fragments ∧ result = .ok (some (offset + shortMaxNc * fragments)))) := by
  induction fragments generalizing offset w with
  | zero =>
    cases ran
    exact ⟨[], Traces.refl _, trivial, Nat.le_refl _, .inr ⟨rfl, rfl, .inr ⟨rfl, rfl⟩⟩⟩
  | succ fragments ih =>
    rw [chainSend, exec_bind] at ran
    generalize first : (chainFragment card sizeMax format command offset).exec w = outcome at ran
    obtain ⟨value, w₁⟩ := outcome
    rcases chainFragment_traced first with ⟨e, trace, rfl, traces, shape⟩ |
      ⟨x, sw, same, read, traces, used, kept, ⟨rfl, told⟩ | rfl⟩
    · cases ran
      rcases shape with rfl | ⟨x, same, rfl⟩
      · exact ⟨[], traces, trivial, Nat.zero_le _, .inl ⟨e, rfl⟩⟩
      · exact ⟨[x], traces, ⟨same, trivial⟩, Nat.succ_le_succ (Nat.zero_le _), .inl ⟨e, rfl⟩⟩
    · cases ran
      refine ⟨[x], traces, ⟨same, trivial⟩, Nat.succ_le_succ (Nat.zero_le _),
        .inr ⟨used, kept, .inl ⟨[], x, rfl, ?_, rfl⟩⟩⟩
      rw [told]
      exact read
    · obtain ⟨rest, later, steps, few, ends⟩ := ih _ ran
      refine ⟨x :: rest, traces.trans later, ⟨same, steps⟩, Nat.succ_le_succ few, ?_⟩
      rcases ends with failed | ⟨used', kept', ⟨before, last, rfl, read', rfl⟩ | ⟨all, rfl⟩⟩
      · exact .inl failed
      · rw [used] at used' kept'
        exact .inr ⟨used', kept'.trans kept, .inl ⟨x :: before, last, rfl, read', rfl⟩⟩
      · rw [used] at used' kept'
        refine .inr ⟨used', kept'.trans kept, .inr ⟨by simp [all], ?_⟩⟩
        rw [Nat.mul_succ]
        congr 2
        omega

/-- Every run of `transceive_run` has a transcript. -/
theorem transceiveRun_traced
    (ran : (transceiveRun card sizeMax format command).exec w = (result, w')) :
    ∃ trace out, Transcript w.channel format command trace out ∧
      Traces card sizeMax format w trace w' ∧ Outcome w out result w' := by
  rw [transceiveRun, exec_bind] at ran
  simp only [exec_state] at ran
  split at ran
  · rename_i chained
    have chained' : Chained format command := by
      simpa [Chained] using chained
    split at ran
    · rw [exec_bind] at ran
      generalize sends : (chainSend card sizeMax format command
        ((command.data.length - 1) / shortMaxNc) 0).exec w = outcome at ran
      obtain ⟨value, w₁⟩ := outcome
      obtain ⟨sent, traces, fragments, few, ends⟩ := chainSend_traced _ _ sends
      rcases ends with ⟨e, rfl⟩ | ⟨used, kept, ⟨before, x, rfl, read, rfl⟩ | ⟨all, rfl⟩⟩
      · cases ran
        exact ⟨sent, none, .broken chained' fragments few, traces, trivial⟩
      · cases ran
        refine ⟨before ++ [x], some ⟨[], w'.sw⟩, .refused chained' fragments ?_ read, traces,
          ⟨used, ?_, rfl⟩⟩
        · rw [List.length_append] at few
          exact few
        · rw [used, List.append_nil]
          exact kept
      · simp only [Nat.zero_add] at ran
        obtain ⟨trace, out, collected, later, outcome⟩ :=
          responseCollect_traced ran traces.limit traces.plain
        refine ⟨sent ++ trace, out, .chain chained' fragments all collected, traces.trans later, ?_⟩
        cases result with
        | error e =>
          cases out with
          | none => trivial
          | some final => exact outcome
        | ok _ =>
          cases out with
          | none => exact outcome
          | some final =>
            refine ⟨?_, ?_, outcome.sw⟩
            · rw [← used]
              exact outcome.used
            · rw [← kept, ← used]
              exact outcome.data
    · cases ran
      exact ⟨[], none, .broken chained' trivial (Nat.zero_le _), Traces.refl _, trivial⟩
  · rename_i unchained
    obtain ⟨trace, out, collected, traces, outcome⟩ := responseCollect_traced ran rfl rfl
    exact ⟨trace, out, .whole (by simpa [Chained] using unchained) collected, traces, outcome⟩

end TinyCrypto.Apdu
