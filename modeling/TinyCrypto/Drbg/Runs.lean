import TinyCrypto.Drbg.Envelope
import TinyCrypto.Library.Program

/-! # The DRBG over whole runs

The events of a run are read with a credit: a seeding sets it to the interval, every
output takes one. Every call keeps the credit of a live DRBG equal to what its counter
leaves.
-/

namespace TinyCrypto.Drbg

open Library

def Event.credit (credit : Nat) : Event → Nat
  | .read _ => credit
  | .seeded interval => interval
  | .produced => credit - 1
  | .failed => credit

def creditAfter (credit : Nat) (events : List Event) : Nat := events.foldl Event.credit credit

def Covered : (credit : Nat) → List Event → Prop
  | _, [] => True
  | credit, event :: rest => (event = .produced → 0 < credit) ∧ Covered (event.credit credit) rest

theorem covered_append {credit : Nat} {first second : List Event} :
    Covered credit (first ++ second) ↔
      Covered credit first ∧ Covered (creditAfter credit first) second := by
  induction first generalizing credit with
  | nil => simp [Covered, creditAfter]
  | cons event rest ih =>
    simp only [List.cons_append, Covered, ih, creditAfter, List.foldl_cons, and_assoc]

theorem covered_read {credit : Nat} {ok : Bool} : Covered credit [.read ok] := by simp [Covered]

theorem covered_failed {credit : Nat} : Covered credit [.read true, .failed] := by simp [Covered]

theorem covered_seeded {credit interval : Nat} :
    Covered credit [.read true, .seeded interval] := by simp [Covered]

theorem creditAfter_append {credit : Nat} {first second : List Event} :
    creditAfter credit (first ++ second) = creditAfter (creditAfter credit first) second := by
  simp [creditAfter]

theorem Covered.produced_le {credit : Nat} {events : List Event} (covered : Covered credit events)
    (unseeded : ∀ interval, Event.seeded interval ∉ events) : events.count .produced ≤ credit := by
  induction events generalizing credit with
  | nil => simp
  | cons event rest ih =>
    have later : ∀ interval, Event.seeded interval ∉ rest := fun interval member =>
      unseeded interval (List.mem_cons_of_mem _ member)
    have bound := ih covered.2 later
    cases event with
    | read ok => simpa [Event.credit] using bound
    | failed => simpa [Event.credit] using bound
    | seeded interval => exact absurd (List.mem_cons_self ..) (unseeded interval)
    | produced =>
      have pos := covered.1 rfl
      simp only [Event.credit] at bound
      simp only [List.count_cons_self]
      omega

theorem Covered.between {credit interval : Nat} {before between after : List Event}
    (covered : Covered credit (before ++ .seeded interval :: (between ++ after)))
    (unseeded : ∀ other, Event.seeded other ∉ between) : between.count .produced ≤ interval := by
  have later := (covered_append.mp covered).2.2
  exact (covered_append.mp later).1.produced_le unseeded

section

variable {S E : Type} {build : Build} {parts : Parts S E} {drbg : Instance S} {env : E}

def Credited (drbg : Instance S) (credit : Nat) : Prop := drbg.live = true →
    1 ≤ drbg.reseedInterval ∧ 1 ≤ drbg.reseedCounter ∧
      credit + drbg.reseedCounter = drbg.reseedInterval + 1

def Spends (credit : Nat) (left : Left S E) : Prop :=
  Covered credit left.events ∧ Credited left.drbg (creditAfter credit left.events)

inductive Reseeded (drbg : Instance S) : Left S E → Prop
  | entropy (env : E) : Reseeded drbg ⟨{ drbg with input := [] }, env, .entropy, [], [.read false]⟩
  | error (env : E) (state : S) :
      Reseeded drbg ⟨{ drbg with input := [], state, failed := true }, env, .error, [],
        [.read true, .failed]⟩
  | ok (env : E) (state : S) :
      Reseeded drbg ⟨{ drbg with input := [], state, reseedCounter := 1 }, env, .ok, [],
        [.read true, .seeded drbg.reseedInterval]⟩

theorem reseed_exits (additional : Bytes) : Reseeded drbg (reseed parts drbg additional env) := by
  rw [reseed, Instance.readEntropy]
  cases parts.fill drbg.entropy drbg.entropyBytes env with
  | mk read rest =>
    cases read with
    | false => exact .entropy rest.2
    | true =>
      cases seeds : parts.seed { drbg with input := rest.1 }
          [rest.1.take drbg.entropyBytes, additional] true with
      | mk ok state =>
        simp only [seeds]
        cases ok with
        | false => exact .error rest.2 state
        | true => exact .ok rest.2 state

inductive Produced (drbg : Instance S) (length : Nat) (env : E) : Left S E → Prop
  | error (state : S) : Produced drbg length env
        ⟨{ drbg with state, failed := true }, env, .error, List.replicate length 0, [.failed]⟩
  | ok (state : S) (bytes : Bytes) : Produced drbg length env
        ⟨{ drbg with state, reseedCounter := drbg.reseedCounter + 1 }, env, .ok, bytes, [.produced]⟩

theorem produce_exits (length : Nat) (additional : Bytes) :
    Produced drbg length env (produce parts drbg length additional env) := by
  rw [produce]
  cases parts.generate drbg length additional with
  | mk ok rest =>
    cases ok with
    | false => exact .error rest.1
    | true => exact .ok rest.1 rest.2

inductive Generated (drbg : Instance S) (env : E) (output : Bytes) (resist : Bool) : Left S E → Prop
  | argument : Generated drbg env output resist ⟨drbg, env, .argument, output, []⟩
  | limit : Generated drbg env output resist ⟨drbg, env, .limit, output, []⟩
  | unseeded {seeded : Left S E} (live : drbg.live = true) (exits : Reseeded drbg seeded)
      (failed : seeded.result ≠ .ok) :
      Generated drbg env output resist { seeded with output := List.replicate output.length 0 }
  | reseeded {seeded left : Left S E} (live : drbg.live = true) (exits : Reseeded drbg seeded)
      (ok : seeded.result = .ok) (produced : Produced seeded.drbg output.length seeded.env left) :
      Generated drbg env output resist { left with events := seeded.events ++ left.events }
  | direct {left : Left S E} (live : drbg.live = true) (plain : resist = false)
      (within : drbg.reseedCounter ≤ drbg.reseedInterval)
      (produced : Produced drbg output.length env left) : Generated drbg env output resist left

theorem generate_exits (output : Bytes) (resist : Bool) (additional : Bytes) :
    Generated drbg env output resist (generate build parts drbg output resist additional env) := by
  rw [generate]
  split
  · exact .argument
  · rename_i checks
    have live : drbg.live = true := by
      simp only [Bool.or_eq_true, not_or, Bool.not_eq_true', Bool.not_eq_false] at checks
      exact checks.1.1
    split
    · exact .limit
    · split
      · have exits := @reseed_exits S E parts drbg env additional
        simp only
        split
        · rename_i failed
          exact .unseeded live exits failed
        · rename_i ok
          exact .reseeded live exits (not_not.mp ok) (produce_exits _ _)
      · rename_i plain
        simp only [Bool.or_eq_true, decide_eq_true_eq, not_or, Bool.not_eq_true, Nat.not_lt] at plain
        exact .direct live plain.1 plain.2 (produce_exits _ _)

variable {credit : Nat} {left : Left S E}

theorem Reseeded.spends (exits : Reseeded drbg left) (live : drbg.live = true)
    (credited : Credited drbg credit) : Spends credit left := by
  cases exits with
  | entropy env => exact ⟨covered_read, credited⟩
  | error env state =>
    refine ⟨covered_failed, fun alive => ?_⟩
    simp [Instance.live] at alive
  | ok env state =>
    refine ⟨covered_seeded, fun _ => ?_⟩
    exact ⟨(credited live).1, Nat.le_refl 1, rfl⟩

theorem Produced.spends {length : Nat} (exits : Produced drbg length env left)
    (live : drbg.live = true) (credited : Credited drbg credit) (some : 0 < credit) :
    Spends credit left := by
  cases exits with
  | error state =>
    refine ⟨⟨by simp, trivial⟩, fun alive => ?_⟩
    simp [Instance.live] at alive
  | ok state bytes =>
    obtain ⟨pos, started, total⟩ := credited live
    refine ⟨⟨fun _ => some, trivial⟩, fun _ => ⟨pos, ?_, ?_⟩⟩
    · exact Nat.le_succ_of_le started
    · change credit - 1 + (drbg.reseedCounter + 1) = drbg.reseedInterval + 1
      omega

theorem Generated.spends {output : Bytes} {resist : Bool}
    (exits : Generated drbg env output resist left) (credited : Credited drbg credit) :
    Spends credit left := by
  cases exits with
  | argument => exact ⟨trivial, credited⟩
  | limit => exact ⟨trivial, credited⟩
  | unseeded live exits failed => exact exits.spends live credited
  | reseeded live exits ok produced =>
    have first := exits.spends live credited
    cases exits with
    | entropy env => cases ok
    | error env state => cases ok
    | ok env state =>
      have second := produced.spends live first.2 (credited live).1
      refine ⟨covered_append.mpr ⟨first.1, second.1⟩, ?_⟩
      rw [creditAfter_append]
      exact second.2
  | direct live plain within produced =>
    obtain ⟨-, -, total⟩ := credited live
    exact produced.spends live credited (by omega)

theorem uninstantiated_credited (credit : Nat) :
    Credited (Instance.uninstantiated parts) credit := by
  intro live
  simp [Instance.live, Instance.uninstantiated] at live

inductive Instantiated (parts : Parts S E) : Left S E → Prop
  | failed {env : E} {result : Result} {events : List Event}
      (failed : (result, events) = (.entropy, [.read false]) ∨
        (result, events) = (.error, [.read true, .failed]) ∨
        result ≠ .ok ∧ result ≠ .error ∧ events = []) :
      Instantiated parts ⟨Instance.uninstantiated parts, env, result, [], events⟩
  | ok {drbg : Instance S} {env : E} (live : drbg.live = true) (counter : drbg.reseedCounter = 1)
      (interval : 1 ≤ drbg.reseedInterval) :
      Instantiated parts ⟨drbg, env, .ok, [], [.read true, .seeded drbg.reseedInterval]⟩

theorem mechanismParameters_error {config : Config} {result : Result}
    (failed : mechanismParameters build config = .error result) :
    result ≠ .ok ∧ result ≠ .error := by
  simp only [mechanismParameters, hashParameters, hmacParameters, ctrParameters] at failed
  repeat' split at failed
  all_goals cases failed
  all_goals decide

theorem instantiate_exits (config : Config) (source : Nat) (nonce personalization : Bytes) :
    Instantiated parts (instantiate build parts config source nonce personalization env) := by
  rw [instantiate]
  split
  · exact .failed (.inr (.inr ⟨by decide, by decide, rfl⟩))
  split
  · rename_i result failed
    have named := mechanismParameters_error failed
    exact .failed (.inr (.inr ⟨named.1, named.2, rfl⟩))
  split
  · exact .failed (.inr (.inr ⟨by decide, by decide, rfl⟩))
  rename_i entropyBytes nonceBytes _
  simp only [Instance.readEntropy]
  cases parts.fill source (entropyBytes + nonceBytes) env with
  | mk read rest =>
    cases read with
    | false => exact .failed (.inl rfl)
    | true =>
      simp only
      split
      · refine .ok rfl rfl ?_
        change 1 ≤ if config.reseedInterval = 0 then maxReseedInterval else config.reseedInterval
        split
        · decide
        · omega
      · exact .failed (.inr (.inl rfl))

theorem Instantiated.spends (exits : Instantiated parts left) : Spends credit left := by
  cases exits with
  | failed failed =>
    refine ⟨?_, uninstantiated_credited _⟩
    rcases failed with same | same | ⟨-, -, rfl⟩
    · cases same
      exact covered_read
    · cases same
      exact covered_failed
    · trivial
  | ok live counter interval =>
    refine ⟨covered_seeded, fun _ => ⟨interval, Nat.le_of_eq counter.symm, ?_⟩⟩
    rw [counter]
    rfl

theorem randomLoop_spends {written output : Bytes} {requests : List Nat}
    (credited : Credited drbg credit) :
    Spends credit (randomLoop build parts drbg env written output requests) := by
  induction requests generalizing drbg env written output credit with
  | nil => exact ⟨trivial, credited⟩
  | cons chunk rest ih =>
    have here := (@generate_exits S E build parts drbg env (output.take chunk) false []).spends
      credited
    rw [randomLoop]
    generalize generate build parts drbg (output.take chunk) false [] env = left at here ⊢
    simp only
    split
    · exact here
    · have later := @ih left.drbg left.env _ (written ++ left.output) (output.drop chunk) here.2
      refine ⟨covered_append.mpr ⟨here.1, later.1⟩, ?_⟩
      rw [creditAfter_append]
      exact later.2

theorem callLeft_spends (call : Call) (credited : Credited drbg credit) :
    Spends credit (callLeft build parts drbg env call) := by
  cases call with
  | instantiate config source nonce personalization =>
    exact (instantiate_exits config source nonce personalization).spends
  | reseed additional =>
    change Spends credit (reseedCall build parts drbg additional env)
    rw [reseedCall]
    split
    · exact ⟨trivial, credited⟩
    · rename_i checks
      have live : drbg.live = true := by
        simp only [Bool.or_eq_true, not_or, Bool.not_eq_true', Bool.not_eq_false] at checks
        exact checks.1
      exact (reseed_exits additional).spends live credited
  | generate output resist additional =>
    exact (generate_exits output resist additional).spends credited
  | random output => exact randomLoop_spends credited
  | uninstantiate => exact ⟨trivial, uninstantiated_credited _⟩

def Refuses : Call → Reply → Prop
  | .instantiate .., _ => True
  | .reseed _, reply => reply.result = .argument
  | .generate output _ _, reply => reply.result = .argument ∧ reply.output = output
  | .random output, reply => reply.result = .error ∧ reply.output = output
  | .uninstantiate, _ => True

def Call.isInstantiate : Call → Bool
  | .instantiate .. => true
  | _ => false

theorem chunks_ne_nil (length : Nat) : chunks length ≠ [] := by
  intro none
  simp only [chunks, List.append_eq_nil_iff, List.replicate_eq_nil_iff] at none
  obtain ⟨whole, rest⟩ := none
  split at rest
  · cases rest
  · rename_i part
    simp only [Bool.or_eq_true, decide_eq_true_eq, not_or, not_not] at part
    have parts := Nat.div_add_mod length maxRequestBytes
    rw [whole, part.1] at parts
    exact part.2 parts.symm

theorem generate_dead (dead : drbg.live = false) (output : Bytes) (resist : Bool)
    (additional : Bytes) :
    generate build parts drbg output resist additional env = ⟨drbg, env, .argument, output, []⟩ := by
  rw [generate, dead]
  simp

theorem random_dead (dead : drbg.live = false) (output : Bytes) :
    random build parts drbg output env = ⟨drbg, env, .error, output, []⟩ := by
  rw [random]
  cases requests : chunks output.length with
  | nil => exact absurd requests (chunks_ne_nil _)
  | cons chunk rest => simp [randomLoop, generate_dead dead]

theorem callLeft_dead (dead : drbg.live = false) {call : Call} (other : call.isInstantiate = false) :
    (callLeft build parts drbg env call).drbg.live = false ∧
      Refuses call (step build parts (drbg, env) call).1 := by
  cases call with
  | instantiate config source nonce personalization => cases other
  | reseed additional =>
    have left : reseedCall build parts drbg additional env = ⟨drbg, env, .argument, [], []⟩ := by
      rw [reseedCall, dead]
      simp
    simp only [step, callLeft, left]
    exact ⟨dead, rfl⟩
  | generate output resist additional =>
    simp only [step, callLeft, generate_dead dead]
    exact ⟨dead, rfl, rfl⟩
  | random output =>
    simp only [step, callLeft, random_dead dead]
    exact ⟨dead, rfl, rfl⟩
  | uninstantiate => exact ⟨rfl, trivial⟩

/-- A call ends with ERROR exactly when a primitive failed, and the DRBG is then
    dead. -/
def Fails (left : Left S E) : Prop := (left.result = .error ↔ .failed ∈ left.events) ∧
    (.failed ∈ left.events → left.drbg.live = false)

theorem Reseeded.fails (exits : Reseeded drbg left) : Fails left := by
  cases exits <;> simp [Fails, Instance.live]

theorem Produced.fails {length : Nat} (exits : Produced drbg length env left) : Fails left := by
  cases exits <;> simp [Fails, Instance.live]

theorem Generated.fails {output : Bytes} {resist : Bool}
    (exits : Generated drbg env output resist left) : Fails left := by
  cases exits with
  | argument => simp [Fails]
  | limit => simp [Fails]
  | unseeded live exits failed => exact exits.fails
  | reseeded live exits ok produced =>
    cases exits with
    | entropy env => cases ok
    | error env state => cases ok
    | ok env state => simpa [Fails] using produced.fails
  | direct live plain within produced => exact produced.fails

theorem Instantiated.fails (exits : Instantiated parts left) : Fails left := by
  cases exits with
  | failed failed =>
    refine ⟨?_, fun _ => rfl⟩
    rcases failed with same | same | ⟨-, named, rfl⟩
    · cases same
      simp
    · cases same
      simp
    · simpa using named
  | ok live counter interval => simp [Fails]

theorem callLeft_fails {call : Call} (other : ∀ output, call ≠ .random output) :
    Fails (callLeft build parts drbg env call) := by
  cases call with
  | instantiate config source nonce personalization =>
    exact (instantiate_exits config source nonce personalization).fails
  | reseed additional =>
    change Fails (reseedCall build parts drbg additional env)
    rw [reseedCall]
    split
    · simp [Fails]
    · exact (reseed_exits additional).fails
  | generate output resist additional => exact (generate_exits output resist additional).fails
  | random output => exact absurd rfl (other output)
  | uninstantiate => simp [Fails, callLeft]

theorem randomLoop_failed {written output : Bytes} {lengths : List Nat}
    (failed : .failed ∈ (randomLoop build parts drbg env written output lengths).events) :
    (randomLoop build parts drbg env written output lengths).drbg.live = false := by
  induction lengths generalizing drbg env written output with
  | nil => cases failed
  | cons chunk rest ih =>
    have here := (@generate_exits S E build parts drbg env (output.take chunk) false []).fails
    rw [randomLoop] at failed ⊢
    generalize generate build parts drbg (output.take chunk) false [] env = left at *
    by_cases ok : left.result = .ok
    · simp only [ok, ne_eq, not_true_eq_false, ↓reduceIte, List.mem_append] at failed ⊢
      rcases failed with first | later
      · rw [← here.1, ok] at first
        cases first
      · exact ih later
    · simp only [ok, ne_eq, not_false_eq_true, ↓reduceIte] at failed ⊢
      exact here.2 failed

theorem callLeft_failed {call : Call} (failed : .failed ∈ (callLeft build parts drbg env call).events) :
    (callLeft build parts drbg env call).drbg.live = false := by
  cases call with
  | random output => exact randomLoop_failed failed
  | _ => exact (callLeft_fails (by simp)).2 failed

end

abbrev History := List (Call × Reply)

def History.events (history : History) : List Event :=
  history.reverse.flatMap fun entry => entry.2.events

theorem events_cons (entry : Call × Reply) (history : History) :
    History.events (entry :: history) = History.events history ++ entry.2.events := by
  simp [History.events]

section

variable {S E : Type} {build : Build} {parts : Parts S E} {env : E} {history : History}
  {s : Instance S × E}

theorem reaches_spends
    (reached : Reaches (step build parts) (Instance.uninstantiated parts, env) history s) :
    Covered 0 history.events ∧ Credited s.1 (creditAfter 0 history.events) := by
  induction reached with
  | start => exact ⟨trivial, uninstantiated_credited _⟩
  | @call history state reached call ih =>
    have spends := @callLeft_spends S E build parts state.1 state.2 _ call ih.2
    rw [events_cons]
    refine ⟨covered_append.mpr ⟨ih.1, spends.1⟩, ?_⟩
    rw [creditAfter_append]
    exact spends.2

theorem reaches_dead {start : Instance S × E}
    (reached : Reaches (step build parts) start history s) (dead : start.1.live = false)
    (others : ∀ entry ∈ history, entry.1.isInstantiate = false) :
    s.1.live = false ∧ ∀ entry ∈ history, Refuses entry.1 entry.2 := by
  induction reached with
  | start => exact ⟨dead, fun _ member => by cases member⟩
  | @call history state reached call ih =>
    obtain ⟨before, refused⟩ := ih fun entry member => others entry (List.mem_cons_of_mem _ member)
    obtain ⟨after, refuses⟩ := @callLeft_dead S E build parts state.1 state.2 before call
      (others _ (List.mem_cons_self ..))
    refine ⟨after, fun entry member => ?_⟩
    rcases List.mem_cons.mp member with rfl | member
    · exact refuses
    · exact refused entry member

/-- A reseed or generate call that ends without success or a failed primitive. -/
def Rejected (reply : Reply) : Prop :=
  reply.result = .argument ∨ reply.result = .limit ∨ reply.result = .entropy

structure GenerateSafe (output : Bytes) (resist : Bool) (reply : Reply) : Prop where
  zeroed : reply.result = .entropy → reply.output = List.replicate output.length 0
  untouched : reply.result = .argument ∨ reply.result = .limit → reply.output = output
  produces : reply.result = .ok → ∃ before, reply.events = before ++ [.produced] ∧
    .produced ∉ before ∧ (resist = true → .read true ∈ before)
  quiet : reply.result ≠ .ok → .produced ∉ reply.events

theorem generate_safe (drbg : Instance S) (env : E) (output : Bytes) (resist : Bool)
    (additional : Bytes) : GenerateSafe output resist
        (step build parts (drbg, env) (.generate output resist additional)).1 ∧
      (Rejected (step build parts (drbg, env) (.generate output resist additional)).1 →
        (generate build parts drbg output resist additional env).drbg.state = drbg.state ∧
        (generate build parts drbg output resist additional env).drbg.reseedCounter =
          drbg.reseedCounter) := by
  have exits := @generate_exits S E build parts drbg env output resist additional
  simp only [step, callLeft]
  generalize generate build parts drbg output resist additional env = left at *
  cases exits with
  | argument => exact ⟨⟨by simp, by simp, by simp, by simp⟩, fun _ => ⟨rfl, rfl⟩⟩
  | limit => exact ⟨⟨by simp, by simp, by simp, by simp⟩, fun _ => ⟨rfl, rfl⟩⟩
  | unseeded live exits failed =>
    cases exits with
    | entropy env => exact ⟨⟨by simp, by simp, by simp, by simp⟩, fun _ => ⟨rfl, rfl⟩⟩
    | error env state =>
      exact ⟨⟨by simp, by simp, by simp, by simp⟩, fun rejected => by simp [Rejected] at rejected⟩
    | ok env state => exact absurd rfl failed
  | reseeded live exits ok produced =>
    cases exits with
    | entropy env => cases ok
    | error env state => cases ok
    | ok env state =>
      cases produced with
      | error state =>
        exact ⟨⟨by simp, by simp, by simp, by simp⟩, fun rejected => by simp [Rejected] at rejected⟩
      | ok state bytes =>
        refine ⟨⟨by simp, by simp, fun _ => ?_, by simp⟩,
          fun rejected => by simp [Rejected] at rejected⟩
        exact ⟨[.read true, .seeded drbg.reseedInterval], rfl, by simp, by simp⟩
  | direct live plain within produced =>
    cases produced with
    | error state =>
      exact ⟨⟨by simp, by simp, by simp, by simp⟩, fun rejected => by simp [Rejected] at rejected⟩
    | ok state bytes =>
      refine ⟨⟨by simp, by simp, fun _ => ?_, by simp⟩,
        fun rejected => by simp [Rejected] at rejected⟩
      exact ⟨[], rfl, by simp, by simp [plain]⟩

theorem reseed_rejected (drbg : Instance S) (env : E) (additional : Bytes)
    (rejected : Rejected (step build parts (drbg, env) (.reseed additional)).1) :
    (reseedCall build parts drbg additional env).drbg.state = drbg.state ∧
      (reseedCall build parts drbg additional env).drbg.reseedCounter = drbg.reseedCounter := by
  simp only [step, callLeft] at rejected
  rw [reseedCall] at rejected ⊢
  split
  · exact ⟨rfl, rfl⟩
  · rename_i checks
    rw [if_neg checks] at rejected
    have exits := @reseed_exits S E parts drbg env additional
    generalize reseed parts drbg additional env = left at *
    cases exits with
    | entropy env => exact ⟨rfl, rfl⟩
    | error env state => simp [Rejected] at rejected
    | ok env state => simp [Rejected] at rejected

/-- The generate calls of `TC_DRBG_random` on a buffer. -/
def requests (output : Bytes) : List Nat → List Call
  | [] => []
  | chunk :: rest => .generate (output.take chunk) false [] :: requests (output.drop chunk) rest

/-- How a random-source call ends: every request was answered, or the last one
    made was not. -/
def RequestsEnd (lengths : List Nat) (made : History) : (result : Result) → Prop
  | .ok => made.length = lengths.length ∧ ∀ entry ∈ made, entry.2.result = .ok
  | result => result = .error ∧ ∃ last before, made = last :: before ∧ last.2.result ≠ .ok ∧
      ∀ entry ∈ before, entry.2.result = .ok

theorem randomLoop_made {start : Instance S × E} {made : History} {drbg : Instance S} {env : E}
    {written output : Bytes} {lengths : List Nat}
    (reached : Reaches (step build parts) start made (drbg, env)) :
    let left := randomLoop build parts drbg env written output lengths
    ∃ newer : History, Reaches (step build parts) start (newer ++ made) (left.drbg, left.env) ∧
        newer.reverse.map Prod.fst <+: requests output lengths ∧
        newer.events = left.events ∧ RequestsEnd lengths newer left.result := by
  induction lengths generalizing made drbg env written output with
  | nil => exact ⟨[], reached, List.nil_prefix, rfl, rfl, by simp⟩
  | cons chunk rest ih =>
    have asked := reached.call (.generate (output.take chunk) false [])
    simp only [step, callLeft] at asked
    rw [randomLoop]
    generalize generate build parts drbg (output.take chunk) false [] env = left at *
    by_cases ok : left.result = .ok
    · obtain ⟨newer, later, prefixed, events, ended⟩ :=
        @ih _ left.drbg left.env (written ++ left.output) (output.drop chunk) asked
      simp only [ok, ne_eq, not_true_eq_false, ↓reduceIte] at later ended ⊢
      refine ⟨newer ++ [(.generate (output.take chunk) false [], ⟨.ok, left.output, left.events⟩)],
        ?_, ?_, ?_, ?_⟩
      · rwa [List.append_assoc, List.singleton_append]
      · simpa [requests] using prefixed
      · simp [← events, History.events]
      · generalize (randomLoop build parts left.drbg left.env (written ++ left.output)
          (output.drop chunk) rest).result = result at ended ⊢
        cases result with
        | ok =>
          refine ⟨by simp [ended.1], fun entry member => ?_⟩
          rcases List.mem_append.mp member with member | member
          · exact ended.2 entry member
          · rw [List.mem_singleton.mp member]
        | _ =>
          obtain ⟨error, last, before, rfl, stopped, good⟩ := ended
          refine ⟨error, last, _, rfl, stopped, fun entry member => ?_⟩
          rcases List.mem_append.mp member with member | member
          · exact good entry member
          · rw [List.mem_singleton.mp member]
    · simp only [ok, ne_eq, not_false_eq_true, ↓reduceIte]
      refine ⟨[_], asked, ?_, ?_, rfl, _, [], rfl, ok, by simp⟩
      · simp [requests]
      · simp [History.events]

/-- A random-source call is its generate calls, up to the first that is not OK. -/
structure RandomSafe (build : Build) (parts : Parts S E) (s : Instance S × E) (output : Bytes)
    (made : History) : Prop where
  reached : Reaches (step build parts) s made (step build parts s (.random output)).2
  asked : made.reverse.map Prod.fst <+: requests output (chunks output.length)
  events : made.events = (step build parts s (.random output)).1.events
  ended : RequestsEnd (chunks output.length) made (step build parts s (.random output)).1.result

theorem random_safe (s : Instance S × E) (output : Bytes) :
    ∃ made, RandomSafe build parts s output made := by
  have fresh : Reaches (step build parts) s [] (s.1, s.2) := .start
  obtain ⟨made, reached, asked, events, ended⟩ :=
    @randomLoop_made S E build parts s [] s.1 s.2 [] output (chunks output.length) fresh
  rw [List.append_nil] at reached
  exact ⟨made, reached, asked, events, ended⟩

structure CallSafe (build : Build) (parts : Parts S E) (s : Instance S × E) (call : Call) :
    Prop where
  unchanged : (∀ config source nonce personalization,
      call ≠ .instantiate config source nonce personalization) →
    Rejected (step build parts s call).1 →
    (step build parts s call).2.1.state = s.1.state ∧
      (step build parts s call).2.1.reseedCounter = s.1.reseedCounter
  wiped : call.isInstantiate = true → (step build parts s call).1.result ≠ .ok →
    (step build parts s call).2.1 = Instance.uninstantiated parts
  generates : ∀ output resist additional, call = .generate output resist additional →
    GenerateSafe output resist (step build parts s call).1
  errs : (∀ output, call ≠ .random output) →
    ((step build parts s call).1.result = .error ↔ .failed ∈ (step build parts s call).1.events)
  draws : ∀ output, call = .random output → ∃ made, RandomSafe build parts s output made

theorem call_safe (s : Instance S × E) (call : Call) : CallSafe build parts s call where
  unchanged := by
    intro other rejected
    cases call with
    | instantiate config source nonce personalization =>
      exact absurd rfl (other config source nonce personalization)
    | reseed additional => exact reseed_rejected s.1 s.2 additional rejected
    | generate output resist additional =>
      exact (generate_safe s.1 s.2 output resist additional).2 rejected
    | random output =>
      obtain ⟨made, safe⟩ := @random_safe S E build parts s output
      have ended := safe.ended
      rcases rejected with result | result | result <;> rw [result] at ended <;> cases ended.1
    | uninstantiate => simp [Rejected, step, callLeft] at rejected
  wiped := by
    intro instantiates failed
    cases call with
    | instantiate config source nonce personalization =>
      have exits := @instantiate_exits S E build parts s.2 config source nonce personalization
      simp only [step, callLeft] at failed ⊢
      generalize instantiate build parts config source nonce personalization s.2 = left at *
      cases exits with
      | failed _ => rfl
      | ok _ _ _ => exact absurd rfl failed
    | _ => cases instantiates
  generates := by
    rintro output resist additional rfl
    exact (generate_safe s.1 s.2 output resist additional).1
  errs := fun other => (callLeft_fails other).1
  draws := by
    rintro output rfl
    exact random_safe s output

end

def fullBuild : Build := ⟨fun _ => true, fun _ => true, 64⟩

def counting : Parts Nat Unit where
  blank := 0
  seed _ _ _ := (true, 7)
  generate drbg length _ := (true, drbg.state + 1, List.replicate length 1)
  fill _ length _ := (true, List.replicate length 9, ())

def hmacConfig : Config where
  mechanism := some .hmac
  hash := some .sha256
  aesKeyBytes := 0
  derivationFunction := 0
  predictionResistance := 1
  entropyBytes := 0
  reseedInterval := 2

def countingRun : History × (Instance Nat × Unit) :=
  runFrom (step fullBuild counting) [] (Instance.uninstantiated counting, ())
    [.instantiate hmacConfig 0 [] [], .generate [0, 0] false [], .generate [0] false [],
      .generate [0] false []]

end TinyCrypto.Drbg
