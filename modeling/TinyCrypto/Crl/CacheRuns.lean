import TinyCrypto.Crl.Caches

/-! # Attempts of one operation

However much work an attempt has, it leaves an exact cache. So every attempt of an operation,
whatever became of the ones before, ends as one with fresh signature states and no cache.
-/

namespace TinyCrypto.Crl

open Library Library.Program Library.Metered
open X509 (Certificate SignerPath PathStatus pathStatus pathResultStatus)

section

variable {N K : Type} {c : Primitives N K} {signer : Bytes} {reference : Nat} {path : SignerPath}

theorem held_checks : ChecksFor c signer (Held c signer) where
  states _ held i inside valid := (held.states i inside).1 valid
  set _ _ _ held verified refused :=
    held.set_states (exact_set held.states verified refused) (List.length_set ..)

theorem cachedPath_held : Triple (Data (SavedExact c)) (cachedPath signer)
      (fun found => Data fun d => SavedExact c d ∧ (found.isSome = true → Held c signer d))
      fun _ => Data (SavedExact c) := by
  unfold cachedPath
  refine triple_bind (triple_data (Q := fun d' d => SavedExact c d ∧ d' = d) fun d exact_ =>
    ⟨exact_, rfl⟩) fun d' => ?_
  have missed : Triple (Data fun d => SavedExact c d ∧ d' = d)
      (pure none : ScopeProgram K (Option SignerPath))
      (fun found => Data fun d => SavedExact c d ∧ (found.isSome = true → Held c signer d))
      fun _ => Data (SavedExact c) := triple_pure fun s held => ⟨held.1, nofun⟩
  rcases kept : d'.saved with _ | ⟨saver, path⟩
  · exact missed
  refine triple_ite (fun _ => missed) fun _ => ?_
  refine triple_bind (triple_charge fun d held => held.1) fun _ => triple_pure ?_
  rintro s ⟨exact_, rfl⟩
  refine ⟨exact_, fun found => ?_⟩
  split at found
  · rename_i same
    rw [same] at kept
    obtain ⟨-, -, states, room⟩ := exact_ signer path kept
    refine ⟨exact_, states, room, fun saver' path' kept' => ?_⟩
    rw [kept] at kept'
    cases kept'
    rfl
  · cases found

structure Clearing (c : Primitives N K) (signer : Bytes) (d : Storage K) : Prop where
  unsaved : d.saved = none
  states : Exact c signer d
  room : c.records.length ≤ d.states.length

theorem Clearing.exact (clearing : Clearing c signer d) : SavedExact c d := by
  intro saver path given
  rw [clearing.unsaved] at given
  cases given

theorem signatureCacheInit_clears :
    Triple (Data fun d => d.saved = none) (signatureCacheInit c) (fun _ => Data (Clearing c signer))
      fun _ => Data (SavedExact c) := by
  have unsaved {d : Storage K} (none : d.saved = none) : SavedExact c d := by
    intro saver path given
    rw [none] at given
    cases given
  unfold signatureCacheInit
  refine triple_bind (triple_data (Q := fun d' d => d.saved = none ∧ d' = d) fun d none =>
    ⟨none, rfl⟩) fun d' => triple_ite (fun _ => triple_throw fun s held => unsaved held.1) fun room => ?_
  refine triple_bind (triple_charge fun d held => unsaved held.1) fun _ => triple_update ?_
  rintro d ⟨none, rfl⟩
  have length := unchecked_length (Nat.not_lt.mp room)
  exact ⟨none, unchecked_exact d'.states, length ▸ Nat.not_lt.mp room⟩

def Validated (c : Primitives N K) (reference : Nat) (signer : Bytes) (path : SignerPath) : Prop :=
  c.selectAnchor = .ok ∧ Verified c signer reference ∧ (c.signerPath signer).result = (false, .ok path)

theorem signerValidate_clearing (unfailed : PathsUnfailed c) :
    Keeps (Clearing c signer) (signerValidate c reference signer) (Validated c reference signer) := by
  unfold signerValidate
  refine keeps_guard fun anchor => ?_
  refine keeps_bind (keeps_answer (Q := fun r => r = .limit ∨ r = (c.signerCheck reference signer).result)
    (.inl rfl) (.inr rfl)) fun r answered => ?_
  split
  · have verified : Verified c signer reference := (answered.resolve_left (by decide)).symm
    refine keeps_bind (keeps_answer (Q := fun r => r = (false, .error .limit) ∨
      r = (c.signerPath signer).result) (.inl rfl) (.inr rfl)) fun found searched => ?_
    refine keeps_bind (keeps_update fun d clearing =>
      ⟨clearing.unsaved, clearing.states, clearing.room⟩) fun _ _ => ?_
    split
    · exact keeps_throw
    · rename_i path outcome
      have result : (c.signerPath signer).result = found := by
        rcases searched with limit | result
        · rw [limit] at outcome
          cases outcome
        · exact result.symm
      have whole : (c.signerPath signer).result = (found.1, .ok path) := result.trans (Prod.ext rfl outcome)
      exact keeps_pure ⟨not_not.mp anchor, verified, by rw [whole, unfailed signer found.1 path whole]⟩
  · exact keeps_throw

theorem savePath_held (valid : Validated c reference signer path) :
    Triple (Data (Clearing c signer)) (savePath c signer path) (fun _ => Data (Held c signer))
      fun _ => Data (SavedExact c) := by
  have plain {d : Storage K} (clearing : Clearing c signer d) : Held c signer d :=
    ⟨clearing.exact, clearing.states, clearing.room, fun _ _ given => by
      rw [clearing.unsaved] at given
      cases given⟩
  unfold savePath
  refine triple_ite (fun _ => ?_) fun _ => triple_pure fun _ clearing => plain clearing
  refine triple_bind (triple_call (fun _ _ _ clearing => clearing) fun _ _ clearing => clearing.exact)
    fun _ => ?_
  refine triple_bind (triple_update (Q := fun _ => Held c signer) fun d clearing => ?_)
    fun _ => triple_pure fun _ held => held
  refine ⟨?_, clearing.states, clearing.room, ?_⟩
  · rintro saver path' ⟨⟩
    exact ⟨valid.1, valid.2.2, clearing.states, clearing.room⟩
  · rintro saver path' ⟨⟩
    rfl

theorem attemptPath_held (unfailed : PathsUnfailed c) (inside : reference < c.records.length) :
    Triple (Data (SavedExact c)) (attemptPath c reference signer) (fun _ => Data (Held c signer))
      fun _ => Data (SavedExact c) := by
  unfold attemptPath
  refine triple_bind cachedPath_held fun found => ?_
  rcases found with _ | path
  · refine triple_bind (triple_update (Q := fun _ d => d.saved = none) fun _ _ => rfl) fun _ => ?_
    have init : Triple _ (signatureCacheInit c) (fun _ => Data (Clearing c signer)) _ :=
      signatureCacheInit_clears
    refine triple_bind init fun _ => ?_
    refine triple_bind ((signerValidate_clearing unfailed).triple (fun _ clearing => clearing)
      (fun path d clearing valid => (⟨clearing, valid⟩ : Clearing c signer d ∧
        Validated c reference signer path)) fun _ clearing => clearing.exact) fun path => ?_
    refine triple_fact (fun _ held => held.2) fun valid => ?_
    refine triple_bind (triple_update (Q := fun _ => Clearing c signer) fun d held => ?_)
      fun _ => savePath_held valid
    exact ⟨held.1.unsaved, exact_set held.1.states (fun _ => valid.2.1) nofun,
      by rw [List.length_set]; exact held.1.room⟩
  · refine triple_bind ((signatureCached_keeps held_checks inside).triple (fun _ held => held.2 rfl)
      (fun _ _ held _ => held) fun _ held => held.saved) fun _ => ?_
    exact triple_pure fun _ held => held

theorem proposalMerge_data {P : Storage K → Prop} {chosen : Option Proposal} {candidate : Proposal} :
    Keeps P (proposalMerge c chosen candidate) fun _ => True := by
  unfold proposalMerge
  split
  · exact keeps_pure trivial
  · refine keeps_bind crlOrder_keeps fun order _ => ?_
    refine keeps_ite (fun _ => keeps_pure trivial) fun _ => keeps_ite (fun _ => keeps_pure trivial) fun _ =>
      keeps_ite (fun _ => keeps_pure trivial) fun _ => keeps_ite (fun _ => keeps_pure trivial) fun _ =>
      keeps_ite (fun _ => keeps_pure trivial) fun _ => ?_
    refine keeps_bind record_keeps fun a _ => keeps_bind record_keeps fun b _ => ?_
    refine keeps_bind keeps_charge fun _ _ => keeps_bind (keeps_lift fun _ _ => trivial) fun order _ => ?_
    exact keeps_bind (keeps_lift (Q := fun _ => True) fun _ _ => trivial) fun equal _ => keeps_pure trivial

theorem scopeAttempt_exact (unfailed : PathsUnfailed c) (inside : reference < c.records.length)
    (proposes : Bool) (query : Query N) (certificate : Certificate) :
    Keeps (SavedExact c) (scopeAttempt c proposes reference query certificate) fun _ => True := by
  have note (pending : Proposal) :
      Keeps (Held c certificate.encoded) (notePending c pending) fun _ => True :=
    keeps_bind (keeps_data (Q := fun _ => True) fun _ _ => trivial) fun d _ =>
      keeps_bind proposalMerge_data fun merged _ => keeps_update fun d held => held.frame rfl rfl
  have check (path : SignerPath) (evaluated : Evaluated) :
      Keeps (Held c certificate.encoded) (attemptCheck c proposes path evaluated) fun _ => True := by
    refine keeps_bind (verifyPath_keeps fun d k held => held.frame rfl rfl) fun status _ => ?_
    dsimp only
    split
    · exact keeps_bind (note _) fun _ _ => keeps_throw
    · exact keeps_guard fun _ => keeps_pure trivial
  have publish (evaluated : Evaluated) : Keeps (Held c certificate.encoded)
      (attemptPublish proposes evaluated : ScopeProgram K Unit) fun _ => True := by
    unfold attemptPublish
    dsimp only
    split
    · exact keeps_update fun d held => held.frame rfl rfl
    · exact keeps_guard fun _ => keeps_update fun d held => held.frame rfl rfl
  refine triple_bind (attemptPath_held unfailed inside) fun path => ?_
  suffices rest : Keeps (Held c certificate.encoded) _ fun _ => True from
    rest.triple (fun _ held => held) (fun _ _ held _ => ⟨held.saved, trivial⟩) fun _ held => held.saved
  refine keeps_bind (keeps_data (Q := fun _ => True) fun _ _ => trivial) fun d _ => ?_
  refine keeps_bind (scopeEvaluate_keeps held_checks) fun evaluated _ => ?_
  refine keeps_guard fun _ => ?_
  exact keeps_bind (check path evaluated) fun _ _ => keeps_bind (publish evaluated) fun _ _ =>
    keeps_pure trivial

/-- A call of `tc_x509_crl_scope_attempt`, with the cells it is given. -/
structure Call (N : Type) where
  proposes : Bool
  reference : Nat
  query : Query N
  signer : Certificate
  evidence : Evidence
  proposal : Option Proposal
  unresolved : Option Proposal

/-- What a call leaves: its result with the reported path, the evidence and the proposals. -/
structure Report where
  outcome : Except Result SignerPath
  evidence : Evidence
  proposal : Option Proposal
  unresolved : Option Proposal

def attemptCall (c : Primitives N K) (call : Call N) : ScopeProgram K Report := do
  update fun d => { d with
    attempt := call.evidence, proposal := call.proposal, unresolved := call.unresolved }
  let outcome ← trial (scopeAttempt c call.proposes call.reference call.query call.signer)
  let d ← data
  return ⟨outcome, d.attempt, d.proposal, d.unresolved⟩

def freshCall (c : Primitives N K) (call : Call N) : ScopeProgram K Report := do
  update fun d => { d with states := List.replicate d.states.length .unchecked, saved := none }
  attemptCall (uncached c) call

def runCalls (each : Call N → ScopeProgram K Report) : List (Call N) → ScopeProgram K (List Report)
  | [] => return []
  | call :: rest => do
    let report ← each call
    let reports ← runCalls each rest
    return report :: reports

/-- The storages of one operation. No path is saved at its start; attempts run with any work, and
    between them the caller changes all but the caches. -/
inductive Operation (c : Primitives N K) : Storage K → Prop
  | start {d : Storage K} : d.saved = none → Operation c d
  | attempt {d : Storage K} (proposes : Bool) (reference : Nat) (query : Query N) (signer : Certificate)
      (work : Nat) : reference < c.records.length → Operation c d →
        Operation c ((scopeAttempt c proposes reference query signer).exec ⟨work, d⟩).2.data
  | caller {d after : Storage K} : after.states = d.states → after.saved = d.saved → Operation c d →
      Operation c after

theorem Operation.exact {d : Storage K} (unfailed : PathsUnfailed c) (operation : Operation c d) :
    SavedExact c d := by
  induction operation with
  | start none =>
    intro saver path given
    rw [none] at given
    cases given
  | attempt proposes reference query signer work inside _ ih =>
    exact (scopeAttempt_exact unfailed inside proposes query signer).after ih (fun _ _ kept => kept.1)
      fun _ _ kept => kept
  | caller states saved _ ih => exact ih.frame states saved

def Forgotten (c : Primitives N K) (d d' : Storage K) : Prop := Between c d { d' with saved := none }

theorem attemptCall_together (steady : ChecksSteadily c) (fits : CacheFits c)
    (unfailed : PathsUnfailed c) (statuses : SignatureStatuses c) {call : Call N}
    (inside : call.reference < c.records.length) :
    Together (Between c) (attemptCall c call) (attemptCall (uncached c) call) (fun _ => Between c)
      fun _ _ => False := by
  have loaded : Together (Between c)
      (update fun d => { d with
        attempt := call.evidence, proposal := call.proposal, unresolved := call.unresolved } :
        ScopeProgram K Unit)
      (update fun d => { d with
        attempt := call.evidence, proposal := call.proposal, unresolved := call.unresolved })
      (fun _ => Between c) fun _ _ => False := by
    refine together_update ?_
    rintro d d' ⟨exact_, matching⟩
    exact ⟨exact_.frame rfl rfl, { matching with attempt := rfl, proposal := rfl, unresolved := rfl }⟩
  have attempted : Together (Between c)
      (trial (scopeAttempt c call.proposes call.reference call.query call.signer))
      (trial (scopeAttempt (uncached c) call.proposes call.reference call.query call.signer))
      (fun _ => Between c) fun _ _ => False := by
    refine (Together.trial (scopeAttempt_together steady fits unfailed statuses inside call.signer)).mono
      (fun _ _ before => before) (fun outcome d d' after => ?_) fun _ _ failed => failed
    cases outcome with
    | ok path => exact after
    | error e => exact after
  refine loaded.bind fun _ => attempted.bind fun outcome => together_data ?_
  rintro d d' ⟨exact_, matching⟩
  rw [matching.attempt, matching.proposal, matching.unresolved]
  refine together_pure ?_
  rintro _ _ ⟨rfl, rfl⟩
  exact ⟨exact_, matching⟩

theorem freshCall_together (steady : ChecksSteadily c) (fits : CacheFits c)
    (unfailed : PathsUnfailed c) (statuses : SignatureStatuses c) {call : Call N}
    (inside : call.reference < c.records.length) :
    Together (Forgotten c) (attemptCall c call) (freshCall c call) (fun _ => Forgotten c)
      fun _ _ => False := by
  have forgets : Together (Forgotten c) (pure () : ScopeProgram K Unit)
      (update fun d => { d with states := List.replicate d.states.length .unchecked, saved := none })
      (fun _ => Between c) fun _ _ => False := by
    rintro d d' ⟨exact_, matching⟩
    refine ⟨.ok (), _, _, reaches_pure, reaches_update, exact_, matching.sourceFailed, matching.context,
      matching.attempt, matching.proposal, matching.unresolved, matching.evidence, matching.report, ?_, rfl⟩
    exact matching.capacity.trans List.length_replicate.symm
  refine forgets.bind fun _ => (attemptCall_together steady fits unfailed statuses inside).mono
    (fun _ _ before => before) (fun _ d d' between => ?_) fun _ _ failed => failed
  exact ⟨between.1, { between.2 with unsaved := rfl }⟩

theorem runCalls_together {P : Storage K → Storage K → Prop} {one two : Call N → ScopeProgram K Report}
    {calls : List (Call N)}
    (each : ∀ call ∈ calls, Together P (one call) (two call) (fun _ => P) fun _ _ => False) :
    Together P (runCalls one calls) (runCalls two calls) (fun _ => P) fun _ _ => False := by
  induction calls with
  | nil => exact together_pure fun _ _ before => before
  | cons call rest ih =>
    refine (each call (List.mem_cons_self ..)).bind fun report => ?_
    refine (ih fun later within => each later (List.mem_cons_of_mem _ within)).bind fun reports => ?_
    exact together_pure fun _ _ before => before

end

/-- In one operation, whatever became of the attempts before, further calls give what they would
    with fresh signature states and without a signer cache. -/
theorem caches_transparent {N K : Type} (c : Primitives N K) (steady : ChecksSteadily c)
    (fits : CacheFits c) (unfailed : PathsUnfailed c) (statuses : SignatureStatuses c)
    (d : Storage K) (operation : Operation c d) (calls : List (Call N))
    (inside : ∀ call ∈ calls, call.reference < c.records.length) :
    ∃ reports final final', Reaches (runCalls (attemptCall c) calls) d (.ok reports) final ∧
      Reaches (runCalls (freshCall c) calls) d (.ok reports) final' := by
  have start : Forgotten c d d :=
    ⟨operation.exact unfailed, rfl, rfl, rfl, rfl, rfl, rfl, rfl, rfl, rfl⟩
  have together := runCalls_together fun call within =>
    freshCall_together steady fits unfailed statuses (inside call within)
  obtain ⟨e | reports, final, final', cached, fresh, ends⟩ := together d d start
  · exact ends.elim
  · exact ⟨reports, final, final', cached, fresh⟩

def cachedPair : Primitives Unit Unit :=
  { numberedPair with hasCache := true, signerPath := fun _ => ⟨1, false, .ok ⟨[], 0⟩⟩ }

def pairSigner : Certificate :=
  ⟨[1], [], [], [2], [2], [], [], [], ⟨[], []⟩, ⟨⟨[], []⟩, [], [], [], [], .ec, .p256, 256⟩,
    ⟨2026, 1, 1, 0, 0, 0⟩, ⟨2027, 1, 1, 0, 0, 0⟩, 3, false⟩

def pairCall (reference : Nat) : Call Unit :=
  ⟨true, reference, ⟨⟨(), false, 0⟩, false⟩, pairSigner, .zero, none, none⟩

theorem caches_transparent_pair : ∃ reports final final',
    Reaches (runCalls (attemptCall cachedPair) [pairCall 0, pairCall 1])
        { idleStorage with states := [.unchecked, .unchecked] } (.ok reports) final ∧
      Reaches (runCalls (freshCall cachedPair) [pairCall 0, pairCall 1])
        { idleStorage with states := [.unchecked, .unchecked] } (.ok reports) final' := by
  refine caches_transparent cachedPair nofun (fun _ _ _ _ => rfl) ?_ (fun _ _ => rfl) _ (.start rfl)
    [pairCall 0, pairCall 1] (by decide)
  intro signer failed path found
  cases found
  rfl

end TinyCrypto.Crl
