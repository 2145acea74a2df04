import TinyCrypto.Crl.SelectionKeeps

/-! # Where reasons come from

Over attempts, groups and scopes, with every early exit: each reason that reaches the caller's
evidence is sourced under the signer of an attempt, and the caller's evidence changes with OK
only.
-/

namespace TinyCrypto.Crl

open Library Library.Program Library.Metered
open X509 (Certificate SignerPath PathStatus pathStatus pathResultStatus remember)

variable {N K : Type}

def Candidate (c : Primitives N K) (signer : Certificate) : Prop :=
  ∃ next ∈ c.store, next.result = .ok signer

def Supported (c : Primitives N K) (query : Query N) (bit : Nat) : Prop :=
  ∃ signer, Candidate c signer ∧
    ∃ selected base effective, Sourced c signer.encoded query bit selected base effective

def Grown (c : Primitives N K) (query : Query N) (before : Nat) (evidence : Evidence) : Prop :=
  ∀ bit, evidence.reasons.testBit bit = true → before.testBit bit = true ∨ Supported c query bit

def ProposalOk (c : Primitives N K) (query : Query N) (before : Nat) (p : Proposal) : Prop :=
  p.result = .ok → Grown c query before p.evidence

def Failed (p : Proposal) : Prop := p.result ≠ .ok

/-- The storage between attempts for one query: the saved states belong to the saved signer, what
    attempts left is supported, and the caller's evidence is as it was. -/
structure Sound (c : Primitives N K) (query : Query N) (before : Nat) (evidence : Evidence)
    (d : Storage K) : Prop where
  saved : ∀ signer path, d.saved = some (signer, path) → StatesFor c signer d.states
  attempt : Grown c query before d.attempt
  proposal : ∀ p, d.proposal = some p → ProposalOk c query before p
  unresolved : ∀ p, d.unresolved = some p → Failed p
  evidence : d.evidence = evidence

/-- During an attempt the states belong to its signer, and so does a saved path. -/
structure Owned (c : Primitives N K) (query : Query N) (before : Nat) (evidence : Evidence)
    (signer : Bytes) (d : Storage K) : Prop where
  sound : Sound c query before evidence d
  states : StatesFor c signer d.states
  owner : ∀ saved path, d.saved = some (saved, path) → saved = signer

variable {c : Primitives N K} {query : Query N} {before : Nat} {evidence : Evidence}
  {signer : Bytes} {reference : Nat}

theorem statesFor_set {states : List SignatureState} {i : Nat} {state : SignatureState}
    (states_ : StatesFor c signer states) (verified : state = .valid → Verified c signer i) :
    StatesFor c signer (states.set i state) := by
  intro j inside valid
  rw [List.getElem?_set] at valid
  split at valid
  · rename_i same
    split at valid
    · exact same ▸ verified (Option.some.inj valid)
    · cases valid
  · exact states_ j inside valid

theorem owned_checks : ChecksFor c signer (Owned c query before evidence signer) where
  states d owned := owned.states
  set d i state owned verified _ := by
    have states := statesFor_set owned.states verified
    refine ⟨⟨?_, owned.sound.attempt, owned.sound.proposal, owned.sound.unresolved,
      owned.sound.evidence⟩, states, owned.owner⟩
    intro saved path same
    rw [owned.owner saved path same]
    exact states

theorem cachedPath_triple : Triple (Data (Sound c query before evidence)) (cachedPath signer)
      (fun found => Data fun d => Sound c query before evidence d ∧
        (found.isSome = true → Owned c query before evidence signer d))
      fun _ => Data (Sound c query before evidence) := by
  unfold cachedPath
  apply triple_bind (triple_data (Q := fun d' d => Sound c query before evidence d ∧ d' = d)
    fun d sound => ⟨sound, rfl⟩)
  intro d'
  have missed : Triple (Data fun d => Sound c query before evidence d ∧ d' = d)
      (pure none : ScopeProgram K (Option SignerPath))
      (fun found => Data fun d => Sound c query before evidence d ∧
        (found.isSome = true → Owned c query before evidence signer d))
      fun _ => Data (Sound c query before evidence) :=
    triple_pure fun s held => ⟨held.1, fun some => nomatch some⟩
  split
  · exact missed
  · rename_i saved path kept
    apply triple_ite (fun _ => missed)
    intro _
    apply triple_bind (triple_charge fun d held => held.1)
    intro _
    apply triple_pure
    rintro s ⟨sound, rfl⟩
    refine ⟨sound, ?_⟩
    intro found
    split at found
    · rename_i same
      rw [same] at kept
      refine ⟨sound, sound.saved signer path kept, ?_⟩
      intro saved' path' kept'
      rw [kept] at kept'
      cases kept'
      rfl
    · cases found

theorem signatureCacheInit_triple :
    Triple (Data fun d => Sound c query before evidence d ∧ d.saved = none) (signatureCacheInit c)
      (fun _ => Data (fun d => Owned c query before evidence signer d ∧ d.saved = none))
      fun _ => Data (Sound c query before evidence) := by
  unfold signatureCacheInit
  apply triple_bind (triple_data fun d held => held)
  intro d'
  apply triple_ite
  · exact fun _ => triple_throw fun s held => held.1
  intro _
  apply triple_bind (triple_charge fun d held => held.1)
  intro _
  apply triple_update
  rintro d ⟨sound, none⟩
  refine ⟨⟨⟨?_, sound.attempt, sound.proposal, sound.unresolved, sound.evidence⟩, ?_, ?_⟩, none⟩
  · intro saved path kept
    rw [none] at kept
    cases kept
  · intro i inside valid
    rw [List.getElem?_append_left (by rw [List.length_replicate]; exact inside),
      List.getElem?_replicate, if_pos inside] at valid
    cases valid
  · intro saved path kept
    rw [none] at kept
    cases kept

variable {P : Storage K → Prop}

theorem signerValidate_keeps (failed : ∀ d flag, P d → P { d with sourceFailed := flag }) :
    Keeps P (signerValidate c reference signer) fun _ => Verified c signer reference := by
  unfold signerValidate
  apply keeps_guard
  intro _
  apply keeps_bind
    (keeps_answer (Q := fun r => r = .limit ∨ r = (c.signerCheck reference signer).result)
      (.inl rfl) (.inr rfl))
  intro r answered
  split
  · have verified : Verified c signer reference := (answered.resolve_left (by decide)).symm
    apply keeps_bind (keeps_answer (Q := fun _ => True) trivial trivial)
    intro outcome _
    dsimp only
    apply keeps_bind (keeps_update fun d => failed d _)
    intro _ _
    split
    · exact keeps_throw
    · exact keeps_pure verified
  · exact keeps_throw

theorem Owned.unsaved_failed {d : Storage K} {flag : Bool}
    (owned : Owned c query before evidence signer d ∧ d.saved = none) :
    Owned c query before evidence signer { d with sourceFailed := flag } ∧ d.saved = none :=
  ⟨⟨⟨owned.1.sound.saved, owned.1.sound.attempt, owned.1.sound.proposal,
    owned.1.sound.unresolved, owned.1.sound.evidence⟩, owned.1.states, owned.1.owner⟩, owned.2⟩

variable {path : SignerPath}

theorem savePath_triple :
    Triple (Data (Owned c query before evidence signer)) (savePath c signer path)
      (fun _ => Data (Owned c query before evidence signer))
      fun _ => Data (Sound c query before evidence) := by
  unfold savePath
  apply triple_ite
  · intro _
    apply triple_bind (triple_call (fun _ _ _ owned => owned) fun _ _ owned => owned.sound)
    intro _
    apply triple_bind (Q := fun _ => Data (Owned c query before evidence signer))
    · apply triple_update
      intro d owned
      refine ⟨⟨?_, owned.sound.attempt, owned.sound.proposal, owned.sound.unresolved,
        owned.sound.evidence⟩, owned.states, ?_⟩
      · intro saved path kept
        cases kept
        exact owned.states
      · intro saved path kept
        cases kept
        rfl
    · exact fun _ => triple_pure fun _ owned => owned
  · exact fun _ => triple_pure fun _ owned => owned

theorem freshPath_triple :
    Triple (Data (Sound c query before evidence)) (freshPath c reference signer)
      (fun _ => Data (Owned c query before evidence signer))
      fun _ => Data (Sound c query before evidence) := by
  unfold freshPath
  apply triple_bind (Q := fun _ => Data fun d => Sound c query before evidence d ∧ d.saved = none)
  · apply triple_update
    intro d sound
    exact ⟨⟨fun _ _ kept => (nomatch kept), sound.attempt, sound.proposal, sound.unresolved,
      sound.evidence⟩, rfl⟩
  intro _
  apply triple_bind signatureCacheInit_triple
  intro _
  have validates : Keeps (fun d => Owned c query before evidence signer d ∧ d.saved = none)
      (signerValidate c reference signer) fun _ => Verified c signer reference :=
    signerValidate_keeps fun d flag => Owned.unsaved_failed
  apply triple_bind (validates.triple (fun _ owned => owned)
    (fun _ d owned verified => (⟨owned.1, verified⟩ :
      Owned c query before evidence signer d ∧ Verified c signer reference))
    fun _ owned => owned.1.sound)
  intro path
  apply triple_fact fun _ held => held.2
  intro verified
  have marks : Keeps (Owned c query before evidence signer)
      (setState reference .valid : ScopeProgram K Unit) fun _ => True :=
    setState_keeps owned_checks (fun _ => verified) nofun
  apply triple_bind (marks.triple (fun _ held => held.1)
    (fun _ _ owned _ => owned) fun _ owned => owned.sound)
  exact fun _ => savePath_triple

theorem attemptPath_triple (inside : reference < c.records.length) :
    Triple (Data (Sound c query before evidence)) (attemptPath c reference signer)
      (fun _ => Data (Owned c query before evidence signer))
      fun _ => Data (Sound c query before evidence) := by
  unfold attemptPath
  apply triple_bind cachedPath_triple
  intro found
  split
  · apply triple_bind ((signatureCached_keeps owned_checks inside).triple
      (fun _ held => held.2 rfl) (fun _ _ owned _ => owned) fun _ owned => owned.sound)
    exact fun _ => triple_pure fun _ owned => owned
  · exact freshPath_triple.mono (fun _ held => held.1) (fun _ _ owned => owned)
      fun _ _ sound => sound

theorem proposalMerge_keeps {chosen : Option Proposal} {candidate : Proposal}
    (chosenOk : ∀ p, chosen = some p → ProposalOk c query before p)
    (candidateOk : ProposalOk c query before candidate) :
    Keeps P (proposalMerge c chosen candidate) (ProposalOk c query before) := by
  unfold proposalMerge
  split
  · exact keeps_pure candidateOk
  rename_i chosen
  have kept := chosenOk chosen rfl
  apply keeps_bind crlOrder_keeps
  intro order _
  dsimp only
  apply keeps_ite (fun _ => keeps_pure kept)
  intro _
  apply keeps_ite (fun _ => keeps_pure candidateOk)
  intro _
  apply keeps_ite (fun _ => keeps_pure candidateOk)
  intro _
  apply keeps_ite (fun _ => keeps_pure kept)
  intro _
  apply keeps_ite
  · intro _
    apply keeps_pure
    intro ok
    dsimp only at ok
    split at ok <;> cases ok
  intro _
  apply keeps_bind record_keeps
  intro a _
  apply keeps_bind record_keeps
  intro b _
  apply keeps_bind keeps_charge
  intro _ _
  apply keeps_bind (keeps_lift fun _ given => given)
  intro order _
  apply keeps_bind (keeps_lift fun _ given => given)
  intro equal _
  apply keeps_pure
  split
  · exact fun ok => nomatch ok
  · exact kept

theorem proposalMerge_failed {chosen : Option Proposal} {candidate : Proposal}
    (chosenFailed : ∀ p, chosen = some p → Failed p) (failed : Failed candidate) :
    Keeps P (proposalMerge c chosen candidate) Failed := by
  unfold proposalMerge
  split
  · exact keeps_pure failed
  rename_i chosen
  have kept := chosenFailed chosen rfl
  apply keeps_bind crlOrder_keeps
  intro order _
  dsimp only
  apply keeps_ite (fun _ => keeps_pure kept)
  intro _
  apply keeps_ite (fun _ => keeps_pure failed)
  intro _
  apply keeps_ite (fun _ => keeps_pure failed)
  intro _
  apply keeps_ite (fun _ => keeps_pure kept)
  intro _
  apply keeps_ite
  · intro _
    apply keeps_pure
    unfold Failed
    dsimp only
    split <;> decide
  · intro both
    have differs : candidate.result ≠ .ok := failed
    simp [differs] at both

theorem Owned.context {d : Storage K} {context : K} (owned : Owned c query before evidence signer d) :
    Owned c query before evidence signer { d with context := context } :=
  ⟨⟨owned.sound.saved, owned.sound.attempt, owned.sound.proposal, owned.sound.unresolved,
    owned.sound.evidence⟩, owned.states, owned.owner⟩

theorem verifyPath_keeps {selected : Option Selected}
    (context : ∀ d k, P d → P { d with context := k }) :
    Keeps P (verifyPath c path selected) fun _ => True := by
  rintro ⟨work, d⟩ before
  unfold verifyPath
  cases c.check with
  | none => exact ⟨before, trivial⟩
  | some verify =>
    rw [exec, ExceptT.run_mk, StateT.run]
    dsimp only
    split
    · exact context d _ before
    · exact ⟨context d _ before, trivial⟩

theorem notePending_keeps {pending : Proposal} (failed : Failed pending) :
    Keeps (Owned c query before evidence signer) (notePending c pending) fun _ => True := by
  unfold notePending
  apply keeps_bind (keeps_data (Q := fun d => ∀ p, d.unresolved = some p → Failed p)
    fun d owned => owned.sound.unresolved)
  intro d unresolved
  apply keeps_bind (proposalMerge_failed unresolved failed)
  intro merged failed
  apply keeps_update
  intro d owned
  refine ⟨⟨owned.sound.saved, owned.sound.attempt, owned.sound.proposal, ?_,
    owned.sound.evidence⟩, owned.states, owned.owner⟩
  rintro p same
  cases same
  exact failed

variable {proposes : Bool}

theorem attemptCheck_keeps {evaluated : Evaluated} :
    Keeps (Owned c query before evidence signer) (attemptCheck c proposes path evaluated)
      fun _ => True := by
  unfold attemptCheck
  apply keeps_bind (verifyPath_keeps fun d k owned => owned.context)
  intro status _
  dsimp only
  split
  · have failed (selected : Selected) (ready : Bool) :
        Failed ⟨selected, evaluated.evidence, .unsupported, ready⟩ := by
      intro ok
      cases ok
    apply keeps_bind (notePending_keeps (failed _ _))
    exact fun _ _ => keeps_throw
  · exact keeps_guard fun _ => keeps_pure trivial

theorem attemptPublish_keeps {evaluated : Evaluated}
    (grown : Grown c query before evaluated.evidence) : Keeps (Owned c query before evidence signer)
      (attemptPublish proposes evaluated : ScopeProgram K Unit) fun _ => True := by
  unfold attemptPublish
  dsimp only
  split
  · apply keeps_update
    intro d owned
    refine ⟨⟨owned.sound.saved, owned.sound.attempt, ?_, owned.sound.unresolved,
      owned.sound.evidence⟩, owned.states, owned.owner⟩
    rintro p same
    cases same
    exact fun _ => grown
  · apply keeps_guard
    intro _
    apply keeps_update
    intro d owned
    exact ⟨⟨owned.sound.saved, grown, owned.sound.proposal, owned.sound.unresolved,
      owned.sound.evidence⟩, owned.states, owned.owner⟩

theorem scopeAttempt_keeps {certificate : Certificate} (candidate : Candidate c certificate)
    (inside : reference < c.records.length) :
    Keeps (Sound c query before evidence) (scopeAttempt c proposes reference query certificate)
      fun _ => True := by
  unfold scopeAttempt
  apply triple_bind (attemptPath_triple inside)
  intro path
  refine Keeps.triple (P := Owned c query before evidence certificate.encoded) (Q := fun _ => True)
    ?_ (fun _ owned => owned) (fun _ _ owned _ => ⟨owned.sound, trivial⟩) fun _ owned => owned.sound
  apply keeps_bind (keeps_data (Q := fun d => Grown c query before d.attempt)
    fun d owned => owned.sound.attempt)
  intro d pending
  apply keeps_bind (scopeEvaluate_keeps owned_checks)
  intro evaluated sourced
  have grown : Grown c query before evaluated.evidence := by
    intro bit set
    cases sourced bit set with
    | inl old => exact pending bit old
    | inr new => exact .inr ⟨certificate, candidate, new⟩
  apply keeps_guard
  intro _
  apply keeps_bind attemptCheck_keeps
  intro _ _
  apply keeps_bind (attemptPublish_keeps grown)
  exact fun _ _ => keeps_pure trivial

theorem searchAttempt_keeps {certificate : Certificate} (candidate : Candidate c certificate)
    (inside : reference < c.records.length) :
    Keeps (Sound c query before evidence) (searchAttempt c proposes reference query certificate)
      fun _ => True := by
  unfold searchAttempt
  have matches_ : Keeps (Sound c query before evidence)
      (call .limit (c.candidateMatches reference certificate) : ScopeProgram K Bool)
      fun _ => True := keeps_call fun _ _ => trivial
  apply keeps_bind (keeps_trial matches_)
  intro outcome _
  split
  · exact keeps_throw
  · exact keeps_throw
  · exact keeps_pure trivial
  · apply keeps_bind (scopeAttempt_keeps candidate inside)
    exact fun _ _ => keeps_pure trivial

theorem signerSearch_keeps (inside : reference < c.records.length)
    {store : List (Priced (Except Result Certificate))} {failure : PathStatus}
    (within : ∀ next ∈ store, next ∈ c.store) : Keeps (Sound c query before evidence)
      (signerSearch c proposes reference query store failure) fun _ => True := by
  induction store generalizing failure with
  | nil => exact keeps_throw
  | cons next rest ih =>
    have later (failure : PathStatus) := @ih failure fun p member =>
      within p (List.mem_cons_of_mem next member)
    unfold signerSearch
    have reads : Keeps (Sound c query before evidence)
        (call .limit next : ScopeProgram K Certificate) (next.result = .ok ·) :=
      keeps_call fun _ given => given
    apply keeps_bind (keeps_trial reads)
    intro outcome read
    split
    · apply keeps_bind (keeps_update fun d sound => ⟨sound.saved, sound.attempt,
        sound.proposal, sound.unresolved, sound.evidence⟩)
      exact fun _ _ => keeps_throw
    · rename_i certificate
      have candidate : Candidate c certificate :=
        ⟨next, within next List.mem_cons_self, read certificate rfl⟩
      apply keeps_bind keeps_charge
      intro _ _
      apply keeps_bind (keeps_trial (searchAttempt_keeps candidate inside))
      intro outcome _
      split
      · exact later failure
      · apply keeps_bind (keeps_data (Q := fun _ => True) fun _ _ => trivial)
        intro d _
        exact keeps_guard fun _ => keeps_pure trivial
      · have fails (e : Result) : Keeps (Sound c query before evidence)
            (searchFailed failure e : ScopeProgram K PathStatus) fun _ => True := by
          unfold searchFailed
          apply keeps_bind (keeps_data (Q := fun _ => True) fun _ _ => trivial)
          intro d _
          exact keeps_guard fun _ =>
            keeps_guard fun _ => keeps_pure trivial
        apply keeps_bind (fails _)
        exact fun failure _ => later failure

end TinyCrypto.Crl
