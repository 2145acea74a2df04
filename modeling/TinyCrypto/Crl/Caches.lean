import TinyCrypto.Crl.Coverage
import TinyCrypto.Crl.Deltas
import TinyCrypto.Crl.ScopeTables

/-! # The signer cache and the signature states

A saved path is the one that its signer has, and the signature states are the answers of the
checks. An attempt that finds its signer saved then ends as one that starts afresh.
-/

namespace TinyCrypto.Crl

open Library Library.Program Library.Metered
open X509 (Certificate SignerPath PathStatus pathStatus pathResultStatus)

section

variable {N K : Type} (c : Primitives N K)

structure SavedFor (signer : Bytes) (path : SignerPath) (d : Storage K) : Prop where
  anchor : c.selectAnchor = .ok
  found : (c.signerPath signer).result = (false, .ok path)
  states : Exact c signer d
  room : c.records.length ≤ d.states.length

def SavedExact (d : Storage K) : Prop :=
  ∀ signer path, d.saved = some (signer, path) → SavedFor c signer path d

/-- During an attempt the states and a saved path belong to its signer. -/
structure Held (signer : Bytes) (d : Storage K) : Prop where
  saved : SavedExact c d
  states : Exact c signer d
  room : c.records.length ≤ d.states.length
  owner : ∀ saved path, d.saved = some (saved, path) → saved = signer

def PathsUnfailed : Prop :=
  ∀ signer failed path, (c.signerPath signer).result = (failed, .ok path) → failed = false

def CacheFits : Prop := ∀ signer failed path, (c.signerPath signer).result = (failed, .ok path) →
    (c.cacheStore path).result = .ok ()

def SignatureStatuses : Prop :=
  ∀ i signer, pathResultStatus (pathStatus (c.signerCheck i signer).result) =
    (c.signerCheck i signer).result

def validated (reference : Nat) (signer : Bytes) : Except Result SignerPath :=
  if c.selectAnchor ≠ .ok then .error (pathResultStatus (pathStatus c.selectAnchor))
  else
    match (c.signerCheck reference signer).result with
    | .ok =>
      match (c.signerPath signer).result.2 with
      | .error status => .error (pathResultStatus status)
      | .ok path => .ok path
    | failure => .error (pathResultStatus (pathStatus failure))

def validationFails (reference : Nat) (signer : Bytes) : Bool :=
  c.selectAnchor = .ok && (c.signerCheck reference signer).result = .ok &&
    (c.signerPath signer).result.1

end

section

variable {N K : Type} {c : Primitives N K} {d d' : Storage K} {signer : Bytes} {reference : Nat}
  {path : SignerPath}

theorem validated_ok (given : validated c reference signer = .ok path) :
    c.selectAnchor = .ok ∧ Verified c signer reference ∧
      (c.signerPath signer).result.2 = .ok path := by
  unfold validated at given
  split at given
  · cases given
  · rename_i anchor
    refine ⟨not_not.mp anchor, ?_⟩
    split at given
    · rename_i verified
      split at given
      · cases given
      · rename_i found
        cases given
        exact ⟨verified, found⟩
    · cases given

theorem signerValidate_reaches (d : Storage K) :
    Reaches (signerValidate c reference signer) d (validated c reference signer)
      { d with sourceFailed := d.sourceFailed || validationFails c reference signer } := by
  unfold signerValidate validated validationFails
  by_cases anchor : c.selectAnchor ≠ .ok
  · rw [if_pos anchor, if_pos anchor, decide_eq_false anchor, Bool.false_and, Bool.false_and,
      Bool.or_false]
    exact reaches_throw
  · rw [if_neg anchor, if_neg anchor, decide_eq_true (not_not.mp anchor), Bool.true_and]
    cases checked : (c.signerCheck reference signer).result with
    | ok =>
      refine reaches_bind reaches_answer ?_
      rw [checked, decide_eq_true rfl, Bool.true_and]
      refine reaches_bind reaches_answer ?_
      cases found : (c.signerPath signer).result with
      | mk failed outcome =>
        refine reaches_bind reaches_update ?_
        cases outcome with
        | error status => exact reaches_throw
        | ok path => exact reaches_pure
    | _ =>
      refine reaches_bind reaches_answer ?_
      rw [checked, decide_eq_false (by decide), Bool.false_and, Bool.or_false]
      exact reaches_throw

def checkOutcome : Result → Except Result Unit
  | .ok => .ok ()
  | failure => .error failure

theorem signatureCached_reaches {i : Nat} (inside : i < c.records.length)
    (room : c.records.length ≤ d.states.length) (exact_ : Exact c signer d) :
    ∃ states, Reaches (signatureCached c signer i) d (checkOutcome (c.signerCheck i signer).result)
        { d with states := states } ∧ Exact c signer { d with states := states } ∧
      states.length = d.states.length := by
  unfold signatureCached
  have known := exact_ i inside
  cases entry : d.states[i]? with
  | none =>
    rw [List.getElem?_eq_none_iff] at entry
    omega
  | some state =>
    cases state with
    | valid =>
      have verified : (c.signerCheck i signer).result = .ok := known.1 entry
      refine ⟨d.states, reaches_bind reaches_charge (reaches_bind reaches_data ?_), exact_, rfl⟩
      rw [entry, verified]
      exact reaches_pure
    | invalid =>
      have refused : (c.signerCheck i signer).result = .invalid := known.2 entry
      refine ⟨d.states, reaches_bind reaches_charge (reaches_bind reaches_data ?_), exact_, rfl⟩
      rw [entry, refused]
      exact reaches_throw
    | unchecked =>
      cases checked : (c.signerCheck i signer).result with
      | ok =>
        refine ⟨d.states.set i .valid, reaches_bind reaches_charge (reaches_bind reaches_data ?_),
          exact_set exact_ (fun _ => checked) nofun, List.length_set ..⟩
        rw [entry]
        refine reaches_bind reaches_answer ?_
        rw [checked]
        exact reaches_update
      | invalid =>
        refine ⟨d.states.set i .invalid, reaches_bind reaches_charge (reaches_bind reaches_data ?_),
          exact_set exact_ nofun fun _ => checked, List.length_set ..⟩
        rw [entry]
        refine reaches_bind reaches_answer ?_
        rw [checked]
        exact reaches_bind reaches_update reaches_throw
      | _ =>
        refine ⟨d.states, reaches_bind reaches_charge (reaches_bind reaches_data ?_), exact_, rfl⟩
        rw [entry]
        refine reaches_bind reaches_answer ?_
        rw [checked]
        exact reaches_throw

def freshOutcome (c : Primitives N K) (capacity reference : Nat) (signer : Bytes) :
    Except Result SignerPath :=
  if capacity < c.records.length then .error .limit else validated c reference signer

theorem freshOutcome_ok {capacity : Nat} (given : freshOutcome c capacity reference signer = .ok path) :
    c.records.length ≤ capacity ∧ validated c reference signer = .ok path := by
  unfold freshOutcome at given
  split at given
  · cases given
  · rename_i roomy
    exact ⟨Nat.not_lt.mp roomy, given⟩

def freshFails (c : Primitives N K) (capacity reference : Nat) (signer : Bytes) : Bool :=
  decide (c.records.length ≤ capacity) && validationFails c reference signer

structure Refreshed (c : Primitives N K) (reference : Nat) (signer : Bytes) (d : Storage K)
    (states : List SignatureState) (saved : Option (Bytes × SignerPath)) : Prop where
  length : states.length = d.states.length
  ok : ∀ path, freshOutcome c d.states.length reference signer = .ok path →
    StatesExact c signer states ∧ saved = if c.hasCache then some (signer, path) else none
  error : ∀ e, freshOutcome c d.states.length reference signer = .error e → saved = none

def uncheckedStates (c : Primitives N K) (states : List SignatureState) : List SignatureState :=
  List.replicate c.records.length .unchecked ++ states.drop c.records.length

theorem unchecked_exact (states : List SignatureState) :
    StatesExact c signer (uncheckedStates c states) := by
  intro i inside
  rw [uncheckedStates, List.getElem?_append_left (by rwa [List.length_replicate]),
    List.getElem?_replicate, if_pos inside]
  exact ⟨nofun, nofun⟩

variable {states : List SignatureState}

theorem unchecked_length (room : c.records.length ≤ states.length) :
    (uncheckedStates c states).length = states.length := by
  rw [uncheckedStates, List.length_append, List.length_replicate, List.length_drop]
  omega

theorem savePath_reaches (fits : (c.cacheStore path).result = .ok ()) (d : Storage K) :
    Reaches (savePath c signer path) d (.ok path)
      { d with saved := if c.hasCache then some (signer, path) else d.saved } := by
  unfold savePath
  cases c.hasCache with
  | false => exact reaches_pure
  | true =>
    have stored : Reaches (call .limit (c.cacheStore path) : ScopeProgram K Unit) d (.ok ()) d :=
      fits ▸ reaches_call
    exact reaches_bind stored (reaches_bind reaches_update reaches_pure)

theorem freshPath_reaches (fits : CacheFits c) (d : Storage K) :
    ∃ states saved, Refreshed c reference signer d states saved ∧
      Reaches (freshPath c reference signer) d (freshOutcome c d.states.length reference signer)
        { d with
          states := states
          saved := saved
          sourceFailed := d.sourceFailed || freshFails c d.states.length reference signer } := by
  by_cases short : d.states.length < c.records.length
  · have outcome : freshOutcome c d.states.length reference signer = .error .limit := if_pos short
    have unfailed : freshFails c d.states.length reference signer = false := by
      rw [freshFails, decide_eq_false (Nat.not_le.mpr short), Bool.false_and]
    refine ⟨d.states, none, ⟨rfl, ?_, fun _ _ => rfl⟩, ?_⟩
    · rw [outcome]
      nofun
    · rw [outcome, unfailed, Bool.or_false]
      refine reaches_bind reaches_update (reaches_bind_error (reaches_bind reaches_data ?_))
      rw [if_pos short]
      exact reaches_throw
  · have outcome : freshOutcome c d.states.length reference signer = validated c reference signer :=
      if_neg short
    have fails : freshFails c d.states.length reference signer = validationFails c reference signer := by
      rw [freshFails, decide_eq_true (Nat.not_lt.mp short), Bool.true_and]
    have cleared : Reaches (signatureCacheInit c) { d with saved := none } (.ok ())
        { d with saved := none, states := uncheckedStates c d.states } := by
      refine reaches_bind reaches_data ?_
      rw [if_neg short]
      exact reaches_bind reaches_charge reaches_update
    have length := unchecked_length (Nat.not_lt.mp short)
    rw [outcome, fails]
    cases valid : validated c reference signer with
    | error e =>
      refine ⟨_, none, ⟨length, ?_, fun _ _ => rfl⟩, ?_⟩
      · rw [outcome, valid]
        nofun
      · refine reaches_bind reaches_update (reaches_bind cleared (reaches_bind_error ?_))
        exact valid ▸ signerValidate_reaches _
    | ok path =>
      obtain ⟨-, verified, found⟩ := validated_ok valid
      have exact_ : Exact c signer { d with states := uncheckedStates c d.states } :=
        unchecked_exact d.states
      have marked : StatesExact c signer ((uncheckedStates c d.states).set reference .valid) :=
        exact_set exact_ (fun _ => verified) nofun
      refine ⟨(uncheckedStates c d.states).set reference .valid,
        if c.hasCache then some (signer, path) else none, ⟨?_, ?_, ?_⟩, ?_⟩
      · rw [List.length_set, length]
      · intro path' given
        rw [outcome, valid] at given
        cases given
        exact ⟨marked, rfl⟩
      · rw [outcome, valid]
        nofun
      · exact reaches_bind reaches_update (reaches_bind cleared
          (reaches_bind (valid ▸ signerValidate_reaches _) (reaches_bind reaches_update
            (savePath_reaches (fits signer _ path (Prod.ext rfl found)) _))))

def uncached (c : Primitives N K) : Primitives N K := c.vary c.scopes false c.cacheStore

structure Matching (d d' : Storage K) : Prop where
  sourceFailed : d.sourceFailed = d'.sourceFailed
  context : d.context = d'.context
  attempt : d.attempt = d'.attempt
  proposal : d.proposal = d'.proposal
  unresolved : d.unresolved = d'.unresolved
  evidence : d.evidence = d'.evidence
  report : d.report = d'.report
  capacity : d.states.length = d'.states.length
  unsaved : d'.saved = none

def Between (c : Primitives N K) (d d' : Storage K) : Prop := SavedExact c d ∧ Matching d d'

structure During (c : Primitives N K) (signer : Bytes) (d d' : Storage K) : Prop where
  held : Held c signer d
  states : Exact c signer d'
  matching : Matching d d'

theorem During.between (during : During c signer d d') : Between c d d' :=
  ⟨during.held.saved, during.matching⟩

theorem cachedPath_reaches (d : Storage K) : ∃ found, Reaches (cachedPath signer) d (.ok found) d ∧
      ∀ path, found = some path → d.saved = some (signer, path) := by
  unfold cachedPath
  rcases saved : d.saved with _ | ⟨other, path⟩
  · refine ⟨none, reaches_bind reaches_data ?_, nofun⟩
    rw [saved]
    exact reaches_pure
  · by_cases length : other.length ≠ signer.length
    · refine ⟨none, reaches_bind reaches_data ?_, nofun⟩
      rw [saved]
      dsimp only
      rw [if_pos length]
      exact reaches_pure
    · refine ⟨if other = signer then some path else none, reaches_bind reaches_data ?_, ?_⟩
      · rw [saved]
        dsimp only
        rw [if_neg length]
        exact reaches_bind reaches_charge reaches_pure
      · intro path' given
        split at given
        · rename_i same
          cases given
          rw [same]
        · cases given

def hitOutcome (path : SignerPath) : Result → Except Result SignerPath
  | .ok => .ok path
  | failure => .error failure

theorem SavedFor.outcome (saved : SavedFor c signer path d) (statuses : SignatureStatuses c) :
    freshOutcome c d.states.length reference signer =
      hitOutcome path (c.signerCheck reference signer).result := by
  have status := statuses reference signer
  unfold freshOutcome validated
  rw [if_neg (Nat.not_lt.mpr saved.room), if_neg (not_not.mpr saved.anchor), saved.found]
  cases checked : (c.signerCheck reference signer).result with
  | ok => rfl
  | _ =>
    rw [checked] at status
    exact congrArg Except.error status

theorem SavedFor.fails (saved : SavedFor c signer path d) :
    freshFails c d.states.length reference signer = false := by
  rw [freshFails, validationFails, saved.found, Bool.and_false, Bool.and_false]

theorem SavedFor.set_states (saved : SavedFor c signer path d)
    (exact_ : StatesExact c signer states) (length : states.length = d.states.length) :
    SavedFor c signer path { d with states := states } :=
  ⟨saved.anchor, saved.found, exact_, length ▸ saved.room⟩

theorem freshPath_together (fits : CacheFits c) (unfailed : PathsUnfailed c)
    (matching : Matching d d') : ∃ final final', Reaches (freshPath c reference signer) d
        (freshOutcome c d.states.length reference signer) final ∧
      Reaches (freshPath (uncached c) reference signer) d'
        (freshOutcome c d.states.length reference signer) final' ∧
      Metered.Settles (fun _ => During c signer) (Between c)
        (freshOutcome c d.states.length reference signer) final final' := by
  obtain ⟨states, saved, refreshed, reaches⟩ := @freshPath_reaches _ _ c signer reference
    fits d
  obtain ⟨states', saved', refreshed', reaches'⟩ := @freshPath_reaches _ _ (uncached c) signer
    reference fits d'
  rw [← matching.capacity] at reaches'
  refine ⟨_, _, reaches, reaches', ?_⟩
  have same : freshOutcome (uncached c) d'.states.length reference signer =
      freshOutcome c d.states.length reference signer := by
    rw [matching.capacity]
    rfl
  have matches_ (unsaved : saved' = none) : Matching
      { d with
        states := states
        saved := saved
        sourceFailed := d.sourceFailed || freshFails c d.states.length reference signer }
      { d' with
        states := states'
        saved := saved'
        sourceFailed := d'.sourceFailed ||
          freshFails (uncached c) d.states.length reference signer } := by
    refine ⟨?_, matching.context, matching.attempt, matching.proposal, matching.unresolved,
      matching.evidence, matching.report, ?_, unsaved⟩
    · dsimp only
      rw [matching.sourceFailed]
      rfl
    · exact refreshed.length.trans (matching.capacity.trans refreshed'.length.symm)
  cases outcome : freshOutcome c d.states.length reference signer with
  | error e =>
    have unsaved := refreshed.error e outcome
    refine ⟨fun saver path given => ?_, matches_ (refreshed'.error e (same.trans outcome))⟩
    rw [unsaved] at given
    cases given
  | ok path =>
    obtain ⟨known, kept⟩ := refreshed.ok path outcome
    obtain ⟨known', kept'⟩ := refreshed'.ok path (same.trans outcome)
    obtain ⟨roomy, valid⟩ := freshOutcome_ok outcome
    obtain ⟨anchor, -, found⟩ := validated_ok valid
    have found' : (c.signerPath signer).result = (false, .ok path) :=
      Prod.ext (unfailed signer _ path (Prod.ext rfl found)) found
    have room : c.records.length ≤ states.length := refreshed.length ▸ roomy
    have owner (saver : Bytes) (path' : SignerPath) (given : saved = some (saver, path')) :
        saver = signer ∧ path' = path := by
      rw [kept] at given
      split at given
      · cases given
        exact ⟨rfl, rfl⟩
      · cases given
    refine ⟨⟨fun saver path' given => ?_, known, room, fun saver path' given =>
      (owner saver path' given).1⟩, known', matches_ kept'⟩
    obtain ⟨rfl, rfl⟩ := owner saver path' given
    exact ⟨anchor, found', known, room⟩

theorem attemptPath_together (fits : CacheFits c) (unfailed : PathsUnfailed c)
    (statuses : SignatureStatuses c) (inside : reference < c.records.length) :
    Together (Between c) (attemptPath c reference signer) (attemptPath (uncached c) reference signer)
      (fun _ => During c signer) (Between c) := by
  rintro d d' ⟨exact_, matching⟩
  have missed' : Reaches (cachedPath signer) d' (.ok none) d' := by
    refine reaches_bind reaches_data ?_
    rw [matching.unsaved]
    exact reaches_pure
  obtain ⟨final, final', fresh, fresh', settles⟩ := @freshPath_together _ _ _ _ _ signer reference
    fits unfailed matching
  obtain ⟨found, looked, saved⟩ := @cachedPath_reaches _ signer d
  cases found with
  | none => exact ⟨_, final, final', reaches_bind looked fresh, reaches_bind missed' fresh', settles⟩
  | some path =>
    have held : SavedFor c signer path d := exact_ signer path (saved path rfl)
    obtain ⟨states, checked, known, length⟩ := signatureCached_reaches inside held.room held.states
    obtain ⟨states', saved', refreshed', reaches'⟩ := @freshPath_reaches _ _ (uncached c) signer
      reference fits d'
    have fails : freshFails (uncached c) d'.states.length reference signer = false := by
      rw [← matching.capacity]
      exact held.fails
    have outcome : freshOutcome (uncached c) d'.states.length reference signer =
        hitOutcome path (c.signerCheck reference signer).result := by
      rw [← matching.capacity]
      exact held.outcome statuses
    have matches_ (unsaved : saved' = none) : Matching { d with states := states }
        { d' with states := states', saved := saved', sourceFailed := d'.sourceFailed || false } := by
      refine ⟨?_, matching.context, matching.attempt, matching.proposal, matching.unresolved,
        matching.evidence, matching.report, ?_, unsaved⟩
      · dsimp only
        rw [Bool.or_false, matching.sourceFailed]
      · exact length.trans (matching.capacity.trans refreshed'.length.symm)
    have still : SavedExact c { d with states := states } := by
      intro saver path' given
      have same := (saved path rfl).symm.trans given
      cases same
      exact held.set_states known length
    rw [fails, outcome] at reaches'
    cases verified : (c.signerCheck reference signer).result with
    | ok =>
      rw [verified] at checked reaches' outcome
      obtain ⟨known', unsaved⟩ := refreshed'.ok path outcome
      refine ⟨.ok path, _, _, reaches_bind looked (reaches_bind checked reaches_pure),
        reaches_bind missed' reaches', ⟨still, known, length ▸ held.room, ?_⟩, known',
        matches_ unsaved⟩
      intro saver path' given
      have same := (saved path rfl).symm.trans given
      cases same
      rfl
    | _ =>
      rw [verified] at checked reaches' outcome
      exact ⟨_, _, _, reaches_bind looked (reaches_bind_error checked),
        reaches_bind missed' reaches', still, matches_ (refreshed'.error _ outcome)⟩

variable {query : Query N} {proposes : Bool}

theorem Held.set_states (held : Held c signer d) (exact_ : StatesExact c signer states)
    (length : states.length = d.states.length) : Held c signer { d with states := states } := by
  refine ⟨fun saver path given => ?_, exact_, length ▸ held.room, held.owner⟩
  obtain rfl := held.owner saver path given
  exact (held.saved saver path given).set_states exact_ length

theorem SavedExact.frame {after : Storage K} (exact_ : SavedExact c d) (states : after.states = d.states)
    (saved : after.saved = d.saved) : SavedExact c after := by
  intro saver path given
  rw [saved] at given
  obtain ⟨anchor, found, known, room⟩ := exact_ saver path given
  rw [Exact, ← states] at known
  exact ⟨anchor, found, known, states ▸ room⟩

theorem Held.frame {after : Storage K} (held : Held c signer d) (states : after.states = d.states)
    (saved : after.saved = d.saved) : Held c signer after := by
  refine ⟨held.saved.frame states saved, ?_, ?_, fun saver path given => ?_⟩
  · rw [Exact, states]
    exact held.states
  · rw [states]
    exact held.room
  · rw [saved] at given
    exact held.owner saver path given

theorem During.frame {after after' : Storage K} (during : During c signer d d')
    (states : after.states = d.states) (saved : after.saved = d.saved)
    (states' : after'.states = d'.states) (matching : Matching after after') :
    During c signer after after' := by
  refine ⟨during.held.frame states saved, ?_, matching⟩
  rw [Exact, states']
  exact during.states

theorem signatureCached_during {i : Nat} (inside : i < c.records.length) :
    Alongside (During c signer) (signatureCached c signer i) (signatureCached (uncached c) signer i) := by
  intro d d' during
  obtain ⟨held, known, matching⟩ := during
  obtain ⟨states, reaches, exact_, length⟩ := signatureCached_reaches inside held.room held.states
  obtain ⟨states', reaches', exact', length'⟩ := @signatureCached_reaches _ _ c d' signer i inside
    (matching.capacity ▸ held.room) known
  refine ⟨_, _, _, reaches, reaches', ?_⟩
  have after : During c signer { d with states := states } { d' with states := states' } :=
    ⟨held.set_states exact_ length, exact', matching.sourceFailed, matching.context, matching.attempt,
      matching.proposal, matching.unresolved, matching.evidence, matching.report,
      length.trans (matching.capacity.trans length'.symm), matching.unsaved⟩
  cases (c.signerCheck i signer).result <;> exact after

theorem sameScope_answered {i : Nat} : Answered (sameScope c reference i) := by
  unfold sameScope
  cases c.scopes with
  | some first => exact answered_pure
  | none => exact answered_call

theorem verifyPath_during (steady : ChecksSteadily c) {selected : Option Selected} :
    Alongside (During c signer) (verifyPath c path selected)
      (verifyPath (uncached c) path selected) := by
  intro d d' during
  obtain ⟨status, context', reaches⟩ := verifyPath_reaches steady path selected d.context
  refine ⟨_, _, _, reaches d rfl, reaches d' during.matching.context.symm, ?_⟩
  exact during.frame rfl rfl rfl { during.matching with context := rfl }

theorem attemptCheck_during (steady : ChecksSteadily c) {evaluated : Evaluated} :
    Alongside (During c signer) (attemptCheck c proposes path evaluated)
      (attemptCheck (uncached c) proposes path evaluated) := by
  have note (pending : Proposal) : Alongside (During c signer) (notePending c pending)
      (notePending (uncached c) pending) := by
    refine alongside_data fun d d' during => ?_
    rw [during.matching.unresolved]
    refine proposalMerge_answered.alongside.bind fun merged => alongside_update ?_
    exact fun d d' during => during.frame rfl rfl rfl { during.matching with unresolved := rfl }
  refine (verifyPath_during steady).bind fun status => ?_
  dsimp only
  split
  · exact (note _).bind fun _ => alongside_throw
  · exact alongside_guard fun _ => alongside_pure

theorem attemptPublish_during {evaluated : Evaluated} :
    Alongside (During c signer) (attemptPublish proposes evaluated : ScopeProgram K Unit)
      (attemptPublish proposes evaluated) :=
  attemptPublish_alongside
    (fun _ _ _ during => during.frame rfl rfl rfl { during.matching with attempt := rfl })
    fun _ _ _ during => during.frame rfl rfl rfl { during.matching with proposal := rfl }

theorem scopeAttempt_together (steady : ChecksSteadily c) (fits : CacheFits c)
    (unfailed : PathsUnfailed c) (statuses : SignatureStatuses c)
    (inside : reference < c.records.length) (certificate : Certificate) :
    Alongside (Between c) (scopeAttempt c proposes reference query certificate)
      (scopeAttempt (uncached c) proposes reference query certificate) := by
  refine (attemptPath_together fits unfailed statuses inside).bind fun path => ?_
  refine Together.mono (P := During c certificate.encoded) (F := During c certificate.encoded)
    (Q := fun _ => During c certificate.encoded) ?_ (fun _ _ during => during)
    (fun _ _ _ during => during.between) fun _ _ during => during.between
  refine alongside_data fun d d' during => ?_
  rw [during.matching.attempt]
  refine (scopeEvaluate_alongside (fun i within => signatureCached_during within)
    (fun i r _ _ => sameScope_answered.alongside) query d'.attempt
    (proposes || c.check.isSome)).bind fun evaluated => ?_
  refine alongside_guard fun _ => ?_
  exact (attemptCheck_during steady).bind fun _ => attemptPublish_during.bind fun _ => alongside_pure

end

end TinyCrypto.Crl
