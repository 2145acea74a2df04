import TinyCrypto.Crl.Scopes
import TinyCrypto.Library.Steady

/-! # What a selection rests on

An effective CRL has passed its policy and its signature is verified under the signer; so has
its delta, which is current. Evidence has only reasons that a current effective CRL covers.
-/

namespace TinyCrypto.Crl

open Library Library.Program Library.Metered
open X509 (Certificate SignerPath PathStatus pathStatus pathResultStatus remember allReasons)

variable {N K : Type}

section

variable (c : Primitives N K)

def Verified (signer : Bytes) (i : Nat) : Prop := (c.signerCheck i signer).result = .ok

def StatesFor (signer : Bytes) (states : List SignatureState) : Prop :=
  ∀ i, i < c.records.length → states[i]? = some .valid → Verified c signer i

structure ChecksFor (signer : Bytes) (P : Storage K → Prop) : Prop where
  states : ∀ d, P d → StatesFor c signer d.states
  set : ∀ d i state, P d → (state = .valid → Verified c signer i) →
    (state = .invalid → (c.signerCheck i signer).result = .invalid) →
      P { d with states := d.states.set i state }

structure DeltaOk (signer : Bytes) (base i : Nat) (delta : Record) : Prop where
  record : c.records[i]? = some delta
  policy : delta.policy = .ok
  isDelta : delta.has extDelta = true
  compatible : (c.compatible base i).result = .ok true
  current : freshAt c.time delta = .ok .current
  verified : Verified c signer i

/-- A base that passed its policy, verified under the signer, and its delta. -/
structure EffectiveOk (signer : Bytes) (selected : Selected) (base : Record) : Prop where
  record : c.records[selected.base]? = some base
  policy : base.policy = .ok
  complete : base.has extDelta = false
  verified : Verified c signer selected.base
  delta : ∀ i, selected.delta = some i → ∃ delta, DeltaOk c signer selected.base i delta

/-- The scope of a record covers a reason for a query: a restricted record applies to the kind of
    certificate, and issuer and name match the point. -/
structure CoversReason (effective : Record) (i : Nat) (query : Query N) (bit : Nat) : Prop where
  attributeOnly : effective.has extDistribution = true → effective.distribution.attributeOnly = false
  user : effective.has extDistribution = true → effective.distribution.userOnly = true →
    query.certificateCa = false
  authority : effective.has extDistribution = true → effective.distribution.caOnly = true →
    query.certificateCa = true
  issuer : (c.issuerMatches i query.point c.issuer).result = .ok true
  name : (c.nameMatches i query.point c.issuer).result = .ok true
  known : allReasons.testBit bit = true
  restricted : effective.has extDistribution = true → effective.distribution.hasReasons = true →
    effective.distribution.reasons.testBit bit = true
  point : query.point.hasReasons = true → query.point.reasons.testBit bit = true

/-- A reason comes from an authenticated selection under a signer, whose effective CRL is
    current and covers it. -/
structure Sourced (signer : Bytes) (query : Query N) (bit : Nat) (selected : Selected)
    (base effective : Record) : Prop where
  selection : EffectiveOk c signer selected base
  record : c.records[selected.effective]? = some effective
  policy : extensionPolicy effective = .ok
  current : freshAt c.time effective = .ok .current
  covers : CoversReason c effective selected.effective query bit

end

variable {c : Primitives N K} {signer : Bytes} {P : Storage K → Prop} {query : Query N}

theorem record_keeps {i : Nat} : Keeps P (record c i) (c.records[i]? = some ·) := by
  unfold record
  split
  · rename_i r found
    exact keeps_pure found
  · exact keeps_throw

theorem scopeReasons_keeps {i : Nat} : Keeps P (scopeReasons c i query) fun reasons =>
    ∃ effective, c.records[i]? = some effective ∧
      ∀ bit, reasons.testBit bit = true → CoversReason c effective i query bit := by
  unfold scopeReasons
  apply keeps_bind record_keeps
  intro effective found
  have nothing : Keeps P (pure 0 : ScopeProgram K Nat) fun reasons =>
      ∃ effective, c.records[i]? = some effective ∧
        ∀ bit, reasons.testBit bit = true → CoversReason c effective i query bit := by
    refine keeps_pure ⟨effective, found, ?_⟩
    intro bit set
    rw [Nat.zero_testBit] at set
    cases set
  dsimp only
  apply keeps_ite (fun _ => nothing)
  intro applies
  apply keeps_bind (keeps_call (fun _ given => given))
  intro issuer issuerMatches
  apply keeps_ite (fun _ => nothing)
  intro sameIssuer
  apply keeps_bind (keeps_call (fun _ given => given))
  intro name nameMatches
  apply keeps_ite (fun _ => nothing)
  intro sameName
  refine keeps_pure ⟨effective, found, ?_⟩
  intro bit set
  have issuerTrue : issuer = true := by simpa using sameIssuer
  have nameTrue : name = true := by simpa using sameName
  rw [issuerTrue] at issuerMatches
  rw [nameTrue] at nameMatches
  simp only [Bool.and_eq_true, Bool.or_eq_true, Bool.not_eq_true', not_and, not_or,
    Bool.not_eq_true] at applies
  refine ⟨?_, ?_, ?_, issuerMatches, nameMatches, ?_, ?_, ?_⟩
  · exact fun restricted => (applies restricted).1.1
  · exact fun restricted only => (applies restricted).1.2 only
  · intro restricted only
    have leaf := (applies restricted).2 only
    simpa using leaf
  all_goals grind

theorem coverageAt_keeps {i : Nat} : Keeps P (coverageAt c i query) fun coverage =>
    ∀ bit, coverage.2.testBit bit = true → ∃ effective, c.records[i]? = some effective ∧
      extensionPolicy effective = .ok ∧ freshAt c.time effective = .ok .current ∧
        CoversReason c effective i query bit := by
  unfold coverageAt
  apply keeps_bind keeps_charge
  intro _ _
  apply keeps_bind record_keeps
  intro effective found
  dsimp only
  apply keeps_guard
  intro policy
  rw [ne_eq, not_not] at policy
  apply keeps_bind (keeps_lift fun _ given => given)
  intro freshness fresh
  apply keeps_ite
  · intro current
    rw [current] at fresh
    apply keeps_bind scopeReasons_keeps
    intro reasons covers
    apply keeps_pure
    intro bit set
    obtain ⟨effective', found', covers⟩ := covers
    rw [found] at found'
    cases found'
    exact ⟨effective, found, policy, fresh, covers bit set⟩
  · intro _
    apply keeps_pure
    intro bit set
    rw [Nat.zero_testBit] at set
    cases set

theorem crlOrder_keeps {left right : Selected} : Keeps P (crlOrder c left right) fun _ => True := by
  unfold crlOrder
  apply keeps_bind record_keeps
  intro a _
  apply keeps_bind record_keeps
  intro b _
  split
  · apply keeps_guard
    exact fun _ => keeps_call fun _ _ => trivial
  · apply keeps_bind keeps_charge
    exact fun _ _ => keeps_lift fun _ _ => trivial

theorem selectedLookup_keeps {selected : Selected} :
    Keeps P (selectedLookup c selected) fun _ => True := by
  unfold selectedLookup
  apply keeps_bind (keeps_call fun _ given => given)
  intro base _
  split
  · exact keeps_lift fun _ _ => trivial
  · apply keeps_bind (keeps_call fun _ given => given)
    exact fun _ _ => keeps_lift fun _ _ => trivial

theorem evidenceAdd_ok {evidence added : Evidence} {reasons : Nat} {m : EntryMatch}
    (given : evidenceAdd evidence reasons m = (.ok, added)) {bit : Nat}
    (set : added.reasons.testBit bit = true) :
    evidence.reasons.testBit bit = true ∨ reasons.testBit bit = true := by
  have outcome := evidenceAdd_added evidence reasons m
  rw [given] at outcome
  cases outcome with
  | unchanged => exact .inl set
  | grown =>
    rw [Nat.testBit_or, Bool.or_eq_true] at set
    exact set

variable {evidence : Evidence}

theorem crlApply_keeps {selected : Selected} :
    Keeps P (crlApply c selected query evidence) fun added =>
      ∀ bit, added.reasons.testBit bit = true → evidence.reasons.testBit bit = true ∨
        ∃ effective, c.records[selected.effective]? = some effective ∧
          extensionPolicy effective = .ok ∧ freshAt c.time effective = .ok .current ∧
            CoversReason c effective selected.effective query bit := by
  unfold crlApply
  apply keeps_bind (keeps_lift fun _ given => given)
  intro status _
  apply keeps_guard
  intro _
  apply keeps_bind coverageAt_keeps
  intro coverage covers
  apply keeps_guard
  intro _
  apply keeps_bind selectedLookup_keeps
  intro entry _
  split
  · rename_i added given
    apply keeps_pure
    intro bit set
    cases evidenceAdd_ok given set with
    | inl before => exact .inl before
    | inr new => exact .inr (covers bit new)
  · exact keeps_throw

theorem setState_keeps (checks : ChecksFor c signer P) {i : Nat} {state : SignatureState}
    (verified : state = .valid → Verified c signer i)
    (refused : state = .invalid → (c.signerCheck i signer).result = .invalid) :
    Keeps P (setState i state : ScopeProgram K Unit) fun _ => True :=
  keeps_update fun d before => checks.set d i state before verified refused

theorem signatureCached_keeps (checks : ChecksFor c signer P) {i : Nat}
    (inside : i < c.records.length) :
    Keeps P (signatureCached c signer i) fun _ => Verified c signer i := by
  unfold signatureCached
  apply keeps_bind keeps_charge
  intro _ _
  apply keeps_bind (keeps_data (Q := fun d => StatesFor c signer d.states) checks.states)
  intro d states
  split
  · rename_i valid
    exact keeps_pure (states i inside valid)
  · exact keeps_throw
  · apply keeps_bind
      (keeps_answer (Q := fun r => r = .limit ∨ r = (c.signerCheck i signer).result) (.inl rfl)
        (.inr rfl))
    intro r answered
    split
    · have verified : Verified c signer i := (answered.resolve_left (by decide)).symm
      have kept : Keeps P (setState i .valid : ScopeProgram K Unit) fun _ => True :=
        setState_keeps checks (fun _ => verified) nofun
      exact kept.mono fun _ _ => verified
    · have refused : (c.signerCheck i signer).result = .invalid :=
        (answered.resolve_left (by decide)).symm
      exact keeps_bind (setState_keeps checks nofun fun _ => refused) fun _ _ => keeps_throw
    · exact keeps_throw
  · exact keeps_throw

theorem deltaNext_keeps {base i : Nat} : Keeps P (deltaNext c base i) fun found =>
    found = true → ∃ delta, c.records[i]? = some delta ∧ delta.policy = .ok ∧
      delta.has extDelta = true ∧ (c.compatible base i).result = .ok true := by
  unfold deltaNext
  apply keeps_bind keeps_charge
  intro _ _
  apply keeps_bind record_keeps
  intro delta found
  apply keeps_ite
  · exact fun _ => keeps_pure fun set => nomatch set
  · intro candidate
    simp only [Bool.or_eq_true, decide_eq_true_eq, Bool.not_eq_true', not_or, ne_eq, not_not,
      Bool.not_eq_false] at candidate
    apply keeps_call
    rintro compatible given rfl
    exact ⟨delta, found, candidate.1.2, candidate.2, given⟩

theorem deltaRank_keeps {i : Nat} {a : DeltaChoice} : Keeps P (deltaRank c i a) fun ranked =>
    ranked.chosen = a.chosen ∨ ranked.chosen = some i := by
  unfold deltaRank
  split
  · exact keeps_pure (Or.inr rfl)
  · rename_i chosen same
    apply keeps_bind (keeps_call fun _ given => given)
    intro order _
    have kept : Keeps P (pure a : ScopeProgram K DeltaChoice) fun ranked =>
        ranked.chosen = a.chosen ∨ ranked.chosen = some i := keeps_pure (Or.inl rfl)
    apply keeps_ite (fun _ => kept)
    intro _
    apply keeps_ite
    · exact fun _ => keeps_pure (Or.inr rfl)
    intro _
    apply keeps_bind (keeps_call fun _ given => given)
    intro equal _
    apply keeps_ite (fun _ => kept)
    intro _
    apply keeps_bind keeps_charge
    intro _ _
    apply keeps_bind record_keeps
    intro left _
    apply keeps_bind record_keeps
    intro right _
    apply keeps_bind (keeps_lift fun _ given => given)
    intro later _
    apply keeps_pure
    dsimp only
    split
    · exact .inr rfl
    · exact .inl same.symm

def ChoiceOk (c : Primitives N K) (signer : Bytes) (base : Nat) (a : DeltaChoice) : Prop :=
  ∀ i, a.chosen = some i → ∃ delta, DeltaOk c signer base i delta

theorem inside_of_record {i : Nat} {r : Record} (found : c.records[i]? = some r) :
    i < c.records.length := (List.getElem?_eq_some_iff.mp found).1

theorem deltaStep_keeps (checks : ChecksFor c signer P) {base i : Nat} {a : DeltaChoice}
    (before : ChoiceOk c signer base a) : Keeps P (deltaStep c signer base i a)
      (Turn.Ends (ChoiceOk c signer base) fun _ => True) := by
  unfold deltaStep
  apply keeps_bind deltaNext_keeps
  intro found candidate
  apply keeps_ite
  · intro set
    obtain ⟨delta, here, policy, isDelta, compatible⟩ := candidate set
    apply keeps_bind record_keeps
    intro delta' here'
    rw [here] at here'
    cases here'
    apply keeps_bind (keeps_lift fun _ given => given)
    intro freshness fresh
    apply keeps_ite (fun _ => keeps_next before)
    intro current
    rw [ne_eq, not_not] at current
    rw [current] at fresh
    apply keeps_bind (keeps_trial (signatureCached_keeps checks (inside_of_record here)))
    intro outcome verified
    split
    · exact keeps_next before
    · exact keeps_throw
    · have delta : DeltaOk c signer base i delta :=
        ⟨here, policy, isDelta, compatible, fresh, verified () rfl⟩
      apply keeps_bind deltaRank_keeps
      intro ranked chosen
      apply keeps_pure
      intro j same
      cases chosen with
      | inl kept => exact before j (kept ▸ same)
      | inr new =>
        rw [new] at same
        cases same
        exact ⟨_, delta⟩
  · exact fun _ => keeps_next before

theorem deltaSelect_keeps (checks : ChecksFor c signer P) {base : Nat} :
    Keeps P (deltaSelect c signer base) fun found =>
      ∃ delta, DeltaOk c signer base found.1 delta := by
  unfold deltaSelect
  apply keeps_bind record_keeps
  intro complete _
  apply keeps_guard
  intro _
  apply keeps_guard
  intro _
  have start : ChoiceOk c signer base ⟨none, false⟩ := fun i none => nomatch none
  apply keeps_bind (keeps_forRange (fun i a => deltaStep_keeps checks) 0 c.records.length start)
  intro turn ends
  split
  · exact keeps_pure (ends _ rfl)
  · exact keeps_throw

variable {reference i : Nat}

theorem sameScope_keeps : Keeps P (sameScope c reference i) fun _ => True := by
  unfold sameScope
  split
  · exact keeps_pure trivial
  · exact keeps_call fun _ _ => trivial

/-- What `effectiveNext` found. -/
def FoundOk (c : Primitives N K) (signer : Bytes) (found : Option (Selected × Bool)) : Prop :=
  ∀ selected conflict, found = some (selected, conflict) →
    ∃ base, EffectiveOk c signer selected base

theorem found_none : FoundOk c signer none := fun _ _ none => nomatch none

section

variable (checks : ChecksFor c signer P)

include checks

theorem effectiveDelta_keeps {i : Nat} {base : Record}
    {freshness : Freshness} (record : c.records[i]? = some base) (policy : base.policy = .ok)
    (complete : base.has extDelta = false) (verified : Verified c signer i) :
    Keeps P (effectiveDelta c signer i freshness) (FoundOk c signer) := by
  have alone : FoundOk c signer (some (⟨i, none⟩, false)) := by
    rintro selected conflict same
    cases same
    exact ⟨base, record, policy, complete, verified, fun _ none => nomatch none⟩
  unfold effectiveDelta
  apply keeps_ite (fun _ => keeps_pure alone)
  intro _
  apply keeps_bind (keeps_trial (deltaSelect_keeps checks))
  intro outcome found
  split
  · rename_i delta conflicting
    apply keeps_pure
    rintro selected conflict same
    cases same
    refine ⟨base, record, policy, complete, verified, ?_⟩
    rintro j same
    cases same
    exact found (delta, conflicting) rfl
  · exact keeps_ite (fun _ => keeps_pure found_none) fun _ => keeps_pure alone
  · exact keeps_throw

theorem effectiveNext_keeps : Keeps P (effectiveNext c signer reference i) (FoundOk c signer) := by
  unfold effectiveNext
  apply keeps_bind keeps_charge
  intro _ _
  apply keeps_bind record_keeps
  intro base here
  apply keeps_ite (fun _ => keeps_pure found_none)
  intro candidate
  simp only [Bool.or_eq_true, decide_eq_true_eq, not_or, ne_eq, not_not, Bool.not_eq_true]
    at candidate
  apply keeps_bind sameScope_keeps
  intro same _
  apply keeps_ite _ fun _ => keeps_pure found_none
  intro _
  apply keeps_bind (keeps_lift fun _ given => given)
  intro freshness _
  apply keeps_ite (fun _ => keeps_pure found_none)
  intro _
  apply keeps_bind (keeps_trial (signatureCached_keeps checks (inside_of_record here)))
  intro outcome verified
  split
  · exact keeps_pure found_none
  · exact keeps_throw
  · exact effectiveDelta_keeps checks here candidate.1 candidate.2 (verified () rfl)

theorem latestStep_keeps {a : Latest} :
    Keeps P (latestStep c signer reference i a) (Turn.Ends (fun _ => True) fun _ => True) := by
  unfold latestStep
  apply keeps_bind (effectiveNext_keeps checks)
  intro found _
  split
  · exact keeps_pure trivial
  · apply keeps_bind crlOrder_keeps
    intro order _
    split
    · exact keeps_pure trivial
    · exact keeps_ite (fun _ => keeps_pure trivial) fun _ =>
        keeps_ite (fun _ => keeps_pure trivial) fun _ => keeps_pure trivial

theorem crlLatest_keeps {reference : Nat} {wants : Bool} :
    Keeps P (crlLatest c signer reference wants) fun _ => True := by
  unfold crlLatest
  apply keeps_bind
    (keeps_forRange (fun i a (_ : True) => latestStep_keeps checks) 0 c.records.length trivial)
  intro turn _
  split
  · exact keeps_guard fun _ => keeps_pure trivial
  · exact keeps_throw

end

def AppliedOk (c : Primitives N K) (signer : Bytes) (query : Query N) (a : Option Applied) : Prop :=
  ∀ applied, a = some applied → ∀ bit, applied.evidence.reasons.testBit bit = true →
    ∃ selected base effective, Sourced c signer query bit selected base effective

theorem applyAgain_keeps {chosen : Applied} {candidate : Evidence} {effective : Record} :
    Keeps P (applyAgain chosen candidate effective : ScopeProgram K Unit) fun _ => True := by
  unfold applyAgain
  apply keeps_bind (keeps_lift fun _ given => given)
  intro order _
  apply keeps_guard
  intro _
  apply keeps_bind (keeps_lift fun _ given => given)
  intro equal _
  exact keeps_ite (fun _ => keeps_pure trivial) fun _ => keeps_throw

theorem evaluateStep_keeps (checks : ChecksFor c signer P) {latest : Selected} {a : Option Applied}
    (before : AppliedOk c signer query a) :
    Keeps P (evaluateStep c signer reference query latest i a)
      (Turn.Ends (AppliedOk c signer query) fun _ => True) := by
  unfold evaluateStep
  apply keeps_bind (effectiveNext_keeps checks)
  intro found effectiveOk
  split
  · exact keeps_next before
  · rename_i selected conflict
    obtain ⟨base, selection⟩ := effectiveOk selected conflict rfl
    apply keeps_bind crlOrder_keeps
    intro order _
    apply keeps_ite (fun _ => keeps_next before)
    intro _
    apply keeps_guard
    intro _
    apply keeps_bind (keeps_trial crlApply_keeps)
    intro outcome applied
    split
    · exact keeps_next before
    · exact keeps_throw
    · rename_i candidate
      apply keeps_bind record_keeps
      intro effective _
      split
      · apply keeps_pure
        rintro chosen same bit set
        cases same
        obtain zero | ⟨effective, here, policy, current, covers⟩ := applied candidate rfl bit set
        · rw [Evidence.zero, Nat.zero_testBit] at zero
          cases zero
        · exact ⟨selected, base, effective, selection, here, policy, current, covers⟩
      · apply keeps_bind applyAgain_keeps
        exact fun _ _ => keeps_next before

def NewlySourced (c : Primitives N K) (signer : Bytes) (query : Query N)
    (evidence added : Evidence) : Prop :=
  ∀ bit, added.reasons.testBit bit = true → evidence.reasons.testBit bit = true ∨
    ∃ selected base effective, Sourced c signer query bit selected base effective

theorem evaluateEnd_ok {a : Option Applied} {evidence added : Evidence}
    (applied : AppliedOk c signer query a) (given : evaluateEnd evidence a = .ok added) :
    NewlySourced c signer query evidence added := by
  unfold evaluateEnd at given
  split at given
  · cases given
  · split at given
    · cases given
    · split at given
      · rename_i added' outcome
        cases given
        intro bit set
        cases evidenceAdd_ok outcome set with
        | inl before => exact .inl before
        | inr new => exact .inr (applied _ rfl bit new)
      · cases given

theorem evaluateLatest_keeps (checks : ChecksFor c signer P) {reference : Nat}
    {latest : Selected × Bool} : Keeps P (evaluateLatest c signer reference query evidence latest)
      (NewlySourced c signer query evidence) := by
  unfold evaluateLatest
  apply keeps_guard
  intro _
  have start : AppliedOk c signer query none := fun _ none => nomatch none
  apply keeps_bind (keeps_forRange (fun i a => evaluateStep_keeps checks) 0 c.records.length start)
  intro turn ends
  split
  · exact keeps_lift fun added given => evaluateEnd_ok ends given
  · exact keeps_throw

theorem evaluateFirst_keeps (checks : ChecksFor c signer P) {reference : Nat} {preference : Bool} :
    Keeps P (evaluateFirst c signer reference evidence preference) fun _ => True := by
  unfold evaluateFirst
  apply keeps_bind (keeps_lift fun _ given => given)
  intro status _
  exact keeps_guard fun _ => crlLatest_keeps checks

theorem scopeEvaluate_keeps (checks : ChecksFor c signer P) {reference : Nat} {preference : Bool} :
    Keeps P (scopeEvaluate c signer reference query evidence preference) fun evaluated =>
      NewlySourced c signer query evidence evaluated.evidence := by
  have same : NewlySourced c signer query evidence evidence := fun _ set => .inl set
  unfold scopeEvaluate
  apply keeps_bind (keeps_trial (evaluateFirst_keeps checks))
  intro first _
  split
  · exact keeps_pure same
  · apply keeps_bind (keeps_trial (evaluateLatest_keeps checks))
    intro outcome sourced
    split
    · exact keeps_pure same
    · exact keeps_pure (sourced _ rfl)

end TinyCrypto.Crl
