import TinyCrypto.Crl.Coverage

/-! # Reasons accumulate soundly

A group proposes evidence with supported reasons only, and the loops over records and points add
it to the pending evidence. Whatever ends a run, the saved signature states stay those of the
saved signer.
-/

namespace TinyCrypto.Crl

open Library Library.Program Library.Metered
open X509 (Certificate SignerPath PathStatus allReasons)

variable {N K : Type}

def SavedOk (c : Primitives N K) (d : Storage K) : Prop :=
  ∀ signer path, d.saved = some (signer, path) → StatesFor c signer d.states

structure Settled (c : Primitives N K) (evidence : Evidence) (d : Storage K) : Prop where
  saved : SavedOk c d
  evidence : d.evidence = evidence

/-- A point that a run considers: one of the certificate, the caller's or the alternative. -/
def Considered (fields : Fields N) (point : DistributionPoint N) : Prop :=
  (∃ next ∈ fields.points, next.result = .ok point) ∨ point = fields.point ∨
    fields.alternative = some point

def Accumulated (c : Primitives N K) (fields : Fields N) (before : Evidence) (added : Evidence) :
    Prop :=
  ∀ bit, added.reasons.testBit bit = true → before.reasons.testBit bit = true ∨
    ∃ point, Considered fields point ∧ Supported c ⟨point, fields.certificateCa⟩ bit

variable {c : Primitives N K} {query : Query N} {evidence : Evidence} {reference : Nat}

variable {d : Storage K}

theorem Sound.settled {before : Nat} (sound : Sound c query before evidence d) :
    Settled c evidence d := ⟨sound.saved, sound.evidence⟩

def GroupOk (c : Primitives N K) (query : Query N) (g : Group) : Prop :=
  ∀ p, g.chosen = some p → ProposalOk c query 0 p

theorem Failed.proposalOk {before : Nat} {p : Proposal} (failed : Failed p) :
    ProposalOk c query before p := fun ok => absurd ok failed

variable {g : Group}

theorem GroupOk.choose {p : Proposal} {failure : Result} (ok : ProposalOk c query 0 p) :
    GroupOk c query { g with chosen := some p, failure := failure } := by
  rintro p' same
  cases same
  exact ok

theorem emptyCells_triple : Triple (Data (Settled c evidence)) (emptyCells : ScopeProgram K Unit)
      (fun _ => Data (Sound c query 0 evidence)) fun _ => Data (Settled c evidence) := by
  apply triple_update
  intro d settled
  refine ⟨settled.saved, ?_, fun _ none => (nomatch none), fun _ none => (nomatch none),
    settled.evidence⟩
  intro bit set
  rw [show Evidence.zero.reasons = 0 from rfl, Nat.zero_testBit] at set
  cases set

theorem groupFailed_keeps {e : Result} (ok : GroupOk c query g) :
    Keeps (Sound c query 0 evidence) (groupFailed c g e) (GroupOk c query) := by
  unfold groupFailed
  apply keeps_bind (keeps_data (Q := fun d => ∀ p, d.unresolved = some p → Failed p)
    fun d sound => sound.unresolved)
  intro d unresolved
  apply keeps_guard
  intro _
  dsimp only
  split
  · rename_i pending kept
    apply keeps_bind (proposalMerge_keeps ok (unresolved pending kept).proposalOk)
    exact fun chosen merged => keeps_pure (GroupOk.choose merged)
  · exact keeps_pure ok

theorem groupFound_keeps (ok : GroupOk c query g) :
    Keeps (Sound c query 0 evidence) (groupFound c g) (GroupOk c query) := by
  unfold groupFound
  apply keeps_bind (keeps_data (Q := Sound c query 0 evidence) fun d sound => sound)
  intro d sound
  split
  · rename_i unresolved kept
    apply keeps_bind
      (proposalMerge_keeps sound.proposal (sound.unresolved unresolved kept).proposalOk)
    intro candidate merged
    apply keeps_bind (proposalMerge_keeps ok merged)
    exact fun chosen merged => keeps_pure (GroupOk.choose merged)
  · rename_i candidate _ kept
    apply keeps_bind (proposalMerge_keeps ok (sound.proposal candidate kept))
    exact fun chosen merged => keeps_pure (GroupOk.choose merged)
  · exact keeps_throw

variable {i : Nat}

theorem groupStep_keeps (ok : GroupOk c query g) :
    Keeps (Settled c evidence) (groupStep c reference query i g)
      (Turn.Ends (GroupOk c query) fun _ => True) := by
  unfold groupStep
  apply keeps_bind keeps_charge
  intro _ _
  apply keeps_bind record_keeps
  intro candidate found
  apply keeps_ite (fun _ => keeps_next ok)
  intro _
  apply keeps_bind sameScope_keeps
  intro same _
  apply keeps_ite
  · intro _
    apply triple_bind emptyCells_triple
    intro _
    refine Keeps.triple (P := Sound c query 0 evidence)
      (Q := Turn.Ends (GroupOk c query) fun (_ : Unit) => True) ?_ (fun _ sound => sound)
      (fun _ _ sound ends => ⟨sound.settled, ends⟩) fun _ sound => sound.settled
    apply keeps_bind (keeps_trial (signerSearch_keeps (inside_of_record found)
      fun next member => member))
    intro outcome _
    split
    · exact keeps_bind (groupFailed_keeps ok) fun g chosen => keeps_next chosen
    · exact keeps_bind (groupFound_keeps ok) fun g chosen => keeps_next chosen
  · exact fun _ => keeps_next ok

theorem crlGroup_keeps :
    Keeps (Settled c evidence) (crlGroup c reference query) (ProposalOk c query 0) := by
  unfold crlGroup
  have start : GroupOk c query ⟨none, .end, false⟩ := by
    intro p none
    cases none
  apply keeps_bind (keeps_forRange (I := GroupOk c query) (L := fun _ => True)
    (fun i g ok => groupStep_keeps ok) 0 c.records.length start)
  intro turn ends
  split
  · rename_i g
    apply keeps_guard
    intro _
    split
    · exact keeps_throw
    · rename_i chosen kept
      exact keeps_pure (ends chosen kept)
  · exact keeps_throw

theorem firstOfScope_keeps {P : Storage K → Prop} : Keeps P (firstOfScope c i) fun _ => True := by
  unfold firstOfScope
  split
  · exact keeps_pure trivial
  · dsimp only
    apply keeps_bind (keeps_forRange (I := fun _ => True) (L := fun _ => True) _ 0 i trivial)
    · intro turn _
      split <;> exact keeps_pure trivial
    · intro previous _ _
      apply keeps_bind record_keeps
      intro other _
      apply keeps_ite (fun _ => keeps_next trivial)
      intro _
      apply keeps_bind (keeps_call (Q := fun _ => True) fun _ _ => trivial)
      intro same _
      exact keeps_ite (fun _ => keeps_pure trivial) fun _ => keeps_next trivial

theorem evidenceAdd_reasons {pending added : Evidence} {reasons bit : Nat} {m : EntryMatch}
    {result : Result} (given : evidenceAdd pending reasons m = (result, added))
    (set : added.reasons.testBit bit = true) :
    pending.reasons.testBit bit = true ∨ reasons.testBit bit = true := by
  have ended := evidenceAdd_added pending reasons m
  rw [given] at ended
  cases ended with
  | unchanged => exact .inl set
  | grown => rwa [Nat.testBit_or, Bool.or_eq_true] at set

theorem scopeGroup_keeps {pending : Evidence} :
    Keeps (Settled c evidence) (scopeGroup c query i pending) (Grown c query pending.reasons) := by
  unfold scopeGroup
  apply keeps_bind firstOfScope_keeps
  intro first _
  apply keeps_ite
  · intro _
    apply keeps_bind crlGroup_keeps
    intro chosen ok
    apply keeps_guard
    intro accepted
    split
    · rename_i added given
      apply keeps_pure
      intro bit set
      cases evidenceAdd_reasons given set with
      | inl old => exact .inl old
      | inr new =>
        have grown := ok (not_not.mp accepted) bit new
        rw [Nat.zero_testBit] at grown
        exact .inr (grown.resolve_left Bool.false_ne_true)
    · exact keeps_throw
  · exact fun _ => keeps_throw

theorem scopeSingle_keeps {pending : Evidence} (inside : i < c.records.length) :
    Keeps (Settled c evidence) (scopeSingle c query i pending) fun added =>
      Grown c query pending.reasons added.1 := by
  unfold scopeSingle
  have cells : Triple (Data (Settled c evidence))
      (update fun d => { d with attempt := pending, proposal := none, unresolved := none } :
        ScopeProgram K Unit)
      (fun _ => Data (Sound c query pending.reasons evidence))
      fun _ => Data (Settled c evidence) := by
    apply triple_update
    intro d settled
    exact ⟨settled.saved, fun bit set => .inl set, fun _ none => (nomatch none),
      fun _ none => (nomatch none), settled.evidence⟩
  apply triple_bind cells
  intro _
  refine Keeps.triple (P := Sound c query pending.reasons evidence)
    (Q := fun added => Grown c query pending.reasons added.1) ?_ (fun _ sound => sound)
    (fun _ _ sound grown => ⟨sound.settled, grown⟩) fun _ sound => sound.settled
  apply keeps_bind (signerSearch_keeps inside fun next member => member)
  intro path _
  apply keeps_bind (keeps_data (Q := fun d => Grown c query pending.reasons d.attempt)
    fun d sound => sound.attempt)
  exact fun d grown => keeps_pure grown

variable {fields : Fields N} {point : DistributionPoint N} {before : Evidence}

theorem Accumulated.grow {pending added : Evidence} (considered : Considered fields point)
    (pendingOk : Accumulated c fields before pending)
    (grown : Grown c ⟨point, fields.certificateCa⟩ pending.reasons added) :
    Accumulated c fields before added := by
  intro bit set
  cases grown bit set with
  | inl old => exact pendingOk bit old
  | inr new => exact .inr ⟨point, considered, new⟩

def ScopesOk (c : Primitives N K) (fields : Fields N) (before : Evidence) (a : Scopes) : Prop :=
  Accumulated c fields before a.pending

variable {a : Scopes}

theorem scopeRecord_keeps {allScopes : Bool} (considered : Considered fields point)
    (ok : ScopesOk c fields before a) :
    Keeps (Settled c evidence) (scopeRecord c allScopes ⟨point, fields.certificateCa⟩ i a)
      (ScopesOk c fields before) := by
  unfold scopeRecord
  apply keeps_bind record_keeps
  intro candidate found
  apply keeps_guard
  intro _
  apply keeps_bind scopeReasons_keeps
  intro reasons _
  apply keeps_guard
  intro _
  apply keeps_ite
  · intro _
    apply keeps_bind scopeGroup_keeps
    exact fun added grown => keeps_pure (Accumulated.grow considered ok grown)
  · intro _
    apply keeps_bind (scopeSingle_keeps (inside_of_record found))
    exact fun added grown => keeps_pure (Accumulated.grow considered ok grown)

def TurnOk (c : Primitives N K) (fields : Fields N) (before : Evidence) :
    Turn Scopes Scopes → Prop :=
  Turn.Ends (ScopesOk c fields before) (ScopesOk c fields before)

theorem scopesStep_keeps {allScopes : Bool} (considered : Considered fields point)
    (ok : ScopesOk c fields before a) :
    Keeps (Settled c evidence) (scopesStep c allScopes ⟨point, fields.certificateCa⟩ i a)
      (TurnOk c fields before) := by
  unfold scopesStep
  apply keeps_bind keeps_charge
  intro _ _
  apply keeps_bind (keeps_trial (scopeRecord_keeps considered ok))
  intro outcome tried
  split
  · rename_i a'
    have ok' := tried a' rfl
    apply keeps_bind (keeps_lift (Q := fun _ => True) fun _ _ => trivial)
    intro status _
    apply keeps_pure
    split
    · exact ok'
    · exact ok'
  · apply keeps_bind (keeps_data (Q := fun _ => True) fun _ _ => trivial)
    intro d _
    exact keeps_guard fun _ => keeps_pure ok

variable {selection : Selection}

theorem scopesPoint_keeps (considered : Considered fields point) (ok : ScopesOk c fields before a) :
    Keeps (Settled c evidence) (scopesPoint c selection fields point a) (TurnOk c fields before) :=
  keeps_forRange (fun _ _ ok => scopesStep_keeps considered ok) _ _ ok

theorem scopesPoints_keeps {points : List (Priced (Except Result (DistributionPoint N)))}
    (within : ∀ next ∈ points, next ∈ fields.points) (ok : ScopesOk c fields before a) :
    Keeps (Settled c evidence) (scopesPoints c selection fields points a)
      (TurnOk c fields before) := by
  induction points generalizing a with
  | nil => exact keeps_pure ok
  | cons next rest ih =>
    unfold scopesPoints
    have reads : Keeps (Settled c evidence)
        (call .limit next : ScopeProgram K (DistributionPoint N)) (next.result = .ok ·) :=
      keeps_call fun _ given => given
    apply keeps_bind (keeps_trial reads)
    intro outcome read
    split
    · exact keeps_pure ok
    · exact keeps_throw
    · rename_i point
      have considered : Considered fields point :=
        .inl ⟨next, within next List.mem_cons_self, read point rfl⟩
      apply keeps_bind (scopesPoint_keeps considered ok)
      intro turn ends
      split
      · exact ih (fun p member => within p (List.mem_cons_of_mem next member)) ends
      · exact keeps_pure ends

theorem scopesLoop_keeps {selection : Selection} {a : Scopes} (ok : ScopesOk c fields before a) :
    Keeps (Settled c evidence) (scopesLoop c selection fields a) (TurnOk c fields before) := by
  unfold scopesLoop
  apply keeps_bind (scopesPoints_keeps (fun _ member => member) ok)
  intro turn ends
  split
  · exact keeps_pure ends
  apply keeps_bind (scopesPoint_keeps (.inr (.inl rfl)) ends)
  intro turn ends
  split
  · exact keeps_pure ends
  split
  · exact keeps_pure ends
  · rename_i point same
    exact scopesPoint_keeps (.inr (.inr same)) ends

theorem publish_triple (ok : ScopesOk c fields evidence a) :
    Triple (Data (Settled c evidence)) (publish selection a : ScopeProgram K Unit)
      (fun _ => Data fun d => SavedOk c d ∧ Accumulated c fields evidence d.evidence)
      fun _ => Data (Settled c evidence) :=
  triple_update fun _ settled => ⟨settled.saved, ok⟩

theorem crlScopes_triple {selection : Selection} :
    Triple (Data (Settled c evidence)) (crlScopes c selection fields)
      (fun _ => Data fun d => SavedOk c d ∧ Accumulated c fields evidence d.evidence)
      fun _ => Data (Settled c evidence) := by
  have stays (d : Storage K) (settled : Settled c evidence d) : Settled c evidence d := settled
  unfold crlScopes
  dsimp only
  apply triple_ite
  · exact fun _ => triple_throw fun s => stays s.data
  intro _
  apply triple_bind (triple_data (Q := fun d' d => Settled c evidence d ∧ d'.evidence = evidence)
    fun d settled => ⟨settled, settled.evidence⟩)
  intro d'
  apply triple_fact fun _ held => held.2
  rintro rfl
  have reads : Keeps (Settled c d'.evidence)
      (lift (evidenceStatus d'.evidence) : ScopeProgram K Status) fun _ => True :=
    keeps_lift fun _ _ => trivial
  apply triple_bind (reads.triple (fun _ held => held.1) (fun _ d settled _ => stays d settled) stays)
  intro status
  apply triple_ite
  · exact fun _ => triple_throw fun s => stays s.data
  intro _
  apply triple_bind (@scopesLoop_keeps _ _ _ _ _ d'.evidence _ _ fun bit set => .inl set)
  intro turn
  apply triple_fact fun _ held => held.2
  intro ends
  split
  · exact (publish_triple ends).mono (fun _ held => held.1) (fun _ _ done => done)
      fun _ _ failed => failed
  · apply triple_ite
    · exact fun _ => triple_throw fun s held => held.1
    intro _
    apply triple_ite
    · exact fun _ => triple_throw fun s held => held.1
    exact fun _ => (publish_triple ends).mono (fun _ held => held.1) (fun _ _ done => done)
      fun _ _ failed => failed

/-- Calls of one operation: they may differ in the certificate, and share the index and the
    signature checks. -/
structure SameIndex (c c' : Primitives N K) : Prop where
  records : c'.records = c.records
  signerCheck : c'.signerCheck = c.signerCheck

/-- The storages of an operation. No path is saved at its start, and between calls the caller
    changes the evidence, the report and the context of the path check. -/
inductive Reached (c : Primitives N K) : Storage K → Prop where
  | start {d : Storage K} : d.saved = none → Reached c d
  | call {c' : Primitives N K} {d : Storage K} (selection : Selection) (fields : Fields N)
      (work : Nat) : SameIndex c c' → Reached c d →
        Reached c ((crlScopes c' selection fields).exec ⟨work, d⟩).2.data
  | caller {d : Storage K} (evidence : Evidence) (report : Option SignerPath) (context : K) :
      Reached c d → Reached c { d with evidence := evidence, report := report, context := context }

theorem SameIndex.savedOk {c' : Primitives N K} (same : SameIndex c c') :
    SavedOk c' d ↔ SavedOk c d := by
  unfold SavedOk StatesFor Verified
  rw [same.records, same.signerCheck]

theorem Reached.savedOk (reached : Reached c d) : SavedOk c d := by
  induction reached with
  | start none =>
    intro signer path kept
    rw [none] at kept
    cases kept
  | call selection fields work same _ ih =>
    apply same.savedOk.mp
    exact crlScopes_triple.after ⟨same.savedOk.mpr ih, rfl⟩
      (fun _ _ done => done.1) fun _ _ settled => settled.saved
  | caller _ _ _ _ ih => exact ih

/-- The evidence of any additions has the reasons and the entry of those that counted. Additions
    only grow the reasons, GOOD is every reason without an entry, and a decided status is
    absorbing; over any operation the reasons that a run adds are supported, and a run that fails
    leaves the evidence as it was. -/
theorem coverage_accumulates (c : Primitives N K) : (∀ calls : List (Nat × EntryMatch), ∃ status,
      Follows (evidenceRun .zero calls) (accepted [] calls) ∧
        evidenceStatus (evidenceRun .zero calls) = .ok status ∧
        (status = .good ↔ unionReasons (accepted [] calls) = allReasons ∧
          ∀ call ∈ accepted [] calls, call.2.found = 0) ∧
        (status = .revoked ↔ ∃ call ∈ accepted [] calls, call.2.found ≠ 0) ∧
        ∀ more : List (Nat × EntryMatch),
          (∀ bit, (evidenceRun .zero calls).reasons.testBit bit = true →
            (evidenceRun .zero (calls ++ more)).reasons.testBit bit = true) ∧
          (status ≠ .undetermined → evidenceRun .zero (calls ++ more) = evidenceRun .zero calls)) ∧
    ∀ d, Reached c d → ∀ selection fields work,
      match (crlScopes c selection fields).exec ⟨work, d⟩ with
      | (.ok _, final) => Accumulated c fields d.evidence final.data.evidence
      | (.error _, final) => final.data.evidence = d.evidence := by
  constructor
  · intro calls
    have start : Follows .zero [] := ⟨rfl, .inr ⟨by simp, rfl⟩⟩
    have follows := start.run zero_valid calls
    have given := status_of (evidenceRun_valid zero_valid calls)
    refine ⟨_, follows, given, ?_, ?_, ?_⟩
    · rw [follows.clear_iff, ← follows.reasons]
      split <;> simp_all
    · have found : (∃ call ∈ accepted [] calls, call.2.found ≠ 0) ↔
          (evidenceRun .zero calls).revocation.found ≠ 0 := by
        rw [ne_eq, ← follows.clear_iff]
        push Not
        rfl
      rw [found]
      split
      · simp_all
      · split <;> simp_all
    · intro more
      rw [evidenceRun_append]
      exact ⟨fun bit set => evidenceRun_grows set more, fun decided =>
        evidenceRun_decided given decided more⟩
  · intro d reached selection fields work
    have ended := @crlScopes_triple N K c _ fields selection ⟨work, d⟩
      ⟨reached.savedOk, rfl⟩
    rcases same : (crlScopes c selection fields).exec ⟨work, d⟩ with ⟨e | _, final⟩ <;>
      rw [same] at ended
    · exact ended.evidence
    · exact ended.2

end TinyCrypto.Crl
