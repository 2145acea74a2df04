import TinyCrypto.Crl.Records

/-! # Selecting a CRL in one scope

`x509_crl_delta.c`: cached signatures, the delta of a base, the latest effective CRL of a scope
and the evidence it gives. A cursor of the source runs over every record in turn; here a pass
handles one record.
-/

namespace TinyCrypto.Crl

open Library Library.Program Library.Metered

section

variable {N K : Type} (c : Primitives N K)

def setState (i : Nat) (state : SignatureState) : ScopeProgram K Unit :=
  update fun d => { d with states := d.states.set i state }

/-- `tc_x509_crl_signature_cached` under an encoded signer. -/
def signatureCached (signer : Bytes) (i : Nat) : ScopeProgram K Unit := do
  charge .limit 1
  match (← data).states[i]? with
  | some .valid => return ()
  | some .invalid => throw .invalid
  | some .unchecked =>
    match ← answer .limit (c.signerCheck i signer) with
    | .ok => setState i .valid
    | .invalid => do
      setState i .invalid
      throw .invalid
    | failure => throw failure
  | none => throw .argument

/-- `tc_x509_crl_delta_next`: whether a record is a delta of the base. -/
def deltaNext (base i : Nat) : ScopeProgram K Bool := do
  charge .limit 1
  let delta ← record c i
  if i = base || delta.policy ≠ .ok || !delta.has extDelta then return false
  else call .limit (c.compatible base i)

/-- The variables of `tc_x509_crl_delta_select`. -/
structure DeltaChoice where
  chosen : Option Nat
  conflicting : Bool

def deltaRank (candidate : Nat) (a : DeltaChoice) : ScopeProgram K DeltaChoice := do
  match a.chosen with
  | none => return ⟨some candidate, false⟩
  | some chosen =>
    let order ← call .limit (c.numberCompare candidate chosen)
    if order < 0 then return a
    else if order ≠ 0 then return ⟨some candidate, false⟩
    else if ← call .limit (c.contentEqual candidate chosen) then return a
    else
      charge .limit 1
      let left ← record c candidate
      let right ← record c chosen
      let later ← lift (timeCompare left.thisUpdate right.thisUpdate)
      return ⟨some (if later > 0 then candidate else chosen), true⟩

/-- One pass of `tc_x509_crl_delta_select`. -/
def deltaStep (signer : Bytes) (base i : Nat) (a : DeltaChoice) :
    ScopeProgram K (Turn DeltaChoice Unit) := do
  if ← deltaNext c base i then
    let delta ← record c i
    let freshness ← lift (freshAt c.time delta)
    if freshness ≠ .current then return .next a
    else
      match ← trial (signatureCached c signer i) with
      | .error .invalid => return .next a
      | .error e => throw e
      | .ok () =>
        let a ← deltaRank c i a
        return .next a
  else return .next a

/-- `tc_x509_crl_delta_select`: the delta, and whether it conflicts. -/
def deltaSelect (signer : Bytes) (base : Nat) : ScopeProgram K (Nat × Bool) := do
  let complete ← record c base
  if complete.policy ≠ .ok then throw complete.policy
  else if complete.has extDelta then throw .argument
  else
    match ← forRange (deltaStep c signer base) 0 c.records.length ⟨none, false⟩ with
    | .next ⟨some chosen, conflicting⟩ => return (chosen, conflicting)
    | _ => throw .end

def sameScope (reference i : Nat) : ScopeProgram K Bool := match c.scopes with
  | some first => pure (first[i]? = first[reference]?)
  | none => call .limit (c.scopeEqual reference i)

def effectiveDelta (signer : Bytes) (i : Nat) (freshness : Freshness) :
    ScopeProgram K (Option (Selected × Bool)) := do
  if c.deltaPolicy = .completeOnly then return some (⟨i, none⟩, false)
  else
    match ← trial (deltaSelect c signer i) with
    | .ok (delta, conflicting) => return some (⟨i, some delta⟩, conflicting)
    | .error .end =>
      if c.deltaPolicy = .deltaRequired || freshness ≠ .current then return none
      else return some (⟨i, none⟩, false)
    | .error e => throw e

/-- `tc_x509_crl_effective_next` at one record: the effective CRL, and whether it conflicts. -/
def effectiveNext (signer : Bytes) (reference i : Nat) :
    ScopeProgram K (Option (Selected × Bool)) := do
  charge .limit 1
  let base ← record c i
  if base.policy ≠ .ok || base.has extDelta then return none
  else if ← sameScope c reference i then
    let freshness ← lift (freshAt c.time base)
    if freshness = .future || (c.deltaPolicy = .completeOnly && freshness ≠ .current) then
      return none
    else
      match ← trial (signatureCached c signer i) with
      | .error .invalid => return none
      | .error e => throw e
      | .ok () => effectiveDelta c signer i freshness
  else return none

/-- The variables of `tc_x509_crl_latest`. -/
structure Latest where
  selected : Option Selected
  conflict : Bool

/-- One pass of `tc_x509_crl_latest`. -/
def latestStep (signer : Bytes) (reference i : Nat) (a : Latest) :
    ScopeProgram K (Turn Latest Unit) := do
  match ← effectiveNext c signer reference i with
  | none => return .next a
  | some (selected, conflict) =>
    let order ← crlOrder c selected (a.selected.getD selected)
    match a.selected with
    | none => return .next ⟨some selected, conflict⟩
    | some _ =>
      if order < 0 then return .next a
      else if order = 0 then return .next { a with conflict := a.conflict || conflict }
      else return .next ⟨some selected, conflict⟩

/-- `tc_x509_crl_latest`. -/
def crlLatest (signer : Bytes) (reference : Nat) (wantsConflict : Bool) :
    ScopeProgram K (Selected × Bool) := do
  match ← forRange (latestStep c signer reference) 0 c.records.length ⟨none, false⟩ with
  | .next ⟨some latest, conflict⟩ =>
    if conflict && !wantsConflict then throw .invalid else return (latest, conflict)
  | _ => throw .end

structure Applied where
  evidence : Evidence
  update : X509.Time

def applyAgain (chosen : Applied) (candidate : Evidence) (effective : Record) :
    ScopeProgram K Unit := do
  let order ← lift (timeCompare chosen.update effective.thisUpdate)
  if order ≠ 0 then throw .invalid
  else
    let equal ← lift (evidenceEqual chosen.evidence candidate)
    if equal then return () else throw .invalid

/-- One pass of the loop of `tc_x509_crl_scope_evaluate`. -/
def evaluateStep (signer : Bytes) (reference : Nat) (query : Query N) (latest : Selected) (i : Nat)
    (a : Option Applied) : ScopeProgram K (Turn (Option Applied) Unit) := do
  match ← effectiveNext c signer reference i with
  | none => return .next a
  | some (selected, conflict) =>
    let order ← crlOrder c selected latest
    if order ≠ 0 then return .next a
    else if conflict then throw .invalid
    else
      match ← trial (crlApply c selected query .zero) with
      | .error .end => return .next a
      | .error e => throw e
      | .ok candidate =>
        let effective ← record c selected.effective
        match a with
        | none => return .next (some ⟨candidate, effective.thisUpdate⟩)
        | some chosen =>
          applyAgain chosen candidate effective
          return .next a

/-- The end of `tc_x509_crl_scope_evaluate`. -/
def evaluateEnd (evidence : Evidence) : Option Applied → Except Result Evidence
  | none => .error .end
  | some chosen =>
    if covered chosen.evidence.reasons evidence.reasons then .error .end
    else
      match evidenceAdd evidence chosen.evidence.reasons chosen.evidence.revocation with
      | (.ok, added) => .ok added
      | (failure, _) => .error failure

/-- The part of `tc_x509_crl_scope_evaluate` after the latest CRL is known. -/
def evaluateLatest (signer : Bytes) (reference : Nat) (query : Query N) (evidence : Evidence)
    (latest : Selected × Bool) : ScopeProgram K Evidence := do
  if latest.2 then throw .invalid
  else
    match ← forRange (evaluateStep c signer reference query latest.1) 0 c.records.length none with
    | .next a => lift (evaluateEnd evidence a)
    | .leave _ => throw .end

/-- The part of `tc_x509_crl_scope_evaluate` before it. -/
def evaluateFirst (signer : Bytes) (reference : Nat) (evidence : Evidence) (preference : Bool) :
    ScopeProgram K (Selected × Bool) := do
  let status ← lift (evidenceStatus evidence)
  if status ≠ .undetermined then throw .end
  else crlLatest c signer reference preference

/-- What `tc_x509_crl_scope_evaluate` leaves in its outputs. -/
structure Evaluated where
  result : Result
  evidence : Evidence
  selected : Option Selected

/-- `tc_x509_crl_scope_evaluate`. The selection is kept when a later check fails. -/
def scopeEvaluate (signer : Bytes) (reference : Nat) (query : Query N) (evidence : Evidence)
    (preference : Bool) : ScopeProgram K Evaluated := do
  match ← trial (evaluateFirst c signer reference evidence preference) with
  | .error e => return ⟨e, evidence, none⟩
  | .ok latest =>
    let selected := if preference then some latest.1 else none
    match ← trial (evaluateLatest c signer reference query evidence latest) with
    | .error e => return ⟨e, evidence, selected⟩
    | .ok added => return ⟨.ok, added, selected⟩

end

/-! # Attempts, groups and scopes

`x509_crl_scope.c`: an attempt validates one signer and evaluates its scope, a group ranks the
proposals of every record of a scope, and `tc_x509_crl_scopes` adds what the chosen ones give to
pending evidence. The caller's evidence is written at the end.
-/

open X509 (Certificate SignerPath PathStatus pathStatus pathResultStatus remember)

section

variable {N K : Type} (c : Primitives N K)

/-- `tc_x509_crl_proposal_merge`. -/
def proposalMerge (chosen : Option Proposal) (candidate : Proposal) : ScopeProgram K Proposal := do
  match chosen with
  | none => return candidate
  | some chosen =>
    let order ← crlOrder c candidate.selected chosen.selected
    let same := candidate.selected = chosen.selected
    if order < 0 then return chosen
    else if order > 0 then return candidate
    else if same && candidate.result = .ok && chosen.pendingOnly then return candidate
    else if same && chosen.result = .ok && candidate.pendingOnly then return chosen
    else if candidate.result ≠ .ok || chosen.result ≠ .ok then
      return { chosen with
        pendingOnly := chosen.pendingOnly && candidate.pendingOnly && same,
        result :=
          if candidate.result = .unsupported || chosen.result = .unsupported then .unsupported
          else .invalid }
    else
      let a ← record c candidate.selected.effective
      let b ← record c chosen.selected.effective
      charge .limit 1
      let order ← lift (timeCompare a.thisUpdate b.thisUpdate)
      let equal ← lift (evidenceEqual candidate.evidence chosen.evidence)
      return if order ≠ 0 || !equal then { chosen with result := .invalid } else chosen

def cachedPath (signer : Bytes) : ScopeProgram K (Option SignerPath) := do
  match (← data).saved with
  | none => return none
  | some (saved, path) =>
    if saved.length ≠ signer.length then return none
    else
      charge .limit signer.length
      return if saved = signer then some path else none

/-- `tc_x509_crl_signature_cache_init`. -/
def signatureCacheInit : ScopeProgram K Unit := do
  let count := c.records.length
  if (← data).states.length < count then throw .limit
  else
    charge .limit count
    update fun d =>
      { d with states := List.replicate count .unchecked ++ d.states.drop count }

/-- `tc_x509_crl_signer_validate`, with `tc_x509_path_result_status`. -/
def signerValidate (reference : Nat) (signer : Bytes) : ScopeProgram K SignerPath := do
  if c.selectAnchor ≠ .ok then throw (pathResultStatus (pathStatus c.selectAnchor))
  else
    match ← answer .limit (c.signerCheck reference signer) with
    | .ok => do
      let (failed, outcome) ← answer (false, .error .limit) (c.signerPath signer)
      update fun d => { d with sourceFailed := d.sourceFailed || failed }
      match outcome with
      | .error status => throw (pathResultStatus status)
      | .ok path => return path
    | failure => throw (pathResultStatus (pathStatus failure))

def savePath (signer : Bytes) (path : SignerPath) : ScopeProgram K SignerPath := do
  if c.hasCache then
    call .limit (c.cacheStore path)
    update fun d => { d with saved := some (signer, path) }
    return path
  else return path

def freshPath (reference : Nat) (signer : Bytes) : ScopeProgram K SignerPath := do
  update fun d => { d with saved := none }
  signatureCacheInit c
  let path ← signerValidate c reference signer
  setState reference .valid
  savePath c signer path

def attemptPath (reference : Nat) (signer : Bytes) : ScopeProgram K SignerPath := do
  match ← cachedPath signer with
  | some path =>
    signatureCached c signer reference
    return path
  | none => freshPath c reference signer

/-- `processing->check->verify`. Work that grew is an error. -/
def verifyPath (path : SignerPath) (selected : Option Selected) : ScopeProgram K PathStatus :=
  ExceptT.mk fun s =>
    match c.check with
    | none => (.ok .valid, s)
    | some verify =>
      match verify s.data.context path selected s.work with
      | (status, left, context) =>
        if left > s.work then (.error .argument, ⟨0, { s.data with context := context }⟩)
        else (.ok status, ⟨left, { s.data with context := context }⟩)

def notePending (pending : Proposal) : ScopeProgram K Unit := do
  let merged ← proposalMerge c (← data).unresolved pending
  update fun d => { d with unresolved := some merged }

def attemptCheck (proposes : Bool) (path : SignerPath) (evaluated : Evaluated) :
    ScopeProgram K Unit := do
  let check := pathResultStatus (← verifyPath c path evaluated.selected)
  match proposes && check = .unsupported && evaluated.result ≠ .end, evaluated.selected with
  | true, some selected => do
    notePending c ⟨selected, evaluated.evidence, .unsupported, evaluated.result = .ok⟩
    throw check
  | _, _ => if check ≠ .ok then throw check else return ()

def attemptPublish (proposes : Bool) (evaluated : Evaluated) : ScopeProgram K Unit := do
  let ranked := evaluated.result = .ok || evaluated.result = .invalid ||
    evaluated.result = .unsupported
  match proposes && ranked, evaluated.selected with
  | true, some selected =>
    update fun d => { d with
      proposal := some ⟨selected, evaluated.evidence, evaluated.result, false⟩ }
  | _, _ =>
    if evaluated.result ≠ .ok then throw evaluated.result
    else update fun d => { d with attempt := evaluated.evidence }

/-- `tc_x509_crl_scope_attempt`. In a group it proposes. -/
def scopeAttempt (proposes : Bool) (reference : Nat) (query : Query N) (signer : Certificate) :
    ScopeProgram K SignerPath := do
  let path ← attemptPath c reference signer.encoded
  let pending := (← data).attempt
  let evaluated ← scopeEvaluate c signer.encoded reference query pending
    (proposes || c.check.isSome)
  if evaluated.result = .argument || evaluated.result = .limit then throw evaluated.result
  else
    attemptCheck c proposes path evaluated
    attemptPublish proposes evaluated
    return path

/-- The filter and the attempt of one candidate: `none` when it does not match. -/
def searchAttempt (proposes : Bool) (reference : Nat) (query : Query N) (candidate : Certificate) :
    ScopeProgram K (Option SignerPath) := do
  match ← trial (call .limit (c.candidateMatches reference candidate)) with
  | .error .end => throw .argument
  | .error e => throw e
  | .ok false => return none
  | .ok true =>
    let path ← scopeAttempt c proposes reference query candidate
    return some path

def searchFailed (failure : PathStatus) (e : Result) : ScopeProgram K PathStatus := do
  if (← data).sourceFailed then throw e
  else if e = .end || pathStatus e = .error then throw e
  else return remember (pathStatus e) failure

/-- `tc_pki_certificate_search` for the signer of a record. -/
def signerSearch (proposes : Bool) (reference : Nat) (query : Query N) :
    List (Priced (Except Result Certificate)) → PathStatus → ScopeProgram K SignerPath
  | [], failure => throw (pathResultStatus failure)
  | next :: rest, failure => do
    match ← trial (call .limit next) with
    | .error e =>
      update fun d => { d with sourceFailed := true }
      throw e
    | .ok candidate =>
      charge .limit 1
      match ← trial (searchAttempt c proposes reference query candidate) with
      | .ok none => signerSearch proposes reference query rest failure
      | .ok (some path) => if (← data).sourceFailed then throw .argument else return path
      | .error e =>
        let failure ← searchFailed failure e
        signerSearch proposes reference query rest failure

/-- The variables of `tc_x509_crl_group`. -/
structure Group where
  chosen : Option Proposal
  failure : Result
  unranked : Bool

def groupFailed (g : Group) (e : Result) : ScopeProgram K Group := do
  let d ← data
  if d.sourceFailed || e = .argument || e = .limit then throw e
  else
    let failure := if e ≠ .end && g.failure = .end then e else g.failure
    match d.unresolved with
    | some unresolved =>
      let chosen ← proposalMerge c g.chosen unresolved
      return { g with chosen := some chosen, failure := failure }
    | none => return { g with failure := failure, unranked := g.unranked || e = .unsupported }

def groupFound (g : Group) : ScopeProgram K Group := do
  let d ← data
  match d.unresolved, d.proposal with
  | some unresolved, proposal =>
    let candidate ← proposalMerge c proposal unresolved
    let chosen ← proposalMerge c g.chosen candidate
    return { g with chosen := some chosen }
  | none, some candidate =>
    let chosen ← proposalMerge c g.chosen candidate
    return { g with chosen := some chosen }
  | none, none => throw .argument

def emptyCells : ScopeProgram K Unit :=
  update fun d => { d with attempt := .zero, proposal := none, unresolved := none }

/-- One pass of `tc_x509_crl_group`. -/
def groupStep (reference : Nat) (query : Query N) (i : Nat) (g : Group) :
    ScopeProgram K (Turn Group Unit) := do
  charge .limit 1
  let candidate ← record c i
  if candidate.policy ≠ .ok then return .next g
  else if ← sameScope c reference i then
    emptyCells
    match ← trial (signerSearch c true i query c.store .invalid) with
    | .error e =>
      let g ← groupFailed c g e
      return .next g
    | .ok _ =>
      let g ← groupFound c g
      return .next g
  else return .next g

/-- `tc_x509_crl_group`. -/
def crlGroup (reference : Nat) (query : Query N) : ScopeProgram K Proposal := do
  match ← forRange (groupStep c reference query) 0 c.records.length ⟨none, .end, false⟩ with
  | .next g =>
    if g.unranked then throw .unsupported
    else
      match g.chosen with
      | none => throw g.failure
      | some chosen => return chosen
  | .leave _ => throw .end

/-- Whether no record before has the scope of record `i`. -/
def firstOfScope (i : Nat) : ScopeProgram K Bool := match c.scopes with
  | some first => pure (first[i]? = some i)
  | none => do
    let step (previous : Nat) (_ : Unit) : ScopeProgram K (Turn Unit Unit) := do
      let other ← record c previous
      if other.policy ≠ .ok then return .next ()
      else if ← call .limit (c.scopeEqual i previous) then return .leave ()
      else return .next ()
    match ← forRange step 0 i () with
    | .next _ => return true
    | .leave _ => return false

def scopeGroup (query : Query N) (i : Nat) (pending : Evidence) : ScopeProgram K Evidence := do
  if ← firstOfScope c i then
    let chosen ← crlGroup c i query
    if chosen.result ≠ .ok then throw chosen.result
    else
      match evidenceAdd pending chosen.evidence.reasons chosen.evidence.revocation with
      | (.ok, added) => return added
      | (failure, _) => throw failure
  else throw .end

/-- What the signers of one record add to the pending evidence, and the signer path. There are no
    proposal cells outside a group. -/
def scopeSingle (query : Query N) (i : Nat) (pending : Evidence) :
    ScopeProgram K (Evidence × SignerPath) := do
  update fun d => { d with attempt := pending, proposal := none, unresolved := none }
  let path ← signerSearch c false i query c.store .invalid
  return ((← data).attempt, path)

/-- The variables of `tc_x509_crl_scopes`. -/
structure Scopes where
  pending : Evidence
  failure : Result
  contributed : Bool
  found : Option SignerPath

/-- The part of `tc_x509_crl_scopes` for one record. -/
def scopeRecord (allScopes : Bool) (query : Query N) (i : Nat) (a : Scopes) :
    ScopeProgram K Scopes := do
  let candidate ← record c i
  if candidate.policy ≠ .ok then throw candidate.policy
  else
    let reasons ← scopeReasons c i query
    if covered reasons a.pending.reasons then throw .end
    else if allScopes then
      let added ← scopeGroup c query i a.pending
      return { a with pending := added, contributed := true }
    else
      let (added, path) ← scopeSingle c query i a.pending
      return { a with pending := added, contributed := true, found := some path }

def scopesStep (allScopes : Bool) (query : Query N) (i : Nat) (a : Scopes) :
    ScopeProgram K (Turn Scopes Scopes) := do
  charge .limit 1
  match ← trial (scopeRecord c allScopes query i a) with
  | .ok a => do
    let status ← lift (evidenceStatus a.pending)
    return if status ≠ .undetermined then .leave a else .next a
  | .error e => do
    if !allScopes || (← data).sourceFailed || e = .argument || e = .limit then throw e
    else
      return .next { a with
        failure := if e = .unsupported || (e ≠ .end && a.failure = .end) then e else a.failure }

/-- `tc_x509_crl_certificate_fields` and the caller's query. The reader of `points` answers END
    after the last; there is none when the certificate has no points. -/
structure Fields (N : Type) where
  points : List (Priced (Except Result (DistributionPoint N)))
  point : DistributionPoint N
  alternative : Option (DistributionPoint N)
  certificateCa : Bool

/-- How `tc_x509_crl_scopes` was called. -/
structure Selection where
  reference : Nat
  allScopes : Bool

def scopesPoint (selection : Selection) (fields : Fields N) (point : DistributionPoint N)
    (a : Scopes) : ScopeProgram K (Turn Scopes Scopes) :=
  let count := if selection.allScopes then c.records.length - selection.reference else 1
  forRange (scopesStep c selection.allScopes ⟨point, fields.certificateCa⟩) selection.reference
    count a

def scopesPoints (selection : Selection) (fields : Fields N) :
    List (Priced (Except Result (DistributionPoint N))) → Scopes →
      ScopeProgram K (Turn Scopes Scopes)
  | [], a => return .next a
  | next :: rest, a => do
    match ← trial (call .limit next) with
    | .error .end => return .next a
    | .error e => throw e
    | .ok point =>
      match ← scopesPoint c selection fields point a with
      | .next a => scopesPoints selection fields rest a
      | .leave a => return .leave a

def scopesLoop (selection : Selection) (fields : Fields N) (a : Scopes) :
    ScopeProgram K (Turn Scopes Scopes) := do
  match ← scopesPoints c selection fields fields.points a with
  | .leave a => return .leave a
  | .next a =>
    match ← scopesPoint c selection fields fields.point a with
    | .leave a => return .leave a
    | .next a =>
      match fields.alternative with
      | none => return .next a
      | some point => scopesPoint c selection fields point a

def publish (selection : Selection) (a : Scopes) : ScopeProgram K Unit := update fun d => { d with
    evidence := a.pending,
    report := if selection.allScopes then d.report else a.found }

/-- `tc_x509_crl_scopes`. -/
def crlScopes (selection : Selection) (fields : Fields N) : ScopeProgram K Unit := do
  let count := c.records.length
  if selection.reference > count || (!selection.allScopes && selection.reference = count) then
    throw .argument
  else
    let evidence := (← data).evidence
    let status ← lift (evidenceStatus evidence)
    if status ≠ .undetermined then throw .end
    else
      match ← scopesLoop c selection fields ⟨evidence, .end, false, none⟩ with
      | .leave a => publish selection a
      | .next a =>
        if a.failure ≠ .end then throw a.failure
        else if !a.contributed then throw .end
        else publish selection a

end

end TinyCrypto.Crl
