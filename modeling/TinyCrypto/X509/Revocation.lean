import TinyCrypto.X509.Search

/-! # Dependency nodes

The table that `x509_revocation.c` keeps while it resolves one certificate or
the members of one path: a node for every certificate whose revocation status
matters, found by encoding. `log` records every mark that the resolver made,
newest first; the code keeps only its effect, the status of each node.
-/

namespace TinyCrypto.X509

open Library Library.Program Library.Metered

/-- `TC_X509_revocation_status`, with `TC_X509_CRL_NODE_UNCOVERED`. -/
inductive NodeStatus where
  | undetermined
  | good
  | revoked
  | uncovered
  deriving DecidableEq

/-- `TC_X509_revocation_node`, without the bucket head, which belongs to its
    place in the array and not to its certificate. -/
structure Node where
  certificate : Bytes
  status : NodeStatus
  hashNext : Option Nat
  deriving DecidableEq

/-- `tc_x509_crl_selected`: the records of a base and its delta. -/
structure Selected where
  base : Nat
  delta : Option Nat
  deriving DecidableEq

/-- The path and the anchor of a `TC_X509_search_report` for a CRL signer. -/
structure SignerPath where
  path : List Bytes
  anchorIndex : Nat
  deriving DecidableEq

/-- A base and delta whose entries became evidence, and the signer path they
    were accepted under. -/
structure Used where
  selected : Selected
  signer : SignerPath
  deriving DecidableEq

/-- `TC_X509_crl_match`, when `found`. -/
structure CrlMatch where
  revokedAt : Time
  invalidityDate : Option Time
  reason : Nat
  deriving DecidableEq

/-- `TC_X509_crl_evidence`. -/
structure Coverage where
  reasons : Nat
  revocation : Option CrlMatch
  deriving DecidableEq

def Coverage.none : Coverage := ⟨0, .none⟩

/-- `tc_x509_crl_proposal`, with the signer path it was checked under. -/
structure Proposal where
  selected : Selected
  evidence : Coverage
  signer : SignerPath
  result : Result
  pendingOnly : Bool
  deriving DecidableEq

/-- The resolver gave `node` a status, from the CRLs in `used`. -/
structure Mark where
  node : Nat
  status : NodeStatus
  used : List Used
  deriving DecidableEq

/-- The writable state of a resolution. `uncoveredUsed` is absent outside
    coverage mode. -/
structure Table where
  nodes : List Node
  hashHead : Nat → Option Nat
  uncoveredUsed : Option Bool
  /-- `tc_x509_crl_signer_cache`, when valid. -/
  saved : Option (Bytes × SignerPath)
  sourceFailed : Bool
  /-- The proposal of the running search whose signer is not resolved. -/
  unresolved : Option Proposal
  log : List Mark

def Table.empty (coverage : Bool) : Table where
  nodes := []
  hashHead := fun _ => none
  uncoveredUsed := if coverage then some false else none
  saved := none
  sourceFailed := false
  unresolved := none
  log := []

abbrev CrlProgram := Metered Result Table

structure NodeInput where
  /-- `node_capacity`. -/
  capacity : Nat
  /-- `indexed_dependencies`. -/
  indexed : Bool
  /-- `tc_x509_crl_bytes_hash`. -/
  hash : Bytes → Nat
  /-- What checking one span against the writable storage charges. -/
  storageWork : Nat

def sameEncoding (previous certificate : Bytes) : CrlProgram Bool := do
  charge .limit 1
  if previous.length ≠ certificate.length then return false
  else
    charge .limit certificate.length
    return previous = certificate

/-- The loop of `tc_x509_crl_dependency_find`. -/
def nodeScan (certificate : Bytes) : Nat → List Node → CrlProgram (Option Nat)
  | _, [] => return none
  | index, node :: rest => do
    if ← sameEncoding node.certificate certificate then return some index
    else nodeScan certificate (index + 1) rest

/-- The loop of `tc_x509_crl_dependency_find_indexed`. Every pass charges work,
    so passes are bounded by the work left. -/
def chainScan (certificate : Bytes) : Nat → Option Nat → CrlProgram (Option Nat)
  | _, none => return none
  | 0, some _ => throw .limit
  | passes + 1, some cursor => do
    let table ← data
    match table.nodes[cursor]? with
    | none => throw .argument
    | some node =>
      if ← sameEncoding node.certificate certificate then return some cursor
      else chainScan certificate passes node.hashNext

def Table.append (table : Table) (certificate : Bytes) (hashNext : Option Nat) : Table :=
  { table with nodes := table.nodes ++ [⟨certificate, .undetermined, hashNext⟩] }

section

variable (n : NodeInput)

/-- `tc_x509_crl_dependency_find`. -/
def dependencyFind (certificate : Bytes) : CrlProgram Nat := do
  if certificate = [] then throw .argument
  else
    let table ← data
    match ← nodeScan certificate 0 table.nodes with
    | some index => return index
    | none =>
      if table.nodes.length = n.capacity then throw .limit
      else
        update fun table => table.append certificate none
        return table.nodes.length

def clearBuckets : CrlProgram Unit := do
  let table ← data
  if table.nodes = [] then
    charge .limit n.capacity
    update fun table => { table with hashHead := fun _ => none }
  else return ()

/-- `tc_x509_crl_dependency_find_indexed`. -/
def dependencyFindIndexed (certificate : Bytes) : CrlProgram Nat := do
  if certificate = [] then throw .argument
  else if n.capacity = 0 then throw .limit
  else
    clearBuckets n
    charge .limit certificate.length
    let s ← state
    let bucket := n.hash certificate % n.capacity
    match ← chainScan certificate (s.work + 1) (s.data.hashHead bucket) with
    | some index => return index
    | none =>
      if s.data.nodes.length = n.capacity then throw .limit
      else
        update fun table =>
          { table.append certificate (table.hashHead bucket) with
            hashHead := Function.update table.hashHead bucket (some table.nodes.length) }
        return s.data.nodes.length

/-- `tc_x509_crl_dependency_add`. -/
def dependencyAdd (certificate : Bytes) : CrlProgram Nat := do
  charge .limit n.storageWork
  if n.indexed then dependencyFindIndexed n certificate else dependencyFind n certificate

/-- One member of a signer path in `tc_x509_crl_dependencies_path`: whether it
    leaves the path unresolved, or the status that ends the check. -/
def dependencyMember (certificate : Bytes) : CrlProgram (Except PathStatus Bool) := do
  match ← trial (dependencyAdd n certificate) with
  | .error e => return .error (pathStatus e)
  | .ok index =>
    let table ← data
    match table.nodes[index]? with
    | none => return .error .error
    | some node =>
      match node.status with
      | .revoked => return .error .invalid
      | .undetermined => return .ok true
      | .good => return .ok false
      | .uncovered =>
        if table.uncoveredUsed.isSome then
          update fun table => { table with uncoveredUsed := some true }
          return .ok false
        else return .ok true

/-- `tc_x509_crl_dependencies_path`. -/
def dependenciesPath : (path : List Bytes) → (unresolved : Bool) → CrlProgram PathStatus
  | [], unresolved => return if unresolved then .unsupported else .valid
  | certificate :: rest, unresolved => do
    match ← dependencyMember n certificate with
    | .error status => return status
    | .ok open_ => dependenciesPath rest (unresolved || open_)

end

/-! ## CRL evidence for one certificate

`x509_crl_scope.c`: the CRLs of an index that are in scope are grouped, every
record of a group is attempted with the signers of the store, and the freshest
accepted proposal of a group becomes evidence. Reading and ranking CRLs and
finding a signer's path are fixed functions with a fixed price. Evidence carries
the CRLs that it came from.
-/

/-- What the scope functions call, for one index, store and anchor. `Q` is a
    distribution point to look for. -/
structure CrlPrimitives (Q : Type) where
  /-- The policy check of each record of the index. -/
  records : List Result
  /-- The candidates of the store, read and parsed. -/
  store : List (Priced (Except Result Certificate))
  anchorIndex : Nat
  /-- `TC_X509_read` of a dependency node. -/
  read : Bytes → Except Result Certificate
  /-- The points to look for: the certificate's own, then its issuer, then the
      issuer's alternative name. -/
  queries : Certificate → Priced (Except Result (List (Priced (Except Result Q))))
  /-- `tc_x509_crl_scope_reasons`. -/
  scopeReasons : Nat → Q → Priced (Except Result Nat)
  /-- Whether a record is the first of its scope. -/
  representative : Nat → Priced (Except Result Bool)
  /-- `tc_x509_crl_same_scope`. -/
  sameScope : Nat → Nat → Priced (Except Result Bool)
  /-- `tc_x509_crl_candidate_matches`. -/
  candidateMatches : Nat → Certificate → Priced (Except Result Bool)
  /-- `tc_x509_crl_signature_cache_init`. -/
  signatureCacheInit : Certificate → Priced (Except Result Unit)
  /-- `tc_x509_crl_signature_cached`. -/
  signatureCached : Nat → Certificate → Priced (Except Result Unit)
  /-- `tc_x509_crl_signer_validate`, and whether a source callback failed. -/
  signerValidate : Nat → Certificate → Priced (Bool × Except PathStatus SignerPath)
  /-- Whether there is a signer cache, and the check of its capacity. -/
  hasCache : Bool
  cacheStore : SignerPath → Priced (Except Result Unit)
  /-- `tc_x509_crl_scope_evaluate` from empty evidence. -/
  scopeEvaluate : Nat → Certificate → Q → Priced (Result × Coverage × Option Selected)
  /-- `tc_x509_crl_selected_anchor_check`. OK is a valid signature. -/
  anchorCheck : Selected → Priced Result
  /-- `x509_crl_order`. -/
  order : Selected → Selected → Priced (Except Result Int)
  /-- Whether two selections of one rank have one time and equal evidence. -/
  agree : Proposal → Proposal → Except Result Bool

/-- `TC_X509_CRL_ALL_REASONS`. -/
def allReasons : Nat := 0x1fe

/-- `tc_pki_crl_reason_known`. -/
def reasonKnown (reason : Nat) : Bool := reason ≤ 10 && reason ≠ 7

/-- `crl_effective_match_valid`. -/
def matchValid (found : CrlMatch) : Bool := reasonKnown found.reason && found.reason ≠ 8

/-- `tc_x509_crl_evidence_status`. -/
def evidenceStatus (evidence : Coverage) : Except Result NodeStatus :=
  if evidence.reasons &&& allReasons ≠ evidence.reasons then .error .argument
  else
    match evidence.revocation with
    | some found =>
      if !matchValid found || evidence.reasons = 0 then .error .argument else .ok .revoked
    | none => .ok (if evidence.reasons = allReasons then .good else .undetermined)

structure Evidence where
  coverage : Coverage
  used : List Used
  deriving DecidableEq

/-- `tc_x509_crl_evidence_add`, of a chosen proposal. -/
def evidenceAdd (evidence : Evidence) (chosen : Proposal) : Except Result Evidence :=
  let reasons := chosen.evidence.reasons
  if reasons &&& allReasons ≠ reasons then .error .argument
  else if chosen.evidence.revocation.any fun found => !matchValid found then .error .invalid
  else
    match evidenceStatus evidence.coverage with
    | .error e => .error e
    | .ok .undetermined =>
      let used := ⟨chosen.selected, chosen.signer⟩ :: evidence.used
      if reasons ||| evidence.coverage.reasons = evidence.coverage.reasons then
        .ok { evidence with used := used }
      else
        .ok
          { coverage := { reasons := evidence.coverage.reasons ||| reasons, revocation :=
                  chosen.evidence.revocation.orElse fun _ => evidence.coverage.revocation },
            used := used }
    | .ok _ => .error .end

/-- `tc_x509_path_result_status`. -/
def pathResultStatus : PathStatus → Result
  | .valid => .ok
  | .invalid => .invalid
  | .unsupported => .unsupported
  | .limit => .limit
  | .error => .argument

section

variable {Q : Type} (c : CrlPrimitives Q) (n : NodeInput)

/-- `tc_x509_crl_dependencies_check`. -/
def dependenciesCheck (path : SignerPath) (selected : Option Selected) : CrlProgram PathStatus := do
  if path.anchorIndex ≠ c.anchorIndex then return .error
  else
    match selected with
    | none => return .valid
    | some selected =>
      match ← answer .limit (c.anchorCheck selected) with
      | .limit => return .limit
      | .error => return .error
      | .ok => return .valid
      | _ => dependenciesPath n path.path false

/-- `tc_x509_crl_proposal_merge`. -/
def proposalMerge (chosen : Option Proposal) (candidate : Proposal) : CrlProgram Proposal := do
  match chosen with
  | none => return candidate
  | some chosen =>
    let order ← call .limit (c.order candidate.selected chosen.selected)
    if order < 0 then return chosen
    else if order > 0 then return candidate
    else if candidate.selected = chosen.selected && candidate.result = .ok &&
        chosen.pendingOnly then return candidate
    else if candidate.selected = chosen.selected && chosen.result = .ok &&
        candidate.pendingOnly then return chosen
    else if candidate.result ≠ .ok || chosen.result ≠ .ok then
      return { chosen with
        pendingOnly := chosen.pendingOnly && candidate.pendingOnly &&
          candidate.selected = chosen.selected,
        result :=
          if candidate.result = .unsupported || chosen.result = .unsupported then .unsupported
          else .invalid }
    else
      charge .limit 1
      if ← lift (c.agree candidate chosen) then return chosen
      else return { chosen with result := .invalid }

def cachedPath (signer : Certificate) : CrlProgram (Option SignerPath) := do
  match (← data).saved with
  | none => return none
  | some (saved, path) =>
    if saved.length ≠ signer.encoded.length then return none
    else
      charge .limit signer.encoded.length
      return if saved = signer.encoded then some path else none

def signerPath (reference : Nat) (signer : Certificate) : CrlProgram SignerPath := do
  update fun table => { table with saved := none }
  call .limit (c.signatureCacheInit signer)
  let (failed, outcome) ← answer (false, .error .limit) (c.signerValidate reference signer)
  update fun table => { table with sourceFailed := table.sourceFailed || failed }
  match outcome with
  | .error status => throw (pathResultStatus status)
  | .ok path =>
    if c.hasCache then
      call .limit (c.cacheStore path)
      update fun table => { table with saved := some (signer.encoded, path) }
      return path
    else return path

def attemptPath (reference : Nat) (signer : Certificate) : CrlProgram SignerPath := do
  match ← cachedPath signer with
  | some path =>
    call .limit (c.signatureCached reference signer)
    return path
  | none => signerPath c reference signer

def notePending (pending : Proposal) : CrlProgram (Option Proposal) := do
  let merged ← proposalMerge c (← data).unresolved pending
  update fun table => { table with unresolved := some merged }
  throw .unsupported

/-- `tc_x509_crl_scope_attempt`, giving the proposal it leaves. -/
def scopeAttempt (reference : Nat) (query : Q) (signer : Certificate) :
    CrlProgram (Option Proposal) := do
  let found ← attemptPath c reference signer
  let (result, evidence, selected) ←
    answer (.limit, Coverage.none, none) (c.scopeEvaluate reference signer query)
  if result = .argument || result = .limit then throw result
  else
    match ← dependenciesCheck c n found selected with
    | .valid =>
      match selected with
      | some selected =>
        if result = .ok || result = .invalid || result = .unsupported then
          return some ⟨selected, evidence, found, result, false⟩
        else throw result
      | none => if result = .ok then return none else throw result
    | .unsupported =>
      match selected with
      | some selected =>
        if result = .end then throw .unsupported
        else notePending c ⟨selected, evidence, found, .unsupported, result = .ok⟩
      | none => throw .unsupported
    | status => throw (pathResultStatus status)

/-- Try one candidate: `none` when it does not match. -/
def searchAttempt (reference : Nat) (query : Q) (candidate : Certificate) :
    CrlProgram (Option (Option Proposal)) := do
  match ← trial (call .limit (c.candidateMatches reference candidate)) with
  | .error .end => throw .argument
  | .error e => throw e
  | .ok false => return none
  | .ok true =>
    let proposal ← scopeAttempt c n reference query candidate
    return some proposal

/-- The end of a pass of `tc_pki_certificate_search`: how an attempt that failed
    with `e` goes on. -/
def searchFailed (failure : PathStatus) (e : Result) : CrlProgram PathStatus := do
  let table ← data
  if table.sourceFailed then throw e
  else if e = .end || pathStatus e = .error then throw e
  else return remember (pathStatus e) failure

/-- An accepted candidate ends the search, unless a source callback failed. -/
def searchFound (proposal : Option Proposal) : CrlProgram (Option Proposal) := do
  if (← data).sourceFailed then throw .argument else return proposal

/-- `tc_pki_certificate_search` for the signer of a record. -/
def signerSearch (reference : Nat) (query : Q) :
    List (Priced (Except Result Certificate)) → PathStatus → CrlProgram (Option Proposal)
  | [], failure => throw (pathResultStatus failure)
  | next :: rest, failure => do
    match ← trial (call .limit next) with
    | .error e =>
      update fun table => { table with sourceFailed := true }
      throw e
    | .ok candidate =>
      charge .limit 1
      match ← trial (searchAttempt c n reference query candidate) with
      | .ok none => signerSearch reference query rest failure
      | .ok (some proposal) => searchFound proposal
      | .error e =>
        let failure ← searchFailed failure e
        signerSearch reference query rest failure

/-- The variables of `tc_x509_crl_group`. -/
structure Group where
  chosen : Option Proposal
  failure : Result
  unranked : Bool

/-- A record of the group whose search failed with `e`. -/
def groupFailed (g : Group) (e : Result) : CrlProgram Group := do
  let table ← data
  if table.sourceFailed || e = .argument || e = .limit then throw e
  else
    let failure := if e ≠ .end && g.failure = .end then e else g.failure
    match table.unresolved with
    | some unresolved =>
      let chosen ← proposalMerge c g.chosen unresolved
      return { g with chosen := some chosen, failure := failure }
    | none => return { g with failure := failure, unranked := g.unranked || e = .unsupported }

def groupFound (g : Group) (proposal : Option Proposal) : CrlProgram Group := do
  let table ← data
  match table.unresolved with
  | some unresolved =>
    let candidate ← proposalMerge c proposal unresolved
    let chosen ← proposalMerge c g.chosen candidate
    return { g with chosen := some chosen }
  | none =>
    match proposal with
    | none => throw .argument
    | some candidate =>
      let chosen ← proposalMerge c g.chosen candidate
      return { g with chosen := some chosen }

/-- One record of `tc_x509_crl_group`. -/
def groupRecord (reference : Nat) (query : Q) (i : Nat) (g : Group) :
    CrlProgram (Turn Group Unit) := do
  charge .limit 1
  if c.records[i]? ≠ some .ok then return .next g
  else if ← call .limit (c.sameScope reference i) then
    update fun table => { table with unresolved := none }
    match ← trial (signerSearch c n i query c.store .invalid) with
    | .error e =>
      let g ← groupFailed c g e
      return .next g
    | .ok proposal =>
      let g ← groupFound c g proposal
      return .next g
  else return .next g

/-- The end of `tc_x509_crl_group`. -/
def groupEnd (g : Group) : Except Result Proposal := if g.unranked then .error .unsupported
  else
    match g.chosen with
    | none => .error g.failure
    | some chosen => .ok chosen

/-- `tc_x509_crl_group`. -/
def crlGroup (reference : Nat) (query : Q) : CrlProgram Proposal := do
  match ← forRange (groupRecord c n reference query) 0 c.records.length ⟨none, .end, false⟩ with
  | .next g => lift (groupEnd g)
  | .leave _ => throw .argument

/-- The part of `tc_x509_crl_scopes` for one record: the evidence with what its
    group adds. -/
def scopeRecord (query : Q) (i : Nat) (pending : Evidence) : CrlProgram Evidence := do
  match c.records[i]? with
  | some .ok =>
    let reasons ← call .limit (c.scopeReasons i query)
    if reasons ||| pending.coverage.reasons = pending.coverage.reasons then throw .end
    else if ← call .limit (c.representative i) then
      let chosen ← crlGroup c n i query
      if chosen.result = .ok then lift (evidenceAdd pending chosen) else throw chosen.result
    else throw .end
  | some policy => throw policy
  | none => throw .end

/-- The variables of `tc_x509_crl_scopes`. -/
structure Scopes where
  pending : Evidence
  failure : Result
  contributed : Bool

def scopesStep (query : Q) (i : Nat) (a : Scopes) : CrlProgram (Turn Scopes Evidence) := do
  charge .limit 1
  match ← trial (scopeRecord c n query i a.pending) with
  | .ok pending =>
    match evidenceStatus pending.coverage with
    | .error e => throw e
    | .ok .undetermined => return .next { a with pending := pending, contributed := true }
    | .ok _ => return .leave pending
  | .error e =>
    let table ← data
    if table.sourceFailed || e = .argument || e = .limit then throw e
    else
      return .next { a with
        failure := if e = .unsupported || (e ≠ .end && a.failure = .end) then e else a.failure }

/-- The loops of `tc_x509_crl_scopes` over points and records. -/
def scopesLoop : List (Priced (Except Result Q)) → Scopes → CrlProgram (Turn Scopes Evidence)
  | [], a => return .next a
  | next :: rest, a => do
    let query ← call .limit next
    match ← forRange (scopesStep c n query) 0 c.records.length a with
    | .next a => scopesLoop rest a
    | .leave evidence => return .leave evidence

/-- `tc_x509_crl_scope_run` over every scope, with `tc_x509_crl_scopes`. -/
def scopeRun (certificate : Certificate) : CrlProgram Evidence := do
  let queries ← call .limit (c.queries certificate)
  match ← scopesLoop c n queries ⟨⟨.none, []⟩, .end, false⟩ with
  | .leave evidence => return evidence
  | .next a =>
    if a.failure ≠ .end then throw a.failure
    else if a.contributed then return a.pending
    else throw .end

end

structure Evaluated where
  outcome : Except Result Evidence
  stop : Bool

/-- `tc_x509_crl_node_evaluate`. -/
abbrev NodeEvaluate := Nat → CrlProgram Evaluated

def Table.mark (table : Table) (index : Nat) (status : NodeStatus) (used : List Used) : Table :=
  { table with
    nodes := table.nodes.modify index fun node => { node with status := status },
    log := ⟨index, status, used⟩ :: table.log }

/-- The variables of one round: the nodes it resolved, and the last result of
    the root. -/
structure Round where
  resolved : Nat
  rootResult : Result
  deriving DecidableEq

section

variable (n : NodeInput) (evaluate : NodeEvaluate) (root : Nat)

def evaluateNode (i : Nat) : CrlProgram (Except Result Evidence) := do
  let before ← state
  let evaluated ← evaluate i
  let after ← state
  if after.work > before.work then
    change fun s => { s with work := 0 }
    throw .argument
  else if after.data.nodes.length < before.data.nodes.length ||
      after.data.nodes.length > n.capacity then throw .argument
  else if evaluated.stop then
    match evaluated.outcome with
    | .ok _ => throw .argument
    | .error e => throw e
  else return evaluated.outcome

def markUncovered (i : Nat) (r : Round) : CrlProgram (Turn Round Evidence) := do
  update fun table => table.mark i .uncovered []
  if i = root then throw .end else return .next { r with resolved := r.resolved + 1 }

def markEvidence (i : Nat) (r : Round) (evidence : Evidence) :
    CrlProgram (Turn Round Evidence) := do
  let r := if i = root then { r with rootResult := .ok } else r
  match evidenceStatus evidence.coverage with
  | .error e => throw e
  | .ok .undetermined => return .next r
  | .ok status =>
    update fun table => table.mark i status evidence.used
    if i = root then return .leave evidence
    else return .next { r with resolved := r.resolved + 1 }

def resolveNode (i : Nat) (r : Round) : CrlProgram (Turn Round Evidence) := do
  match ← evaluateNode n evaluate i with
  | .error .argument => throw .argument
  | .error .limit => throw .limit
  | .error .end => markUncovered root i r
  | .error e => return .next (if i = root then { r with rootResult := e } else r)
  | .ok evidence => markEvidence root i r evidence

/-- The inner loop of `tc_x509_crl_nodes_resolve` from node `i`. Nodes may be
    added while it runs, `left` is the room up to the capacity. -/
def resolveRound : (left i : Nat) → Round → CrlProgram (Turn Round Evidence)
  | 0, _, r => return .next r
  | left + 1, i, r => do
    match (← data).nodes[i]? with
    | none => return .next r
    | some node =>
      if i ≠ root && node.status ≠ .undetermined then resolveRound left (i + 1) r
      else
        match ← resolveNode n evaluate root i r with
        | .next r => resolveRound left (i + 1) r
        | .leave evidence => return .leave evidence

structure Resolution where
  outcome : Except Result Evidence
  after : Budgeted Table

/-- The rounds of `tc_x509_crl_nodes_resolve`, `fuel` of them at most. -/
def resolveLoop : (fuel : Nat) → (rootResult : Result) → Budgeted Table → Option Resolution
  | 0, _, _ => none
  | fuel + 1, rootResult, s =>
    match (resolveRound n evaluate root n.capacity 0 ⟨0, rootResult⟩).exec s with
    | (.error e, s') => some ⟨.error e, s'⟩
    | (.ok (.leave evidence), s') => some ⟨.ok evidence, s'⟩
    | (.ok (.next r), s') =>
      if r.resolved = 0 && s'.data.nodes.length = s.data.nodes.length then
        some ⟨.error (if r.rootResult = .invalid then .invalid else .unsupported), s'⟩
      else resolveLoop fuel r.rootResult s'

/-- `tc_x509_crl_nodes_resolve`, for `fuel` rounds at most. -/
def nodesResolve (fuel : Nat) (s : Budgeted Table) : Option Resolution :=
  if s.data.nodes.length > n.capacity || root ≥ s.data.nodes.length then
    some ⟨.error .argument, s⟩
  else resolveLoop n evaluate root fuel .unsupported s

end

section

variable {Q : Type} (c : CrlPrimitives Q) (n : NodeInput)

/-- `tc_x509_crl_dependency_read`. -/
def dependencyRead (index : Nat) : CrlProgram Certificate := do
  match (← data).nodes[index]? with
  | none => throw .argument
  | some node =>
    charge .limit node.certificate.length
    lift (c.read node.certificate)

/-- `x509_crl_node_evaluate`. -/
def nodeEvaluate : NodeEvaluate := fun index => do
  match ← trial (dependencyRead c index) with
  | .error e => return ⟨.error e, true⟩
  | .ok certificate =>
    let outcome ← trial (scopeRun c n certificate)
    return ⟨outcome, (← data).sourceFailed⟩

def provenEvidence : Evidence := ⟨⟨allReasons, .none⟩, []⟩

/-- `tc_x509_crl_resolve_dependencies` with `x509_crl_resolve_target`, for `fuel`
    rounds at most. -/
def resolveTarget (fuel : Nat) (target : Bytes) (s : Budgeted Table) : Option Resolution :=
  let s := { s with data := { s.data with sourceFailed := false } }
  match (dependencyAdd n target).exec s with
  | (.error e, s) => some ⟨.error e, s⟩
  | (.ok root, s) =>
    match s.data.nodes[root]?.map Node.status with
    | some .good => some ⟨.ok provenEvidence, s⟩
    | some .uncovered => some ⟨.error .end, s⟩
    | _ => nodesResolve n (nodeEvaluate c n) root fuel s

end

end TinyCrypto.X509
