import TinyCrypto.Library.Metered
import TinyCrypto.X509.Read

/-! # Certification path search

`tc_x509_path_search_source`: a depth-first search from the target towards the
anchors, over an explicit stack. `path` and `frames` hold the used part of the
workspace arrays, newest entry first, so `path` is anchor-issued certificate
first and target last. Name comparison and path validation are fixed functions
with a fixed price, and a source answers by index.
-/

namespace TinyCrypto.X509

open Library Library.Program Library.Metered

/-- `TC_X509_path_status`. -/
inductive PathStatus where
  | valid
  | invalid
  | unsupported
  | limit
  | error
  deriving DecidableEq

/-- `tc_x509_path_status`. -/
def pathStatus : Result → PathStatus
  | .ok => .valid
  | .limit => .limit
  | .unsupported => .unsupported
  | .argument => .error
  | .io => .error
  | _ => .invalid

/-- `tc_x509_path_remember`: the failure after a branch ended with `status`. -/
def remember (status failure : PathStatus) : PathStatus :=
  if status = .limit || (status = .unsupported && failure ≠ .limit) then status else failure

/-- `TC_X509_store_anchor`. -/
structure StoreAnchor where
  trust : TrustAnchor
  names : NameConstraints
  policySet : Bytes
  extensions : Bytes
  certificateExtensions : Bytes
  policyFlags : Nat
  usage : Nat
  replacedControls : Nat
  pathLen : Option Nat
  x509Unusable : Bool
  deriving DecidableEq

/-- `TC_X509_store_source`, whose records are fixed functions of the index. A
    callback gets the work left and answers with a status and the work it
    leaves. -/
structure StoreSource where
  candidates : List Bytes
  anchors : List StoreAnchor
  candidateCall : Nat → Nat → Result × Nat
  anchorCall : Nat → Nat → Result × Nat

/-- The functions the search calls, with limits and scratch fixed. `V` is the
    report of path validation. -/
structure SearchPrimitives (V : Type) where
  fields : FieldReaders
  /-- `options->parsing`. -/
  parsing : Tlv.Limits
  /-- `TC_X509_name_equal`. -/
  nameEqual : Bytes → Bytes → Priced (Except Result Bool)
  /-- `tc_x509_path_validate_anchor`. -/
  validate : List Bytes → StoreAnchor → Priced (Except PathStatus V)

structure SearchInput where
  target : Bytes
  source : StoreSource
  /-- `search->capacity`. -/
  workspaceCapacity : Nat
  maxCertificates : Nat
  maxInput : Nat

/-- `capacity`. -/
def SearchInput.capacity (input : SearchInput) : Nat :=
  min input.workspaceCapacity input.maxCertificates

/-- `TC_X509_search_frame`. -/
structure SearchFrame where
  candidate : Nat
  anchor : Nat
  bytes : Nat
  issuer : Bytes
  deriving DecidableEq

/-- The stack and the remembered failure. `depth` is the number of frames. -/
structure SearchState where
  path : List Bytes
  frames : List SearchFrame
  failure : PathStatus

/-- `TC_X509_search_report`. -/
structure SearchReport (V : Type) where
  path : List Bytes
  anchorIndex : Nat
  validation : V
  workUsed : Nat

abbrev SearchProgram := Metered PathStatus SearchState

def SearchState.onTop (f : SearchFrame → SearchFrame) (s : SearchState) : SearchState :=
  { s with frames := s.frames.modifyHead f }

/-- A source callback, with `source_status`. -/
def sourceCall (call : Nat → Result × Nat) : SearchProgram Unit := ExceptT.mk fun s =>
    match call s.work with
    | (status, left) =>
      if left > s.work then (.error .error, { s with work := 0 })
      else
        match status with
        | .ok => (.ok (), { s with work := left })
        | .limit => (.error .limit, { s with work := left })
        | .unsupported => (.error .unsupported, { s with work := left })
        | _ => (.error .error, { s with work := left })

/-- The branch ended with `status`. -/
def rememberFailure (status : PathStatus) : SearchProgram Unit :=
  update fun s => { s with failure := remember status s.failure }

section

variable {V : Type} (q : SearchPrimitives V) (input : SearchInput)

def SearchPrimitives.read (encoded : Bytes) : Except Result Certificate :=
  certificateRead q.fields q.parsing encoded

/-- `search_subject` under the search's limits. -/
def SearchPrimitives.subject (encoded : Bytes) : Except Result Bytes :=
  searchSubject q.fields q.parsing encoded

/-- `search_read`. -/
def searchRead (encoded : Bytes) : SearchProgram (Except Result Certificate) :=
  answer (.error .limit) ⟨encoded.length, q.read encoded⟩

/-- Compare a name with the issuer of the path; a failed comparison ends the
    branch. -/
def nameMatches (issuer name : Bytes) : SearchProgram Bool := do
  match ← answer (.error .limit) (q.nameEqual issuer name) with
  | .ok equal => return equal
  | .error .argument => throw .error
  | .error e =>
    rememberFailure (pathStatus e)
    return false

def candidateRead (encoded : Bytes) : SearchProgram (Option Certificate) := do
  match ← searchRead q encoded with
  | .ok certificate => return some certificate
  | .error .argument => throw .error
  | .error e =>
    rememberFailure (pathStatus e)
    return none

def tryAnchor (initialWork index : Nat) (anchor : StoreAnchor) :
    SearchProgram (Option (SearchReport V)) := do
  let s ← data
  match ← answer (.error .limit) (q.validate s.path anchor) with
  | .ok validation =>
    let left ← state
    return some ⟨s.path, index, validation, initialWork - left.work⟩
  | .error .error => throw .error
  | .error status =>
    rememberFailure status
    return none

def anchorStep (initialWork : Nat) (frame : SearchFrame) (anchor : StoreAnchor) :
    SearchProgram (Option (SearchReport V)) := do
  update (SearchState.onTop fun frame => { frame with anchor := frame.anchor + 1 })
  sourceCall (input.source.anchorCall frame.anchor)
  if anchor.x509Unusable then
    rememberFailure .invalid
    return none
  else if anchor.trust.name = [] then throw .error
  else if ← nameMatches q frame.issuer anchor.trust.name then
    tryAnchor q initialWork frame.anchor anchor
  else return none

def repeated (candidate : Bytes) : List Bytes → SearchProgram Bool
  | [] => return false
  | entry :: rest => do
    charge .limit 1
    if candidate.length ≠ entry.length then repeated candidate rest
    else
      charge .limit candidate.length
      if candidate = entry then return true else repeated candidate rest

def extend (frame : SearchFrame) (candidate : Bytes) (certificate : Certificate) :
    SearchProgram Unit :=
  update fun s =>
    if s.path.length = input.capacity || candidate.length > input.maxInput - frame.bytes then
      { s with failure := .limit }
    else
      { s with
        path := candidate :: s.path,
        frames := ⟨0, 0, frame.bytes + candidate.length, certificate.issuer⟩ :: s.frames }

/-- A new candidate: its name is compared before the full read when
    `search_subject` finds it, else after. -/
def tryCandidate (frame : SearchFrame) (candidate : Bytes) : SearchProgram Unit :=
  match q.subject candidate with
  | .ok subject => do
    if ← nameMatches q frame.issuer subject then
      match ← candidateRead q candidate with
      | some certificate => extend input frame candidate certificate
      | none => return ()
    else return ()
  | .error _ => do
    match ← candidateRead q candidate with
    | some certificate =>
      if ← nameMatches q frame.issuer certificate.subject then
        extend input frame candidate certificate
      else return ()
    | none => return ()

def candidateStep (frame : SearchFrame) (candidate : Bytes) : SearchProgram Unit := do
  update (SearchState.onTop fun frame => { frame with candidate := frame.candidate + 1 })
  sourceCall (input.source.candidateCall frame.candidate)
  if candidate = [] then throw .error
  else
    let s ← data
    if ← repeated candidate s.path then return ()
    else tryCandidate q input frame candidate

def frameStep (initialWork : Nat) (frame : SearchFrame) :
    SearchProgram (Option (SearchReport V)) := do
  charge .limit 1
  match input.source.anchors[frame.anchor]? with
  | some anchor => anchorStep q input initialWork frame anchor
  | none =>
    match input.source.candidates[frame.candidate]? with
    | some candidate =>
      candidateStep q input frame candidate
      return none
    | none =>
      update fun s => { s with path := s.path.tail, frames := s.frames.tail }
      return none

structure SearchAnswer (V : Type) where
  status : PathStatus
  report : Option (SearchReport V)

/-- The loop, for `fuel` passes at most. -/
def searchLoop (initialWork : Nat) : Nat → Budgeted SearchState → Option (SearchAnswer V)
  | 0, _ => none
  | fuel + 1, s =>
    match s.data.frames with
    | [] => some ⟨s.data.failure, none⟩
    | frame :: _ =>
      match (frameStep q input initialWork frame).exec s with
      | (.error status, _) => some ⟨status, none⟩
      | (.ok (some report), _) => some ⟨.valid, some report⟩
      | (.ok none, s) => searchLoop initialWork fuel s

/-- `tc_x509_path_search_source`, after the NULL checks, for `fuel` passes of its
    loop at most. -/
def pathSearchSource (fuel work : Nat) : Option (SearchAnswer V) :=
  if input.capacity = 0 then some ⟨.limit, none⟩
  else if input.source.anchors = [] then some ⟨.invalid, none⟩
  else if input.target.length > input.maxInput then some ⟨.limit, none⟩
  else
    match (searchRead q input.target).exec ⟨work, ⟨[], [], .invalid⟩⟩ with
    | (.ok (.ok certificate), s) =>
      searchLoop q input work fuel
        { s with
          data :=
            { path := [input.target],
              frames := [⟨0, 0, input.target.length, certificate.issuer⟩],
              failure := .invalid } }
    | (.ok (.error e), _) => some ⟨pathStatus e, none⟩
    | (.error status, _) => some ⟨status, none⟩

end

variable {V : Type}

section

variable (q : SearchPrimitives V) (input : SearchInput)

def pathBytes (path : List Bytes) : Nat := (path.map List.length).sum

/-- `upper` may have issued `lower`: their names chain. -/
def Chains (upper lower : Bytes) : Prop :=
  ∃ issuer subject, q.read upper = .ok issuer ∧ q.read lower = .ok subject ∧
    (q.nameEqual subject.issuer issuer.subject).result = .ok true

/-- Different source candidates followed by the target, with names chaining,
    inside the bounds of the search. -/
structure IsPath (path : List Bytes) : Prop where
  candidates : ∃ upper, path = upper ++ [input.target] ∧ ∀ c ∈ upper, c ∈ input.source.candidates
  distinct : path.Nodup
  chained : path.IsChain (Chains q)
  count : path.length ≤ input.capacity
  bytes : pathBytes path ≤ input.maxInput

structure Anchored (path : List Bytes) (anchor : StoreAnchor) : Prop where
  listed : anchor ∈ input.source.anchors
  usable : anchor.x509Unusable = false
  named : ∃ top certificate, path.head? = some top ∧ q.read top = .ok certificate ∧
    (q.nameEqual certificate.issuer anchor.trust.name).result = .ok true

def anchorOutcome (path : List Bytes) (issuer : Bytes) (anchor : StoreAnchor) : PathStatus :=
  if anchor.x509Unusable then .invalid
  else
    match (q.nameEqual issuer anchor.trust.name).result with
    | .error e => pathStatus e
    | .ok false => .invalid
    | .ok true =>
      match (q.validate path anchor).result with
      | .error status => status
      | .ok _ => .valid

def candidateNamed (issuer candidate : Bytes) : Except Result Bool := match q.subject candidate with
  | .ok subject => (q.nameEqual issuer subject).result
  | .error _ =>
    match q.read candidate with
    | .ok certificate => (q.nameEqual issuer certificate.subject).result
    | .error e => .error e

/-- How the branch of a candidate ends: VALID when the search goes on above it,
    and LIMIT when capacity or `max_input` cut it. -/
def candidateOutcome (path : List Bytes) (issuer candidate : Bytes) : PathStatus :=
  if candidate ∈ path then .invalid
  else
    match candidateNamed q issuer candidate with
    | .error e => pathStatus e
    | .ok false => .invalid
    | .ok true =>
      match q.read candidate with
      | .error e => pathStatus e
      | .ok _ =>
        if path.length = input.capacity ||
            pathBytes (candidate :: path) > input.maxInput then .limit
        else .valid

def Undecided (status : PathStatus) : Prop := status = .limit ∨ status = .unsupported

instance (status : PathStatus) : Decidable (Undecided status) := inferInstanceAs (Decidable (_ ∨ _))

inductive Explored : List Bytes → Certificate → Prop
  | target {certificate : Certificate} (read : q.read input.target = .ok certificate)
      (bytes : input.target.length ≤ input.maxInput) : Explored [input.target] certificate
  | extend {path : List Bytes} {certificate : Certificate} (below : Explored path certificate)
      {candidate : Bytes} {issuer : Certificate} (listed : candidate ∈ input.source.candidates)
      (fresh : candidate ∉ path) (read : q.read candidate = .ok issuer)
      (named : (q.nameEqual certificate.issuer issuer.subject).result = .ok true)
      (room : path.length < input.capacity)
      (bytes : pathBytes (candidate :: path) ≤ input.maxInput) :
      Explored (candidate :: path) issuer

/-- Some branch of the search tree was cut by capacity or `max_input`, or ended
    with LIMIT or UNSUPPORTED. -/
inductive SomeUndecided : Prop
  | targetBytes (large : input.target.length > input.maxInput)
  | targetRead (e : Result) (failed : q.read input.target = .error e)
      (undecided : Undecided (pathStatus e))
  | anchor {path : List Bytes} {certificate : Certificate}
      (explored : Explored q input path certificate) (anchor : StoreAnchor)
      (listed : anchor ∈ input.source.anchors)
      (undecided : Undecided (anchorOutcome q path certificate.issuer anchor))
  | candidate {path : List Bytes} {certificate : Certificate}
      (explored : Explored q input path certificate) (candidate : Bytes)
      (listed : candidate ∈ input.source.candidates)
      (undecided : Undecided (candidateOutcome q input path certificate.issuer candidate))

/-- A fault that is no statement about certificates: the source failed, added
    work or gave an empty record, or a callee refused its arguments. -/
inductive Faulty : Prop
  | candidateCall (index work : Nat)
      (fault : (input.source.candidateCall index work).1 ∉ [.ok, .limit, .unsupported] ∨
        (input.source.candidateCall index work).2 > work)
  | anchorCall (index work : Nat)
      (fault : (input.source.anchorCall index work).1 ∉ [.ok, .limit, .unsupported] ∨
        (input.source.anchorCall index work).2 > work)
  | emptyCandidate (fault : [] ∈ input.source.candidates)
  | emptyName (anchor : StoreAnchor) (listed : anchor ∈ input.source.anchors)
      (usable : anchor.x509Unusable = false) (fault : anchor.trust.name = [])
  | nameEqual (issuer name : Bytes) (fault : (q.nameEqual issuer name).result = .error .argument)
  | read (encoded : Bytes) (e : Result) (failed : q.read encoded = .error e)
      (fault : pathStatus e = .error)
  | validate (path : List Bytes) (anchor : StoreAnchor)
      (fault : (q.validate path anchor).result = .error .error)

structure SearchSound (answer : SearchAnswer V) : Prop where
  /-- VALID reports a path that path validation accepts under the reported
      anchor. -/
  valid : answer.status = .valid → ∃ report anchor, answer.report = some report ∧
    IsPath q input report.path ∧ input.source.anchors[report.anchorIndex]? = some anchor ∧
    Anchored q input report.path anchor ∧
    (q.validate report.path anchor).result = .ok report.validation
  /-- INVALID means that no path is accepted under any anchor. -/
  invalid : answer.status = .invalid → ∀ path anchor, IsPath q input path →
    Anchored q input path anchor → ∀ validation, (q.validate path anchor).result ≠ .ok validation
  /-- An undecided branch is never a rejection. -/
  undecided : SomeUndecided q input → input.source.anchors ≠ [] → answer.status ≠ .valid →
    Undecided answer.status ∨ answer.status = .error
  /-- ERROR reports a fault. -/
  error : answer.status = .error → Faulty q input

end

end TinyCrypto.X509
