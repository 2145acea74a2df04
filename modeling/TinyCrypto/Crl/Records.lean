import TinyCrypto.X509.Revocation

/-! # Revocation evidence

`x509_crl_evidence.c`: the reasons that are covered so far and the entry that was found. The
flags are integers, and a value that is neither zero nor one is refused.
-/

namespace TinyCrypto.Crl

open X509 (Time allReasons reasonKnown timeValid)

/-- `TC_X509_crl_match`. -/
structure EntryMatch where
  revokedAt : Time
  invalidityDate : Time
  reason : Nat
  found : Int
  hasInvalidityDate : Int
  deriving DecidableEq

def EntryMatch.zero : EntryMatch := ⟨⟨0, 0, 0, 0, 0, 0⟩, ⟨0, 0, 0, 0, 0, 0⟩, 0, 0, 0⟩

/-- `TC_X509_crl_evidence`. -/
structure Evidence where
  reasons : Nat
  revocation : EntryMatch
  deriving DecidableEq

def Evidence.zero : Evidence := ⟨0, .zero⟩

/-- `TC_X509_revocation_status`. -/
inductive Status where
  | undetermined
  | good
  | revoked
  deriving DecidableEq

/-- `TC_PKI_CRL_REASON_REMOVE`. -/
def reasonRemove : Nat := 8

/-- `reasons & ~known` has no bit. -/
def covered (reasons known : Nat) : Bool := reasons ||| known = known

/-- `crl_effective_match_valid`. -/
def matchValid (m : EntryMatch) : Bool :=
  (m.found = 0 || m.found = 1) && (m.hasInvalidityDate = 0 || m.hasInvalidityDate = 1) &&
    (m.found = 0 || (reasonKnown m.reason && m.reason ≠ reasonRemove))

/-- `tc_x509_crl_evidence_status`. -/
def evidenceStatus (evidence : Evidence) : Except Result Status :=
  if !covered evidence.reasons allReasons || !matchValid evidence.revocation ||
      (evidence.reasons = 0 && evidence.revocation.found ≠ 0) then .error .argument
  else
    .ok (if evidence.revocation.found ≠ 0 then .revoked
      else if evidence.reasons = allReasons then .good
      else .undetermined)

/-- `time_compare`. -/
def timeOrder (left right : Time) : Int :=
  let a := [left.year, left.month, left.day, left.hour, left.minute, left.second]
  let b := [right.year, right.month, right.day, right.hour, right.minute, right.second]
  match (a.zip b).find? fun pair => pair.1 ≠ pair.2 with
  | some pair => if pair.1 < pair.2 then -1 else 1
  | none => 0

/-- `TC_X509_time_compare`. -/
def timeCompare (left right : Time) : Except Result Int :=
  if timeValid left && timeValid right then .ok (timeOrder left right) else .error .invalid

def matchEqual (left right : EntryMatch) : Except Result Bool := do
  if left.reason ≠ right.reason || left.hasInvalidityDate ≠ right.hasInvalidityDate then
    return false
  else if (← timeCompare left.revokedAt right.revokedAt) ≠ 0 then return false
  else if left.hasInvalidityDate = 0 then return true
  else return (← timeCompare left.invalidityDate right.invalidityDate) = 0

/-- `tc_x509_crl_evidence_equal`. -/
def evidenceEqual (left right : Evidence) : Except Result Bool := do
  let a ← evidenceStatus left
  let b ← evidenceStatus right
  if a ≠ b || left.reasons ≠ right.reasons then return false
  else if a = .revoked then matchEqual left.revocation right.revocation
  else return true

/-- `tc_x509_crl_evidence_add`: its result, and the evidence it leaves. -/
def evidenceAdd (evidence : Evidence) (reasons : Nat) (m : EntryMatch) : Result × Evidence :=
  if !covered reasons allReasons then (.argument, evidence)
  else if !matchValid m then (.invalid, evidence)
  else
    match evidenceStatus evidence with
    | .error e => (e, evidence)
    | .ok status =>
      if status ≠ .undetermined then (.end, evidence)
      else if covered reasons evidence.reasons then (.ok, evidence)
      else
        (.ok, ⟨evidence.reasons ||| reasons, if m.found ≠ 0 then m else evidence.revocation⟩)

def evidenceRun (evidence : Evidence) (calls : List (Nat × EntryMatch)) : Evidence :=
  calls.foldl (fun evidence call => (evidenceAdd evidence call.1 call.2).2) evidence

def Evidence.Valid (evidence : Evidence) : Prop := ∃ status, evidenceStatus evidence = .ok status

theorem zero_valid : Evidence.zero.Valid := ⟨.undetermined, by decide⟩

section

variable {evidence : Evidence} {reasons known bit : Nat} {m : EntryMatch}

theorem covered_iff : covered reasons known = true ↔
    ∀ bit, reasons.testBit bit = true → known.testBit bit = true := by
  unfold covered
  rw [decide_eq_true_iff]
  constructor
  · intro same bit set
    rw [← same, Nat.testBit_or, set, Bool.true_or]
  · intro within
    apply Nat.eq_of_testBit_eq
    intro bit
    rw [Nat.testBit_or]
    cases set : reasons.testBit bit with
    | false => exact Bool.false_or _
    | true => rw [Bool.true_or, within bit set]

theorem covered_or {first second : Nat} (one : covered first known = true)
    (two : covered second known = true) : covered (first ||| second) known = true := by
  apply covered_iff.mpr
  intro bit set
  rw [Nat.testBit_or, Bool.or_eq_true] at set
  cases set with
  | inl set => exact covered_iff.mp one bit set
  | inr set => exact covered_iff.mp two bit set

theorem Evidence.valid_iff : evidence.Valid ↔ covered evidence.reasons allReasons = true ∧
    matchValid evidence.revocation = true ∧
      (evidence.reasons = 0 → evidence.revocation.found = 0) := by
  unfold Evidence.Valid evidenceStatus
  split
  · rename_i refused
    simp only [Bool.or_eq_true, Bool.not_eq_true', Bool.and_eq_true, decide_eq_true_eq, ne_eq]
      at refused
    constructor
    · rintro ⟨status, given⟩
      cases given
    · rintro ⟨within, valid, empty⟩
      grind
  · rename_i accepted
    simp only [Bool.or_eq_true, Bool.not_eq_true', Bool.and_eq_true, decide_eq_true_eq, ne_eq,
      not_or, Bool.not_eq_false, not_and, not_not] at accepted
    exact ⟨fun _ => ⟨accepted.1.1, accepted.1.2, accepted.2⟩, fun _ => ⟨_, rfl⟩⟩

theorem status_of (valid : evidence.Valid) : evidenceStatus evidence =
    .ok (if evidence.revocation.found ≠ 0 then .revoked
      else if evidence.reasons = allReasons then .good else .undetermined) := by
  obtain ⟨status, given⟩ := valid
  unfold evidenceStatus at given ⊢
  split at given
  · cases given
  · rename_i accepted
    rw [if_neg accepted]

inductive Added (evidence : Evidence) (reasons : Nat) (m : EntryMatch) : Result × Evidence → Prop where
  | unchanged {result : Result} : Added evidence reasons m (result, evidence)
  | grown : covered reasons allReasons = true → matchValid m = true →
      evidenceStatus evidence = .ok .undetermined → covered reasons evidence.reasons = false →
      Added evidence reasons m
        (.ok, ⟨evidence.reasons ||| reasons, if m.found ≠ 0 then m else evidence.revocation⟩)

theorem evidenceAdd_added (evidence : Evidence) (reasons : Nat) (m : EntryMatch) :
    Added evidence reasons m (evidenceAdd evidence reasons m) := by
  unfold evidenceAdd
  split
  · exact .unchanged
  rename_i within
  split
  · exact .unchanged
  rename_i valid
  split
  · exact .unchanged
  rename_i status given
  split
  · exact .unchanged
  rename_i open_
  split
  · exact .unchanged
  rename_i new
  rw [Bool.not_eq_true', Bool.not_eq_false] at within valid
  rw [ne_eq, not_not] at open_
  rw [open_] at given
  exact .grown within valid given (Bool.not_eq_true _ ▸ new)

theorem evidenceAdd_valid (valid : evidence.Valid) : (evidenceAdd evidence reasons m).2.Valid := by
  have added := evidenceAdd_added evidence reasons m
  generalize evidenceAdd evidence reasons m = outcome at added ⊢
  cases added with
  | unchanged => exact valid
  | grown within accepted given new =>
    obtain ⟨allowed, checked, empty⟩ := Evidence.valid_iff.mp valid
    refine Evidence.valid_iff.mpr ⟨covered_or allowed within, ?_, ?_⟩
    · dsimp only
      split
      · exact accepted
      · exact checked
    · intro none
      dsimp only at none
      have zero : reasons = 0 := by
        have low : reasons ≤ evidence.reasons ||| reasons := Nat.right_le_or
        omega
      rw [zero, covered, Nat.zero_or, decide_eq_true rfl] at new
      cases new

theorem evidenceAdd_grows (set : evidence.reasons.testBit bit = true) :
    (evidenceAdd evidence reasons m).2.reasons.testBit bit = true := by
  have added := evidenceAdd_added evidence reasons m
  generalize evidenceAdd evidence reasons m = outcome at added ⊢
  cases added with
  | unchanged => exact set
  | grown => rw [Nat.testBit_or, set, Bool.true_or]

theorem evidenceAdd_decided {status : Status} (given : evidenceStatus evidence = .ok status)
    (decided : status ≠ .undetermined) : (evidenceAdd evidence reasons m).2 = evidence := by
  have added := evidenceAdd_added evidence reasons m
  generalize evidenceAdd evidence reasons m = outcome at added ⊢
  cases added with
  | unchanged => rfl
  | grown _ _ open_ =>
    rw [given] at open_
    exact absurd (Except.ok.inj open_) decided

theorem evidenceRun_append (evidence : Evidence) (first second : List (Nat × EntryMatch)) :
    evidenceRun evidence (first ++ second) = evidenceRun (evidenceRun evidence first) second :=
  List.foldl_append

theorem evidenceRun_valid (valid : evidence.Valid) (calls : List (Nat × EntryMatch)) :
    (evidenceRun evidence calls).Valid := by
  induction calls generalizing evidence with
  | nil => exact valid
  | cons call calls ih => exact ih (evidenceAdd_valid valid)

theorem evidenceRun_grows (set : evidence.reasons.testBit bit = true)
    (calls : List (Nat × EntryMatch)) : (evidenceRun evidence calls).reasons.testBit bit = true := by
  induction calls generalizing evidence with
  | nil => exact set
  | cons call calls ih => exact ih (evidenceAdd_grows set)

theorem evidenceRun_decided {status : Status} (given : evidenceStatus evidence = .ok status)
    (decided : status ≠ .undetermined) (calls : List (Nat × EntryMatch)) :
    evidenceRun evidence calls = evidence := by
  induction calls with
  | nil => rfl
  | cons call calls ih =>
    change evidenceRun (evidenceAdd evidence call.1 call.2).2 calls = evidence
    rw [evidenceAdd_decided given decided, ih]

def unionReasons (calls : List (Nat × EntryMatch)) : Nat :=
  calls.foldl (fun known call => known ||| call.1) 0

/-- A call counts when its reasons and its entry are valid, no call that counted
    before had an entry, and it has a reason that none of them had. -/
def counts (counted : List (Nat × EntryMatch)) (call : Nat × EntryMatch) : Bool :=
  covered call.1 allReasons && matchValid call.2 && counted.all (fun call => call.2.found = 0) &&
    !covered call.1 (unionReasons counted)

/-- The calls that counted, after those of `counted`. -/
def accepted (counted calls : List (Nat × EntryMatch)) : List (Nat × EntryMatch) :=
  calls.foldl (fun counted call => if counts counted call then counted ++ [call] else counted)
    counted

/-- The evidence has the reasons of the calls that counted, and their entry if one
    of them had one. -/
structure Follows (evidence : Evidence) (counted : List (Nat × EntryMatch)) : Prop where
  reasons : evidence.reasons = unionReasons counted
  entry : (∃ call ∈ counted, call.2.found ≠ 0 ∧ evidence.revocation = call.2) ∨
    (∀ call ∈ counted, call.2.found = 0) ∧ evidence.revocation.found = 0

variable {counted : List (Nat × EntryMatch)} {call : Nat × EntryMatch}

theorem Follows.clear_iff (follows : Follows evidence counted) :
    (∀ call ∈ counted, call.2.found = 0) ↔ evidence.revocation.found = 0 := by
  rcases follows.entry with ⟨call, member, found, same⟩ | ⟨clear, none⟩
  · rw [same]
    exact ⟨fun clear => clear call member, fun none => absurd none found⟩
  · exact iff_of_true clear none

theorem Follows.grow (follows : Follows evidence counted) (clear : evidence.revocation.found = 0) :
    Follows ⟨evidence.reasons ||| call.1, if call.2.found ≠ 0 then call.2 else evidence.revocation⟩
      (counted ++ [call]) := by
  refine ⟨by simp [follows.reasons, unionReasons], ?_⟩
  by_cases found : call.2.found = 0
  · refine .inr ⟨fun other member => ?_, by simp [found, clear]⟩
    rcases List.mem_append.mp member with member | member
    · exact follows.clear_iff.mpr clear other member
    · rw [List.mem_singleton.mp member, found]
  · exact .inl ⟨call, by simp, found, by simp [found]⟩

theorem Follows.add (follows : Follows evidence counted) (valid : evidence.Valid) :
    Follows (evidenceAdd evidence call.1 call.2).2
      (if counts counted call then counted ++ [call] else counted) := by
  have status := status_of valid
  have clear := follows.clear_iff
  split
  · rename_i counting
    simp only [counts, Bool.and_eq_true, List.all_eq_true, decide_eq_true_eq, Bool.not_eq_true']
      at counting
    obtain ⟨⟨⟨within, known⟩, none⟩, new⟩ := counting
    rw [← follows.reasons] at new
    have some : evidence.reasons ≠ allReasons := by
      intro all
      rw [all, within] at new
      cases new
    rw [clear.mp none, if_neg (by simp), if_neg some] at status
    simpa [evidenceAdd, within, known, status, new] using follows.grow (clear.mp none)
  · rename_i skipped
    have added := evidenceAdd_added evidence call.1 call.2
    generalize evidenceAdd evidence call.1 call.2 = outcome at added ⊢
    cases added with
    | unchanged => exact follows
    | grown within known open_ new =>
      refine absurd ?_ skipped
      rw [status] at open_
      have none : evidence.revocation.found = 0 := by
        by_contra found
        simp [found] at open_
      simp only [counts, within, known, ← follows.reasons, new, Bool.true_and, Bool.and_true,
        Bool.not_false, List.all_eq_true, decide_eq_true_eq]
      exact clear.mpr none

theorem Follows.run (follows : Follows evidence counted) (valid : evidence.Valid)
    (calls : List (Nat × EntryMatch)) :
    Follows (evidenceRun evidence calls) (accepted counted calls) := by
  induction calls generalizing evidence counted with
  | nil => exact follows
  | cons call calls ih => exact ih (follows.add valid) (evidenceAdd_valid valid)

end

/-! # The records of an index

`x509_crl_extensions.c`: the extension policy, the freshness and the scope of one CRL. Comparing
names, numbers and contents, verifying signatures and looking an entry up are fixed functions
with a fixed price.
-/

open Library Library.Program Library.Metered
open X509 (Time Certificate SignerPath PathStatus timeToUnix allReasons reasonKnown)

/-- `TC_X509_crl_distribution`, beside its name. -/
structure Distribution where
  attributeOnly : Bool
  userOnly : Bool
  caOnly : Bool
  hasReasons : Bool
  reasons : Nat
  deriving DecidableEq

/-- `TC_X509_crl_record`. -/
structure Record where
  policy : Result
  present : Nat
  critical : Nat
  unknownCritical : Bool
  distribution : Distribution
  thisUpdate : Time
  hasNextUpdate : Int
  nextUpdate : Time
  deriving DecidableEq

def extNumber : Nat := 1
def extDelta : Nat := 2
def extDistribution : Nat := 8
def extFreshest : Nat := 16

def extKnown : Nat := 63

def Record.has (record : Record) (extension : Nat) : Bool := record.present &&& extension ≠ 0

/-- `tc_x509_crl_extension_policy`. -/
def extensionPolicy (record : Record) : Result :=
  let mustBeCritical := extDelta ||| extDistribution
  let mustBeNoncritical := extNumber ||| extFreshest
  if !covered record.present extKnown || !covered record.critical record.present then .argument
  else if record.unknownCritical then .unsupported
  else if record.critical &&& mustBeNoncritical ≠ 0 ||
      record.present &&& mustBeCritical ≠ record.critical &&& mustBeCritical then .invalid
  else if record.has extDelta && record.has extFreshest then .invalid
  else .ok

/-- `TC_X509_revocation_time`. -/
structure RevocationTime where
  at_ : Time
  clockSkewSeconds : Nat
  maxAgeSeconds : Nat

/-- `tc_x509_freshness`. -/
inductive Freshness where
  | current
  | future
  | stale
  | noNextUpdate
  deriving DecidableEq

/-- `tc_x509_freshness_at`. -/
def freshnessAt (time : RevocationTime) (thisUpdate : Time) (nextUpdate : Option Time) :
    Except Result Freshness :=
  let next : Except Result (Option Int) := match nextUpdate with
    | none => .ok none
    | some next => (timeToUnix next).map some
  match timeToUnix time.at_, timeToUnix thisUpdate, next with
  | .ok now, .ok updated, .ok next =>
    let early := now - time.clockSkewSeconds
    if next.any (· < updated) then .error .invalid
    else if updated > now + time.clockSkewSeconds then .ok .future
    else if time.maxAgeSeconds ≠ 0 ∧ early - updated > time.maxAgeSeconds then .ok .stale
    else
      match next with
      | none => .ok .noNextUpdate
      | some next => .ok (if next > early then .current else .stale)
  | _, _, _ => .error .invalid

/-- `tc_x509_crl_fresh_at`. -/
def freshAt (time : RevocationTime) (record : Record) : Except Result Freshness :=
  if record.hasNextUpdate ≠ 0 ∧ record.hasNextUpdate ≠ 1 then .error .argument
  else
    freshnessAt time record.thisUpdate
      (if record.hasNextUpdate = 1 then some record.nextUpdate else none)

/-- `TC_X509_crl_delta_policy`. -/
inductive DeltaPolicy where
  | completeOnly
  | deltaIfAvailable
  | deltaRequired
  deriving DecidableEq

/-- `TC_X509_crl_order_policy`. -/
inductive OrderPolicy where
  | number
  | thisUpdate
  deriving DecidableEq

/-- The reasons of a `tc_pki_distribution_point`, with what it names. -/
structure DistributionPoint (N : Type) where
  name : N
  hasReasons : Bool
  reasons : Nat

/-- `tc_x509_crl_query`: the point, and whether the certificate is a CA. -/
structure Query (N : Type) where
  point : DistributionPoint N
  certificateCa : Bool

/-- `tc_x509_crl_selected`: the records of a base and its delta. -/
structure Selected where
  base : Nat
  delta : Option Nat
  deriving DecidableEq

def Selected.effective (selected : Selected) : Nat := selected.delta.getD selected.base

/-- One index, store, anchor and certificate, and what the scope functions call on them. `N` is
    a distribution point name and `K` the context of the path check. -/
structure Primitives (N K : Type) where
  records : List Record
  time : RevocationTime
  deltaPolicy : DeltaPolicy
  orderPolicy : OrderPolicy
  /-- `processing->scopes`: the first record of each record's scope. -/
  scopes : Option (List Nat)
  /-- The issuer of the certificate. -/
  issuer : Bytes
  /-- The signer candidates of the store, read and parsed. -/
  store : List (Priced (Except Result Certificate))
  /-- `tc_x509_crl_issuer_matches` and `tc_x509_crl_name_matches`. -/
  issuerMatches : Nat → DistributionPoint N → Bytes → Priced (Except Result Bool)
  nameMatches : Nat → DistributionPoint N → Bytes → Priced (Except Result Bool)
  /-- `tc_x509_crl_scope_equal`, of two records. -/
  scopeEqual : Nat → Nat → Priced (Except Result Bool)
  /-- `tc_x509_crl_delta_compatible`, of a base and a delta. -/
  compatible : Nat → Nat → Priced (Except Result Bool)
  /-- `tc_x509_crl_number_compare`, of two records' numbers. -/
  numberCompare : Nat → Nat → Priced (Except Result Int)
  /-- `tc_x509_crl_content_equal`. -/
  contentEqual : Nat → Nat → Priced (Except Result Bool)
  /-- `tc_x509_crl_signer_check` of a record under an encoded signer. -/
  signerCheck : Nat → Bytes → Priced Result
  /-- `tc_x509_crl_find` of the certificate in a record. -/
  find : Nat → Priced (Except Result EntryMatch)
  /-- `tc_x509_crl_candidate_matches`. -/
  candidateMatches : Nat → Certificate → Priced (Except Result Bool)
  /-- `tc_pki_source_select_anchor`. -/
  selectAnchor : Result
  /-- The path of `tc_x509_crl_signer_validate` once the signature is checked, and whether a
      source callback failed. -/
  signerPath : Bytes → Priced (Bool × Except PathStatus SignerPath)
  /-- `processing->check->verify`, from the work left to the work it leaves. -/
  check : Option (K → SignerPath → Option Selected → Nat → PathStatus × Nat × K)
  /-- Whether there is a signer cache, and its copy of a path. -/
  hasCache : Bool
  cacheStore : SignerPath → Priced (Except Result Unit)

inductive SignatureState where
  | unchecked
  | valid
  | invalid
  deriving DecidableEq

/-- `tc_x509_crl_proposal`. -/
structure Proposal where
  selected : Selected
  evidence : Evidence
  result : Result
  pendingOnly : Bool
  deriving DecidableEq

/-- The storage of an operation: the signature states, the signer cache, the caller's evidence
    and report, and the cells an attempt writes. -/
structure Storage (K : Type) where
  states : List SignatureState
  saved : Option (Bytes × SignerPath)
  sourceFailed : Bool
  context : K
  /-- `*processing->evidence` of the running attempt. -/
  attempt : Evidence
  proposal : Option Proposal
  unresolved : Option Proposal
  /-- The caller's evidence and report. -/
  evidence : Evidence
  report : Option SignerPath

abbrev ScopeProgram (K : Type) := Metered Result (Storage K)

section

variable {N K : Type} (c : Primitives N K)

def record (i : Nat) : ScopeProgram K Record := match c.records[i]? with
  | some record => pure record
  | none => throw .argument

/-- `tc_x509_crl_scope_reasons`. -/
def scopeReasons (i : Nat) (query : Query N) : ScopeProgram K Nat := do
  let record ← record c i
  let idp := record.distribution
  let restricted := record.has extDistribution
  if restricted && (idp.attributeOnly || (idp.userOnly && query.certificateCa) ||
      (idp.caOnly && !query.certificateCa)) then return 0
  else if !(← call .limit (c.issuerMatches i query.point c.issuer)) then return 0
  else if !(← call .limit (c.nameMatches i query.point c.issuer)) then return 0
  else
    let reasons := if restricted && idp.hasReasons then allReasons &&& idp.reasons else allReasons
    return if query.point.hasReasons then reasons &&& query.point.reasons else reasons

/-- `tc_x509_crl_coverage_at`: the freshness, and the reasons when it is current. -/
def coverageAt (i : Nat) (query : Query N) : ScopeProgram K (Freshness × Nat) := do
  charge .limit 1
  let record ← record c i
  let policy := extensionPolicy record
  if policy ≠ .ok then throw policy
  else
    let freshness ← lift (freshAt c.time record)
    if freshness = .current then
      let reasons ← scopeReasons c i query
      return (freshness, reasons)
    else return (freshness, 0)

/-- `x509_crl_order`. -/
def crlOrder (left right : Selected) : ScopeProgram K Int := do
  let a ← record c left.effective
  let b ← record c right.effective
  match c.orderPolicy with
  | .number =>
    if !a.has extNumber || !b.has extNumber then throw .unsupported
    else call .limit (c.numberCompare left.effective right.effective)
  | .thisUpdate =>
    charge .limit 1
    lift (timeCompare a.thisUpdate b.thisUpdate)

/-- `tc_x509_crl_combine`, of the entries of a base and its delta. -/
def combine (base : EntryMatch) (delta : Option EntryMatch) : Except Result EntryMatch :=
  let flag (m : EntryMatch) : Bool := m.found = 0 || m.found = 1
  if !flag base || !delta.all flag then .error .argument
  else if base.found ≠ 0 && (!reasonKnown base.reason || base.reason = reasonRemove) then
    .error .invalid
  else if delta.any fun m => m.found ≠ 0 && !reasonKnown m.reason then .error .invalid
  else
    let result := (delta.filter (·.found ≠ 0)).getD base
    .ok (if result.found = 0 || result.reason = reasonRemove then .zero else result)

/-- `tc_x509_crl_selected_lookup`. -/
def selectedLookup (selected : Selected) : ScopeProgram K EntryMatch := do
  let base ← call .limit (c.find selected.base)
  match selected.delta with
  | none => lift (combine base none)
  | some delta =>
    let entry ← call .limit (c.find delta)
    lift (combine base (some entry))

/-- `tc_x509_crl_apply`, with `crl_selected_coverage` and `crl_selected_evidence`. -/
def crlApply (selected : Selected) (query : Query N) (evidence : Evidence) :
    ScopeProgram K Evidence := do
  let status ← lift (evidenceStatus evidence)
  if status ≠ .undetermined then throw .end
  else
    let coverage ← coverageAt c selected.effective query
    if covered coverage.2 evidence.reasons then throw .end
    else
      let entry ← selectedLookup c selected
      match evidenceAdd evidence coverage.2 entry with
      | (.ok, added) => return added
      | (failure, _) => throw failure

end

end TinyCrypto.Crl
