import TinyCrypto.X509.RevocationRuns

/-! # Revocation of a path

`tc_x509_crl_path_resolve` with `x509_crl_path_certificate`: the members are
resolved one after the other over one table. In coverage mode the flag is reset
for each member, and a member whose evidence used an UNCOVERED signer counts as
uncovered. A member may have an OCSP response, whose verification is a fixed
function.
-/

namespace TinyCrypto.X509

open Library Library.Program Library.Metered

/-- `TC_X509_ocsp_report`. `revocation` is present when the status is REVOKED. -/
structure OcspReport where
  revocation : Option CrlMatch
  responderCertificate : Option Bytes
  responderNocheck : Bool
  deriving DecidableEq

abbrev OcspMembers := Nat → Option (Priced (Except Result OcspReport))

/-- `TC_X509_revocation_report`. -/
inductive RevocationReport where
  | good
  | revoked (certificateIndex : Nat) (evidence : Coverage)
  | undetermined (certificateIndex : Nat)
  deriving DecidableEq

/-- What resolving one member found before the flag was looked at. -/
structure Visit where
  found : Except Result Evidence
  flagged : Bool

/-- A path resolution: its report, the members it visited in order, and what it
    leaves. -/
structure PathResolution where
  report : Except Result RevocationReport
  visits : List Visit
  after : Budgeted Table

def Evidence.revoked (evidence : Evidence) : Bool := evidence.coverage.revocation.isSome

def OcspReport.evidence (report : OcspReport) : Evidence := ⟨⟨allReasons, report.revocation⟩, []⟩

def Table.startMember (table : Table) : Table :=
  { table with uncoveredUsed := table.uncoveredUsed.map fun _ => false }

/-- The end of `x509_ocsp_member`: what the status of the delegate makes of a
    verified response. -/
def delegateAnswer (report : OcspReport) (delegate : Except Result NodeStatus) :
    Except Result Evidence :=
  match delegate with
  | .error .limit => .error .limit
  | .error .argument => .error .argument
  | .ok .revoked => .error .unsupported
  | delegate =>
    if report.revocation.isNone && delegate ≠ .ok .good then .error .unsupported
    else .ok report.evidence

section

variable {Q : Type} (c : CrlPrimitives Q) (n : NodeInput) (fuel : Nat)

/-- `x509_ocsp_member` with `x509_ocsp_delegate_status`. -/
def ocspMember (verify : Priced (Except Result OcspReport)) (s : Budgeted Table) :
    Option Resolution :=
  match (call .limit verify : CrlProgram OcspReport).exec s with
  | (.error e, s) => some ⟨.error e, s⟩
  | (.ok report, s) =>
    match report.responderCertificate with
    | none => some ⟨.ok report.evidence, s⟩
    | some delegate =>
      if report.responderNocheck then some ⟨.ok report.evidence, s⟩
      else
        match resolveTarget c n fuel delegate s with
        | none => none
        | some resolved =>
          some ⟨delegateAnswer report
            (resolved.outcome.bind fun evidence => evidenceStatus evidence.coverage),
            resolved.after⟩

/-- The part of `x509_member_evidence` after an accepted OCSP response. -/
def ocspEvidence (certificate : Bytes) (accepted : Evidence) (s : Budgeted Table) :
    Option Resolution :=
  if accepted.revoked then some ⟨.ok accepted, s⟩
  else
    match resolveTarget c n fuel certificate s with
    | none => none
    | some ⟨.error .limit, s⟩ => some ⟨.error .limit, s⟩
    | some ⟨.error .argument, s⟩ => some ⟨.error .argument, s⟩
    | some ⟨.error _, s⟩ => some ⟨.ok accepted, s⟩
    | some ⟨.ok crl, s⟩ => some ⟨.ok (if crl.revoked then crl else accepted), s⟩

/-- `x509_member_evidence`. -/
def memberEvidence (ocsp : OcspMembers) (index : Nat) (certificate : Bytes) (s : Budgeted Table) :
    Option Resolution :=
  match ocsp index with
  | none => resolveTarget c n fuel certificate s
  | some verify =>
    match ocspMember c n fuel verify s with
    | none => none
    | some ⟨.error .limit, s⟩ => some ⟨.error .limit, s⟩
    | some ⟨.error .argument, s⟩ => some ⟨.error .argument, s⟩
    | some ⟨.error _, s⟩ => resolveTarget c n fuel certificate s
    | some ⟨.ok accepted, s⟩ => ocspEvidence c n fuel certificate accepted s

/-- A member whose evidence used an UNCOVERED signer counts as uncovered, unless
    it is revoked. -/
def Visit.outcome (visit : Visit) : Except Result Evidence := match visit.found with
  | .error e => .error e
  | .ok evidence => if visit.flagged && !evidence.revoked then .error .end else .ok evidence

/-- `x509_crl_path_certificate`. -/
def crlPathCertificate (ocsp : OcspMembers) (index : Nat) (certificate : Bytes)
    (s : Budgeted Table) : Option (Visit × Budgeted Table) :=
  match memberEvidence c n fuel ocsp index certificate { s with data := s.data.startMember } with
  | none => none
  | some resolved =>
    some (⟨resolved.outcome, resolved.after.data.uncoveredUsed = some true⟩, resolved.after)

/-- The status of a member in `tc_x509_crl_path_resolve`. -/
def memberStatus (visit : Visit) : Except Result NodeStatus := match visit.outcome with
  | .ok evidence => evidenceStatus evidence.coverage
  | .error .end => .ok .undetermined
  | .error e => .error e

def pathReport : (uncovered : Option Nat) → RevocationReport
  | none => .good
  | some index => .undetermined index

/-- The loop of `tc_x509_crl_path_resolve` from member `i`. -/
def crlPathResolveLoop (ocsp : OcspMembers) (reportUncovered : Bool) :
    (i : Nat) → (chain : List Bytes) → (uncovered : Option Nat) → (visits : List Visit) →
      Budgeted Table → Option PathResolution
  | _, [], uncovered, visits, s => some ⟨.ok (pathReport uncovered), visits, s⟩
  | i, certificate :: rest, uncovered, visits, s =>
    match crlPathCertificate c n fuel ocsp i certificate s with
    | none => none
    | some (visit, s) =>
      match memberStatus visit with
      | .error e => some ⟨.error e, visits ++ [visit], s⟩
      | .ok .good =>
        crlPathResolveLoop ocsp reportUncovered (i + 1) rest uncovered (visits ++ [visit]) s
      | .ok .revoked =>
        match visit.outcome with
        | .ok evidence => some ⟨.ok (.revoked i evidence.coverage), visits ++ [visit], s⟩
        | .error e => some ⟨.error e, visits ++ [visit], s⟩
      | .ok _ =>
        if reportUncovered then
          crlPathResolveLoop ocsp reportUncovered (i + 1) rest (uncovered.or (some i))
            (visits ++ [visit]) s
        else some ⟨.error .unsupported, visits ++ [visit], s⟩

/-- `tc_x509_crl_path_resolve`. -/
def crlPathResolve (ocsp : OcspMembers) (reportUncovered : Bool) (chain : List Bytes)
    (s : Budgeted Table) : Option PathResolution :=
  if chain = [] then some ⟨.error .argument, [], s⟩
  else crlPathResolveLoop c n fuel ocsp reportUncovered 0 chain none [] s

end

end TinyCrypto.X509
