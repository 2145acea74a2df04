import TinyCrypto.X509.RevocationTrust

/-! # OCSP and CRL evidence of one member

What verifying a response found is kept apart from the status of its delegate, and the answer
that the response gives is computed from both. A revocation from either source wins.
-/

namespace TinyCrypto.X509

open Library Library.Program Library.Metered

def OcspReport.delegate (report : OcspReport) : Option Bytes :=
  if report.responderNocheck then none else report.responderCertificate

/-- A response of a member: what verifying it found, the status of its delegate where that was
    resolved, and the table that this leaves. -/
structure Response where
  report : Except Result OcspReport
  delegate : Option (Except Result NodeStatus)
  after : Budgeted Table

def Response.answer (response : Response) : Except Result Evidence :=
  match response.report, response.delegate with
  | .error e, _ => .error e
  | .ok report, none => .ok report.evidence
  | .ok report, some status => delegateAnswer report status

def Resolution.status (resolution : Resolution) : Except Result NodeStatus :=
  resolution.outcome.bind fun evidence => evidenceStatus evidence.coverage

section

variable {Q : Type} (c : CrlPrimitives Q) (n : NodeInput) (fuel : Nat)

def readResponse (verify : Priced (Except Result OcspReport)) (s : Budgeted Table) : Option Response :=
  match (call .limit verify : CrlProgram OcspReport).exec s with
  | (.error e, s) => some ⟨.error e, none, s⟩
  | (.ok report, s) =>
    match report.delegate with
    | none => some ⟨.ok report, none, s⟩
    | some delegate => (resolveTarget c n fuel delegate s).map fun resolved =>
      ⟨.ok report, some resolved.status, resolved.after⟩

end

section

variable {Q : Type} {c : CrlPrimitives Q} {n : NodeInput} {fuel : Nat} {response : Response}
  {verify : Priced (Except Result OcspReport)} {s : Budgeted Table} {report : OcspReport}

theorem ocspMember_response : ocspMember c n fuel verify s =
    (readResponse c n fuel verify s).map fun response => ⟨response.answer, response.after⟩ := by
  rw [ocspMember, readResponse]
  rcases (call .limit verify : CrlProgram OcspReport).exec s with ⟨e | report, s'⟩
  · rfl
  · dsimp only [OcspReport.delegate]
    cases report.responderCertificate with
    | none =>
      rw [ite_self]
      rfl
    | some delegate =>
      cases report.responderNocheck with
      | true => rfl
      | false =>
        rw [if_neg Bool.false_ne_true]
        dsimp only
        rw [if_neg Bool.false_ne_true]
        cases resolveTarget c n fuel delegate s' with
        | none => rfl
        | some resolved => rfl

theorem answer_report (answered : response.answer = .ok accepted) :
    ∃ report, response.report = .ok report ∧ accepted = report.evidence ∧
      (report.revocation = none → ∀ status, response.delegate = some status → status = .ok .good) := by
  obtain ⟨verified, delegate, after⟩ := response
  cases verified with
  | error e => cases answered
  | ok report =>
    cases delegate with
    | none =>
      cases answered
      exact ⟨report, rfl, rfl, fun _ _ => nofun⟩
    | some status =>
      obtain ⟨same, good⟩ := delegateAnswer_ok answered
      refine ⟨report, rfl, same, fun clear status' given => ?_⟩
      cases given
      exact good clear

theorem answer_refused (verified : response.report = .ok report)
    (revoked : response.delegate = some (.ok .revoked)) : response.answer = .error .unsupported := by
  rw [Response.answer, verified, revoked]
  rfl

theorem answer_revoked (verified : response.report = .ok report)
    (revocation : report.revocation ≠ none) (trusted : response.delegate ≠ some (.ok .revoked)) :
    response.answer = .ok report.evidence ∨ response.answer = .error .limit ∨
      response.answer = .error .argument := by
  rw [Response.answer, verified]
  have kept : report.revocation.isNone = false := by
    rwa [Option.isNone_eq_false_iff, Option.isSome_iff_ne_none]
  cases delegate : response.delegate with
  | none => exact .inl rfl
  | some status =>
    rw [delegate] at trusted
    cases status with
    | ok status =>
      cases status with
      | revoked => exact absurd rfl trusted
      | _ => simp [delegateAnswer, kept]
    | error e => cases e <;> simp [delegateAnswer, kept]

theorem readResponse_delegate (given : readResponse c n fuel verify s = some response)
    (verified : response.report = .ok report) :
    verify.result = .ok report ∧ (report.delegate = none → response.delegate = none) ∧
      ∀ delegate, report.delegate = some delegate → ∃ status, response.delegate = some status ∧
        (status = .ok .good → GoodNode response.after.data delegate) := by
  unfold readResponse at given
  split at given
  · cases given
    cases verified
  · rename_i found s' called
    obtain ⟨-, result, -⟩ := gives_call.mp called
    split at given
    · rename_i unchecked
      cases given
      cases verified
      refine ⟨result, fun _ => rfl, fun delegate checked => ?_⟩
      rw [unchecked] at checked
      cases checked
    · rename_i delegate checked
      rw [Option.map_eq_some_iff] at given
      obtain ⟨resolved, hResolved, rfl⟩ := given
      cases verified
      refine ⟨result, fun unchecked => ?_, fun other same => ⟨_, rfl, fun good => ?_⟩⟩
      · rw [checked] at unchecked
        cases unchecked
      · rw [checked] at same
        cases same
        cases outcome : resolved.outcome with
        | error e =>
          rw [Resolution.status, outcome] at good
          cases good
        | ok evidence =>
          rw [Resolution.status, outcome] at good
          exact decided_good (resolveTarget_decided hResolved outcome) good

end

def Unbroken (outcome : Except Result Evidence) : Prop :=
  outcome ≠ .error .limit ∧ outcome ≠ .error .argument

/-- Who may answer GOOD: the issuer, a delegate that needs no check, or a GOOD delegate. -/
def MayAnswerGood (response : Response) (report : OcspReport) : Prop :=
  report.responderCertificate = none ∨ report.responderNocheck = true ∨
    ∃ delegate, report.responderCertificate = some delegate ∧ response.delegate = some (.ok .good) ∧
      GoodNode response.after.data delegate

/-- How the evidence of a member comes from its response and its CRLs. -/
structure Combined (response : Response) (crl member : Resolution) : Prop where
  /-- A verified revocation is reported, unless its delegate is REVOKED. -/
  revoked : ∀ report, response.report = .ok report → report.revocation ≠ none →
    response.delegate ≠ some (.ok .revoked) → member.outcome = .ok report.evidence
  /-- So is an accepted one. -/
  accepted : ∀ answer, response.answer = .ok answer → answer.revoked = true → member.outcome = .ok answer
  /-- Without either, an entry of a CRL is. -/
  entry : (∀ answer, response.answer = .ok answer → answer.revoked = false) →
    ∀ found, crl.outcome = .ok found → found.revoked = true → member.outcome = .ok found
  /-- Other evidence is that of the CRLs, or an accepted GOOD answer. -/
  good : ∀ evidence, member.outcome = .ok evidence → evidence.revoked = false →
    member.outcome = crl.outcome ∨ response.answer = .ok evidence ∧ ∃ report,
      response.report = .ok report ∧ evidence = report.evidence ∧ report.revocation = none ∧
      MayAnswerGood response report
  /-- A response of a REVOKED delegate is not used. -/
  delegate : response.delegate = some (.ok .revoked) → member = crl

section

variable {Q : Type} {c : CrlPrimitives Q} {n : NodeInput} {fuel i : Nat} {response : Response}
  {verify : Priced (Except Result OcspReport)} {s : Budgeted Table} {report : OcspReport}
  {ocsp : OcspMembers} {certificate : Bytes} {crl : Resolution}

theorem readResponse_advances (given : readResponse c n fuel verify s = some response) :
    Advances c n s response.after := by
  have ended : ocspMember c n fuel verify s = some ⟨response.answer, response.after⟩ := by
    rw [ocspMember_response, given]
    rfl
  exact ocspMember_advances ended

theorem readResponse_ends (sound : Sound c n s.data) (enough : 2 * n.capacity < fuel) :
    ∃ response, readResponse c n fuel verify s = some response := by
  have called : Grows c n s ((call Result.limit verify : CrlProgram OcspReport).exec s).2 := grows_call s
  unfold readResponse
  split
  · exact ⟨_, rfl⟩
  · rename_i report s' given
    rw [given] at called
    split
    · exact ⟨_, rfl⟩
    · rename_i delegate _
      obtain ⟨resolved, ended⟩ := Option.isSome_iff_exists.mp
        (@resolveTarget_ends _ c n fuel delegate s' (called.advances.sound sound) enough)
      rw [ended]
      exact ⟨_, rfl⟩

def combine (response : Response) (crl : Resolution) : Resolution := match response.answer with
  | .error .limit => ⟨.error .limit, response.after⟩
  | .error .argument => ⟨.error .argument, response.after⟩
  | .error _ => crl
  | .ok accepted =>
    if accepted.revoked then ⟨.ok accepted, response.after⟩
    else
      match crl.outcome with
      | .error .limit => crl
      | .error .argument => crl
      | .error _ => ⟨.ok accepted, crl.after⟩
      | .ok found => if found.revoked then crl else ⟨.ok accepted, crl.after⟩

theorem memberEvidence_combine (given : ocsp i = some verify)
    (responded : readResponse c n fuel verify s = some response)
    (resolved : resolveTarget c n fuel certificate response.after = some crl) :
    memberEvidence c n fuel ocsp i certificate s = some (combine response crl) := by
  obtain ⟨outcome, after⟩ := crl
  have ended : ocspMember c n fuel verify s = some ⟨response.answer, response.after⟩ := by
    rw [ocspMember_response, responded]
    rfl
  rw [memberEvidence, given]
  dsimp only
  rw [ended, combine]
  cases response.answer with
  | error e => cases e <;> first | rfl | exact resolved
  | ok accepted =>
    dsimp only
    rw [ocspEvidence, resolved]
    cases accepted.revoked with
    | true => rfl
    | false =>
      rw [if_neg Bool.false_ne_true, if_neg Bool.false_ne_true]
      cases outcome with
      | error e => cases e <;> rfl
      | ok found => cases revoked : found.revoked <;> simp [revoked]

theorem mayAnswerGood (given : readResponse c n fuel verify s = some response)
    (answered : response.answer = .ok accepted) (unrevoked : accepted.revoked = false) :
    ∃ report, response.report = .ok report ∧ accepted = report.evidence ∧ report.revocation = none ∧
      MayAnswerGood response report := by
  obtain ⟨report, verified, rfl, good⟩ := answer_report answered
  have clear : report.revocation = none :=
    Option.isNone_iff_eq_none.mp (Option.isSome_eq_false_iff.mp unrevoked)
  obtain ⟨-, -, resolved⟩ := readResponse_delegate given verified
  refine ⟨report, verified, rfl, clear, ?_⟩
  cases responder : report.responderCertificate with
  | none => exact .inl responder
  | some delegate =>
    cases nocheck : report.responderNocheck with
    | true => exact .inr (.inl nocheck)
    | false =>
      have checked : report.delegate = some delegate := by
        rw [OcspReport.delegate, nocheck, responder]
        rfl
      obtain ⟨status, found, node⟩ := resolved delegate checked
      obtain rfl := good clear status found
      exact .inr (.inr ⟨delegate, responder, found, node rfl⟩)

theorem combine_combined (given : readResponse c n fuel verify s = some response)
    (answers : Unbroken response.answer) (resolves : Unbroken crl.outcome) :
    Combined response crl (combine response crl) := by
  have accepted (answer : Evidence) (answered : response.answer = .ok answer)
      (revoked : answer.revoked = true) : (combine response crl).outcome = .ok answer := by
    rw [combine, answered]
    dsimp only
    rw [if_pos revoked]
  have refused {e : Result} (failed : response.answer = .error e) : combine response crl = crl := by
    obtain ⟨unlimited, argued⟩ := answers
    rw [failed] at unlimited argued
    rw [combine, failed]
    cases e <;> first | rfl | exact absurd rfl unlimited | exact absurd rfl argued
  have both {answer found : Evidence} (answered : response.answer = .ok answer)
      (unrevoked : answer.revoked = false) (resolved : crl.outcome = .ok found)
      (revoked : found.revoked = true) : combine response crl = crl := by
    rw [combine, answered, resolved]
    dsimp only
    rw [unrevoked, revoked]
    rfl
  have answer {answer : Evidence} (answered : response.answer = .ok answer)
      (unrevoked : answer.revoked = false) :
      (combine response crl).outcome = crl.outcome ∨ (combine response crl).outcome = .ok answer := by
    obtain ⟨unlimited, argued⟩ := resolves
    rw [combine, answered]
    dsimp only
    rw [unrevoked, if_neg Bool.false_ne_true]
    cases resolved : crl.outcome with
    | error e =>
      rw [resolved] at unlimited argued
      cases e <;> first | exact .inr rfl | exact absurd rfl unlimited | exact absurd rfl argued
    | ok found =>
      dsimp only
      cases found.revoked with
      | true => exact .inl resolved
      | false => exact .inr rfl
  refine ⟨fun report verified revocation trusted => ?_, accepted, fun unrevoked found resolved revoked => ?_,
    fun evidence outcome clear => ?_, fun revoked => ?_⟩
  · rcases answer_revoked verified revocation trusted with answered | limit | argument
    · exact accepted _ answered (Option.isSome_iff_ne_none.mpr revocation)
    · exact absurd limit answers.1
    · exact absurd argument answers.2
  · cases answered : response.answer with
    | error e => rw [refused answered, resolved]
    | ok answer => rw [both answered (unrevoked answer answered) resolved revoked, resolved]
  · cases answered : response.answer with
    | error e => exact .inl (congrArg Resolution.outcome (refused answered))
    | ok given' =>
      cases unrevoked : given'.revoked with
      | true =>
        have same := outcome.symm.trans (accepted given' answered unrevoked)
        cases same
        rw [unrevoked] at clear
        cases clear
      | false =>
        rcases answer answered unrevoked with crls | ocsp
        · exact .inl crls
        · have same := outcome.symm.trans ocsp
          cases same
          exact .inr ⟨rfl, mayAnswerGood given answered unrevoked⟩
  · cases verified : response.report with
    | error e =>
      have failed : response.answer = .error e := by rw [Response.answer, verified]
      exact refused failed
    | ok report => exact refused (answer_refused verified revoked)

end

/-- Whatever table a member is reached with, its evidence combines both sources safely. -/
theorem evidence_combines {Q : Type} (c : CrlPrimitives Q) (n : NodeInput) (coverage : Bool)
    (s : Budgeted Table) (reached : ReachedTable c n coverage s) (ocsp : OcspMembers) (index : Nat)
    (certificate : Bytes) (verify : Priced (Except Result OcspReport))
    (responds : ocsp index = some verify) (fuel : Nat) (enough : 2 * n.capacity < fuel) :
    ∃ response crl member, readResponse c n fuel verify s = some response ∧
      resolveTarget c n fuel certificate response.after = some crl ∧
      memberEvidence c n fuel ocsp index certificate s = some member ∧
      (Unbroken response.answer → Unbroken crl.outcome → Combined response crl member) := by
  have sound := reached.sound.1
  obtain ⟨response, given⟩ := @readResponse_ends _ c n fuel verify s sound enough
  obtain ⟨crl, resolved⟩ := Option.isSome_iff_exists.mp
    (@resolveTarget_ends _ c n fuel certificate _ ((readResponse_advances given).sound sound) enough)
  exact ⟨response, crl, combine response crl, given, resolved,
    memberEvidence_combine responds given resolved, combine_combined given⟩

def emptyIndex : CrlPrimitives Unit where
  records := []
  store := []
  anchorIndex := 0
  read encoded := .ok ⟨encoded, [], [], [], [], [], [], [], ⟨[], []⟩,
    ⟨⟨[], []⟩, [], [], [], [], .ec, .p256, 256⟩, ⟨2026, 1, 1, 0, 0, 0⟩, ⟨2027, 1, 1, 0, 0, 0⟩, 3, false⟩
  queries _ := ⟨0, .ok []⟩
  scopeReasons _ _ := ⟨0, .error .end⟩
  representative _ := ⟨0, .ok true⟩
  sameScope _ _ := ⟨0, .ok false⟩
  candidateMatches _ _ := ⟨0, .ok false⟩
  signatureCacheInit _ := ⟨0, .ok ()⟩
  signatureCached _ _ := ⟨0, .ok ()⟩
  signerValidate _ _ := ⟨0, false, .error .invalid⟩
  hasCache := false
  cacheStore _ := ⟨0, .ok ()⟩
  scopeEvaluate _ _ _ := ⟨0, .end, Coverage.none, none⟩
  anchorCheck _ := ⟨0, .invalid⟩
  order _ _ := ⟨0, .ok 0⟩
  agree _ _ := .ok true

def shortTable : NodeInput := ⟨2, true, List.length, 1⟩

def revokedResponse : Priced (Except Result OcspReport) :=
  ⟨1, .ok ⟨some ⟨⟨2026, 1, 10, 0, 0, 0⟩, none, 1⟩, some [7], false⟩⟩

theorem evidence_combines_revoked : ∃ response crl member,
    memberEvidence emptyIndex shortTable 5 (fun _ => some revokedResponse) 0 [9, 9]
      ⟨100, Table.empty true⟩ = some member ∧ Combined response crl member := by
  obtain ⟨response, crl, member, given, resolved, ended, combined⟩ := evidence_combines emptyIndex
    shortTable true ⟨100, Table.empty true⟩ (.start 100) (fun _ => some revokedResponse) 0 [9, 9]
    revokedResponse rfl 5 (by decide)
  have answered : (readResponse emptyIndex shortTable 5 revokedResponse ⟨100, Table.empty true⟩).map
      Response.answer = some (.ok ⟨⟨allReasons, some ⟨⟨2026, 1, 10, 0, 0, 0⟩, none, 1⟩⟩, []⟩) := rfl
  have crls : ((readResponse emptyIndex shortTable 5 revokedResponse ⟨100, Table.empty true⟩).bind
      fun response => resolveTarget emptyIndex shortTable 5 [9, 9] response.after).map
      Resolution.outcome = some (.error .end) := rfl
  rw [given] at answered crls
  rw [Option.bind_some, resolved] at crls
  have answer := Option.some.inj answered
  have outcome := Option.some.inj crls
  refine ⟨response, crl, member, ended, combined ?_ ?_⟩
  · rw [Unbroken, answer]
    exact ⟨nofun, nofun⟩
  · rw [Unbroken, outcome]
    exact ⟨nofun, nofun⟩

end TinyCrypto.X509
