import TinyCrypto.X509.PathRevocation

/-! # No trust in a circle

The GOOD nodes are in the order of their marks, and every one rests on the
anchor or on nodes before it. In coverage mode a GOOD report comes from a run
in which no mark rests on an UNCOVERED node.
-/

namespace TinyCrypto.X509

open Library Library.Program Library.Metered

def goodOrder (log : List Mark) : List Nat :=
  (log.reverse.filter fun m => m.status = .good).map Mark.node

/-- Every GOOD node comes after the nodes it relied on, and no mark, of any status,
    rests on a signer path with a REVOKED member. -/
structure TrustOrder {Q : Type} (c : CrlPrimitives Q) (coverage : Bool) (t : Table) : Prop where
  nodup : (goodOrder t.log).Nodup
  listed : ∀ i, i ∈ goodOrder t.log ↔ ∃ node, t.nodes[i]? = some node ∧ node.status = .good
  single : ∀ (i j : Nat) (a b : Node), t.nodes[i]? = some a → t.nodes[j]? = some b →
    a.certificate = b.certificate → i = j
  recorded : ∀ (i : Nat) (node : Node), t.nodes[i]? = some node → node.status = statusIn t.log i
  earlier : ∀ newer m older, t.log = newer ++ m :: older → (m.status = .good → m.used ≠ []) ∧
    ∀ use ∈ m.used, (c.anchorCheck use.selected).result = .ok ∨
      ∀ certificate ∈ use.signer.path, ∃ (i : Nat) (node : Node), t.nodes[i]? = some node ∧
        node.certificate = certificate ∧
        (i ∈ goodOrder older ∧ node.status = .good ∨
          coverage = true ∧ statusIn older i = .uncovered ∧ node.status = .uncovered)

section

variable {Q : Type} {c : CrlPrimitives Q} {n : NodeInput}

theorem goodOrder_cons (m : Mark) (log : List Mark) :
    goodOrder (m :: log) = goodOrder log ++ if m.status = .good then [m.node] else [] := by
  simp only [goodOrder, List.reverse_cons, List.filter_append, List.map_append]
  congr 1
  by_cases good : m.status = .good <;> simp [good]

theorem Lasting.older {newer older : List Mark} (lasting : Lasting (newer ++ older)) :
    Lasting older := by
  induction newer with
  | nil => exact lasting
  | cons m newer ih => exact ih lasting.2.2.2

variable {i : Nat}

theorem Lasting.status {newer older : List Mark} (lasting : Lasting (newer ++ older))
    (settled : statusIn older i = .good ∨ statusIn older i = .uncovered) :
    statusIn (newer ++ older) i = statusIn older i := by
  induction newer with
  | nil => rfl
  | cons m newer ih =>
    have same := ih lasting.2.2.2
    rw [List.cons_append, statusIn, if_neg, same]
    rintro rfl
    rw [← same] at settled
    rcases settled with good | uncovered
    · exact lasting.1 good
    · exact lasting.2.1 uncovered

variable {log : List Mark}

theorem mem_goodOrder (lasting : Lasting log) : i ∈ goodOrder log ↔ statusIn log i = .good := by
  induction log with
  | nil => simp [goodOrder, statusIn]
  | cons m log ih =>
    have rest := ih lasting.2.2.2
    rw [goodOrder_cons, List.mem_append, rest, statusIn]
    by_cases here : m.node = i
    · subst here
      have fresh : statusIn log m.node ≠ .good := lasting.1
      by_cases good : m.status = .good <;> simp [good, fresh]
    · have other : i ≠ m.node := fun same => here same.symm
      by_cases good : m.status = .good <;> simp [good, here, other]

theorem goodOrder_nodup (lasting : Lasting log) : (goodOrder log).Nodup := by
  induction log with
  | nil => simp [goodOrder]
  | cons m log ih =>
    rw [goodOrder_cons]
    split
    · refine List.nodup_append.mpr ⟨ih lasting.2.2.2, by simp, ?_⟩
      rintro i member j last rfl
      obtain rfl : i = m.node := by simpa using last
      exact lasting.1 ((mem_goodOrder lasting.2.2.2).mp member)
    · simpa using ih lasting.2.2.2

theorem statusIn_logged (marked : statusIn log i ≠ .undetermined) : ∃ m ∈ log, m.node = i := by
  by_contra none
  exact marked (statusIn_of_unlogged fun m member same => none ⟨m, member, same⟩)

theorem Founded.older {nodes : List Node} {uncovered : Prop} {newer older : List Mark} {m : Mark}
    (founded : Founded c nodes uncovered (newer ++ m :: older)) :
    ∀ use ∈ m.used, Grounded c nodes uncovered older use := by
  induction newer with
  | nil => exact founded.1
  | cons _ newer ih => exact ih founded.2

theorem Sound.trustOrder {t : Table} (sound : Sound c n t) :
    TrustOrder c t.uncoveredUsed.isSome t := by
  obtain ⟨ok, lasting⟩ := sound
  refine ⟨goodOrder_nodup lasting, ?_, ok.unique, ok.recorded, ?_⟩
  · intro i
    rw [mem_goodOrder lasting]
    constructor
    · intro good
      obtain ⟨m, member, rfl⟩ := statusIn_logged (by rw [good]; simp)
      obtain ⟨node, found⟩ : ∃ node, t.nodes[m.node]? = some node :=
        ⟨_, List.getElem?_eq_getElem (ok.logged m member)⟩
      exact ⟨node, found, (ok.recorded _ node found).trans good⟩
    · rintro ⟨node, found, good⟩
      rw [← ok.recorded i node found, good]
  · intro newer m older split
    have founded := ok.founded
    rw [split] at lasting founded
    have here := lasting.older
    refine ⟨here.2.2.1, fun use member => ?_⟩
    rcases founded.older use member with anchored | established
    · exact .inl anchored
    · refine .inr fun certificate listed => ?_
      obtain ⟨i, node, found, same, status⟩ := established certificate listed
      have settled : statusIn older i = .good ∨ statusIn older i = .uncovered := by
        rcases status with good | ⟨-, uncovered⟩
        · exact .inl good
        · exact .inr uncovered
      have now : node.status = statusIn older i := by
        rw [ok.recorded i node found, split, List.append_cons]
        exact Lasting.status (by simpa using lasting) settled
      refine ⟨i, node, found, same, ?_⟩
      rcases status with good | ⟨coverage, uncovered⟩
      · exact .inl ⟨(mem_goodOrder here.2.2.2).mpr good, now.trans good⟩
      · exact .inr ⟨coverage, uncovered, now.trans uncovered⟩

/-- The tables that an operation reaches: targets are resolved one after the
    other, a member may reset the flag, and other calls may spend work. -/
inductive ReachedTable (c : CrlPrimitives Q) (n : NodeInput) (coverage : Bool) :
    Budgeted Table → Prop
  | start (work : Nat) : ReachedTable c n coverage ⟨work, Table.empty coverage⟩
  | target {s : Budgeted Table} (reached : ReachedTable c n coverage s) {fuel : Nat}
      {certificate : Bytes} {resolution : Resolution}
      (ended : resolveTarget c n fuel certificate s = some resolution) :
      ReachedTable c n coverage resolution.after
  | member {s : Budgeted Table} (reached : ReachedTable c n coverage s) :
      ReachedTable c n coverage { s with data := s.data.startMember }
  | spend {s : Budgeted Table} (reached : ReachedTable c n coverage s) (work : Nat) :
      ReachedTable c n coverage { s with work := work }

theorem sound_empty (coverage : Bool) : Sound c n (Table.empty coverage) :=
  ⟨⟨by simp [Table.empty], by simp [Table.empty], by simp [Table.empty], by simp [Table.empty],
    by simp [Table.empty], trivial⟩, trivial⟩

theorem Sound.startMember {t : Table} (sound : Sound c n t) : Sound c n t.startMember := by
  obtain ⟨⟨room, unique, linked, recorded, logged, founded⟩, lasting⟩ := sound
  refine ⟨⟨room, unique, linked, recorded, logged, ?_⟩, lasting⟩
  simpa [Table.startMember] using founded

variable {s : Budgeted Table}

theorem ReachedTable.sound {coverage : Bool} (reached : ReachedTable c n coverage s) :
    Sound c n s.data ∧ s.data.uncoveredUsed.isSome = coverage := by
  induction reached with
  | start work => exact ⟨sound_empty coverage, by cases coverage <;> rfl⟩
  | target reached ended ih =>
    have advances := resolveTarget_advances ended
    exact ⟨advances.sound ih.1, advances.coverage.trans ih.2⟩
  | member reached ih => exact ⟨ih.1.startMember, by simpa [Table.startMember] using ih.2⟩
  | spend reached work ih => exact ih

def GoodNode (t : Table) (certificate : Bytes) : Prop :=
  ∃ (i : Nat) (node : Node), t.nodes[i]? = some node ∧ node.certificate = certificate ∧
    node.status = .good

variable {certificate : Bytes}

theorem Advances.goodNode {s s' : Budgeted Table} (advances : Advances c n s s')
    (sound : Sound c n s.data) (good : GoodNode s.data certificate) :
    GoodNode s'.data certificate := by
  obtain ⟨i, node, found, rfl, status⟩ := good
  obtain ⟨node', found', same⟩ := advances.kept i node found
  obtain ⟨ok, lasting⟩ := advances.sound sound
  obtain ⟨newer, log⟩ := advances.log
  refine ⟨i, node', found', same, ?_⟩
  have before : statusIn s.data.log i = .good := by
    rw [← sound.ok.recorded i node found, status]
  rw [log] at lasting
  rw [ok.recorded i node' found', log, lasting.status (.inl before), before]

/-- A response that is not a revocation was verified, and its delegate is GOOD
    where it has to be. -/
def OcspGood (t : Table) (verify : Priced (Except Result OcspReport)) : Prop :=
  ∃ report, verify.result = .ok report ∧ report.revocation = none ∧
    ∀ delegate, report.responderCertificate = some delegate → report.responderNocheck = false →
      GoodNode t delegate

/-- What makes the member `i` GOOD: its node, or its response. -/
def MemberGood (t : Table) (ocsp : OcspMembers) (i : Nat) (certificate : Bytes) : Prop :=
  GoodNode t certificate ∨ ∃ verify, ocsp i = some verify ∧ OcspGood t verify

theorem Advances.ocspGood {s s' : Budgeted Table} (advances : Advances c n s s')
    (sound : Sound c n s.data) {verify : Priced (Except Result OcspReport)}
    (good : OcspGood s.data verify) : OcspGood s'.data verify := by
  obtain ⟨report, verified, clear, delegates⟩ := good
  exact ⟨report, verified, clear, fun delegate some checked =>
    advances.goodNode sound (delegates delegate some checked)⟩

variable {ocsp : OcspMembers}

theorem Advances.memberGood {s s' : Budgeted Table} (advances : Advances c n s s')
    (sound : Sound c n s.data) (good : MemberGood s.data ocsp i certificate) :
    MemberGood s'.data ocsp i certificate := by
  rcases good with node | ⟨verify, response, good⟩
  · exact .inl (advances.goodNode sound node)
  · exact .inr ⟨verify, response, advances.ocspGood sound good⟩

variable {evidence : Evidence}

theorem decided_good {t : Table} (decided : Decided t certificate evidence)
    (good : evidenceStatus evidence.coverage = .ok .good) : GoodNode t certificate := by
  obtain ⟨i, node, found, same, status, -⟩ := decided
  rw [good] at status
  exact ⟨i, node, found, same, (Except.ok.inj status).symm⟩

variable {accepted : Evidence}

theorem delegateAnswer_ok {report : OcspReport} {delegate : Except Result NodeStatus}
    (answered : delegateAnswer report delegate = .ok accepted) :
    accepted = report.evidence ∧ (report.revocation = none → delegate = .ok .good) := by
  unfold delegateAnswer at answered
  split at answered
  · cases answered
  · cases answered
  · cases answered
  · split at answered
    · cases answered
    · rename_i accepts
      cases answered
      refine ⟨rfl, fun clear => ?_⟩
      simpa [clear] using accepts

variable {fuel : Nat} {resolution : Resolution}

theorem ocspMember_advances {verify : Priced (Except Result OcspReport)}
    (ended : ocspMember c n fuel verify s = some resolution) : Advances c n s resolution.after := by
  have called : Grows c n s ((call Result.limit verify : CrlProgram OcspReport).exec s).2 :=
    grows_call s
  simp only [ocspMember] at ended
  split at ended
  · rename_i failed
    rw [failed] at called
    cases ended
    exact called.advances
  · rename_i report s' given
    rw [given] at called
    refine IsTrans.trans _ _ _ called.advances ?_
    split at ended
    · cases ended
      exact Std.Refl.refl _
    split at ended
    · cases ended
      exact Std.Refl.refl _
    split at ended
    · cases ended
    · rename_i resolved hResolved
      have advances := resolveTarget_advances hResolved
      cases ended
      exact advances

theorem ocspMember_good {verify : Priced (Except Result OcspReport)}
    (ended : ocspMember c n fuel verify s = some resolution)
    (outcome : resolution.outcome = .ok accepted) (clear : accepted.revoked = false) :
    OcspGood resolution.after.data verify := by
  simp only [ocspMember] at ended
  split at ended
  · cases ended
    cases outcome
  · rename_i report s' given
    obtain ⟨-, verified, -⟩ := gives_call.mp given
    have unrevoked : accepted = report.evidence → report.revocation = none := by
      rintro rfl
      simpa [Evidence.revoked, OcspReport.evidence] using clear
    split at ended
    · rename_i responder
      cases ended
      cases outcome
      refine ⟨report, verified, unrevoked rfl, ?_⟩
      intro delegate some
      rw [responder] at some
      cases some
    · rename_i delegate responder
      split at ended
      · rename_i nocheck
        cases ended
        cases outcome
        refine ⟨report, verified, unrevoked rfl, ?_⟩
        intro _ _ checked
        rw [nocheck] at checked
        cases checked
      split at ended
      · cases ended
      · rename_i resolved hResolved
        cases ended
        obtain ⟨same, delegateGood⟩ := delegateAnswer_ok outcome
        have clear := unrevoked same
        refine ⟨report, verified, clear, ?_⟩
        intro other hOther _
        rw [responder] at hOther
        cases hOther
        have good := delegateGood clear
        cases hOutcome : resolved.outcome with
        | error e =>
          rw [hOutcome] at good
          cases good
        | ok evidence =>
          rw [hOutcome] at good
          have decided := resolveTarget_decided hResolved hOutcome
          exact decided_good decided good

theorem ocspEvidence_advances
    (ended : ocspEvidence c n fuel certificate accepted s = some resolution) :
    Advances c n s resolution.after := by
  simp only [ocspEvidence] at ended
  split at ended
  · cases ended
    exact Std.Refl.refl _
  split at ended
  · cases ended
  all_goals
    rename_i hResolved
    have advances := resolveTarget_advances hResolved
    cases ended
    exact advances

theorem ocspEvidence_ok {accepted evidence : Evidence}
    (ended : ocspEvidence c n fuel certificate accepted s = some resolution)
    (outcome : resolution.outcome = .ok evidence) (clear : evidence.revoked = false) :
    accepted.revoked = false := by
  simp only [ocspEvidence] at ended
  split at ended
  · cases ended
    cases outcome
    exact clear
  · rename_i unrevoked
    simpa using unrevoked

theorem memberEvidence_advances
    (ended : memberEvidence c n fuel ocsp i certificate s = some resolution) :
    Advances c n s resolution.after := by
  simp only [memberEvidence] at ended
  split at ended
  · exact resolveTarget_advances ended
  split at ended
  · cases ended
  · rename_i hMember
    cases ended
    exact ocspMember_advances hMember
  · rename_i hMember
    cases ended
    exact ocspMember_advances hMember
  · rename_i hMember
    exact IsTrans.trans _ _ _ (ocspMember_advances hMember) (resolveTarget_advances ended)
  · rename_i hMember
    exact IsTrans.trans _ _ _ (ocspMember_advances hMember) (ocspEvidence_advances ended)

theorem memberEvidence_good (sound : Sound c n s.data)
    (ended : memberEvidence c n fuel ocsp i certificate s = some resolution)
    (outcome : resolution.outcome = .ok evidence)
    (good : evidenceStatus evidence.coverage = .ok .good) :
    MemberGood resolution.after.data ocsp i certificate := by
  have clear : evidence.revoked = false := by
    unfold evidenceStatus at good
    split at good
    · cases good
    split at good
    · split at good <;> cases good
    · rename_i none
      simp [Evidence.revoked, none]
  simp only [memberEvidence] at ended
  split at ended
  · exact .inl (decided_good (resolveTarget_decided ended outcome) good)
  rename_i verify response
  split at ended
  · cases ended
  · cases ended
    cases outcome
  · cases ended
    cases outcome
  · exact .inl (decided_good (resolveTarget_decided ended outcome) good)
  · rename_i accepted middle hMember
    have advances := ocspMember_advances hMember
    have response_good := ocspMember_good hMember rfl (ocspEvidence_ok ended outcome clear)
    exact .inr ⟨verify, response,
      (ocspEvidence_advances ended).ocspGood (advances.sound sound) response_good⟩

/-- The table after some members of a path. `clear` says that none of them was
    flagged. -/
structure MembersResolved (c : CrlPrimitives Q) (n : NodeInput) (ocsp : OcspMembers)
    (clear : Prop) (s s' : Budgeted Table) : Prop where
  sound : Sound c n s.data → Sound c n s'.data
  coverage : s'.data.uncoveredUsed.isSome = s.data.uncoveredUsed.isSome
  kept : Sound c n s.data → ∀ (i : Nat) (certificate : Bytes),
    MemberGood s.data ocsp i certificate → MemberGood s'.data ocsp i certificate
  strict : Sound c n s.data → clear → Founded c s.data.nodes False s.data.log →
    Founded c s'.data.nodes False s'.data.log

theorem MembersResolved.refl {clear : Prop} (s : Budgeted Table) :
    MembersResolved c n ocsp clear s s :=
  ⟨id, rfl, fun _ _ _ => id, fun _ _ => id⟩

theorem MembersResolved.weaken {clear later : Prop} {s s' : Budgeted Table}
    (resolved : MembersResolved c n ocsp clear s s') (enough : later → clear) :
    MembersResolved c n ocsp later s s' :=
  ⟨resolved.sound, resolved.coverage, resolved.kept,
    fun sound holds => resolved.strict sound (enough holds)⟩

theorem MembersResolved.trans {clear clear' later : Prop} {s s' s'' : Budgeted Table}
    (first : MembersResolved c n ocsp clear s s') (second : MembersResolved c n ocsp clear' s' s'')
    (both : later → clear ∧ clear') : MembersResolved c n ocsp later s s'' := by
  refine ⟨fun sound => second.sound (first.sound sound), second.coverage.trans first.coverage,
    fun sound i certificate good =>
      second.kept (first.sound sound) i certificate (first.kept sound i certificate good), ?_⟩
  intro sound holds founded
  obtain ⟨here, there⟩ := both holds
  exact second.strict (first.sound sound) there (first.strict sound here founded)

variable {visit : Visit}

theorem crlPathCertificate_resolved {s s' : Budgeted Table}
    (ended : crlPathCertificate c n fuel ocsp i certificate s = some (visit, s')) :
    MembersResolved c n ocsp (visit.flagged = false) s s' := by
  simp only [crlPathCertificate] at ended
  split at ended
  · cases ended
  · rename_i resolved hResolved
    have advances := memberEvidence_advances hResolved
    cases ended
    refine ⟨fun sound => advances.sound sound.startMember, ?_, ?_, ?_⟩
    · rw [advances.coverage]
      simp [Table.startMember]
    · intro sound j other good
      exact advances.memberGood sound.startMember good
    · intro sound clear founded
      exact advances.strict sound.startMember (by simpa using clear) founded

theorem outcome_of_good (good : memberStatus visit = .ok .good) :
    ∃ evidence, visit.found = .ok evidence ∧ evidenceStatus evidence.coverage = .ok .good ∧
      visit.flagged = false := by
  obtain ⟨found, flagged⟩ := visit
  cases found with
  | error e => cases e <;> simp [memberStatus, Visit.outcome] at good
  | ok evidence =>
    cases flagged with
    | false => exact ⟨evidence, rfl, by simpa [memberStatus, Visit.outcome] using good, rfl⟩
    | true =>
      cases hRevoked : evidence.revoked with
      | false => simp [memberStatus, Visit.outcome, hRevoked] at good
      | true =>
        simp only [memberStatus, Visit.outcome, hRevoked, Bool.not_true, Bool.and_false,
          Bool.false_eq_true, if_false] at good
        unfold evidenceStatus at good
        split at good
        · cases good
        split at good
        · split at good <;> cases good
        · rename_i none
          simp [Evidence.revoked, none] at hRevoked

theorem outcome_of_revoked (found : visit.found = .ok evidence)
    (revoked : evidenceStatus evidence.coverage = .ok .revoked) :
    visit.outcome = .ok evidence ∧ memberStatus visit = .ok .revoked := by
  have shown : evidence.revoked = true := by
    unfold evidenceStatus at revoked
    split at revoked
    · cases revoked
    split at revoked
    · rename_i some
      simp [Evidence.revoked, some]
    · split at revoked <;> cases revoked
  have outcome : visit.outcome = .ok evidence := by simp [Visit.outcome, found, shown]
  exact ⟨outcome, by rw [memberStatus, outcome]; exact revoked⟩

theorem crlPathCertificate_good {s s' : Budgeted Table} (sound : Sound c n s.data)
    (ended : crlPathCertificate c n fuel ocsp i certificate s = some (visit, s'))
    (good : memberStatus visit = .ok .good) : MemberGood s'.data ocsp i certificate := by
  obtain ⟨evidence, found, status, -⟩ := outcome_of_good good
  simp only [crlPathCertificate] at ended
  split at ended
  · cases ended
  · rename_i resolved hResolved
    cases ended
    exact memberEvidence_good sound.startMember hResolved found status

variable {uncovered : Option Nat}

theorem pathReport_good (good : pathReport uncovered = .good) : uncovered = none := by
  cases uncovered with
  | none => rfl
  | some index => cases good

variable {reportUncovered : Bool} {chain : List Bytes}

variable {visits : List Visit}

/-- What the loop makes of the members from `i` on. -/
inductive Resolves (c : CrlPrimitives Q) (n : NodeInput) (fuel : Nat) (ocsp : OcspMembers) :
    Nat → List Bytes → Option Nat → List Visit → Budgeted Table → PathResolution → Prop
  | nil {i : Nat} {uncovered : Option Nat} {visits : List Visit} {s : Budgeted Table} :
    Resolves c n fuel ocsp i [] uncovered visits s ⟨.ok (pathReport uncovered), visits, s⟩
  | next {i : Nat} {certificate : Bytes} {rest : List Bytes} {uncovered uncovered' : Option Nat}
      {visits : List Visit} {visit : Visit} {s s' : Budgeted Table} {resolution : PathResolution}
      (visited : crlPathCertificate c n fuel ocsp i certificate s = some (visit, s'))
      (unrevoked : memberStatus visit ≠ .ok .revoked)
      (carried : memberStatus visit = .ok .good ∧ uncovered' = uncovered ∨ uncovered' ≠ none)
      (later : Resolves c n fuel ocsp (i + 1) rest uncovered' (visits ++ [visit]) s' resolution) :
    Resolves c n fuel ocsp i (certificate :: rest) uncovered visits s resolution
  | stop {i : Nat} {certificate : Bytes} {rest : List Bytes} {uncovered : Option Nat}
      {visits : List Visit} {visit : Visit} {s s' : Budgeted Table}
      {report : Except Result RevocationReport}
      (visited : crlPathCertificate c n fuel ocsp i certificate s = some (visit, s'))
      (bad : report ≠ .ok .good)
      (reports : ∀ j coverage, report = .ok (.revoked j coverage) ↔
        j = i ∧ ∃ evidence, visit.outcome = .ok evidence ∧ evidence.coverage = coverage ∧
          memberStatus visit = .ok .revoked) :
    Resolves c n fuel ocsp i (certificate :: rest) uncovered visits s
      ⟨report, visits ++ [visit], s'⟩

variable {resolution : PathResolution}

theorem crlPathResolveLoop_resolves
    (ended : crlPathResolveLoop c n fuel ocsp reportUncovered i chain uncovered visits s =
      some resolution) : Resolves c n fuel ocsp i chain uncovered visits s resolution := by
  induction chain generalizing i uncovered visits s with
  | nil =>
    cases ended
    exact .nil
  | cons certificate rest ih =>
    simp only [crlPathResolveLoop] at ended
    split at ended
    · cases ended
    rename_i visit s' visited
    split at ended
    · rename_i status
      cases ended
      exact .stop visited nofun fun j coverage => by simp [status]
    · rename_i status
      exact .next visited (by simp [status]) (.inl ⟨status, rfl⟩) (ih ended)
    · rename_i status
      split at ended
      · rename_i evidence outcome
        cases ended
        exact .stop visited nofun fun j coverage => by simp [status, outcome, eq_comm]
      · rename_i outcome
        cases ended
        exact .stop visited nofun fun j coverage => by simp [outcome]
    · rename_i other status
      have unrevoked : memberStatus visit ≠ .ok .revoked := by
        rw [status]
        exact fun same => other (Except.ok.inj same)
      split at ended
      · exact .next visited unrevoked (.inr (by cases uncovered <;> simp)) (ih ended)
      · cases ended
        exact .stop visited nofun fun j coverage => by simp [unrevoked]

theorem Resolves.members (resolves : Resolves c n fuel ocsp i chain uncovered visits s resolution) :
    MembersResolved c n ocsp (resolution.report = .ok .good) s resolution.after ∧
      (resolution.report = .ok .good → uncovered = none) := by
  induction resolves with
  | nil => exact ⟨.refl _, fun good => pathReport_good (Except.ok.inj good)⟩
  | next visited _ carried _ ih =>
    have here := crlPathCertificate_resolved visited
    obtain ⟨later, none⟩ := ih
    rcases carried with ⟨status, rfl⟩ | some
    · obtain ⟨-, -, -, clear⟩ := outcome_of_good status
      exact ⟨here.trans later fun holds => ⟨clear, holds⟩, none⟩
    · exact ⟨here.trans later fun good => absurd (none good) some,
        fun good => absurd (none good) some⟩
  | stop visited bad _ =>
    exact ⟨(crlPathCertificate_resolved visited).weaken fun good => absurd good bad,
      fun good => absurd good bad⟩

theorem Resolves.good (resolves : Resolves c n fuel ocsp i chain uncovered visits s resolution)
    (sound : Sound c n s.data) (good : resolution.report = .ok .good) {j : Nat}
    (member : chain[j]? = some certificate) :
    MemberGood resolution.after.data ocsp (i + j) certificate := by
  induction resolves generalizing j with
  | nil => simp at member
  | @next i first _ _ _ _ _ _ _ _ visited _ carried later ih =>
    rcases carried with ⟨status, rfl⟩ | some
    · cases j with
      | zero =>
        obtain rfl : first = certificate := by simpa using member
        exact later.members.1.kept ((crlPathCertificate_resolved visited).sound sound) i first
          (crlPathCertificate_good sound visited status)
      | succ j =>
        have others := ih ((crlPathCertificate_resolved visited).sound sound) good
          (by simpa using member)
        rwa [show i + (j + 1) = i + 1 + j by omega]
    · exact absurd (later.members.2 good) some
  | stop _ bad _ => exact absurd good bad

theorem Resolves.visits_append
    (resolves : Resolves c n fuel ocsp i chain uncovered visits s resolution) :
    ∃ more, resolution.visits = visits ++ more := by
  induction resolves with
  | nil => exact ⟨[], by simp⟩
  | next _ _ _ _ ih =>
    obtain ⟨more, same⟩ := ih
    exact ⟨_, by rw [same, List.append_assoc]⟩
  | stop => exact ⟨_, rfl⟩

/-- The member at `j` was visited, and its evidence is a revocation. -/
def VisitedRevoked (resolution : PathResolution) (j : Nat) (coverage : Coverage) : Prop :=
  ∃ visit evidence, resolution.visits[j]? = some visit ∧ visit.found = .ok evidence ∧
    evidence.coverage = coverage ∧ evidenceStatus coverage = .ok .revoked

theorem outcome_found (outcome : visit.outcome = .ok evidence) : visit.found = .ok evidence := by
  unfold Visit.outcome at outcome
  split at outcome
  · cases outcome
  · rename_i found
    split at outcome
    · cases outcome
    · rw [found, ← outcome]

theorem Resolves.reported (resolves : Resolves c n fuel ocsp i chain uncovered visits s resolution)
    (place : visits.length = i) {j : Nat} {coverage : Coverage}
    (reported : resolution.report = .ok (.revoked j coverage)) :
    VisitedRevoked resolution j coverage := by
  induction resolves with
  | @nil _ uncovered => cases uncovered <;> cases reported
  | next _ _ _ _ ih => exact ih (by simp [place]) reported
  | stop _ _ reports =>
    obtain ⟨rfl, evidence, outcome, rfl, status⟩ := (reports _ _).mp reported
    refine ⟨_, evidence, by simp [← place], outcome_found outcome, rfl, ?_⟩
    rwa [memberStatus, outcome] at status

theorem Resolves.visited (resolves : Resolves c n fuel ocsp i chain uncovered visits s resolution)
    (place : visits.length = i) {j : Nat} {coverage : Coverage} (new : i ≤ j)
    (visited : VisitedRevoked resolution j coverage) :
    resolution.report = .ok (.revoked j coverage) := by
  obtain ⟨member, evidence, listed, found, covered, revoked⟩ := visited
  obtain ⟨outcome, status⟩ := outcome_of_revoked found (covered ▸ revoked)
  induction resolves with
  | nil =>
    rw [List.getElem?_eq_none (by simpa [place] using new)] at listed
    cases listed
  | @next _ _ _ _ _ _ visit _ _ _ _ unrevoked _ later ih =>
    rcases Nat.eq_or_lt_of_le new with rfl | after
    · obtain ⟨more, same⟩ := later.visits_append
      rw [same, List.append_assoc, List.getElem?_append_right (by omega), place] at listed
      obtain rfl : visit = member := by simpa using listed
      exact absurd status unrevoked
    · exact ih (by simp [place]) after listed
  | @stop i _ _ _ _ visit _ _ _ _ _ reports =>
    obtain ⟨inside, -⟩ := List.getElem?_eq_some_iff.mp listed
    rw [List.length_append, List.length_singleton] at inside
    obtain rfl : j = i := by omega
    obtain rfl : visit = member := by simpa [← place] using listed
    exact (reports _ _).mpr ⟨rfl, evidence, outcome, covered, status⟩

theorem crlPathCertificate_ends {fuel : Nat} {ocsp : OcspMembers} {i : Nat} {certificate : Bytes}
    {s : Budgeted Table} (sound : Sound c n s.data) (enough : 2 * n.capacity < fuel) :
    (crlPathCertificate c n fuel ocsp i certificate s).isSome = true := by
  have target : ∀ {t : Budgeted Table} (certificate : Bytes), Sound c n t.data →
      ∃ resolution, resolveTarget c n fuel certificate t = some resolution :=
    fun certificate sound => Option.isSome_iff_exists.mp (resolveTarget_ends sound enough)
  have member : ∀ {t : Budgeted Table} (verify : Priced (Except Result OcspReport)),
      Sound c n t.data → ∃ resolution, ocspMember c n fuel verify t = some resolution := by
    intro t verify sound
    have called : Grows c n t ((call Result.limit verify : CrlProgram OcspReport).exec t).2 :=
      grows_call t
    simp only [ocspMember]
    split
    · exact ⟨_, rfl⟩
    · rename_i report t' given
      rw [given] at called
      split
      · exact ⟨_, rfl⟩
      split
      · exact ⟨_, rfl⟩
      · rename_i delegate _ _
        obtain ⟨resolution, resolved⟩ := target delegate (called.advances.sound sound)
        rw [resolved]
        exact ⟨_, rfl⟩
  have evidence : ∃ resolution, memberEvidence c n fuel ocsp i certificate
      { s with data := s.data.startMember } = some resolution := by
    simp only [memberEvidence]
    split
    · exact target certificate sound.startMember
    · rename_i verify response
      obtain ⟨resolution, resolved⟩ :=
        @member { s with data := s.data.startMember } verify sound.startMember
      have advances := ocspMember_advances resolved
      rw [resolved]
      obtain ⟨outcome, after⟩ := resolution
      have later := target certificate (advances.sound sound.startMember)
      split
      · rename_i none
        cases none
      · exact ⟨_, rfl⟩
      · exact ⟨_, rfl⟩
      · rename_i same
        cases same
        exact later
      · rename_i same
        cases same
        simp only [ocspEvidence]
        split
        · exact ⟨_, rfl⟩
        · obtain ⟨⟨outcome, last⟩, ended⟩ := later
          rw [ended]
          cases outcome with
          | ok crl => exact ⟨_, rfl⟩
          | error e => cases e <;> exact ⟨_, rfl⟩
  obtain ⟨resolution, resolved⟩ := evidence
  simp only [crlPathCertificate, resolved]
  rfl

theorem crlPathResolveLoop_ends (sound : Sound c n s.data) (enough : 2 * n.capacity < fuel) :
    (crlPathResolveLoop c n fuel ocsp reportUncovered i chain uncovered visits s).isSome = true := by
  induction chain generalizing i uncovered visits s with
  | nil => rfl
  | cons certificate rest ih =>
    obtain ⟨⟨visit, s'⟩, hVisit⟩ := Option.isSome_iff_exists.mp
      (@crlPathCertificate_ends _ c n _ ocsp i certificate _ sound enough)
    have later := (crlPathCertificate_resolved hVisit).sound sound
    simp only [crlPathResolveLoop, hVisit]
    split
    · rfl
    · exact ih later
    · split <;> rfl
    · split
      · exact ih later
      · rfl

/-- Resolving a target ends, and the loop goes on for at most `capacity` rounds
    after a round that was the last one to add a node. -/
def ResolutionEnds (c : CrlPrimitives Q) (n : NodeInput) (s : Budgeted Table) : Prop :=
  ∀ (target : Bytes),
    (∀ fuel, 2 * n.capacity < fuel → (resolveTarget c n fuel target s).isSome = true) ∧
    ∀ (root : Nat) (s₀ : Budgeted Table) (j k : Nat) (a b : Result × Budgeted Table),
      (dependencyAdd n target).exec
        { s with data := { s.data with sourceFailed := false } } = (.ok root, s₀) →
      Unsettled s₀.data root → Rounds c n root j (.unsupported, s₀) a → Rounds c n root k a b →
      b.2.data.nodes.length = a.2.data.nodes.length → k ≤ n.capacity

theorem Sound.ends (sound : Sound c n s.data) : ResolutionEnds c n s := by
  intro target
  refine ⟨fun fuel enough => resolveTarget_ends sound enough, ?_⟩
  intro root s₀ j k a b added unsettled before rounds same
  have grown : Grows c n _ ((dependencyAdd n target).exec
      { s with data := { s.data with sourceFailed := false } }).2 := dependencyAdd_grows _
  rw [added] at grown
  have start := grown.advances.sound ((advances_start s).sound sound)
  obtain ⟨advances, later⟩ := before.advances unsettled
  exact rounds.bounded later (advances.sound start).ok.room same

structure ReportRight (c : CrlPrimitives Q) (ocsp : OcspMembers) (chain : List Bytes)
    (resolution : PathResolution) : Prop where
  good : resolution.report = .ok .good →
    (∀ (i : Nat) (certificate : Bytes), chain[i]? = some certificate →
      MemberGood resolution.after.data ocsp i certificate) ∧
    Founded c resolution.after.data.nodes False resolution.after.data.log
  revoked : ∀ (i : Nat) (coverage : Coverage), resolution.report = .ok (.revoked i coverage) ↔
    VisitedRevoked resolution i coverage
  order : TrustOrder c resolution.after.data.uncoveredUsed.isSome resolution.after.data

/-- Every GOOD node rests on earlier ones, resolving ends, and the report of a
    path is GOOD only when nothing rests on an UNCOVERED node. -/
def NeverCircular (c : CrlPrimitives Q) (n : NodeInput) (coverage : Bool) : Prop :=
  (∀ s, ReachedTable c n coverage s → TrustOrder c coverage s.data ∧ ResolutionEnds c n s) ∧
  ∀ (fuel work : Nat) (ocsp : OcspMembers) (reportUncovered : Bool) (chain : List Bytes),
    (2 * n.capacity < fuel → (crlPathResolve c n fuel ocsp reportUncovered chain
      ⟨work, Table.empty coverage⟩).isSome = true) ∧
    ∀ resolution, crlPathResolve c n fuel ocsp reportUncovered chain
      ⟨work, Table.empty coverage⟩ = some resolution → ReportRight c ocsp chain resolution

end

end TinyCrypto.X509
