import TinyCrypto.X509.RevocationGrowth

/-! # Evidence rests on resolved signers

Every CRL that an evaluation uses was accepted under the anchor, or under a
signer path whose members were resolved when it was checked. Proposals that
wait for their signer are ranked with the others but never become evidence.
-/

namespace TinyCrypto.X509

open Library Library.Program Library.Metered

/-- The certificate has a GOOD node, or an UNCOVERED one whose use was noted. -/
def Trusted (t : Table) (certificate : Bytes) : Prop :=
  ∃ (i : Nat) (node : Node), t.nodes[i]? = some node ∧ node.certificate = certificate ∧
    (node.status = .good ∨ t.uncoveredUsed = some true ∧ node.status = .uncovered)

section

variable {Q : Type} {c : CrlPrimitives Q} {n : NodeInput}

/-- The CRLs were accepted under the anchor, or under trusted signers. -/
def Vouched (c : CrlPrimitives Q) (t : Table) (use : Used) : Prop :=
  (c.anchorCheck use.selected).result = .ok ∨ ∀ certificate ∈ use.signer.path, Trusted t certificate

variable {s s' : Budgeted Table} {certificate : Bytes}

theorem Grows.trusted (grows : Grows c n s s') (trusted : Trusted s.data certificate) :
    Trusted s'.data certificate := by
  obtain ⟨i, node, found, same, status⟩ := trusted
  obtain ⟨new, nodes, -⟩ := grows.nodes
  refine ⟨i, node, ?_, same, ?_⟩
  · rw [nodes]
    exact getElem?_append_some found
  · rcases status with good | ⟨noted, uncovered⟩
    · exact .inl good
    · exact .inr ⟨grows.flag noted, uncovered⟩

theorem Grows.vouched (grows : Grows c n s s') {use : Used} (vouched : Vouched c s.data use) :
    Vouched c s'.data use := by
  rcases vouched with anchored | trusted
  · exact .inl anchored
  · exact .inr fun certificate listed => grows.trusted (trusted certificate listed)

abbrev GrowsTable {A : Type} (c : CrlPrimitives Q) (n : NodeInput) (m : CrlProgram A) : Prop :=
  Moves (Grows c n) m

theorem grows_note {s : Budgeted Table} (coverage : s.data.uncoveredUsed.isSome = true) :
    Grows c n s ⟨s.work, { s.data with uncoveredUsed := some true }⟩ := by
  refine ⟨Nat.le_refl _, ⟨[], by simp, by simp⟩, rfl, by simp [coverage], fun _ => rfl, id, ?_⟩
  rintro ⟨room, unique, linked, recorded, logged, founded⟩
  refine ⟨room, unique, linked, recorded, logged, ?_⟩
  simpa [coverage] using founded

theorem dependencyMember_grows : GrowsTable c n (dependencyMember n certificate) := by
  refine .bind dependencyAdd_grows.trial fun added => ?_
  cases added with
  | error e => exact .pure _
  | ok index =>
    intro s
    refine exec_bind_after (fun e s' failed => ?_) fun table s' given => ?_
    · cases failed
    obtain ⟨rfl, rfl⟩ := gives_data.mp given
    split
    · exact Std.Refl.refl _
    split
    · exact Std.Refl.refl _
    · exact Std.Refl.refl _
    · exact Std.Refl.refl _
    · split
      · rename_i coverage
        exact grows_note coverage
      · exact Std.Refl.refl _

theorem dependencyMember_gives (given : Gives (dependencyMember n certificate) s (.ok false) s') :
    Trusted s'.data certificate := by
  simp only [dependencyMember, gives_bind, gives_trial] at given
  obtain ⟨added, middle, hAdd, given⟩ := given
  cases added with
  | error e => simp at given
  | ok index =>
    obtain ⟨node, found, same⟩ := dependencyAdd_gives hAdd
    simp only [gives_bind, gives_data] at given
    obtain ⟨_, _, ⟨rfl, rfl⟩, given⟩ := given
    simp only [found] at given
    cases hStatus : node.status with
    | undetermined => simp [hStatus] at given
    | revoked => simp [hStatus] at given
    | good =>
      simp only [hStatus, gives_pure, true_and] at given
      subst given
      exact ⟨index, node, found, same, .inl hStatus⟩
    | uncovered =>
      simp only [hStatus] at given
      split at given
      · simp only [gives_bind, gives_update, gives_pure] at given
        obtain ⟨_, _, rfl, -, rfl⟩ := given
        exact ⟨index, node, found, same, .inr ⟨rfl, hStatus⟩⟩
      · simp at given

variable {path : List Bytes} {unresolved : Bool} {merged : Proposal} {query : Q}
  {failure : PathStatus} {index : Nat}

theorem dependenciesPath_grows : GrowsTable c n (dependenciesPath n path unresolved) := by
  induction path generalizing unresolved with
  | nil => exact .pure _
  | cons certificate rest ih =>
    refine .bind dependencyMember_grows fun member => ?_
    cases member with
    | error status => exact .pure _
    | ok open_ => exact ih

theorem dependencyAdd_throws :
    Throws (fun e => e = .limit ∨ e = .argument) (dependencyAdd n certificate) := by
  have compare : ∀ previous, Throws (fun e => e = .limit ∨ e = .argument)
      (sameEncoding previous certificate) := by
    intro previous
    refine .bind (throws_charge (.inl rfl)) fun _ _ _ _ => ?_
    split
    · exact .pure _
    · exact .bind (throws_charge (.inl rfl)) fun _ _ _ _ => .pure _
  have scan : ∀ index nodes, Throws (fun e => e = .limit ∨ e = .argument)
      (nodeScan certificate index nodes) := by
    intro index nodes
    induction nodes generalizing index with
    | nil => exact .pure _
    | cons node rest ih =>
      refine .bind (compare _) fun _ same _ _ => ?_
      split
      · exact .pure _
      · exact ih _
  have chain : ∀ passes cursor, Throws (fun e => e = .limit ∨ e = .argument)
      (chainScan certificate passes cursor) := by
    intro passes
    induction passes with
    | zero => intro cursor; cases cursor with
      | none => exact .pure _
      | some cursor => exact .throw (.inl rfl)
    | succ passes ih =>
      intro cursor
      cases cursor with
      | none => exact .pure _
      | some cursor =>
        refine .bind throws_data fun _ table _ _ => ?_
        split
        · exact .throw (.inr rfl)
        · refine .bind (compare _) fun _ same _ _ => ?_
          split
          · exact .pure _
          · exact ih _
  refine .bind (throws_charge (.inl rfl)) fun _ _ _ _ => ?_
  split
  · unfold dependencyFindIndexed
    split
    · exact .throw (.inr rfl)
    split
    · exact .throw (.inl rfl)
    refine .bind ?_ fun _ _ _ _ => .bind (throws_charge (.inl rfl)) fun _ _ _ _ => ?_
    · refine .bind throws_data fun _ table _ _ => ?_
      split
      · exact .bind (throws_charge (.inl rfl)) fun _ _ _ _ => throws_update
      · exact .pure _
    refine .bind throws_state fun _ s _ _ => .bind (chain _ _) fun _ found _ _ => ?_
    split
    · exact .pure _
    split
    · exact .throw (.inl rfl)
    · exact .bind throws_update fun _ _ _ _ => .pure _
  · unfold dependencyFind
    split
    · exact .throw (.inr rfl)
    refine .bind throws_data fun _ table _ _ => .bind (scan _ _) fun _ found _ _ => ?_
    split
    · exact .pure _
    split
    · exact .throw (.inl rfl)
    · exact .bind throws_update fun _ _ _ _ => .pure _

theorem dependencyMember_error {status : PathStatus}
    (given : Gives (dependencyMember n certificate) s (.error status) s') : status ≠ .valid := by
  simp only [dependencyMember, gives_bind, gives_trial] at given
  obtain ⟨added, middle, hAdd, given⟩ := given
  cases added with
  | error e =>
    simp only [gives_pure, Except.error.injEq] at given
    obtain ⟨rfl, rfl⟩ := given
    rcases dependencyAdd_throws _ _ _ hAdd with rfl | rfl <;> simp [pathStatus]
  | ok index =>
    simp only [gives_bind, gives_data] at given
    obtain ⟨_, _, ⟨rfl, rfl⟩, given⟩ := given
    split at given
    · simp only [gives_pure, Except.error.injEq] at given
      simp [← given.1]
    split at given
    · simp only [gives_pure, Except.error.injEq] at given
      simp [← given.1]
    · simp at given
    · simp at given
    · split at given
      · simp only [gives_bind, gives_pure, reduceCtorEq, false_and, and_false,
          exists_false] at given
      · simp at given

theorem dependenciesPath_gives (c : CrlPrimitives Q)
    (given : Gives (dependenciesPath n path unresolved) s .valid s') :
    unresolved = false ∧ ∀ certificate ∈ path, Trusted s'.data certificate := by
  induction path generalizing unresolved s with
  | nil =>
    simp only [dependenciesPath, gives_pure] at given
    cases unresolved with
    | false => exact ⟨rfl, by simp⟩
    | true => simp at given
  | cons certificate rest ih =>
    simp only [dependenciesPath, gives_bind] at given
    obtain ⟨member, middle, hMember, given⟩ := given
    cases member with
    | error status =>
      simp only [gives_pure] at given
      exact absurd given.1 (dependencyMember_error hMember)
    | ok open_ =>
      obtain ⟨resolved, trusted⟩ := ih given
      simp only [Bool.or_eq_false_iff] at resolved
      obtain ⟨rfl, rfl⟩ := resolved
      refine ⟨rfl, ?_⟩
      intro other listed
      rcases List.mem_cons.mp listed with rfl | listed
      · have grows : Grows c n middle s' := dependenciesPath_grows.of_gives given
        exact grows.trusted (dependencyMember_gives hMember)
      · exact trusted other listed

theorem dependenciesCheck_grows {path : SignerPath} {selected : Option Selected} :
    GrowsTable c n (dependenciesCheck c n path selected) := by
  unfold dependenciesCheck
  split
  · exact .pure _
  split
  · exact .pure _
  · refine .bind grows_answer fun checked => ?_
    split
    · exact .pure _
    · exact .pure _
    · exact .pure _
    · exact dependenciesPath_grows

theorem dependenciesCheck_gives {path : SignerPath} {selected : Selected}
    (given : Gives (dependenciesCheck c n path (some selected)) s .valid s') :
    Vouched c s'.data ⟨selected, path⟩ := by
  unfold dependenciesCheck at given
  split at given
  · simp at given
  simp only [gives_bind] at given
  obtain ⟨checked, middle, answered, given⟩ := given
  obtain ⟨answered, -⟩ := gives_answer answered
  split at given
  · simp at given
  · simp at given
  · refine .inl ?_
    simpa [eq_comm] using answered
  · exact .inr (dependenciesPath_gives c given).2

def ProposalOk (c : CrlPrimitives Q) (t : Table) (p : Proposal) : Prop :=
  p.result = .ok → Vouched c t ⟨p.selected, p.signer⟩

variable {p : Proposal}

theorem Grows.proposal (grows : Grows c n s s') (ok : ProposalOk c s.data p) :
    ProposalOk c s'.data p :=
  fun accepted => grows.vouched (ok accepted)

variable {chosen : Option Proposal}

theorem proposalMerge_grows {candidate : Proposal} :
    GrowsTable c n (proposalMerge c chosen candidate) := by
  unfold proposalMerge
  split
  · exact .pure _
  refine .bind grows_call fun order => ?_
  split
  · exact .pure _
  split
  · exact .pure _
  split
  · exact .pure _
  split
  · exact .pure _
  split
  · exact .pure _
  refine .bind grows_charge fun _ => .bind (.lift _) fun agree => ?_
  split
  · exact .pure _
  · exact .pure _

theorem proposalMerge_gives {candidate : Proposal}
    (given : Gives (proposalMerge c chosen candidate) s merged s') (accepted : merged.result = .ok) :
    merged = candidate ∨ chosen = some merged := by
  unfold proposalMerge at given
  cases chosen with
  | none =>
    simp only [gives_pure] at given
    exact .inl given.1.symm
  | some chosen =>
    simp only [gives_bind, gives_call] at given
    obtain ⟨order, _, -, given⟩ := given
    split at given
    · simp only [gives_pure] at given
      exact .inr (by rw [given.1])
    split at given
    · simp only [gives_pure] at given
      exact .inl given.1.symm
    split at given
    · simp only [gives_pure] at given
      exact .inl given.1.symm
    split at given
    · simp only [gives_pure] at given
      exact .inr (by rw [given.1])
    split at given
    · simp only [gives_pure] at given
      rw [← given.1] at accepted
      simp only at accepted
      split at accepted <;> cases accepted
    simp only [gives_bind, gives_charge, gives_lift] at given
    obtain ⟨_, _, -, agree, _, -, given⟩ := given
    split at given
    · simp only [gives_pure] at given
      exact .inr (by rw [given.1])
    · simp only [gives_pure] at given
      rw [← given.1] at accepted
      cases accepted

variable {reference : Nat} {signer : Certificate}

theorem attemptPath_grows : GrowsTable c n (attemptPath c reference signer) := by
  refine .bind ?_ fun cached => ?_
  · refine .bind grows_data fun table => ?_
    split
    · exact .pure _
    split
    · exact .pure _
    · exact .bind grows_charge fun _ => .pure _
  split
  · exact .bind grows_call fun _ => .pure _
  · refine .bind (grows_scratch (fun _ => ⟨rfl, rfl, rfl, rfl⟩) fun _ => id) fun _ =>
      .bind grows_call fun _ => .bind grows_answer fun outcome => ?_
    refine .bind (grows_scratch (fun _ => ⟨rfl, rfl, rfl, rfl⟩) fun _ => id) fun _ => ?_
    split
    · exact .throw _
    split
    · exact .bind grows_call fun _ =>
        .bind (grows_scratch (fun _ => ⟨rfl, rfl, rfl, rfl⟩) fun _ => id) fun _ => .pure _
    · exact .pure _

theorem notePending_grows {pending : Proposal} (open_ : pending.result ≠ .ok) :
    GrowsTable c n (notePending c pending) := by
  intro s
  refine exec_bind_after (fun e s' failed => ?_) fun table s' given => ?_
  · cases failed
  obtain ⟨rfl, rfl⟩ := gives_data.mp given
  refine exec_bind_after (fun e s' failed => ?_) fun merged s' given => ?_
  · have moved := @proposalMerge_grows Q c n s.data.unresolved pending s
    rwa [failed] at moved
  have moved : Grows c n s s' := proposalMerge_grows.of_gives given
  have kept : UnresolvedOk s.data → merged.result ≠ .ok := by
    intro holds accepted
    rcases proposalMerge_gives given accepted with rfl | found
    · exact open_ accepted
    · exact holds merged found accepted
  refine ⟨moved.work, moved.nodes, moved.log, moved.coverage, moved.flag, ?_, ?_⟩
  · rintro holds p ⟨⟩
    exact kept holds
  · intro ok
    obtain ⟨room, unique, linked, recorded, logged, founded⟩ := moved.ok ok
    exact ⟨room, unique, linked, recorded, logged, founded⟩

theorem scopeAttempt_grows : GrowsTable c n (scopeAttempt c n reference query signer) := by
  refine .bind attemptPath_grows fun found => .bind grows_answer fun outcome => ?_
  obtain ⟨result, evidence, selected⟩ := outcome
  simp only
  split
  · exact .throw _
  refine .bind dependenciesCheck_grows fun status => ?_
  split
  · split
    · split
      · exact .pure _
      · exact .throw _
    · split
      · exact .pure _
      · exact .throw _
  · split
    · split
      · exact .throw _
      · exact notePending_grows (by simp)
    · exact .throw _
  · exact .throw _

theorem scopeAttempt_gives (given : Gives (scopeAttempt c n reference query signer) s (some p) s') :
    Vouched c s'.data ⟨p.selected, p.signer⟩ := by
  simp only [scopeAttempt, gives_bind] at given
  obtain ⟨found, _, -, ⟨result, evidence, selected⟩, _, -, given⟩ := given
  simp only at given
  split at given
  · simp at given
  simp only [gives_bind] at given
  obtain ⟨status, checked, hCheck, given⟩ := given
  split at given
  · cases selected with
    | some selected =>
      simp only at given
      split at given
      · simp only [gives_pure, Option.some.injEq] at given
        obtain ⟨rfl, rfl⟩ := given
        exact dependenciesCheck_gives hCheck
      · simp at given
    | none =>
      simp only at given
      split at given
      · simp at given
      · simp at given
  · cases selected with
    | some selected =>
      simp only at given
      split at given
      · simp at given
      · simp only [notePending, gives_bind, gives_throw, and_false, exists_false] at given
    | none => simp at given
  · simp at given

theorem searchAttempt_grows {candidate : Certificate} :
    GrowsTable c n (searchAttempt c n reference query candidate) := by
  refine .bind grows_call.trial fun matched => ?_
  split
  · exact .throw _
  · exact .throw _
  · exact .pure _
  · exact .bind scopeAttempt_grows fun _ => .pure _

theorem searchAttempt_gives {candidate : Certificate}
    (given : Gives (searchAttempt c n reference query candidate) s (some (some p)) s') :
    Vouched c s'.data ⟨p.selected, p.signer⟩ := by
  simp only [searchAttempt, gives_bind] at given
  obtain ⟨matched, _, -, given⟩ := given
  split at given
  · simp at given
  · simp at given
  · simp at given
  · simp only [gives_bind, gives_pure, Option.some.injEq] at given
    obtain ⟨_, _, given, rfl, rfl⟩ := given
    exact scopeAttempt_gives given

theorem signerSearch_grows {store : List (Priced (Except Result Certificate))} :
    GrowsTable c n (signerSearch c n reference query store failure) := by
  induction store generalizing failure with
  | nil => exact .throw _
  | cons next rest ih =>
    refine .bind grows_call.trial fun read => ?_
    split
    · exact .bind (grows_scratch (fun _ => ⟨rfl, rfl, rfl, rfl⟩) fun _ => id) fun _ => .throw _
    refine .bind grows_charge fun _ => .bind searchAttempt_grows.trial fun tried => ?_
    split
    · exact ih
    · refine .bind grows_data fun table => ?_
      split
      · exact .throw _
      · exact .pure _
    · refine .bind (.bind grows_data fun table => ?_) fun failure => ih
      split
      · exact .throw _
      split
      · exact .throw _
      · exact .pure _

theorem signerSearch_gives {store : List (Priced (Except Result Certificate))}
    (given : Gives (signerSearch c n reference query store failure) s (some p) s') :
    Vouched c s'.data ⟨p.selected, p.signer⟩ := by
  induction store generalizing failure s with
  | nil => simp [signerSearch] at given
  | cons next rest ih =>
    simp only [signerSearch, gives_bind] at given
    obtain ⟨read, _, -, given⟩ := given
    split at given
    · simp only [gives_bind, gives_throw, and_false, exists_false] at given
    simp only [gives_bind, gives_charge, gives_trial] at given
    obtain ⟨_, _, -, tried, middle, hTried, given⟩ := given
    split at given
    · exact ih given
    · rename_i proposal
      simp only [searchFound, gives_bind, gives_data] at given
      obtain ⟨_, _, ⟨rfl, rfl⟩, given⟩ := given
      split at given
      · simp at given
      · obtain ⟨rfl, rfl⟩ := gives_pure.mp given
        exact searchAttempt_gives hTried
    · simp only [gives_bind] at given
      obtain ⟨_, _, -, given⟩ := given
      exact ih given

def GroupOk (c : CrlPrimitives Q) (t : Table) (g : Group) : Prop :=
  ∀ p, g.chosen = some p → ProposalOk c t p

theorem proposalMerge_ok {candidate : Proposal}
    (given : Gives (proposalMerge c chosen candidate) s merged s')
    (left : ∀ p, chosen = some p → ProposalOk c s.data p) (right : ProposalOk c s.data candidate) :
    ProposalOk c s'.data merged := by
  intro accepted
  have grows : Grows c ⟨0, false, fun _ => 0, 0⟩ s s' := proposalMerge_grows.of_gives given
  rcases proposalMerge_gives given accepted with rfl | found
  · exact grows.vouched (right accepted)
  · exact grows.vouched (left merged found accepted)

theorem groupFailed_grows {g : Group} {e : Result} : GrowsTable c n (groupFailed c g e) := by
  refine .bind grows_data fun table => ?_
  split
  · exact .throw _
  simp only
  split
  · exact .bind proposalMerge_grows fun _ => .pure _
  · exact .pure _

variable {g g' : Group}

theorem groupFailed_gives {e : Result} (unresolved : UnresolvedOk s.data) (ok : GroupOk c s.data g)
    (given : Gives (groupFailed c g e) s g' s') : GroupOk c s'.data g' := by
  simp only [groupFailed, gives_bind, gives_data] at given
  obtain ⟨_, _, ⟨rfl, rfl⟩, given⟩ := given
  split at given
  · simp at given
  split at given
  · rename_i pending found
    simp only [gives_bind, gives_pure] at given
    obtain ⟨merged, _, hMerge, rfl, rfl⟩ := given
    rintro p ⟨⟩
    exact proposalMerge_ok hMerge ok fun accepted => absurd accepted (unresolved pending found)
  · obtain ⟨rfl, rfl⟩ := gives_pure.mp given
    exact ok

theorem groupFound_grows {g : Group} {proposal : Option Proposal} :
    GrowsTable c n (groupFound c g proposal) := by
  refine .bind grows_data fun table => ?_
  split
  · exact .bind proposalMerge_grows fun _ => .bind proposalMerge_grows fun _ =>
      .pure _
  split
  · exact .throw _
  · exact .bind proposalMerge_grows fun _ => .pure _

theorem groupFound_gives {proposal : Option Proposal} (unresolved : UnresolvedOk s.data)
    (ok : GroupOk c s.data g) (vouched : ∀ p, proposal = some p → ProposalOk c s.data p)
    (given : Gives (groupFound c g proposal) s g' s') : GroupOk c s'.data g' := by
  simp only [groupFound, gives_bind, gives_data] at given
  obtain ⟨_, _, ⟨rfl, rfl⟩, given⟩ := given
  split at given
  · rename_i pending found
    simp only [gives_bind, gives_pure] at given
    obtain ⟨candidate, middle, hFirst, merged, _, hSecond, rfl, rfl⟩ := given
    have grows : Grows c ⟨0, false, fun _ => 0, 0⟩ s middle := proposalMerge_grows.of_gives hFirst
    have first := proposalMerge_ok hFirst vouched fun accepted =>
      absurd accepted (unresolved pending found)
    rintro p ⟨⟩
    exact proposalMerge_ok hSecond (fun p found => grows.proposal (ok p found)) first
  · split at given
    · simp at given
    · rename_i candidate
      simp only [gives_bind, gives_pure] at given
      obtain ⟨merged, _, hMerge, rfl, rfl⟩ := given
      rintro p ⟨⟩
      exact proposalMerge_ok hMerge ok (vouched candidate rfl)

theorem groupRecord_grows {reference i : Nat} {g : Group} :
    GrowsTable c n (groupRecord c n reference query i g) := by
  refine .bind grows_charge fun _ => ?_
  split
  · exact .pure _
  refine .bind grows_call fun same => ?_
  split
  · refine .bind
      (grows_scratch (fun _ => ⟨rfl, rfl, rfl, rfl⟩) fun _ _ p found => by cases found)
      fun _ => .bind signerSearch_grows.trial fun searched => ?_
    split
    · exact .bind groupFailed_grows fun _ => .pure _
    · exact .bind groupFound_grows fun _ => .pure _
  · exact .pure _

theorem groupRecord_gives {reference i : Nat} (ok : GroupOk c s.data g)
    (given : Gives (groupRecord c n reference query i g) s (.next g') s') :
    GroupOk c s'.data g' := by
  simp only [groupRecord, gives_bind, gives_charge] at given
  obtain ⟨_, _, ⟨-, rfl⟩, given⟩ := given
  split at given
  · simp only [gives_pure, Turn.next.injEq] at given
    obtain ⟨rfl, rfl⟩ := given
    exact ok
  simp only [gives_bind, gives_call] at given
  obtain ⟨same, _, ⟨-, -, rfl⟩, given⟩ := given
  split at given
  · simp only [gives_bind, gives_update, gives_trial] at given
    obtain ⟨_, started, rfl, searched, middle, hSearch, given⟩ := given
    have grows : Grows c n _ middle := signerSearch_grows.trial.of_gives (gives_trial.mpr hSearch)
    have unresolved : UnresolvedOk middle.data := grows.unresolved fun p found => by cases found
    have kept : GroupOk c middle.data g := by
      intro p found accepted
      rcases ok p found accepted with anchored | trusted
      · exact .inl anchored
      · exact grows.vouched (.inr trusted)
    split at given
    · simp only [gives_bind, gives_pure, Turn.next.injEq] at given
      obtain ⟨_, _, given, rfl, rfl⟩ := given
      exact groupFailed_gives unresolved kept given
    · rename_i proposal
      simp only [gives_bind, gives_pure, Turn.next.injEq] at given
      obtain ⟨_, _, given, rfl, rfl⟩ := given
      refine groupFound_gives unresolved kept ?_ given
      rintro p rfl _
      exact signerSearch_gives hSearch
  · simp only [gives_pure, Turn.next.injEq] at given
    obtain ⟨rfl, rfl⟩ := given
    exact ok

theorem crlGroup_grows : GrowsTable c n (crlGroup c n reference query) := by
  refine .bind (Moves.forRange (fun _ _ => groupRecord_grows) _ _ _) fun turn => ?_
  split
  · exact .lift _
  · exact .throw _

theorem crlGroup_gives {chosen : Proposal}
    (given : Gives (crlGroup c n reference query) s chosen s') : ProposalOk c s'.data chosen := by
  simp only [crlGroup, gives_bind] at given
  obtain ⟨turn, middle, hLoop, given⟩ := given
  have ends := gives_forRange (fun _ g s => GroupOk c s.data g) (fun _ _ => True) hLoop rfl
    (fun p found => by cases found) (fun _ _ _ _ _ _ ok given => groupRecord_gives ok given)
    fun _ _ _ _ _ _ _ _ => trivial
  cases turn with
  | leave => simp at given
  | next g =>
    simp only [gives_lift, groupEnd] at given
    obtain ⟨given, rfl⟩ := given
    split at given
    · cases given
    split at given
    · cases given
    · rename_i found
      cases given
      exact ends _ found

structure EvidenceOk (c : CrlPrimitives Q) (t : Table) (evidence : Evidence) : Prop where
  vouched : ∀ use ∈ evidence.used, Vouched c t use
  sourced : evidence.coverage.reasons ≠ 0 → evidence.used ≠ []

theorem Grows.evidence (grows : Grows c n s s') {evidence : Evidence}
    (ok : EvidenceOk c s.data evidence) : EvidenceOk c s'.data evidence :=
  ⟨fun use member => grows.vouched (ok.vouched use member), ok.sourced⟩

theorem evidenceAdd_ok {t : Table} {evidence evidence' : Evidence} {chosen : Proposal}
    (ok : EvidenceOk c t evidence) (vouched : Vouched c t ⟨chosen.selected, chosen.signer⟩)
    (added : evidenceAdd evidence chosen = .ok evidence') : EvidenceOk c t evidence' := by
  have both : ∀ use ∈ ⟨chosen.selected, chosen.signer⟩ :: evidence.used, Vouched c t use := by
    intro use member
    rcases List.mem_cons.mp member with rfl | member
    · exact vouched
    · exact ok.vouched use member
  unfold evidenceAdd at added
  simp only at added
  split at added
  · cases added
  split at added
  · cases added
  split at added
  · cases added
  · split at added
    · cases added
      exact ⟨both, by simp⟩
    · cases added
      exact ⟨both, by simp⟩
  · cases added

variable {i : Nat}

theorem scopeRecord_grows {pending : Evidence} :
    GrowsTable c n (scopeRecord c n query i pending) := by
  unfold scopeRecord
  split
  · refine .bind grows_call fun reasons => ?_
    split
    · exact .throw _
    refine .bind grows_call fun first => ?_
    split
    · refine .bind crlGroup_grows fun chosen => ?_
      split
      · exact .lift _
      · exact .throw _
    · exact .throw _
  · exact .throw _
  · exact .throw _

theorem scopeRecord_gives {pending evidence : Evidence} (ok : EvidenceOk c s.data pending)
    (given : Gives (scopeRecord c n query i pending) s evidence s') :
    EvidenceOk c s'.data evidence := by
  have grows : Grows c n s s' := scopeRecord_grows.of_gives given
  unfold scopeRecord at given
  split at given
  · simp only [gives_bind, gives_call] at given
    obtain ⟨reasons, _, -, given⟩ := given
    split at given
    · simp at given
    simp only [gives_bind, gives_call] at given
    obtain ⟨first, _, -, given⟩ := given
    split at given
    · simp only [gives_bind] at given
      obtain ⟨chosen, _, hGroup, given⟩ := given
      split at given
      · rename_i accepted
        simp only [gives_lift] at given
        obtain ⟨added, rfl⟩ := given
        exact evidenceAdd_ok (grows.evidence ok) (crlGroup_gives hGroup accepted) added
      · simp at given
    · simp at given
  · simp at given
  · simp at given

variable {a : Scopes}

theorem scopesStep_grows : GrowsTable c n (scopesStep c n query i a) := by
  refine .bind grows_charge fun _ => .bind scopeRecord_grows.trial fun outcome => ?_
  split
  · split
    · exact .throw _
    · exact .pure _
    · exact .pure _
  · refine .bind grows_data fun table => ?_
    split
    · exact .throw _
    · exact .pure _

theorem scopesStep_gives {turn : Turn Scopes Evidence} (ok : EvidenceOk c s.data a.pending)
    (given : Gives (scopesStep c n query i a) s turn s') :
    turn.Ends (fun a => EvidenceOk c s'.data a.pending) (EvidenceOk c s'.data) := by
  have grows : Grows c n s s' := scopesStep_grows.of_gives given
  simp only [scopesStep, gives_bind, gives_charge, gives_trial] at given
  obtain ⟨_, _, ⟨-, rfl⟩, outcome, middle, hRecord, given⟩ := given
  split at given
  · rename_i evidence
    have here : EvidenceOk c middle.data evidence :=
      scopeRecord_gives (s := ⟨s.work - 1, s.data⟩) ok hRecord
    split at given
    · simp at given
    · obtain ⟨rfl, rfl⟩ := gives_pure.mp given
      exact here
    · obtain ⟨rfl, rfl⟩ := gives_pure.mp given
      exact here
  · simp only [gives_bind, gives_data] at given
    obtain ⟨_, _, ⟨rfl, rfl⟩, given⟩ := given
    split at given
    · simp at given
    · obtain ⟨rfl, rfl⟩ := gives_pure.mp given
      exact grows.evidence ok

theorem scopesLoop_grows {queries : List (Priced (Except Result Q))} :
    GrowsTable c n (scopesLoop c n queries a) := by
  induction queries generalizing a with
  | nil => exact .pure _
  | cons next rest ih =>
    refine .bind grows_call fun query =>
      .bind (Moves.forRange (fun _ _ => scopesStep_grows) _ _ _) fun turn => ?_
    split
    · exact ih
    · exact .pure _

theorem scopesLoop_gives {queries : List (Priced (Except Result Q))} {turn : Turn Scopes Evidence}
    (ok : EvidenceOk c s.data a.pending) (given : Gives (scopesLoop c n queries a) s turn s') :
    turn.Ends (fun a => EvidenceOk c s'.data a.pending) (EvidenceOk c s'.data) := by
  induction queries generalizing a s with
  | nil =>
    simp only [scopesLoop, gives_pure] at given
    obtain ⟨rfl, rfl⟩ := given
    exact ok
  | cons next rest ih =>
    simp only [scopesLoop, gives_bind, gives_call] at given
    obtain ⟨query, _, ⟨-, -, rfl⟩, inner, middle, hInner, given⟩ := given
    have ends : inner.Ends (fun a => EvidenceOk c middle.data a.pending)
        (EvidenceOk c middle.data) := by
      refine gives_forRange (fun _ a s => EvidenceOk c s.data a.pending)
        (fun evidence s => EvidenceOk c s.data evidence) hInner rfl ok ?_ ?_
      · intro _ _ _ _ _ _ ok given
        exact scopesStep_gives ok given
      · intro _ _ _ _ _ _ ok given
        exact scopesStep_gives ok given
    cases inner with
    | next a => exact ih ends given
    | leave evidence =>
      obtain ⟨rfl, rfl⟩ := gives_pure.mp given
      exact ends

theorem scopeRun_grows {certificate : Certificate} : GrowsTable c n (scopeRun c n certificate) := by
  refine .bind grows_call fun queries => .bind scopesLoop_grows fun turn => ?_
  split
  · exact .pure _
  split
  · exact .throw _
  split
  · exact .pure _
  · exact .throw _

theorem scopeRun_gives {certificate : Certificate} {evidence : Evidence}
    (given : Gives (scopeRun c n certificate) s evidence s') : EvidenceOk c s'.data evidence := by
  simp only [scopeRun, gives_bind, gives_call] at given
  obtain ⟨queries, _, ⟨-, -, rfl⟩, turn, middle, hLoop, given⟩ := given
  have ends := scopesLoop_gives ⟨by simp, by simp [Coverage.none]⟩ hLoop
  cases turn with
  | leave evidence =>
    obtain ⟨rfl, rfl⟩ := gives_pure.mp given
    exact ends
  | next a =>
    simp only at given
    split at given
    · simp at given
    split at given
    · obtain ⟨rfl, rfl⟩ := gives_pure.mp given
      exact ends
    · simp at given

theorem nodeEvaluate_grows : GrowsTable c n (nodeEvaluate c n index) := by
  refine .bind (Moves.trial ?_) fun read => ?_
  · refine .bind grows_data fun table => ?_
    split
    · exact .throw _
    · exact .bind grows_charge fun _ => .lift _
  split
  · exact .pure _
  · exact .bind scopeRun_grows.trial fun _ => .bind grows_data fun _ => .pure _

theorem nodeEvaluate_gives {evaluated : Evaluated} {evidence : Evidence}
    (given : Gives (nodeEvaluate c n index) s evaluated s')
    (outcome : evaluated.outcome = .ok evidence) : EvidenceOk c s'.data evidence := by
  simp only [nodeEvaluate, gives_bind, gives_trial] at given
  obtain ⟨read, _, -, given⟩ := given
  split at given
  · simp only [gives_pure] at given
    rw [← given.1] at outcome
    cases outcome
  · simp only [gives_bind, gives_trial, gives_data, gives_pure] at given
    obtain ⟨_, _, hRun, _, _, ⟨rfl, rfl⟩, rfl, rfl⟩ := given
    simp only at outcome
    rw [outcome] at hRun
    exact scopeRun_gives hRun

end

end TinyCrypto.X509
