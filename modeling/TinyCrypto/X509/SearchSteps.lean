import TinyCrypto.X509.Search

/-! # Steps of the search

What one pass of the loop does: how it ends the search, that it spends work, and
what a pass that goes on has established about the branch it looked at.
-/

namespace TinyCrypto.X509

open Library Library.Program Library.Metered

variable {V : Type}

section

variable {q : SearchPrimitives V} {input : SearchInput}

def Stops (q : SearchPrimitives V) (input : SearchInput) (status : PathStatus) : Prop :=
  Undecided status ∨ status = .error ∧ Faulty q input

theorem stops_limit : Stops q input .limit := .inl (.inl rfl)

variable {call : Nat → Result × Nat}

theorem sourceCall_exec (s : Budgeted SearchState) : (sourceCall call).exec s =
    match call s.work with
    | (status, left) =>
      if left > s.work then (Except.error PathStatus.error, { s with work := 0 })
      else
        match status with
        | .ok => (.ok (), { s with work := left })
        | .limit => (.error .limit, { s with work := left })
        | .unsupported => (.error .unsupported, { s with work := left })
        | _ => (.error .error, { s with work := left }) := rfl

/-- What every program of a pass does: it spends work only, and fails with such a status. -/
abbrev Orderly (q : SearchPrimitives V) (input : SearchInput) {A : Type} (m : SearchProgram A) :
    Prop := Behaves Spends (Stops q input) m

theorem sourceCall_orderly
    (faults : ∀ work, (call work).1 ∉ [.ok, .limit, .unsupported] ∨ (call work).2 > work → Faulty q input) :
    Orderly q input (sourceCall call) := by
  constructor
  · intro s
    rw [sourceCall_exec]
    generalize call s.work = outcome
    obtain ⟨status, left⟩ := outcome
    simp only
    split
    · exact Nat.zero_le _
    · rename_i kept
      split <;> exact Nat.not_lt.mp kept
  intro s e s' failed
  rw [sourceCall_exec] at failed
  have fault := faults s.work
  generalize call s.work = outcome at failed fault
  obtain ⟨status, left⟩ := outcome
  simp only at failed fault
  split at failed
  · rename_i added
    cases failed
    exact .inr ⟨rfl, fault (.inr added)⟩
  · split at failed
    · cases failed
    · cases failed
      exact stops_limit
    · cases failed
      exact .inl (.inr rfl)
    · rename_i notOk notLimit notUnsupported
      cases failed
      refine .inr ⟨rfl, fault (.inl ?_)⟩
      simp only [List.mem_cons, List.not_mem_nil, or_false, not_or]
      exact ⟨notOk, notLimit, notUnsupported⟩

theorem orderly_charge {amount : Nat} :
    Orderly q input (charge .limit amount : SearchProgram Unit) :=
  ⟨spends_charge, throws_charge stops_limit⟩

theorem orderly_answer {A : Type} {limit : A} {p : Priced A} :
    Orderly q input (answer limit p : SearchProgram A) := ⟨spends_answer, throws_answer⟩

theorem orderly_data : Orderly q input data := ⟨spends_data, throws_data⟩

theorem orderly_update {f : SearchState → SearchState} : Orderly q input (update f) :=
  ⟨spends_update, throws_update⟩

variable {issuer name : Bytes}

theorem nameMatches_orderly : Orderly q input (nameMatches q issuer name) := by
  refine orderly_answer.bind fun s outcome s' given => ?_
  obtain ⟨answered, -⟩ := gives_answer given
  split
  · exact .pure _
  · refine .throw (.inr ⟨rfl, .nameEqual issuer name ?_⟩)
    simpa [eq_comm] using answered
  · exact orderly_update.bind fun _ _ _ _ => .pure _

variable {encoded : Bytes}

theorem candidateRead_orderly : Orderly q input (candidateRead q encoded) := by
  refine orderly_answer.bind fun s outcome s' given => ?_
  obtain ⟨answered, -⟩ := gives_answer given
  split
  · exact .pure _
  · refine .throw (.inr ⟨rfl, .read encoded .argument ?_ rfl⟩)
    simpa [eq_comm] using answered
  · exact orderly_update.bind fun _ _ _ _ => .pure _

variable {anchor : StoreAnchor}

theorem tryAnchor_orderly {initialWork index : Nat} :
    Orderly q input (tryAnchor q initialWork index anchor) := by
  refine orderly_data.bind fun _ s _ _ => orderly_answer.bind fun _ outcome _ given => ?_
  obtain ⟨answered, -⟩ := gives_answer given
  split
  · exact (Behaves.mk Moves.state throws_state).bind fun _ _ _ _ => .pure _
  · refine .throw (.inr ⟨rfl, .validate s.path anchor ?_⟩)
    simpa [eq_comm] using answered
  · exact orderly_update.bind fun _ _ _ _ => .pure _

variable {frame : SearchFrame} {initialWork : Nat}

theorem anchorStep_orderly (listed : anchor ∈ input.source.anchors) :
    Orderly q input (anchorStep q input initialWork frame anchor) := by
  refine orderly_update.bind fun _ _ _ _ => ?_
  refine (sourceCall_orderly fun work fault => .anchorCall frame.anchor work fault).bind
    fun _ _ _ _ => ?_
  split
  · exact orderly_update.bind fun _ _ _ _ => .pure _
  rename_i usable
  split
  · rename_i unnamed
    exact .throw (.inr ⟨rfl, .emptyName anchor listed (by simpa using usable) unnamed⟩)
  · refine nameMatches_orderly.bind fun _ equal _ _ => ?_
    split
    · exact tryAnchor_orderly
    · exact .pure _

variable {candidate : Bytes} {path : List Bytes}

theorem repeated_orderly : Orderly q input (repeated candidate path) := by
  induction path with
  | nil => exact .pure _
  | cons entry rest ih =>
    refine orderly_charge.bind fun _ _ _ _ => ?_
    split
    · exact ih
    · refine orderly_charge.bind fun _ _ _ _ => ?_
      split
      · exact .pure _
      · exact ih

theorem tryCandidate_orderly : Orderly q input (tryCandidate q input frame candidate) := by
  unfold tryCandidate
  split
  · refine nameMatches_orderly.bind fun _ equal _ _ => ?_
    split
    · refine candidateRead_orderly.bind fun _ found _ _ => ?_
      split
      · exact orderly_update
      · exact .pure _
    · exact .pure _
  · refine candidateRead_orderly.bind fun _ found _ _ => ?_
    split
    · refine nameMatches_orderly.bind fun _ equal _ _ => ?_
      split
      · exact orderly_update
      · exact .pure _
    · exact .pure _

theorem candidateStep_orderly (listed : candidate ∈ input.source.candidates) :
    Orderly q input (candidateStep q input frame candidate) := by
  refine orderly_update.bind fun _ _ _ _ => ?_
  refine (sourceCall_orderly fun work fault => .candidateCall frame.candidate work fault).bind
    fun _ _ _ _ => ?_
  split
  · rename_i empty
    exact .throw (.inr ⟨rfl, .emptyCandidate (empty ▸ listed)⟩)
  · refine orderly_data.bind fun _ s _ _ => repeated_orderly.bind fun _ found _ _ => ?_
    split
    · exact .pure _
    · exact tryCandidate_orderly

/-- A pass charges one unit of work, and what follows is orderly. -/
theorem frameStep_orderly : ∃ rest : Unit → SearchProgram (Option (SearchReport V)),
    frameStep q input initialWork frame = charge .limit 1 >>= rest ∧
      ∀ u, Orderly q input (rest u) := by
  refine ⟨_, rfl, fun _ => ?_⟩
  split
  · rename_i anchor found
    exact anchorStep_orderly (List.mem_of_getElem? found)
  · split
    · rename_i candidate found
      exact (candidateStep_orderly (List.mem_of_getElem? found)).bind fun _ _ _ _ => .pure _
    · exact orderly_update.bind fun _ _ _ _ => .pure _

theorem frameStep_throws : Throws (Stops q input) (frameStep q input initialWork frame) := by
  obtain ⟨rest, same, orderly⟩ := @frameStep_orderly V q input frame initialWork
  rw [same]
  exact (orderly_charge.bind fun _ _ _ _ => orderly _).throws

variable {s s' : Budgeted SearchState}

variable {report : Option (SearchReport V)}

theorem frameStep_spends
    (given : Gives (frameStep q input initialWork frame) s report s') : s'.work < s.work := by
  obtain ⟨rest, same, orderly⟩ := @frameStep_orderly V q input frame initialWork
  rw [same, gives_bind] at given
  obtain ⟨_, _, paid, given⟩ := given
  obtain ⟨enough, rfl⟩ := gives_charge.mp paid
  have spent : s'.work ≤ s.work - 1 := (orderly _).moves.of_gives given
  omega

variable {exact : Prop} {outcome : PathStatus}

/-- What is known of a state: everything that was looked at, when `exact` says that no call ran
    short of work, and else as long as the failure is INVALID. -/
def Known (exact : Prop) (s : SearchState) : Prop := exact ∨ s.failure = .invalid

/-- The stack stayed as it is while a branch ended with `outcome`. When the state is known, it was
    before, and `P` holds; unless `exact`, the outcome is then a decided one. -/
structure Noted (exact : Prop) (outcome : PathStatus) (s s' : SearchState) (P : Prop) : Prop where
  path : s'.path = s.path
  frames : s'.frames = s.frames
  failing : s.failure = .invalid ∨ Undecided s.failure →
    s'.failure = .invalid ∨ Undecided s'.failure
  known : Known exact s' → Known exact s ∧ (exact ∨ ¬ Undecided outcome) ∧ P
  blamed : exact → Undecided s'.failure → Undecided s.failure ∨ Undecided outcome

theorem Noted.same {s : SearchState} {P : Prop} (decided : ¬ Undecided outcome) (holds : P) :
    Noted exact outcome s s P :=
  ⟨rfl, rfl, id, fun known => ⟨known, .inr decided, holds⟩, fun _ => .inl⟩

theorem Noted.imp {outcome' : PathStatus} {s s' : SearchState} {P Q : Prop}
    (noted : Noted exact outcome s s' P) (same : P → outcome' = outcome) (imp : P → Q) :
    Noted exact outcome' s s' Q := by
  refine ⟨noted.path, noted.frames, noted.failing, fun known => ?_, fun holds => ?_⟩
  · obtain ⟨before, clear, holds⟩ := noted.known known
    exact ⟨before, same holds ▸ clear, imp holds⟩
  · rw [same (noted.known (.inl holds)).2.2]
    exact noted.blamed holds

theorem remember_noted {s : SearchState} {P : Prop} (holds : P) :
    Noted exact status s { s with failure := remember status s.failure } P := by
  refine ⟨rfl, rfl, ?_, ?_, fun _ => ?_⟩
  · simp only [remember]
    cases status <;> cases s.failure <;> simp [Undecided]
  · rintro (exact | invalid)
    · exact ⟨.inl exact, .inl exact, holds⟩
    · refine ⟨.inr ?_, .inr ?_, holds⟩
      all_goals
        revert invalid
        simp only [remember]
        cases status <;> cases s.failure <;> simp [Undecided]
  · simp only [remember]
    cases status <;> cases s.failure <;> simp [Undecided]

theorem short_noted {s : SearchState} {P : Prop} (short : ¬ exact) :
    Noted exact outcome s { s with failure := remember .limit s.failure } P := by
  have limit : remember .limit s.failure = .limit := rfl
  rw [limit]
  refine ⟨rfl, rfl, fun _ => .inr (.inl rfl), ?_, fun holds => absurd holds short⟩
  rintro (holds | invalid)
  · exact absurd holds short
  · cases invalid

variable {u : Unit}

theorem sourceCall_gives (given : Gives (sourceCall call) s u s') : s'.data = s.data := by
  rw [Gives, sourceCall_exec] at given
  generalize call s.work = outcome at given
  obtain ⟨status, left⟩ := outcome
  simp only at given
  split at given
  · cases given
  · split at given <;> cases given
    rfl

def failureOf {E A : Type} (status : E → PathStatus) : Except E A → PathStatus
  | .ok _ => .invalid
  | .error e => status e

/-- A call that failed: its error is remembered, unless the call ran short of work. -/
theorem failed_noted (exact : Prop) {A B E : Type} (status : E → PathStatus) {short e : E}
    {p : Priced (Except E A)} {b b' : B} (limit : status short = .limit)
    (answered : (Except.error e : Except E A) = .error short ∧ s.work = 0 ∨ .error e = p.result)
    (given : Gives (do rememberFailure (status e); return b) s b' s') : b' = b ∧ ((exact → 0 < s'.work) →
      Noted exact (failureOf status p.result) s.data s'.data (∃ e, p.result = .error e)) := by
  simp only [gives_bind, rememberFailure, gives_update, gives_pure] at given
  obtain ⟨_, _, rfl, rfl, rfl⟩ := given
  refine ⟨rfl, fun paid => ?_⟩
  rcases answered with ⟨exhausted, spent⟩ | result
  · cases exhausted
    rw [limit]
    exact short_noted fun holds => absurd (paid holds) (by simp [spent])
  · rw [← result]
    exact remember_noted ⟨e, rfl⟩

theorem nameMatches_gives (exact : Prop) {equal : Bool}
    (given : Gives (nameMatches q issuer name) s equal s') :
    if equal then (q.nameEqual issuer name).result = .ok true ∧ s'.data = s.data
    else (exact → 0 < s'.work) →
      Noted exact (failureOf pathStatus (q.nameEqual issuer name).result) s.data s'.data
        ((q.nameEqual issuer name).result ≠ .ok true) := by
  simp only [nameMatches, gives_bind] at given
  obtain ⟨outcome, middle, priced, given⟩ := given
  obtain ⟨answered, kept⟩ := paid_answer priced
  rw [← kept]
  split at given
  · obtain ⟨rfl, rfl⟩ := gives_pure.mp given
    rename_i value
    have result : (q.nameEqual issuer name).result = .ok value := by
      simpa [eq_comm] using answered
    clear priced answered
    cases value with
    | true => exact ⟨result, rfl⟩
    | false =>
      rw [if_neg (by simp), result]
      exact fun _ => .same (by simp [failureOf, Undecided]) (by simp)
  · simp at given
  · obtain ⟨rfl, noted⟩ := failed_noted exact pathStatus rfl answered given
    rw [if_neg (by simp)]
    refine fun paid => (noted paid).imp (fun _ => rfl) ?_
    rintro ⟨e, failed⟩
    simp [failed]

theorem candidateRead_gives (exact : Prop) {found : Option Certificate}
    (given : Gives (candidateRead q encoded) s found s') :
    (∀ certificate, found = some certificate →
      q.read encoded = .ok certificate ∧ s'.data = s.data) ∧ (found = none → (exact → 0 < s'.work) →
      Noted exact (failureOf pathStatus (q.read encoded)) s.data s'.data
        (∃ e, q.read encoded = .error e)) := by
  simp only [candidateRead, searchRead, gives_bind] at given
  obtain ⟨outcome, middle, priced, given⟩ := given
  obtain ⟨answered, kept⟩ := paid_answer priced
  rw [← kept]
  split at given
  · obtain ⟨rfl, rfl⟩ := gives_pure.mp given
    have result := answered
    simp only [reduceCtorEq, false_and, false_or] at result
    simp [result]
  · simp at given
  · obtain ⟨rfl, noted⟩ := failed_noted exact pathStatus rfl answered given
    exact ⟨by simp, fun _ => noted⟩

theorem tryAnchor_gives (exact : Prop) {initialWork index : Nat}
    (given : Gives (tryAnchor q initialWork index anchor) s report s') :
    (∀ found, report = some found → found.path = s.data.path ∧ found.anchorIndex = index ∧
      (q.validate s.data.path anchor).result = .ok found.validation) ∧
    (report = none → (exact → 0 < s'.work) →
      Noted exact (failureOf id (q.validate s.data.path anchor).result) s.data s'.data
        (∀ validation, (q.validate s.data.path anchor).result ≠ .ok validation)) := by
  simp only [tryAnchor, gives_bind, gives_data] at given
  obtain ⟨_, _, ⟨rfl, rfl⟩, outcome, middle, priced, given⟩ := given
  obtain ⟨answered, kept⟩ := paid_answer priced
  split at given
  · simp only [gives_bind, gives_state, gives_pure] at given
    obtain ⟨_, _, -, rfl, -⟩ := given
    have result := answered
    simp only [reduceCtorEq, false_and, false_or] at result
    simp [← result]
  · simp at given
  · obtain ⟨rfl, noted⟩ := failed_noted exact id rfl answered given
    rw [kept] at noted
    refine ⟨by simp, fun _ paid => (noted paid).imp (fun _ => rfl) ?_⟩
    rintro ⟨e, failed⟩
    simp [failed]

theorem repeated_gives {found : Bool} (given : Gives (repeated candidate path) s found s') :
    found = decide (candidate ∈ path) ∧ s'.data = s.data := by
  induction path generalizing s with
  | nil =>
    simp only [repeated, gives_pure] at given
    obtain ⟨rfl, rfl⟩ := given
    simp
  | cons entry rest ih =>
    simp only [repeated, gives_bind, gives_charge] at given
    obtain ⟨_, _, ⟨_, rfl⟩, given⟩ := given
    split at given
    · rename_i different
      have other : candidate ≠ entry := fun same => different (by rw [same])
      simpa [other] using ih given
    · simp only [gives_bind, gives_charge] at given
      obtain ⟨_, _, ⟨_, rfl⟩, given⟩ := given
      split at given
      · rename_i same
        obtain ⟨rfl, rfl⟩ := gives_pure.mp given
        simp [same]
      · rename_i other
        simpa [other] using ih given

/-- No path under the anchor is accepted, and unless `exact` its branch is a decided one. -/
def Rejects (exact : Prop) (q : SearchPrimitives V) (path : List Bytes) (issuer : Bytes)
    (anchor : StoreAnchor) : Prop :=
  (exact ∨ ¬ Undecided (anchorOutcome q path issuer anchor)) ∧
    ∀ validation, anchor.x509Unusable = false →
      (q.nameEqual issuer anchor.trust.name).result = .ok true →
      (q.validate path anchor).result ≠ .ok validation

theorem Noted.rejects {s s' : SearchState} {path : List Bytes} {issuer : Bytes}
    (noted : Noted exact (anchorOutcome q path issuer anchor) s s' (∀ validation,
      anchor.x509Unusable = false → (q.nameEqual issuer anchor.trust.name).result = .ok true →
        (q.validate path anchor).result ≠ .ok validation)) (known : Known exact s') :
    Known exact s ∧ Rejects exact q path issuer anchor :=
  ⟨(noted.known known).1, (noted.known known).2⟩

theorem anchorStep_gives (given : Gives (anchorStep q input initialWork frame anchor) s report s')
    (paid : exact → 0 < s'.work) : (∀ found, report = some found → found.path = s.data.path ∧
      found.anchorIndex = frame.anchor ∧ anchor.x509Unusable = false ∧
      (q.nameEqual frame.issuer anchor.trust.name).result = .ok true ∧
      (q.validate s.data.path anchor).result = .ok found.validation) ∧
    (report = none → Noted exact (anchorOutcome q s.data.path frame.issuer anchor)
      (s.data.onTop fun frame => { frame with anchor := frame.anchor + 1 }) s'.data
      (∀ validation, anchor.x509Unusable = false →
        (q.nameEqual frame.issuer anchor.trust.name).result = .ok true →
        (q.validate s.data.path anchor).result ≠ .ok validation)) := by
  simp only [anchorStep, gives_bind, gives_update] at given
  obtain ⟨_, _, rfl, _, called, hCall, given⟩ := given
  have kept := sourceCall_gives hCall
  simp only at kept
  rw [← kept]
  have path : called.data.path = s.data.path := by rw [kept]; rfl
  rw [← path]
  split at given
  · rename_i unusable
    simp only [gives_bind, rememberFailure, gives_update, gives_pure] at given
    obtain ⟨_, _, rfl, rfl, rfl⟩ := given
    refine ⟨by simp, fun _ => ?_⟩
    rw [anchorOutcome, if_pos unusable]
    exact remember_noted (by simp [unusable])
  rename_i usable
  split at given
  · simp at given
  simp only [gives_bind] at given
  obtain ⟨equal, compared, hName, given⟩ := given
  have named := nameMatches_gives exact hName
  cases equal with
  | false =>
    simp only [Bool.false_eq_true, if_false, gives_pure] at given named
    obtain ⟨rfl, rfl⟩ := given
    refine ⟨by simp, fun _ => (named paid).imp (fun differs => ?_)
      fun differs _ _ same => absurd same differs⟩
    rw [anchorOutcome, if_neg usable]
    cases found : (q.nameEqual frame.issuer anchor.trust.name).result with
    | error e => rfl
    | ok equal => cases equal <;> first | rfl | exact absurd found differs
  | true =>
    simp only [if_true] at given named
    obtain ⟨accepted, failed⟩ := tryAnchor_gives exact given
    rw [named.2] at accepted failed
    refine ⟨?_, ?_⟩
    · intro found reported
      obtain ⟨same, index, validated⟩ := accepted found reported
      exact ⟨same, index, by simpa using usable, named.1, validated⟩
    · refine fun none => (failed none paid).imp (fun refused => ?_) fun refused validation _ _ =>
        refused validation
      rw [anchorOutcome, if_neg usable, named.1]
      cases found : (q.validate called.data.path anchor).result with
      | error status => rfl
      | ok validation => exact absurd found (refused validation)

structure Extends (q : SearchPrimitives V) (path : List Bytes) (issuer candidate : Bytes)
    (certificate : Certificate) : Prop where
  fresh : candidate ∉ path
  read : q.read candidate = .ok certificate
  named : (q.nameEqual issuer certificate.subject).result = .ok true

theorem Extends.candidateNamed {issuer candidate : Bytes} {certificate : Certificate}
    (ext : Extends q path issuer candidate certificate) :
    candidateNamed q issuer candidate = .ok true := by
  unfold X509.candidateNamed
  cases found : q.subject candidate with
  | ok subject =>
    have same : subject = certificate.subject := searchSubject_agree ext.read found
    simp only [same, ext.named]
  | error e => simp only [ext.read, ext.named]

@[simp] theorem pathBytes_cons (entry : Bytes) (path : List Bytes) :
    pathBytes (entry :: path) = entry.length + pathBytes path := by
  simp [pathBytes]

/-- The candidate does not extend the path within the bounds. -/
def Passes (q : SearchPrimitives V) (input : SearchInput) (path : List Bytes)
    (issuer candidate : Bytes) : Prop :=
  ∀ certificate, Extends q path issuer candidate certificate →
    path.length = input.capacity ∨ pathBytes (candidate :: path) > input.maxInput

inductive Tried (exact : Prop) (q : SearchPrimitives V) (input : SearchInput)
    (frame : SearchFrame) (candidate : Bytes) (s s' : SearchState) : Prop
  /-- The branch ended. -/
  | ended (noted : Noted exact (candidateOutcome q input s.path frame.issuer candidate) s s'
      (Passes q input s.path frame.issuer candidate))
  /-- The search goes on above the candidate. -/
  | pushed (certificate : Certificate)
      (ext : Extends q s.path frame.issuer candidate certificate)
      (room : s.path.length ≠ input.capacity)
      (bytes : candidate.length ≤ input.maxInput - frame.bytes)
      (next : s' =
        { s with
          path := candidate :: s.path,
          frames := ⟨0, 0, frame.bytes + candidate.length, certificate.issuer⟩ :: s.frames })

theorem extend_gives {certificate : Certificate} (bytes : frame.bytes = pathBytes s.data.path)
    (ext : Extends q s.data.path frame.issuer candidate certificate)
    (given : Gives (extend input frame candidate certificate) s u s') :
    Tried exact q input frame candidate s.data s'.data := by
  simp only [extend, gives_update] at given
  subst given
  simp only
  split
  · rename_i cut
    rw [bytes] at cut
    simp only [Bool.or_eq_true, decide_eq_true_eq] at cut
    have large : s.data.path.length = input.capacity ∨
        pathBytes (candidate :: s.data.path) > input.maxInput := by
      rw [pathBytes_cons]
      omega
    have outcome : candidateOutcome q input s.data.path frame.issuer candidate = .limit := by
      rw [candidateOutcome, if_neg ext.fresh, ext.candidateNamed]
      simp only [ext.read]
      exact if_pos (by simpa using large)
    refine .ended ⟨rfl, rfl, fun _ => .inr (.inl rfl), ?_, fun _ _ => .inr ?_⟩
    · rintro (holds | invalid)
      · exact ⟨.inl holds, .inl holds, fun _ _ => large⟩
      · cases invalid
    · exact .inl outcome
  · rename_i fits
    simp only [Bool.or_eq_true, decide_eq_true_eq, not_or, Nat.not_lt] at fits
    exact .pushed certificate ext fits.1 fits.2 rfl

theorem candidateOutcome_differs {issuer : Bytes} (fresh : candidate ∉ path)
    (differs : candidateNamed q issuer candidate ≠ .ok true) :
    candidateOutcome q input path issuer candidate =
      failureOf pathStatus (candidateNamed q issuer candidate) := by
  rw [candidateOutcome, if_neg fresh]
  cases found : candidateNamed q issuer candidate with
  | error e => rfl
  | ok equal => cases equal <;> first | rfl | exact absurd found differs

theorem candidateOutcome_unread {issuer : Bytes} {e : Result} (fresh : candidate ∉ path)
    (named : candidateNamed q issuer candidate = .ok true) (unread : q.read candidate = .error e) :
    candidateOutcome q input path issuer candidate = pathStatus e := by
  rw [candidateOutcome, if_neg fresh, named]
  simp only [unread]

theorem passes_of_differs {issuer : Bytes} (differs : candidateNamed q issuer candidate ≠ .ok true) :
    Passes q input path issuer candidate :=
  fun _ ext => absurd ext.candidateNamed differs

theorem passes_of_unread {issuer : Bytes} {e : Result} (unread : q.read candidate = .error e) :
    Passes q input path issuer candidate := by
  intro certificate ext
  have read := ext.read
  rw [unread] at read
  cases read

theorem tryCandidate_gives (fresh : candidate ∉ s.data.path)
    (bytes : frame.bytes = pathBytes s.data.path)
    (given : Gives (tryCandidate q input frame candidate) s u s') (paid : exact → 0 < s'.work) :
    Tried exact q input frame candidate s.data s'.data := by
  unfold tryCandidate at given
  cases found : q.subject candidate with
  | ok subject =>
    have named : candidateNamed q frame.issuer candidate =
        (q.nameEqual frame.issuer subject).result := by
      simp only [candidateNamed, found]
    simp only [found, gives_bind] at given
    obtain ⟨equal, compared, hName, given⟩ := given
    have compare := nameMatches_gives exact hName
    cases equal with
    | false =>
      simp only [Bool.false_eq_true, if_false, gives_pure] at given compare
      obtain ⟨-, rfl⟩ := given
      rw [← named] at compare
      exact .ended ((compare paid).imp (candidateOutcome_differs fresh) passes_of_differs)
    | true =>
      simp only [if_true, gives_bind] at given compare
      obtain ⟨certificate, afterRead, hRead, given⟩ := given
      rw [← compare.2] at fresh bytes ⊢
      obtain ⟨readable, unreadable⟩ := candidateRead_gives exact hRead
      cases certificate with
      | none =>
        obtain ⟨-, rfl⟩ := gives_pure.mp given
        refine .ended ((unreadable rfl paid).imp ?_ ?_)
        · rintro ⟨e, unread⟩
          rw [candidateOutcome_unread fresh (named.trans compare.1) unread, unread]
          rfl
        · rintro ⟨e, unread⟩
          exact passes_of_unread unread
      | some certificate =>
        obtain ⟨hRead, kept⟩ := readable certificate rfl
        have same : subject = certificate.subject := searchSubject_agree hRead found
        rw [← kept] at fresh bytes ⊢
        exact extend_gives bytes ⟨fresh, hRead, same ▸ compare.1⟩ given
  | error e =>
    simp only [found, gives_bind] at given
    obtain ⟨certificate, afterRead, hRead, given⟩ := given
    obtain ⟨readable, unreadable⟩ := candidateRead_gives exact hRead
    cases certificate with
    | none =>
      obtain ⟨-, rfl⟩ := gives_pure.mp given
      refine .ended ((unreadable rfl paid).imp ?_ ?_)
      · rintro ⟨e, unread⟩
        have named : candidateNamed q frame.issuer candidate = .error e := by
          simp only [candidateNamed, found, unread]
        rw [candidateOutcome_differs fresh (by simp [named]), named, unread]
        rfl
      · rintro ⟨e, unread⟩
        exact passes_of_unread unread
    | some certificate =>
      obtain ⟨hRead, kept⟩ := readable certificate rfl
      have named : candidateNamed q frame.issuer candidate =
          (q.nameEqual frame.issuer certificate.subject).result := by
        simp only [candidateNamed, found, hRead]
      rw [← kept] at fresh bytes ⊢
      simp only [gives_bind] at given
      obtain ⟨equal, compared, hName, given⟩ := given
      have compare := nameMatches_gives exact hName
      cases equal with
      | false =>
        simp only [Bool.false_eq_true, if_false, gives_pure] at given compare
        obtain ⟨-, rfl⟩ := given
        rw [← named] at compare
        exact .ended ((compare paid).imp (candidateOutcome_differs fresh) passes_of_differs)
      | true =>
        simp only [if_true] at given compare
        rw [← compare.2] at fresh bytes ⊢
        exact extend_gives bytes ⟨fresh, hRead, compare.1⟩ given

theorem candidateStep_gives (bytes : frame.bytes = pathBytes s.data.path)
    (given : Gives (candidateStep q input frame candidate) s u s') (paid : exact → 0 < s'.work) :
    Tried exact q input frame candidate
      (s.data.onTop fun frame => { frame with candidate := frame.candidate + 1 }) s'.data := by
  simp only [candidateStep, gives_bind, gives_update] at given
  obtain ⟨_, _, rfl, _, called, hCall, given⟩ := given
  have kept := sourceCall_gives hCall
  simp only at kept
  rw [← kept]
  split at given
  · simp at given
  simp only [gives_bind, gives_data] at given
  obtain ⟨_, _, ⟨rfl, rfl⟩, found, compared, hFound, given⟩ := given
  obtain ⟨rfl, same⟩ := repeated_gives hFound
  rw [← same]
  have path : compared.data.path = s.data.path := by
    rw [same, kept]
    rfl
  split at given
  · rename_i repeated
    obtain ⟨-, rfl⟩ := gives_pure.mp given
    have listed : candidate ∈ compared.data.path := by
      rw [same]
      simpa using repeated
    exact .ended (.same (by simp [candidateOutcome, listed, Undecided])
      fun _ ext => absurd listed ext.fresh)
  · rename_i fresh
    refine tryCandidate_gives ?_ (by rw [path, bytes]) given paid
    rw [same]
    simpa using fresh

/-- What a pass that goes on did with the top frame. -/
inductive Stepped (exact : Prop) (q : SearchPrimitives V) (input : SearchInput)
    (frame : SearchFrame) (s s' : SearchState) : Prop
  | anchor {anchor : StoreAnchor} (found : input.source.anchors[frame.anchor]? = some anchor)
      (noted : Noted exact (anchorOutcome q s.path frame.issuer anchor)
        (s.onTop fun frame => { frame with anchor := frame.anchor + 1 }) s' (∀ validation,
          anchor.x509Unusable = false →
          (q.nameEqual frame.issuer anchor.trust.name).result = .ok true →
          (q.validate s.path anchor).result ≠ .ok validation))
  | candidate {candidate : Bytes}
      (found : input.source.candidates[frame.candidate]? = some candidate)
      (tried : Tried exact q input frame candidate
        (s.onTop fun frame => { frame with candidate := frame.candidate + 1 }) s')
  | popped (anchorsEnd : input.source.anchors[frame.anchor]? = none)
      (candidatesEnd : input.source.candidates[frame.candidate]? = none)
      (next : s' = { s with path := s.path.tail, frames := s.frames.tail })

theorem frameStep_gives (bytes : frame.bytes = pathBytes s.data.path)
    (given : Gives (frameStep q input initialWork frame) s none s') (paid : exact → 0 < s'.work) :
    Stepped exact q input frame s.data s'.data := by
  simp only [frameStep, gives_bind, gives_charge] at given
  obtain ⟨_, _, ⟨enough, rfl⟩, given⟩ := given
  split at given
  · rename_i anchor found
    exact .anchor found ((anchorStep_gives given paid).2 rfl)
  · rename_i anchorsEnd
    split at given
    · rename_i candidate found
      simp only [gives_bind, gives_pure] at given
      obtain ⟨_, _, given, -, rfl⟩ := given
      have tried := candidateStep_gives (by exact bytes) given paid
      exact .candidate found tried
    · rename_i candidatesEnd
      simp only [gives_bind, gives_update, gives_pure] at given
      obtain ⟨_, _, rfl, -, rfl⟩ := given
      exact .popped anchorsEnd candidatesEnd rfl

end

end TinyCrypto.X509
