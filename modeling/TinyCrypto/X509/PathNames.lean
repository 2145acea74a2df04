import TinyCrypto.X509.PathBasic

/-! # The name constraints pass

`tc_x509_path_names` applies the constraints of each issuer to all entries
below it. A self-issued intermediate is exempt from its issuers' constraints.
-/

namespace TinyCrypto.X509

open Library Library.Program Library.Metered

section

variable (p : Primitives) (input : PathInput)

/-- One subtree list of `tc_x509_path_constraint_distances`. Distances other
    than the default are unsupported. -/
def checkDistances (reading : SubtreeReading) : List Subtree → PathProgram Unit
  | [] => if reading.ended = .end then return () else throw reading.ended
  | subtree :: rest => do
    charge .limit 1
    if subtree.minimum ≠ 0 || subtree.maximum.isSome then throw .unsupported
    else checkDistances reading rest

def constraintList (maxElements : Nat) (list : Bytes) : PathProgram Nat := do
  charge .limit list.length
  let reading := p.generalSubtrees maxElements list
  if reading.opened ≠ .ok then throw reading.opened
  else
    checkDistances reading reading.subtrees
    return reading.elements

/-- `tc_x509_path_constraint_distances`. Both lists share one element limit. -/
def constraintDistances (constraints : NameConstraints) : PathProgram Unit := do
  let used ← constraintList p p.maxElements constraints.permitted
  let _ ← constraintList p (p.maxElements - used) constraints.excluded

/-- The subjectAltName value of a summary, NULL when it has none. -/
def subjectAltName (extensions : Summary) : Bytes :=
  if extensions.present .subjectAltName then extensions.values .subjectAltName else []

/-- `path_constraint_target`. -/
def pathConstraintTarget (index : Nat) (chargeStep : Bool) (constraints : NameConstraints) :
    PathProgram Bool := do
  charge .limit (if chargeStep then 1 else 0)
  let certificate ← pathCertificate p input index
  let extensions ← pathSummary p input index
  if index + 1 < input.count && extensions.selfIssued then return true
  else call .limit (p.namesCheck certificate (subjectAltName extensions) constraints)

/-- The inner loop of `tc_x509_path_names` at entry `j`. -/
def constrainEntry (constraints : NameConstraints) (j : Nat) : PathProgram (Turn Unit Bool) := do
  if ← pathConstraintTarget p input j true constraints then return .next ()
  else return .leave false

/-- The outer loop of `tc_x509_path_names` at issuer `i`. -/
def namesEntry (i : Nat) : PathProgram (Turn Unit Bool) := do
  let extensions ← pathSummary p input i
  if !extensions.present .nameConstraints then return .next ()
  else
    let constraints ← lift (p.nameConstraintsRead (extensions.values .nameConstraints))
    constraintDistances p constraints
    forRange (fun j _ => constrainEntry p input constraints j) (i + 1) (input.count - (i + 1)) ()

/-- `tc_x509_path_names`. -/
def pathNames : PathProgram Bool := do
  if input.count = 0 then throw .argument
  else if input.count > input.maxCertificates then throw .limit
  else
    match ← forRange (fun i _ => namesEntry p input i) 0 (input.count - 1) () with
    | .next _ => return true
    | .leave accepted => return accepted

/-- Entry `index` carries name constraints, and they are `constraints`. -/
def HasConstraints (index : Nat) (constraints : NameConstraints) : Prop :=
  ∃ extensions, summaryAt p input index = .ok extensions ∧
    extensions.present .nameConstraints = true ∧
    p.nameConstraintsRead (extensions.values .nameConstraints) = .ok constraints

/-- The names of entry `index` satisfy `constraints`. -/
def NamesSatisfy (index : Nat) (constraints : NameConstraints) : Prop :=
  ∃ certificate extensions, certificateAt p input index = .ok certificate ∧
    summaryAt p input index = .ok extensions ∧
    (p.namesCheck certificate (subjectAltName extensions) constraints).result = .ok true

/-- A self-issued intermediate, which may carry old names through key rollover. -/
def ExemptAt (index : Nat) : Prop := index + 1 < input.count ∧ selfIssued p input index = true

def NamesHold : Prop := ∀ i j, i < j → j < input.count → ¬ ExemptAt p input j →
    ∀ constraints, HasConstraints p input i constraints → NamesSatisfy p input j constraints

end

variable {p : Primitives} {input : PathInput}
variable {s s' : Budgeted Summaries}

theorem checkDistances_gives {reading : SubtreeReading} {subtrees : List Subtree} {u : Unit}
    (given : Gives (checkDistances reading subtrees) s u s') : s'.data = s.data := by
  induction subtrees generalizing s with
  | nil =>
    unfold checkDistances at given
    split at given
    · simp only [gives_pure] at given
      rw [given.2]
    · exact absurd given gives_throw
  | cons subtree rest ih =>
    simp only [checkDistances, gives_bind, gives_charge] at given
    obtain ⟨_, _, ⟨_, rfl⟩, given⟩ := given
    split at given
    · exact absurd given gives_throw
    · have kept := ih given
      exact kept

theorem constraintList_gives {maxElements used : Nat} {list : Bytes}
    (given : Gives (constraintList p maxElements list) s used s') : s'.data = s.data := by
  simp only [constraintList, gives_bind, gives_charge] at given
  obtain ⟨_, _, ⟨_, rfl⟩, given⟩ := given
  split at given
  · exact absurd given gives_throw
  · simp only [gives_bind, gives_pure] at given
    obtain ⟨_, _, checked, _, rfl⟩ := given
    have kept := checkDistances_gives checked
    exact kept

variable {constraints : NameConstraints}

theorem constraintDistances_gives {u : Unit}
    (given : Gives (constraintDistances p constraints) s u s') : s'.data = s.data := by
  simp only [constraintDistances, gives_bind, gives_pure] at given
  obtain ⟨_, middle, permitted, _, _, excluded, _, rfl⟩ := given
  exact (constraintList_gives excluded).trans (constraintList_gives permitted)

theorem pathConstraintTarget_gives {index : Nat} {chargeStep accepted : Bool}
    (sound : SummariesSound p input s.data)
    (given : Gives (pathConstraintTarget p input index chargeStep constraints) s accepted s') :
    SummariesSound p input s'.data ∧
      (accepted = true ↔ ExemptAt p input index ∨ NamesSatisfy p input index constraints) := by
  simp only [pathConstraintTarget, gives_bind, gives_charge] at given
  obtain ⟨_, _, ⟨_, rfl⟩, certificate, read, viewed, extensions, filled, summary, given⟩ := given
  obtain ⟨view, kept⟩ := pathCertificate_gives viewed
  obtain ⟨summarized, sound'⟩ := pathSummary_gives (by rwa [kept]) summary
  unfold ExemptAt NamesSatisfy
  split at given
  · rename_i exempt
    simp only [Bool.and_eq_true, decide_eq_true_eq] at exempt
    obtain ⟨rfl, rfl⟩ := gives_pure.mp given
    rw [summaryAt_selfIssued exempt.1 summarized] at exempt
    exact ⟨sound', by simp [exempt]⟩
  · rename_i targeted
    simp only [gives_call] at given
    obtain ⟨_, checked, rfl⟩ := given
    refine ⟨sound', ?_⟩
    have bound : ¬ (index + 1 < input.count ∧ selfIssued p input index = true) := by
      rintro ⟨inside, exempt⟩
      rw [← summaryAt_selfIssued inside summarized] at exempt
      exact targeted (by simp [inside, exempt])
    simp [bound, view, summarized, checked]

theorem constrainEntry_gives {j : Nat} {turn : Turn Unit Bool}
    (sound : SummariesSound p input s.data)
    (given : Gives (constrainEntry p input constraints j) s turn s') :
    SummariesSound p input s'.data ∧
      turn.Ends (fun _ => ¬ ExemptAt p input j → NamesSatisfy p input j constraints)
        (fun accepted => accepted = false ∧ ¬ ExemptAt p input j ∧
          ¬ NamesSatisfy p input j constraints) := by
  simp only [constrainEntry, gives_bind] at given
  obtain ⟨valid, _, target, given⟩ := given
  obtain ⟨sound', accepts⟩ := pathConstraintTarget_gives sound target
  cases valid with
  | true =>
    simp only [if_true, gives_pure] at given
    obtain ⟨rfl, rfl⟩ := given
    exact ⟨sound', (accepts.mp rfl).resolve_left⟩
  | false =>
    simp only [Bool.false_eq_true, if_false, gives_pure] at given
    obtain ⟨rfl, rfl⟩ := given
    refine ⟨sound', rfl, ?_⟩
    simpa [not_or] using accepts

/-- All targets after issuer `i` respect its constraints. -/
def ConstrainedBy (p : Primitives) (input : PathInput) (i : Nat) : Prop :=
  ∀ j, i < j → j < input.count → ¬ ExemptAt p input j →
    ∀ constraints, HasConstraints p input i constraints → NamesSatisfy p input j constraints

theorem namesEntry_gives {i : Nat} {turn : Turn Unit Bool} (inside : i < input.count)
    (sound : SummariesSound p input s.data) (given : Gives (namesEntry p input i) s turn s') :
    SummariesSound p input s'.data ∧ turn.Ends (fun _ => ConstrainedBy p input i)
        (fun accepted => accepted = false ∧ ¬ NamesHold p input) := by
  simp only [namesEntry, gives_bind] at given
  obtain ⟨extensions, filled, summary, given⟩ := given
  obtain ⟨summarized, sound'⟩ := pathSummary_gives sound summary
  split at given
  · rename_i absent
    obtain ⟨rfl, rfl⟩ := gives_pure.mp given
    refine ⟨sound', ?_⟩
    rintro j _ _ _ constraints ⟨other, found, present, _⟩
    rw [summarized] at found
    cases found
    simp [present] at absent
  · rename_i present
    simp only [gives_bind, gives_lift] at given
    obtain ⟨constraints, _, ⟨decoded, rfl⟩, _, measured, distances, given⟩ := given
    have own : HasConstraints p input i constraints :=
      ⟨extensions, summarized, by simpa using present, decoded⟩
    have looped : turn.Ends
        (fun _ => i < input.count ∧ SummariesSound p input s'.data ∧
          ∀ k, i < k → k < input.count → ¬ ExemptAt p input k → NamesSatisfy p input k constraints)
        (fun accepted => SummariesSound p input s'.data ∧ accepted = false ∧
          ¬ NamesHold p input) := by
      refine gives_forRange
        (fun j _ t => i < j ∧ SummariesSound p input t.data ∧
          ∀ k, i < k → k < j → ¬ ExemptAt p input k → NamesSatisfy p input k constraints)
        (fun accepted t => SummariesSound p input t.data ∧ accepted = false ∧ ¬ NamesHold p input)
        given (show i + 1 + (input.count - (i + 1)) = input.count by omega)
        ⟨Nat.lt_succ_self i, by rwa [constraintDistances_gives distances],
          by intro k above under; omega⟩ ?_ ?_
      · intro j _ t _ t' _ kept here
        obtain ⟨sound'', satisfied⟩ := constrainEntry_gives kept.2.1 here
        refine ⟨by omega, sound'', ?_⟩
        intro k above under bound
        rcases Nat.lt_succ_iff_lt_or_eq.mp under with under | rfl
        · exact kept.2.2 k above under bound
        · exact satisfied bound
      · intro j _ t accepted t' under kept here
        obtain ⟨sound'', rejected, bound, broken⟩ := constrainEntry_gives kept.2.1 here
        refine ⟨sound'', rejected, ?_⟩
        intro holds
        exact broken (holds i j kept.1 under bound constraints own)
    cases turn with
    | leave accepted => exact looped
    | next _ =>
      refine ⟨looped.2.1, ?_⟩
      rintro j above under bound other ⟨extensions', found, _, decoded'⟩
      rw [summarized] at found
      cases found
      rw [decoded] at decoded'
      cases decoded'
      exact looped.2.2 j above under bound

/-- A completed name constraints pass accepts exactly the paths of the closed
    form, and leaves the summaries sound for the next pass. -/
theorem pathNames_gives {accepted : Bool} (sound : SummariesSound p input s.data)
    (given : Gives (pathNames p input) s accepted s') :
    SummariesSound p input s'.data ∧ (accepted = true ↔ NamesHold p input) := by
  unfold pathNames at given
  split at given
  · exact absurd given gives_throw
  split at given
  · exact absurd given gives_throw
  simp only [gives_bind] at given
  obtain ⟨turn, walked, walk, given⟩ := given
  have looped : turn.Ends
      (fun _ => SummariesSound p input walked.data ∧ ∀ i < input.count - 1, ConstrainedBy p input i)
      (fun accepted => SummariesSound p input walked.data ∧ accepted = false ∧
        ¬ NamesHold p input) := by
    refine gives_forRange
      (fun i _ t => SummariesSound p input t.data ∧ ∀ k < i, ConstrainedBy p input k)
      (fun accepted t => SummariesSound p input t.data ∧ accepted = false ∧ ¬ NamesHold p input)
      walk (Nat.zero_add _) ⟨sound, by intro k below; omega⟩ ?_ ?_
    · intro i _ t _ t' inside kept here
      obtain ⟨sound', constrained⟩ := namesEntry_gives (by omega) kept.1 here
      refine ⟨sound', ?_⟩
      intro k below
      rcases Nat.lt_succ_iff_lt_or_eq.mp below with below | rfl
      · exact kept.2 k below
      · exact constrained
    · intro i _ t accepted t' inside kept here
      exact namesEntry_gives (by omega) kept.1 here
  cases turn with
  | leave rejected =>
    obtain ⟨rfl, rfl⟩ := gives_pure.mp given
    obtain ⟨sound', rejected, broken⟩ := looped
    simp [sound', rejected, broken]
  | next _ =>
    obtain ⟨rfl, rfl⟩ := gives_pure.mp given
    refine ⟨looped.1, ?_⟩
    simp only [true_iff]
    intro i j above under
    exact looped.2 i (by omega) j above under

/-- `AcceptsIff program holds`: from sound summaries, a completed run accepts
    exactly when `holds`, and keeps the summaries sound. -/
def AcceptsIff (p : Primitives) (input : PathInput) (program : PathProgram Bool)
    (holds : Prop) : Prop :=
  ∀ s accepted s', SummariesSound p input s.data → Gives program s accepted s' →
    SummariesSound p input s'.data ∧ (accepted = true ↔ holds)

/-- Path validation in closed form: whenever the basic pass completes it accepts
    exactly the paths of `BasicHolds`, and whenever the name constraints pass
    completes it accepts exactly the paths of `NamesHold`. -/
theorem path_passes_closed_form (p : Primitives) (input : PathInput) :
    AcceptsIff p input (pathBasic p input) (BasicHolds p input) ∧
      AcceptsIff p input (pathNames p input) (NamesHold p input) := by
  constructor
  · intro s accepted s' sound given
    exact pathBasic_gives sound given
  · intro s accepted s' sound given
    exact pathNames_gives sound given

end TinyCrypto.X509
