import TinyCrypto.X509.PathNames
import TinyCrypto.X509.SearchSound

/-! # Path validation under the search

`tc_x509_path_validate_anchor` runs its phases in a fixed order over one cache of
summaries. The basic phase reads the chain from DER; the later ones see its views. The
anchor's extension lists, the policy pass and the usage pass are programs of their own.
-/

namespace TinyCrypto.X509

open Library Library.Program Library.Metered

/-- `TC_X509_path_options`. `optionBytes` is what `path_options_valid` counts, or none for
    options that it refuses. -/
structure PathOptions where
  parsing : Tlv.Limits
  at_ : Time
  clockSkewSeconds : Nat
  signatures : Option SignatureVerify
  initialPolicies : List Bytes
  anchorNames : NameConstraints
  flags : Nat
  maxCertificates : Nat
  maxInput : Nat
  optionBytes : Option Nat

/-- `TC_X509_path_report`. -/
structure PathReport where
  publicKey : PublicKey
  policies : List Bytes
  workUsed : Nat

structure PathValidator where
  fields : FieldReaders
  options : PathOptions
  callees : Callees
  certificateCapacity : Nat
  summaryCapacity : Nat
  /-- `path_anchor_check`. -/
  anchorCheck : StoreAnchor → Priced (Except PathStatus Unit)
  /-- `tc_x509_path_policies`: its verdict and the policies. -/
  policies : PathInput → StoreAnchor → PathProgram (Bool × List Bytes)
  /-- `tc_x509_path_extensions`. -/
  extensions : PathInput → PathProgram Bool

abbrev ValidationProgram := Metered PathStatus Summaries

/-- A pass under `path_pass_status`. -/
def passStatus {A : Type} (pass : PathProgram A) (accepted : A → Bool) : ValidationProgram A :=
  ExceptT.mk fun s =>
    match pass.exec s with
    | (.error e, s) => (.error (pathStatus e), s)
    | (.ok a, s) => (if accepted a then .ok a else .error .invalid, s)

/-- `path_chain_check`. -/
def pathChainCheck (maxInput optionBytes : Nat) : (total : Nat) → List Bytes → ValidationProgram Unit
  | _, [] => charge .limit optionBytes
  | total, entry :: rest => do
    charge .limit 1
    if entry.length = 0 then throw .invalid
    else if entry.length > maxInput - total then throw .limit
    else pathChainCheck maxInput optionBytes (total + entry.length) rest

/-- `path_initial_subtrees`. -/
def pathInitialSubtrees (p : Primitives) (input : PathInput) (constraints : NameConstraints) :
    PathProgram Bool := do
  if constraints.permitted = [] && constraints.excluded = [] then return true
  else
    constraintDistances p constraints
    match ← forRange (fun i _ => do
        if ← pathConstraintTarget p input i false constraints then return .next ()
        else return .leave false) 0 input.count () with
    | .next _ => return true
    | .leave accepted => return accepted

namespace PathValidator

variable (v : PathValidator)

def p : Primitives := { v.callees with read := certificateRead v.fields v.options.parsing }

/-- `path_arguments_check`: the option bytes it examined. -/
def pathArgumentsCheck (count : Nat) (anchor : StoreAnchor) : Except PathStatus Nat :=
  if v.options.flags > 127 then .error .error
  else if anchor.x509Unusable then .error .invalid
  else if anchor.policyFlags > 7 || anchor.replacedControls > 15 then .error .error
  else if count = 0 then .error .invalid
  else if count > v.options.maxCertificates ||
      v.options.initialPolicies.length > v.p.maxElements then .error .limit
  else if count > v.certificateCapacity || count > v.summaryCapacity then .error .limit
  else v.options.optionBytes.elim (.error .error) .ok

/-- The input of a pass, from the chain or from the views that the basic phase cached. -/
def input (source : PathSource) (anchor : StoreAnchor) : PathInput :=
  { source, maxCertificates := v.options.maxCertificates, maxInput := v.options.maxInput,
    anchor := anchor.trust, at_ := v.options.at_, signatures := v.options.signatures,
    anchorPathLen := anchor.pathLen, clockSkewSeconds := v.options.clockSkewSeconds }

/-- `tc_x509_path_validate_anchor`, for storage that is disjoint. -/
def pathValidateAnchor (chain : List Bytes) (anchor : StoreAnchor) :
    ValidationProgram PathReport := do
  let optionBytes ← lift (v.pathArgumentsCheck chain.length anchor)
  let entry ← state
  call .limit (v.anchorCheck anchor)
  pathChainCheck v.options.maxInput optionBytes 0 chain
  let _ ← passStatus (pathBasic v.p (v.input (.encoded chain) anchor)) id
  let views ← lift ((chain.mapM v.p.read).mapError pathStatus)
  let input := v.input (.certificates views) anchor
  let _ ← passStatus (pathNames v.p input) id
  let _ ← passStatus (pathInitialSubtrees v.p input v.options.anchorNames) id
  let _ ← passStatus (pathInitialSubtrees v.p input anchor.names) id
  let policies ← passStatus (v.policies input anchor) Prod.fst
  let _ ← passStatus (v.extensions input) id
  let target ← lift ((certificateAt v.p input (chain.length - 1)).mapError pathStatus)
  let left ← state
  return ⟨target.publicKey, policies.2, entry.work - left.work⟩

/-- The search over this validation: a path costs what its run under the search's work spends. -/
def search (work : Nat) : SearchPrimitives PathReport where
  fields := v.fields
  parsing := v.options.parsing
  nameEqual := v.p.nameEqual
  validate path anchor :=
    let run := (v.pathValidateAnchor path anchor).exec ⟨work, fun _ => none⟩
    ⟨work - run.2.work, run.1⟩

/-- What the phases make sure of, with the views they cache: the closed forms of the two
    passes, and the initial subtrees of the options and of the anchor. -/
structure PathHolds (chain : List Bytes) (anchor : StoreAnchor) (views : List Certificate) :
    Prop where
  read : chain.mapM v.p.read = .ok views
  basic : BasicHolds v.p (v.input (.encoded chain) anchor)
  names : NamesHold v.p (v.input (.certificates views) anchor)
  initial : ∀ constraints ∈ [v.options.anchorNames, anchor.names],
    constraints.permitted ≠ [] ∨ constraints.excluded ≠ [] → ∀ j < views.length,
      ¬ ExemptAt v.p (v.input (.certificates views) anchor) j →
        NamesSatisfy v.p (v.input (.certificates views) anchor) j constraints

/-- A reported path, under the anchor that was reported with it. -/
structure Trusted (work : Nat) (input : SearchInput) (report : SearchReport PathReport) : Prop where
  path : IsPath (v.search work) input report.path
  anchor : ∃ anchor views, input.source.anchors[report.anchorIndex]? = some anchor ∧
    Anchored (v.search work) input report.path anchor ∧ v.PathHolds report.path anchor views
  key : ∃ target, v.p.read input.target = .ok target ∧
    report.validation.publicKey = target.publicKey

end PathValidator

variable {p : Primitives} {s s' : Budgeted Summaries}

theorem gives_passStatus {A : Type} {pass : PathProgram A} {accepted : A → Bool} {a : A} :
    Gives (passStatus pass accepted) s a s' ↔ Gives pass s a s' ∧ accepted a = true := by
  unfold Gives
  change (match pass.exec s with
    | (.error e, s) => (.error (pathStatus e), s)
    | (.ok a, s) => (if accepted a then .ok a else .error .invalid, s)) = (Except.ok a, s') ↔ _
  rcases pass.exec s with ⟨e | b, middle⟩
  · simp
  · by_cases accepts : accepted b = true
    · simp only [accepts, if_true, Prod.mk.injEq, Except.ok.injEq]
      exact ⟨fun ⟨same, here⟩ => ⟨⟨same, here⟩, same ▸ accepts⟩, And.left⟩
    · simp only [accepts, Bool.false_eq_true, if_false, Prod.mk.injEq, reduceCtorEq, false_and,
        Except.ok.injEq, false_iff]
      exact fun ⟨⟨same, _⟩, here⟩ => accepts (same ▸ here)

theorem certificateRead_nil (fields : FieldReaders) (limits : Tlv.Limits) (c : Certificate) :
    certificateRead fields limits [] ≠ .ok c := by
  simp [certificateRead, readBounded, Tlv.read, Tlv.headerRead, Tlv.headerParse, bind, Except.bind,
    Except.map]

theorem mapM_read {chain : List Bytes} {views : List Certificate}
    (read : chain.mapM p.read = .ok views) : views.length = chain.length ∧ ∀ i < chain.length,
      p.read (chain.getD i []) = (views[i]?).elim (.error .argument) .ok := by
  induction chain generalizing views with
  | nil =>
    cases read
    simp
  | cons first rest ih =>
    simp only [List.mapM_cons, bind, Except.bind, pure, Except.pure] at read
    cases hFirst : p.read first with
    | error e => simp [hFirst] at read
    | ok view =>
      cases hRest : rest.mapM p.read with
      | error e => simp [hFirst, hRest] at read
      | ok others =>
        simp only [hFirst, hRest, Except.ok.injEq] at read
        subst read
        obtain ⟨length, each⟩ := ih hRest
        refine ⟨by simp [length], fun i inside => ?_⟩
        cases i with
        | zero => simpa using hFirst
        | succ i => simpa using each i (by simpa using inside)

theorem SummariesSound.views {a b : PathInput} {summaries : Summaries}
    (sound : SummariesSound p a summaries) (count : b.count = a.count)
    (same : ∀ i < a.count, certificateAt p b i = certificateAt p a i)
    (beyond : ∀ i, a.count ≤ i → ∀ view, certificateAt p a i ≠ .ok view) :
    SummariesSound p b summaries := by
  intro i summary cached
  have here := sound i summary cached
  by_cases inside : i < a.count
  · simpa only [summaryAt, summaryOf, same i inside, count] using here
  · cases hView : certificateAt p a i with
    | error e => simp [summaryAt, hView, bind, Except.bind] at here
    | ok view => exact absurd hView (beyond i (by omega) view)

theorem pathChainCheck_gives {maxInput optionBytes total : Nat} {chain : List Bytes} {u : Unit}
    (given : Gives (pathChainCheck maxInput optionBytes total chain) s u s') :
    s'.data = s.data := by
  induction chain generalizing s total with
  | nil =>
    simp only [pathChainCheck, gives_charge] at given
    rw [given.2]
  | cons entry rest ih =>
    simp only [pathChainCheck, gives_bind, gives_charge] at given
    obtain ⟨_, _, ⟨_, rfl⟩, given⟩ := given
    split at given
    · exact absurd given gives_throw
    split at given
    · exact absurd given gives_throw
    have kept := ih given
    exact kept

theorem pathInitialSubtrees_gives {input : PathInput} {constraints : NameConstraints}
    (sound : SummariesSound p input s.data)
    (given : Gives (pathInitialSubtrees p input constraints) s true s') :
    SummariesSound p input s'.data ∧
      (constraints.permitted ≠ [] ∨ constraints.excluded ≠ [] → ∀ j < input.count,
        ¬ ExemptAt p input j → NamesSatisfy p input j constraints) := by
  unfold pathInitialSubtrees at given
  split at given
  · rename_i empty
    simp only [Bool.and_eq_true, decide_eq_true_eq] at empty
    simp only [gives_pure] at given
    exact ⟨given.2 ▸ sound, fun some => by simp [empty] at some⟩
  · simp only [gives_bind] at given
    obtain ⟨_, checked, distances, turn, walked, walk, given⟩ := given
    have kept := constraintDistances_gives distances
    have looped : turn.Ends
        (fun _ => SummariesSound p input walked.data ∧ ∀ j < input.count,
          ¬ ExemptAt p input j → NamesSatisfy p input j constraints)
        (fun accepted => accepted = false) := by
      refine gives_forRange
        (fun i _ t => SummariesSound p input t.data ∧ ∀ j < i, ¬ ExemptAt p input j →
          NamesSatisfy p input j constraints)
        (fun accepted _ => accepted = false) walk (Nat.zero_add _)
        ⟨by rwa [kept], by omega⟩ ?_ ?_
      · intro i _ t _ t' _ before here
        simp only [gives_bind] at here
        obtain ⟨accepted, _, target, here⟩ := here
        obtain ⟨sound', accepts⟩ := pathConstraintTarget_gives before.1 target
        cases accepted with
        | false => simp at here
        | true =>
          simp only [if_true, gives_pure] at here
          refine ⟨here.2 ▸ sound', fun j below free => ?_⟩
          rcases Nat.lt_succ_iff_lt_or_eq.mp below with below | rfl
          · exact before.2 j below free
          · exact (accepts.mp rfl).resolve_left free
      · intro i _ t accepted t' _ before here
        simp only [gives_bind] at here
        obtain ⟨accepted, _, target, here⟩ := here
        cases accepted <;> simp_all
    cases turn with
    | leave accepted => simp_all [Turn.Ends]
    | next _ =>
      simp only [gives_pure] at given
      exact ⟨given.2 ▸ looped.1, fun _ => looped.2⟩

namespace PathValidator

variable {v : PathValidator} {chain : List Bytes} {anchor : StoreAnchor}

theorem unread {i : Nat} (outside : chain.length ≤ i) (view : Certificate) :
    certificateAt v.p (v.input (.encoded chain) anchor) i ≠ .ok view := by
  have empty : chain.getD i [] = [] := by simp [outside]
  simp only [certificateAt, input, pathEncoded, PathInput.encodings, empty, p]
  exact certificateRead_nil _ _ _

theorem pathValidateAnchor_gives {work : Nat} {report : PathReport} {s' : Budgeted Summaries}
    (given : Gives (v.pathValidateAnchor chain anchor) ⟨work, fun _ => none⟩ report s') :
    (∃ views, v.PathHolds chain anchor views) ∧
      ∃ target, v.p.read (chain.getD (chain.length - 1) []) = .ok target ∧
        report.publicKey = target.publicKey := by
  simp only [pathValidateAnchor, gives_bind, gives_lift, gives_state, gives_call,
    gives_passStatus] at given
  obtain ⟨_, _, ⟨_, rfl⟩, _, _, ⟨rfl, rfl⟩, _, _, ⟨_, _, rfl⟩, _, checked, chainCheck, given⟩ :=
    given
  have kept := pathChainCheck_gives chainCheck
  obtain ⟨_, _, ⟨basic, rfl⟩, views, _, ⟨mapped, rfl⟩, _, _, ⟨names, rfl⟩, given⟩ := given
  obtain ⟨_, _, ⟨options, rfl⟩, _, _, ⟨anchorNames, rfl⟩, given⟩ := given
  obtain ⟨_, _, -, _, _, -, target, _, ⟨last, -⟩, _, _, -, rfl, -⟩ := given
  have start : SummariesSound v.p (v.input (.encoded chain) anchor) checked.data := by
    rw [kept]
    rintro _ _ ⟨⟩
  have read : chain.mapM v.p.read = .ok views := by
    cases hRead : chain.mapM v.p.read with
    | error e => simp [hRead, Except.mapError] at mapped
    | ok found => simpa [hRead, Except.mapError] using mapped
  obtain ⟨length, each⟩ := mapM_read read
  obtain ⟨filled, accepted⟩ := pathBasic_gives start basic
  have count : (v.input (.certificates views) anchor).count = views.length := by
    simp [PathInput.count, PathInput.encodings, input]
  have cached := @SummariesSound.views v.p _ (v.input (.certificates views) anchor) _ filled
    (count.trans length) (fun i inside => (each i inside).symm) fun _ => unread
  obtain ⟨named, holds⟩ := pathNames_gives cached names
  obtain ⟨first, initial⟩ := pathInitialSubtrees_gives named options
  obtain ⟨_, initial'⟩ := pathInitialSubtrees_gives first anchorNames
  rw [count] at initial initial'
  refine ⟨⟨views, read, accepted.mp rfl, holds.mp rfl, by simpa using ⟨initial, initial'⟩⟩,
    target, ?_, rfl⟩
  cases hLast : views[chain.length - 1]? with
  | none => simp [certificateAt, input, hLast, Except.mapError] at last
  | some view =>
    have inside := (List.getElem?_eq_some_iff.mp hLast).1
    rw [each _ (length ▸ inside), hLast]
    simpa [certificateAt, input, hLast, Except.mapError] using last

theorem searchLoop_reports {q : SearchPrimitives PathReport} {i : SearchInput}
    {initialWork fuel : Nat} {s : Budgeted SearchState} {report : SearchReport PathReport}
    (inv : SearchInv False q i s.data)
    (found : searchLoop q i initialWork fuel s = some ⟨.valid, some report⟩) :
    SearchSound q i ⟨.valid, some report⟩ := by
  induction fuel generalizing s with
  | zero => cases found
  | succ fuel ih =>
    cases hFrames : s.data.frames with
    | nil => simp [searchLoop, hFrames] at found
    | cons frame frames =>
      rcases h : (frameStep q i initialWork frame).exec s with ⟨status | _ | result, s'⟩
      · simp [searchLoop, hFrames, h] at found
      · exact ih (frameStep_inv inv hFrames h False.elim) (by simpa [searchLoop, hFrames, h] using found)
      · simp only [searchLoop, hFrames, h, Option.some.injEq, SearchAnswer.mk.injEq,
          true_and] at found
        exact found ▸ sound_of_report inv hFrames h

theorem pathSearchSource_reports {q : SearchPrimitives PathReport} {i : SearchInput}
    {fuel work : Nat} {report : SearchReport PathReport}
    (found : pathSearchSource q i fuel work = some ⟨.valid, some report⟩) :
    SearchSound q i ⟨.valid, some report⟩ := by
  unfold pathSearchSource at found
  split at found
  · simp at found
  split at found
  · simp at found
  split at found
  · simp at found
  rename_i bounded
  rcases h : (searchRead q i.target).exec ⟨work, ⟨[], [], .invalid⟩⟩ with ⟨status | read, s⟩
  · simp [h] at found
  cases read with
  | error e => simp [h] at found
  | ok certificate =>
    have read : q.read i.target = .ok certificate := by
      simpa [eq_comm] using (gives_answer h).1
    have target : Explored q i [i.target] certificate := .target read (by omega)
    simp only [h] at found
    exact searchLoop_reports (.start target (by omega)) found

/-- Every path that a search over this validation reports, from any source. -/
def SearchTrusts (v : PathValidator) (i : SearchInput) : Prop :=
  ∀ fuel work report, pathSearchSource (v.search work) i fuel work = some ⟨.valid, some report⟩ →
    v.Trusted work i report

/-- A VALID report has a path, an anchor it ends at, and the key of the target. -/
theorem search_trusts (v : PathValidator) (i : SearchInput) : SearchTrusts v i := by
  intro fuel work report found
  obtain ⟨report', anchor, same, path, listed, anchored, validated⟩ :=
    (pathSearchSource_reports found).valid rfl
  cases same
  obtain ⟨⟨views, holds⟩, target, read, key⟩ := pathValidateAnchor_gives (Prod.ext validated rfl)
  obtain ⟨upper, whole, -⟩ := path.candidates
  exact ⟨path, ⟨anchor, views, listed, anchored, holds⟩, target, by simpa [whole] using read, key⟩

end PathValidator

end TinyCrypto.X509
