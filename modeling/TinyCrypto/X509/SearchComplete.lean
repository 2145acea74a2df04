import TinyCrypto.Library.Steady
import TinyCrypto.X509.SearchSound

/-! # With enough work the search is complete

Over a source whose answers are fixed, every pass of the loop has one outcome for
every work budget that covers it, and lowers the number of passes that are left.
So some budget covers the whole search, and no answer is for want of work.
-/

namespace TinyCrypto.X509

open Library Library.Program Library.Metered

variable {V : Type}

/-- A callback that has one answer, at a price it never exceeds. -/
def Steadily (call : Nat → Result × Nat) (p : Priced Result) : Prop := ∀ work, p.cost ≤ work →
    (call work).1 = p.result ∧ (call work).2 ≤ work ∧ work ≤ (call work).2 + p.cost

structure FixedSource (source : StoreSource) (candidates anchors : Nat → Priced Result) : Prop where
  candidate : ∀ i, Steadily (source.candidateCall i) (candidates i)
  anchor : ∀ i, Steadily (source.anchorCall i) (anchors i)

example : FixedSource ⟨[], [], fun _ work => (.ok, work - 1), fun _ work => (.ok, work)⟩
    (fun _ => ⟨1, .ok⟩) fun _ => ⟨0, .ok⟩ :=
  ⟨fun _ work _ => ⟨rfl, Nat.sub_le _ _, by simp only; omega⟩, fun _ _ _ => ⟨rfl, le_rfl, le_rfl⟩⟩

section

variable (q : SearchPrimitives V) (input : SearchInput) (candidates anchors : Nat → Priced Result)

/-- A callback of the source ends with the undecided `status`. -/
def SourceSays (status : PathStatus) : Prop := Undecided status ∧
    ((∃ i < input.source.candidates.length, pathStatus (candidates i).result = status) ∨
      ∃ i < input.source.anchors.length, pathStatus (anchors i).result = status)

structure SearchComplete (answer : SearchAnswer V) : Prop where
  /-- An accepted path is found, unless a fault or the source ends the search. -/
  valid : ∀ path anchor validation, IsPath q input path → Anchored q input path anchor →
    (q.validate path anchor).result = .ok validation →
    answer.status = .valid ∨ answer.status = .error ∧ Faulty q input ∨
      SourceSays input candidates anchors answer.status
  /-- An undecided answer has a branch that is, and is not for want of work. -/
  undecided : Undecided answer.status →
    input.capacity = 0 ∨ SomeUndecided q input ∨ SourceSays input candidates anchors answer.status

/-- An error that ends a search that has enough work. -/
def Ends (status : PathStatus) : Prop :=
  status = .error ∧ Faulty q input ∨ SourceSays input candidates anchors status

end

variable {A : Type} {F : PathStatus → Prop} {G : A → Prop} {d : SearchState}

section

variable {q : SearchPrimitives V} {input : SearchInput} {candidates anchors : Nat → Priced Result}

theorem sourceCall_concludes {call : Nat → Result × Nat} {p : Priced Result}
    (steadily : Steadily call p) (given : Undecided (pathStatus p.result) → F (pathStatus p.result))
    (faults : ∀ work, (call work).1 ∉ [.ok, .limit, .unsupported] ∨ (call work).2 > work →
      F .error) {G : Unit → Prop} : Concludes F G (fun _ => sourceCall call) d := by
  have answered (s : Budgeted SearchState) (enough : p.cost ≤ s.work) :
      ∃ left, call s.work = (p.result, left) ∧ left ≤ s.work ∧ s.work ≤ left + p.cost := by
    obtain ⟨status, kept, spent⟩ := steadily s.work enough
    exact ⟨_, Prod.ext status rfl, kept, spent⟩
  by_cases ok : p.result = .ok
  · refine ⟨p.cost, .inl ⟨(), d, fun _ work enough => ?_⟩⟩
    obtain ⟨left, ended, kept, spent⟩ := answered ⟨work, d⟩ enough
    refine ⟨left, ?_, spent⟩
    simp only [sourceCall_exec, ended, ok, if_neg (Nat.not_lt.mpr kept)]
  · refine ⟨p.cost, .inr fun _ work enough => .inr ?_⟩
    obtain ⟨left, ended, kept, -⟩ := answered ⟨work, d⟩ enough
    have fault := faults work
    simp only at ended kept
    simp only [sourceCall_exec, ended, if_neg (Nat.not_lt.mpr kept)] at fault ⊢
    cases result : p.result <;> simp only [result] at ok given fault ⊢
    case ok => exact (ok trivial).elim
    case limit => exact ⟨_, _, rfl, given (.inl rfl)⟩
    case unsupported => exact ⟨_, _, rfl, given (.inr rfl)⟩
    all_goals exact ⟨_, _, rfl, fault (.inl (by decide))⟩

variable {issuer name encoded candidate : Bytes} {path : List Bytes} {a : A}

theorem concludes_remember {status : PathStatus} :
    Concludes F G (fun _ => do rememberFailure status; return a) d :=
  .step reaches_update (concludes_reached reaches_pure)

theorem nameMatches_concludes (faulty : Faulty q input → F .error) {G : Bool → Prop} :
    Concludes F G (fun _ => nameMatches q issuer name) d := by
  refine .step reaches_answer ?_
  split
  · exact concludes_reached reaches_pure
  · rename_i refused
    exact concludes_throw (faulty (.nameEqual issuer name refused))
  · exact concludes_remember

theorem candidateRead_concludes (faulty : Faulty q input → F .error)
    {G : Option Certificate → Prop} : Concludes F G (fun _ => candidateRead q encoded) d := by
  refine .step reaches_answer ?_
  split
  · exact concludes_reached reaches_pure
  · rename_i refused
    exact concludes_throw (faulty (.read encoded .argument refused rfl))
  · exact concludes_remember

theorem repeated_concludes {G : Bool → Prop} :
    Concludes F G (fun _ => repeated candidate path) d := by
  induction path with
  | nil => exact concludes_reached reaches_pure
  | cons entry rest ih =>
    refine .step reaches_charge ?_
    split
    · exact ih
    · refine .step reaches_charge ?_
      split
      · exact concludes_reached reaches_pure
      · exact ih

variable {frame : SearchFrame} {anchor : StoreAnchor}

theorem tryCandidate_concludes (faulty : Faulty q input → F .error) {G : Unit → Prop} :
    Concludes F G (fun _ => tryCandidate q input frame candidate) d := by
  unfold tryCandidate
  split
  · refine .bind (nameMatches_concludes faulty) fun equal _ => ?_
    split
    · refine .bind (candidateRead_concludes faulty) fun found _ => ?_
      split
      · exact concludes_reached reaches_update
      · exact concludes_reached reaches_pure
    · exact concludes_reached reaches_pure
  · refine .bind (candidateRead_concludes faulty) fun found _ => ?_
    split
    · refine .bind (nameMatches_concludes faulty) fun equal _ => ?_
      split
      · exact concludes_reached reaches_update
      · exact concludes_reached reaches_pure
    · exact concludes_reached reaches_pure

variable (fixed : FixedSource input.source candidates anchors)

theorem tryAnchor_concludes {index : Nat} (faulty : Faulty q input → F .error) :
    Concludes F (fun report : Option (SearchReport V) => report.isSome)
      (fun initialWork => tryAnchor q initialWork index anchor) d := by
  refine .step reaches_data (.step reaches_answer ?_)
  split
  · exact ⟨0, .inr fun _ work _ => .inl ⟨_, ⟨work, d⟩, rfl, rfl⟩⟩
  · rename_i refused
    exact concludes_throw (faulty (.validate d.path anchor refused))
  · exact concludes_remember

include fixed

theorem anchorStep_concludes (found : input.source.anchors[frame.anchor]? = some anchor) :
    Concludes (Ends q input candidates anchors)
      (fun report : Option (SearchReport V) => report.isSome)
      (fun initialWork => anchorStep q input initialWork frame anchor) d := by
  have listed := List.mem_of_getElem? found
  have faulty : Faulty q input → Ends q input candidates anchors .error := fun fault =>
    .inl ⟨rfl, fault⟩
  refine .step reaches_update (.bind (sourceCall_concludes (fixed.anchor frame.anchor) ?_ ?_)
    fun _ d' => ?_)
  · exact fun undecided => .inr ⟨undecided, .inr ⟨_, (List.getElem?_eq_some_iff.mp found).1, rfl⟩⟩
  · exact fun work fault => faulty (.anchorCall frame.anchor work fault)
  by_cases usable : anchor.x509Unusable = true
  · simp only [usable, if_true]
    exact concludes_remember
  by_cases unnamed : anchor.trust.name = []
  · simp only [usable, unnamed, if_true]
    exact concludes_throw (faulty (.emptyName anchor listed (by simpa using usable) unnamed))
  simp only [usable, unnamed, if_false]
  refine .bind (nameMatches_concludes faulty) fun equal d' => ?_
  cases equal with
  | true => exact tryAnchor_concludes faulty
  | false => exact concludes_reached reaches_pure

theorem candidateStep_concludes {G : Unit → Prop}
    (found : input.source.candidates[frame.candidate]? = some candidate) :
    Concludes (Ends q input candidates anchors) G
      (fun _ => candidateStep q input frame candidate) d := by
  have listed := List.mem_of_getElem? found
  have faulty : Faulty q input → Ends q input candidates anchors .error := fun fault =>
    .inl ⟨rfl, fault⟩
  refine .step reaches_update
    (.bind (sourceCall_concludes (fixed.candidate frame.candidate) ?_ ?_) fun _ d' => ?_)
  · exact fun undecided => .inr ⟨undecided, .inl ⟨_, (List.getElem?_eq_some_iff.mp found).1, rfl⟩⟩
  · exact fun work fault => faulty (.candidateCall frame.candidate work fault)
  split
  · rename_i empty
    exact concludes_throw (faulty (.emptyCandidate (empty ▸ listed)))
  · refine .step reaches_data (.bind repeated_concludes fun found d' => ?_)
    split
    · exact concludes_reached reaches_pure
    · exact tryCandidate_concludes faulty

theorem frameStep_concludes : Concludes (Ends q input candidates anchors)
      (fun report : Option (SearchReport V) => report.isSome)
      (fun initialWork => frameStep q input initialWork frame) d := by
  refine .step reaches_charge ?_
  cases anchorAt : input.source.anchors[frame.anchor]? with
  | some anchor => exact anchorStep_concludes fixed anchorAt
  | none =>
    cases candidateAt : input.source.candidates[frame.candidate]? with
    | some candidate =>
      exact .bind (candidateStep_concludes fixed candidateAt) fun _ _ =>
        concludes_reached reaches_pure
    | none => exact .step reaches_update (concludes_reached reaches_pure)

omit fixed

/-- The passes that a certificate and all above it take, `room` certificates being left. -/
def passes (input : SearchInput) : Nat → Nat
  | 0 => 1
  | room + 1 => input.source.anchors.length + input.source.candidates.length * passes input room + 2

/-- The passes left for the frames of the stack. -/
def passesLeft (input : SearchInput) : List SearchFrame → Nat
  | [] => 0
  | frame :: frames =>
    (input.source.anchors.length - frame.anchor) +
      (input.source.candidates.length - frame.candidate) *
        passes input (input.capacity - (frames.length + 1)) + 1 + passesLeft input frames

theorem passes_pos (room : Nat) : 0 < passes input room := by
  cases room <;> simp [passes]

theorem passesLeft_candidate {frames : List SearchFrame}
    (inside : frame.candidate < input.source.candidates.length) :
    passesLeft input ({ frame with candidate := frame.candidate + 1 } :: frames) +
        passes input (input.capacity - (frames.length + 1)) =
      passesLeft input (frame :: frames) := by
  obtain ⟨more, hMore⟩ := Nat.exists_eq_add_of_lt inside
  simp only [passesLeft, hMore, show frame.candidate + more + 1 - frame.candidate = more + 1 by omega,
    show frame.candidate + more + 1 - (frame.candidate + 1) = more by omega, Nat.succ_mul]
  omega

theorem Lower.length {exact known : Prop} {top : Bytes} {frames : List SearchFrame}
    (lower : Lower exact q input known top path frames) : path.length = frames.length := by
  induction lower with
  | bottom => rfl
  | frame below here taken found progress ih => simp [ih]

theorem frameStep_lowers {exact : Prop} {initialWork : Nat} {s s' : Budgeted SearchState}
    {frames : List SearchFrame} (inv : SearchInv exact q input s.data)
    (hFrames : s.data.frames = frame :: frames)
    (given : Gives (frameStep q input initialWork frame) s none s') :
    passesLeft input s'.data.frames < passesLeft input s.data.frames := by
  obtain ⟨_, _, _, hPath, here, lower, -⟩ := inv.front hFrames
  have passed : Stepped False q input frame s.data s'.data :=
    frameStep_gives (by rw [hPath, here.bytes]) given False.elim
  cases passed with
  | anchor found noted =>
    have inside := (List.getElem?_eq_some_iff.mp found).1
    rw [noted.frames, hFrames]
    simp only [SearchState.onTop, hFrames, List.modifyHead_cons, passesLeft]
    omega
  | candidate found tried =>
    have lowered := @passesLeft_candidate input frame frames (List.getElem?_eq_some_iff.mp found).1
    have := @passes_pos input (input.capacity - (frames.length + 1))
    simp only [SearchState.onTop, hFrames, List.modifyHead_cons] at tried ⊢
    cases tried with
    | ended noted =>
      simp only [noted.frames]
      omega
    | pushed issuer ext room bytes next =>
      have count := here.count
      have length := lower.length
      simp only [hPath, List.length_cons] at room count
      obtain ⟨below, hBelow⟩ := Nat.exists_eq_add_of_lt
        (show frames.length + 1 < input.capacity by omega)
      rw [next]
      rw [show input.capacity - (frames.length + 1) = below + 1 by omega, passes] at lowered
      rw [passesLeft, List.length_cons, show input.capacity - (frames.length + 1 + 1) = below by omega]
      simp only [Nat.sub_zero]
      omega
  | popped anchorsEnd candidatesEnd next =>
    simp only [next, hFrames, List.tail_cons, passesLeft]
    omega

theorem complete_of_ends {status : PathStatus} (ends : Ends q input candidates anchors status) :
    SearchComplete q input candidates anchors ⟨status, none⟩ := by
  rcases ends with ⟨rfl, fault⟩ | given
  · exact ⟨fun _ _ _ _ _ _ => .inr (.inl ⟨rfl, fault⟩), by simp [Undecided]⟩
  · exact ⟨fun _ _ _ _ _ _ => .inr (.inr given), fun _ => .inr (.inr given)⟩

theorem complete_of_valid {report : Option (SearchReport V)} :
    SearchComplete q input candidates anchors ⟨.valid, report⟩ :=
  ⟨fun _ _ _ _ _ _ => .inl rfl, by simp [Undecided]⟩

theorem complete_of_done {s : SearchState} (inv : SearchInv True q input s) (empty : s.frames = []) :
    SearchComplete q input candidates anchors ⟨s.failure, none⟩ := by
  cases inv with
  | running _ hFrames => simp [empty] at hFrames
  | done _ barren failing =>
    refine ⟨fun path anchor validation isPath anchored accepted => ?_,
      fun undecided => .inr (.inl (failing.blamed trivial undecided))⟩
    obtain ⟨top, first, head, read, named⟩ := anchored.named
    have reached := isPath.explored head read
    have settled := barren (.inl trivial) path first reached reached.target_read.2
    exact absurd accepted
      ((settled.1 anchor anchored.listed).2 validation anchored.usable named)

include fixed

theorem searchLoop_complete (inv : SearchInv True q input d) :
    ∃ enough, ∀ initialWork work, enough ≤ work → ∀ fuel answer,
      searchLoop q input initialWork fuel ⟨work, d⟩ = some answer →
        SearchComplete q input candidates anchors answer := by
  induction hLeft : passesLeft input d.frames using Nat.strong_induction_on generalizing d with
  | _ left ih =>
    subst hLeft
    cases hFrames : d.frames with
    | nil =>
      refine ⟨0, fun initialWork work _ fuel answer found => ?_⟩
      cases fuel with
      | zero => cases found
      | succ fuel =>
        simp only [searchLoop, hFrames, Option.some.injEq] at found
        exact found ▸ complete_of_done inv hFrames
    | cons frame frames =>
      have concluded := @frameStep_concludes V d q input candidates anchors frame fixed
      simp only [Concludes, Gives] at concluded
      obtain ⟨cost, ⟨_ | report, d', completes⟩ | stops⟩ := concluded
      · -- One unit beyond the price leaves work, so no call of the pass ran short.
        obtain ⟨left, ended, spent⟩ := completes 0 (cost + 1) (by omega)
        have lowers := frameStep_lowers inv hFrames ended
        have inv' := frameStep_inv inv hFrames ended fun _ => by dsimp only; omega
        obtain ⟨enough, rest⟩ := ih _ lowers inv' rfl
        refine ⟨cost + enough, fun initialWork work covers fuel answer found => ?_⟩
        obtain ⟨left, ended, spent⟩ := completes initialWork work (by omega)
        cases fuel with
        | zero => cases found
        | succ fuel =>
          simp only [searchLoop, hFrames, ended] at found
          exact rest initialWork left (by omega) fuel answer found
      · refine ⟨cost, fun initialWork work covers fuel answer found => ?_⟩
        obtain ⟨left, ended, -⟩ := completes initialWork work covers
        cases fuel with
        | zero => cases found
        | succ fuel =>
          simp only [searchLoop, hFrames, ended, Option.some.injEq] at found
          exact found ▸ complete_of_valid
      · refine ⟨cost, fun initialWork work covers fuel answer found => ?_⟩
        cases fuel with
        | zero => cases found
        | succ fuel =>
          rcases stops initialWork work covers with ⟨a, s', ended, reported⟩ | ⟨e, s', ended, ends⟩
          · obtain ⟨report, rfl⟩ := Option.isSome_iff_exists.mp reported
            simp only [searchLoop, hFrames, ended, Option.some.injEq] at found
            exact found ▸ complete_of_valid
          · simp only [searchLoop, hFrames, ended, Option.some.injEq] at found
            exact found ▸ complete_of_ends ends

theorem pathSearchSource_complete : ∃ enough, ∀ work, enough ≤ work → ∀ fuel answer,
      pathSearchSource q input fuel work = some answer →
        SearchComplete q input candidates anchors answer := by
  by_cases room : input.capacity = 0
  · refine ⟨0, fun work _ fuel answer found => ?_⟩
    simp only [pathSearchSource, room, if_true, Option.some.injEq] at found
    refine found ▸ ⟨fun path anchor _ isPath _ _ => ?_, fun _ => .inl room⟩
    obtain ⟨upper, rfl, -⟩ := isPath.candidates
    simpa [room] using isPath.count
  by_cases unanchored : input.source.anchors = []
  · refine ⟨0, fun work _ fuel answer found => ?_⟩
    simp only [pathSearchSource, room, unanchored, if_true, if_false, Option.some.injEq] at found
    refine found ▸ ⟨fun path anchor _ _ anchored _ => ?_, by simp [Undecided]⟩
    simpa [unanchored] using anchored.listed
  by_cases large : input.target.length > input.maxInput
  · refine ⟨0, fun work _ fuel answer found => ?_⟩
    simp only [pathSearchSource, room, unanchored, large, if_true, if_false,
      Option.some.injEq] at found
    refine found ▸ ⟨fun path anchor _ isPath _ _ => ?_, fun _ => .inr (.inl (.targetBytes large))⟩
    obtain ⟨upper, rfl, -⟩ := isPath.candidates
    have bytes := isPath.bytes
    simp only [pathBytes, List.map_append, List.sum_append, List.map_cons, List.map_nil,
      List.sum_cons, List.sum_nil] at bytes
    omega
  obtain ⟨cost, completes⟩ : Reaches (searchRead q input.target) ⟨[], [], .invalid⟩ _ _ :=
    reaches_answer
  cases read : q.read input.target with
  | error e =>
    simp only [read] at completes
    refine ⟨cost, fun work covers fuel answer found => ?_⟩
    obtain ⟨left, ended, -⟩ := completes work covers
    simp only [pathSearchSource, room, unanchored, large, if_false, ended,
      Option.some.injEq] at found
    refine found ▸ ⟨fun path anchor _ isPath anchored _ => ?_,
      fun undecided => .inr (.inl (.targetRead e read undecided))⟩
    obtain ⟨top, first, head, readable, -⟩ := anchored.named
    exact absurd (isPath.explored head readable) (unreached_of_unreadable read)
  | ok certificate =>
    simp only [read] at completes
    have target : Explored q input [input.target] certificate := .target read (by omega)
    obtain ⟨enough, rest⟩ := searchLoop_complete fixed (SearchInv.start target (by omega))
    refine ⟨cost + enough, fun work covers fuel answer found => ?_⟩
    obtain ⟨left, ended, spent⟩ := completes work (by omega)
    simp only [pathSearchSource, room, unanchored, large, if_false, ended] at found
    exact rest work left (by omega) fuel answer found

end

/-- Every search ends with a sound answer, however its work is bounded. Over a source with fixed
    answers it is complete as soon as there is enough work. -/
structure SearchCorrect (q : SearchPrimitives V) (input : SearchInput) : Prop where
  sound : ∀ work, ∃ answer,
    (∀ fuel, work < fuel → pathSearchSource q input fuel work = some answer) ∧
      SearchSound q input answer
  complete : ∀ candidates anchors, FixedSource input.source candidates anchors →
    ∃ enough, ∀ work, enough ≤ work → ∀ fuel answer,
      pathSearchSource q input fuel work = some answer →
        SearchComplete q input candidates anchors answer

/-- Path search is sound whatever its work, and decides every branch it can once the work
    covers the search tree. -/
theorem path_search_correct (q : SearchPrimitives V) (input : SearchInput) :
    SearchCorrect q input :=
  ⟨pathSearchSource_sound, fun _ _ fixed => pathSearchSource_complete fixed⟩

end TinyCrypto.X509
