import TinyCrypto.Unicode.Finishing
import TinyCrypto.Unicode.Stable

/-! # Name preparation

The steps of RFC 4518 as relations, and that the code computes them.
-/

namespace TinyCrypto.Unicode

open Library Library.Program Library.Metered

section

variable {key : Nat → Nat}

theorem mem_of_filters {a : Nat} {l l' : List Nat}
    (same : ∀ k, l.filter (key · = k) = l'.filter (key · = k)) (member : a ∈ l) : a ∈ l' := by
  have listed : a ∈ l.filter (key · = key a) := List.mem_filter.mpr ⟨member, by simp⟩
  rw [same] at listed
  exact (List.mem_filter.mp listed).1

theorem sorted_unique {l l' : List Nat} (sorted : l.Pairwise fun a b => key a ≤ key b)
    (sorted' : l'.Pairwise fun a b => key a ≤ key b)
    (same : ∀ k, l.filter (key · = k) = l'.filter (key · = k)) : l = l' := by
  induction l generalizing l' with
  | nil =>
    cases l' with
    | nil => rfl
    | cons b rest =>
      have none_left := same (key b)
      simp at none_left
  | cons a rest ih =>
    cases l' with
    | nil =>
      have none_left := same (key a)
      simp at none_left
    | cons b rest' =>
      obtain ⟨first, tail⟩ := List.pairwise_cons.mp sorted
      obtain ⟨first', tail'⟩ := List.pairwise_cons.mp sorted'
      have up : key a ≤ key b := by
        rcases List.mem_cons.mp (mem_of_filters (fun k => (same k).symm)
          (List.mem_cons_self ..)) with rfl | member
        · exact le_rfl
        · exact first b member
      have down : key b ≤ key a := by
        rcases List.mem_cons.mp (mem_of_filters same (List.mem_cons_self ..)) with rfl | member
        · exact le_rfl
        · exact first' a member
      have equal : key b = key a := by omega
      have heads := same (key a)
      simp only [List.filter_cons, decide_true, if_true, equal, List.cons.injEq] at heads
      obtain ⟨rfl, _⟩ := heads
      have tails : ∀ k, rest.filter (key · = k) = rest'.filter (key · = k) := by
        intro k
        have whole := same k
        simp only [List.filter_cons] at whole
        split at whole
        · exact (List.cons.inj whole).2
        · exact whole
      rw [ih tail tail' tails]

theorem StableSort.ordered {marks sorted : List Nat} (nonzero : ∀ p ∈ marks, key p ≠ 0)
    (sort : StableSort key marks sorted) : sorted = ordered key marks := by
  have own : StableSort key marks (Unicode.ordered key marks) := by
    clear sort
    induction marks using List.reverseRecOn with
    | nil => exact ⟨List.Pairwise.nil, fun _ => rfl⟩
    | append_singleton marks last ih =>
      rw [ordered_concat, Unicode.placed, if_neg (nonzero last (by simp))]
      exact (ih fun p member => nonzero p (by simp [member])).insert last
  exact sorted_unique sort.sorted own.sorted fun k => (sort.stable k).trans (own.stable k).symm

theorem CanonicalOrder.ordered {input output : List Nat}
    (order : CanonicalOrder key input output) : output = ordered key input := by
  induction order with
  | run nonzero sort => exact sort.ordered nonzero
  | starter _ zero nonzero sort ih =>
    rw [ordered_parted zero, ← ih, ← sort.ordered nonzero]

variable {composite : Nat → Nat → Nat → Prop}

theorem Combines.unique {kept kept₁ kept₂ : List Nat} {point : Nat}
    (functional : ∀ a b v v', composite a b v → composite a b v' → v = v')
    (first : Combines key composite kept point kept₁)
    (second : Combines key composite kept point kept₂) : kept₁ = kept₂ := by
  generalize whole : kept = list at second
  cases first with
  | intro zero lower composed =>
    cases second with
    | intro zero' lower' composed' =>
      obtain ⟨rfl, rfl, rfl⟩ := lastStarter_unique whole zero zero' (fun p member =>
        (lower p member).1) fun p member => (lower' p member).1
      rw [functional _ _ _ _ composed composed']

theorem Composes.unique {kept unread result₁ result₂ : List Nat}
    (functional : ∀ a b v v', composite a b v → composite a b v' → v = v')
    (first : Composes key composite kept unread result₁)
    (second : Composes key composite kept unread result₂) : result₁ = result₂ := by
  induction first with
  | done =>
    cases second
    rfl
  | combine combines _ ih =>
    cases second with
    | combine combines' more =>
      rw [← combines.unique functional combines'] at more
      exact ih more
    | keep nothing _ => exact absurd ⟨_, combines⟩ nothing
  | keep nothing _ ih =>
    cases second with
    | combine combines _ => exact absurd ⟨_, combines⟩ nothing
    | keep _ more => exact ih more

end

variable {t : Tables} {D : Type} {s s' : Budgeted D}

/-- RFC 4518: what is mapped is decomposed, brought in canonical order and composed; none of
    it is prohibited; then spaces are handled. -/
structure StringPreparation (t : Tables) (points output : List Nat) : Prop where
  scalars : ∀ p ∈ points.flatMap (map t), scalarOk p = true
  steps : ∃ parts sorted composed,
    List.Forall₂ (FullDecomposition t) (points.flatMap (map t)) parts ∧
    CanonicalOrder (combiningClass t) parts.flatten sorted ∧
    Composes (combiningClass t) (PrimaryComposite t) [] sorted composed ∧
    (∀ p ∈ composed, allowed t p = true) ∧
    InsignificantSpaces (mark t) composed output

variable {points buffer : List Nat} {point : Nat}

theorem decompositions {parts : List (List Nat)} (correct : t.Correct) :
    List.Forall₂ (FullDecomposition t) points parts ↔ parts = points.map (decomposition t) := by
  constructor
  · intro given
    induction given with
    | nil => rfl
    | cons first _ ih => rw [ih, ← (decomposition_iff correct).mpr first, List.map_cons]
  · rintro rfl
    rw [List.forall₂_map_right_iff]
    exact List.forall₂_same.mpr fun p _ => (decomposition_iff correct).mp rfl

variable {output : List Nat}

theorem stringPreparation_iff (correct : t.Correct) : StringPreparation t points output ↔
      (∀ p ∈ points.flatMap (map t), scalarOk p = true) ∧
        (∀ p ∈ content t points, allowed t p = true) ∧ output = prepared t points := by
  have functional : ∀ a b v v', PrimaryComposite t a b v → PrimaryComposite t a b v' → v = v' :=
    fun _ _ _ _ first second => ((composition_iff correct).mpr first).1.symm.trans
      ((composition_iff correct).mpr second).1
  constructor
  · rintro ⟨scalars, parts, sorted, list, full, order, composes, permitted, form⟩
    rw [decompositions correct] at full
    have sorted_eq := order.ordered
    rw [full, ← List.flatMap_def] at sorted_eq
    have list_eq : list = content t points := by
      rw [content, normalized, ← sorted_eq]
      exact composes.unique functional (composed_composes correct order)
    rw [list_eq] at permitted form
    exact ⟨scalars, permitted, form.spaced correct.space.2.1⟩
  · rintro ⟨scalars, permitted, rfl⟩
    refine ⟨scalars, _, _, content t points, (decompositions correct).mpr rfl,
      ordered_canonical _, ?_, permitted, spaced_form correct.space.2.1 _⟩
    rw [content, normalized, List.flatMap_def]
    exact composed_composes correct (ordered_canonical _)

variable {capacity : Nat}

theorem preparePoints_gives {read : List Nat} {before after : Storage}
    (holds : before.Holds t capacity read)
    (given : Gives (preparePoints t points before) s after s') :
    (∀ p ∈ points.flatMap (map t), scalarOk p = true) ∧
      after.Holds t capacity (read ++ points.flatMap (reduced t)) := by
  induction points generalizing read before s with
  | nil =>
    simp only [preparePoints, gives_pure] at given
    obtain ⟨rfl, _⟩ := given
    exact ⟨by simp, by simpa using holds⟩
  | cons point rest ih =>
    simp only [preparePoints, preparePoint, gives_bind] at given
    obtain ⟨middle, _, first, given⟩ := given
    obtain ⟨scalars, next⟩ := decomposeAll_gives holds first
    obtain ⟨scalars', final⟩ := ih next given
    rw [List.append_assoc] at final
    refine ⟨?_, final⟩
    rw [List.flatMap_cons]
    exact List.forall_mem_append.mpr ⟨scalars, scalars'⟩

variable {storage : Storage}

theorem preparePoints_affords {read : List Nat} (holds : storage.Holds t capacity read)
    (scalars : ∀ p ∈ points.flatMap (map t), scalarOk p = true)
    (room : read.length + (points.flatMap (reduced t)).length ≤ capacity) :
    Affords ((points.flatMap (map t)).length + (points.flatMap (reduced t)).length * (capacity + 1))
      (preparePoints t points storage : Metered Result D Storage) := by
  induction points generalizing read storage with
  | nil => exact (affords_pure _).mono (Nat.zero_le _)
  | cons point rest ih =>
    rw [List.flatMap_cons, List.forall_mem_append] at scalars
    rw [List.flatMap_cons, List.length_append] at room
    have first := @decomposeAll_affords t D (map t point) read capacity storage holds scalars.1
      (by rw [← reduced]; omega)
    have more : ∀ after : Storage, after.Holds t capacity (read ++ reduced t point) →
        Affords ((rest.flatMap (map t)).length + (rest.flatMap (reduced t)).length * (capacity + 1))
          (preparePoints t rest after : Metered Result D Storage) := by
      intro after next
      refine ih next scalars.2 ?_
      rw [List.length_append]
      omega
    rw [preparePoints, preparePoint]
    refine (first.bind_of (fun _ _ _ given => (decomposeAll_gives holds given).2) more).mono ?_
    rw [← reduced, List.flatMap_cons, List.flatMap_cons, List.length_append, List.length_append,
      Nat.add_mul]
    omega

theorem prepareFinish_gives (correct : t.Correct)
    (holds : storage.Holds t capacity (points.flatMap (reduced t)))
    (given : Gives (prepareFinish t storage) s output s') :
    (∀ p ∈ content t points, allowed t p = true) ∧ output = prepared t points ∧
      (points.flatMap (reduced t)).length ≤ capacity ∧ output.length ≤ capacity := by
  obtain ⟨length, used, inside, list⟩ := holds
  simp only [prepareFinish, gives_bind] at given
  obtain ⟨middle, _, recomposed, given⟩ := given
  obtain ⟨same, fewer, composed_list⟩ := recompose_gives (by omega) recomposed
  rw [list, ← content_eq] at composed_list
  obtain ⟨permitted, rfl, fits⟩ := finishName_gives correct.space.2.1 (by omega) given
  rw [composed_list] at permitted fits ⊢
  exact ⟨permitted, rfl, by omega, by omega⟩

theorem prepareFinish_affords (holds : storage.Holds t capacity (points.flatMap (reduced t)))
    (permitted : ∀ p ∈ content t points, allowed t p = true)
    (fits : (prepared t points).length ≤ capacity) :
    Affords (4 * capacity + 2) (prepareFinish t storage : Metered Result D (List Nat)) := by
  obtain ⟨length, used, inside, list⟩ := holds
  rw [prepareFinish]
  refine Affords.mono ((recompose_affords storage).bind_of (fun _ _ _ given =>
    recompose_gives (by omega) given) ?_) (by omega : storage.used + (3 * capacity + 2) ≤ _)
  rintro after ⟨same, fewer, composed_list⟩
  rw [list, ← content_eq] at composed_list
  rw [← composed_list] at permitted
  rw [prepared, ← composed_list] at fits
  exact (finishName_affords (by omega) permitted (by omega)).mono (by omega)

theorem prepareScalars_gives (correct : t.Correct)
    (given : Gives (prepareScalars t points buffer) s output s') :
    StringPreparation t points output := by
  simp only [prepareScalars, gives_bind] at given
  obtain ⟨storage, _, pointed, given⟩ := given
  obtain ⟨scalars, holds⟩ := preparePoints_gives .start pointed
  rw [List.nil_append] at holds
  obtain ⟨permitted, rfl, _⟩ := prepareFinish_gives correct holds given
  exact (stringPreparation_iff correct).mpr ⟨scalars, permitted, rfl⟩

def preparationWork (t : Tables) (points : List Nat) (capacity : Nat) : Nat :=
  (points.flatMap (map t)).length + (points.flatMap (reduced t)).length * (capacity + 1) +
    (4 * capacity + 2)

theorem prepareScalars_affords (correct : t.Correct) (form : StringPreparation t points output)
    (room : (points.flatMap (reduced t)).length ≤ buffer.length)
    (fits : output.length ≤ buffer.length) : Affords (preparationWork t points buffer.length)
      (prepareScalars t points buffer : Metered Result D (List Nat)) := by
  obtain ⟨scalars, permitted, rfl⟩ := (stringPreparation_iff correct).mp form
  rw [prepareScalars]
  have first : Affords _ (preparePoints t points ⟨buffer, 0⟩ : Metered Result D Storage) :=
    preparePoints_affords .start scalars (by simpa using room)
  refine first.bind_of (fun _ _ _ given => (preparePoints_gives .start given).2) ?_
  intro storage holds
  exact prepareFinish_affords holds permitted fits

inductive StringScalars (tag : Nat) : Bytes → List Nat → Prop where
  | done : stringNext tag input = .error .end → StringScalars tag input []
  | more {input : Bytes} {point : Nat} {rest : Bytes} {points : List Nat} :
      stringNext tag input = .ok (point, rest) → StringScalars tag rest points →
      StringScalars tag input (point :: points)

theorem prepareLoop_gives {tag : Nat} {input : Bytes} {read : List Nat} {capacity : Nat}
    {before after : Storage} (holds : before.Holds t capacity (read.flatMap (reduced t)))
    (given : Gives (prepareLoop t tag input before) s after s') :
    ∃ points, StringScalars tag input points ∧ (∀ p ∈ points.flatMap (map t), scalarOk p = true) ∧
      after.Holds t capacity ((read ++ points).flatMap (reduced t)) := by
  induction size : input.length using Nat.strong_induction_on generalizing input read before s with
  | _ size ih =>
    rw [prepareLoop] at given
    rw [gives_bind] at given
    obtain ⟨_, _, _, given⟩ := given
    split at given
    · rename_i ended
      rw [gives_pure] at given
      obtain ⟨rfl, _⟩ := given
      exact ⟨[], .done ended, nofun, by rwa [List.append_nil]⟩
    · exact absurd given gives_throw
    · rename_i point rest next
      simp only [preparePoint, gives_bind] at given
      obtain ⟨middle, _, first, given⟩ := given
      obtain ⟨scalars, holds⟩ := decomposeAll_gives holds first
      have whole : read.flatMap (reduced t) ++ (map t point).flatMap (decomposition t) =
          (read ++ [point]).flatMap (reduced t) := by
        rw [List.flatMap_append, List.flatMap_singleton]
        rfl
      rw [whole] at holds
      obtain ⟨points, more, scalars', final⟩ :=
        ih rest.length (by rw [← size]; exact stringNext_shorter next) holds given rfl
      refine ⟨point :: points, .more next more, ?_, by simpa using final⟩
      rw [List.flatMap_cons]
      exact List.forall_mem_append.mpr ⟨scalars, scalars'⟩

theorem prepare_gives {tag : Nat} {input : Bytes} (correct : t.Correct)
    (given : Gives (prepare t tag input buffer) s output s') :
    ∃ points, StringScalars tag input points ∧ StringPreparation t points output := by
  simp only [prepare, gives_bind] at given
  obtain ⟨storage, _, looped, given⟩ := given
  obtain ⟨points, read, scalars, holds⟩ := @prepareLoop_gives t D s _ tag input [] buffer.length
    ⟨buffer, 0⟩ storage .start looped
  rw [List.nil_append] at holds
  obtain ⟨permitted, rfl, _⟩ := prepareFinish_gives correct holds given
  exact ⟨points, read, (stringPreparation_iff correct).mpr ⟨scalars, permitted, rfl⟩⟩

theorem expands_above {state : Compacting} {i : Nat} {e : Expanding} (correct : t.Correct)
    (inside : storage.used ≤ storage.points.length)
    (given : Gives (compactLoop t storage.used 0 storage.used ⟨storage.points, 0, 0, false⟩) s state s')
    (room : state.compacted + state.spaces + 2 ≤ storage.points.length)
    (expands : Expands t state.compacted ⟨state.compacted + state.spaces + 1, 0,
      state.points.set (state.compacted + state.spaces + 1) 0x20⟩ i e) :
    i < e.offset ∧ e.points.take i = state.points.take i := by
  obtain ⟨_, behind⟩ := compactLoop_gives (.start storage.points storage.used) (by omega) inside
    given
  have start := behind.expanding room
  rw [behind.size] at start expands
  obtain ⟨within, holds⟩ := expands.holds start (tags_apart_at correct.space.2.1 _)
  refine ⟨holds.above within, ?_⟩
  have written := congrArg (List.take i) behind.written
  rw [List.take_take, Nat.min_eq_left (by rw [behind.size]; exact within)] at written
  rw [holds.unread, written, List.map_take]

theorem stringPreparation_again {output output' : List Nat} (correct : t.Correct)
    (form : StringPreparation t points output) : StringPreparation t output output' ↔
      output' = if output.tail.head?.any (mark t) then 0x20 :: output else output := by
  obtain ⟨_, permitted, rfl⟩ := (stringPreparation_iff correct).mp form
  have stable := (content_stable correct points).spaced correct
  have allowed_all : ∀ p ∈ prepared t points, allowed t p = true := by
    intro p member
    rcases mem_spaced member with rfl | member
    · exact correct.space.2.2.1
    · exact permitted p member
  have scalars : ∀ p ∈ (prepared t points).flatMap (map t), scalarOk p = true := by
    intro p member
    obtain ⟨point, listed, made⟩ := List.mem_flatMap.mp member
    exact correct.scalars point (correct.permitted point (allowed_all point listed)) p made
  have content_allowed : ∀ p ∈ content t (prepared t points), allowed t p = true := by
    rw [prepared, stable.content]
    exact allowed_all
  rw [stringPreparation_iff correct, prepared_prepared correct]
  constructor
  · rintro ⟨_, _, same⟩
    exact same
  · intro same
    exact ⟨scalars, content_allowed, same⟩

/-- For tables that are sorted and correct: every run leaves the preparation of its scalars,
    every sequence that fits is prepared, what is prepared is prepared again but for the space
    that a mark takes, and no write of the second loop meets a point that is not read yet. -/
theorem name_preparation (correct : t.Correct) (points buffer : List Nat) :
    (∀ p value, combiningClass t p = value ↔ HasClass t p value) ∧
    (∀ (s s' : Budgeted D) output, Gives (prepareScalars t points buffer) s output s' →
      StringPreparation t points output) ∧ (∀ output, StringPreparation t points output →
      (points.flatMap (reduced t)).length ≤ buffer.length → output.length ≤ buffer.length →
        ∀ s : Budgeted D, preparationWork t points buffer.length ≤ s.work →
          ∃ s', Gives (prepareScalars t points buffer) s output s') ∧
    (∀ tag input (s s' : Budgeted D) output, Gives (prepare t tag input buffer) s output s' →
      ∃ points, StringScalars tag input points ∧ StringPreparation t points output) ∧
    (∀ output output', StringPreparation t points output → (StringPreparation t output output' ↔
        output' = if output.tail.head?.any (mark t) then 0x20 :: output else output)) ∧
    ∀ (storage : Storage) state (s s' : Budgeted D) i e, storage.used ≤ storage.points.length →
      Gives (compactLoop t storage.used 0 storage.used ⟨storage.points, 0, 0, false⟩) s state s' →
      state.compacted + state.spaces + 2 ≤ storage.points.length →
      Expands t state.compacted ⟨state.compacted + state.spaces + 1, 0,
        state.points.set (state.compacted + state.spaces + 1) 0x20⟩ i e →
      i < e.offset ∧ e.points.take i = state.points.take i := by
  refine ⟨fun _ _ => combiningClass_iff correct, fun _ _ _ => prepareScalars_gives correct, ?_,
    fun _ _ _ _ _ => prepare_gives correct, fun _ _ => stringPreparation_again correct,
    fun _ _ _ _ _ _ => expands_above correct⟩
  intro output form room fits s enough
  obtain ⟨output', s', given, _⟩ := prepareScalars_affords correct form room fits s enough
  have same := ((stringPreparation_iff correct).mp (prepareScalars_gives correct given)).2.2
  rw [← ((stringPreparation_iff correct).mp form).2.2] at same
  rw [same] at given
  exact ⟨s', given⟩

def plainTables : Tables where
  decompositionKeys := #[]
  decompositionOffsets := #[]
  decompositionLengths := #[]
  decompositionPool := #[]
  classKeys := #[]
  classValues := #[]
  compositionFirst := #[]
  compositionSecond := #[]
  compositionValues := #[]
  foldingKeys := #[]
  foldingOffsets := #[]
  foldingLengths := #[]
  foldingPool := #[]
  allowedStarts := #[0x20, 0xac00]
  allowedEnds := #[0x40, 0xd7a3]
  marksStarts := #[]
  marksEnds := #[]

variable {p : Nat}

theorem plain_decomposition (other : ¬(0xac00 ≤ p ∧ p < 0xd7a4)) :
    decomposition plainTables p = [p] := by
  rw [decomposition, if_neg (by simpa using other)]
  rfl

theorem plain_map (visible : mapsToSpace p = false) (kept : mapsToNothing p = false) :
    map plainTables p = [p] := by
  rw [map, if_neg (by simp [visible]), if_neg (by simp [kept])]
  rfl

theorem plain_reduced (visible : mapsToSpace p = false) (kept : mapsToNothing p = false) :
    reduced plainTables p = decomposition plainTables p := by
  rw [reduced, plain_map visible kept, List.flatMap_singleton]

theorem hangul_visible (hangul : (0x1100 ≤ p ∧ p < 0x11c3) ∨ (0xac00 ≤ p ∧ p < 0xd7a4)) :
    mapsToSpace p = false ∧ mapsToNothing p = false := by
  constructor
  · simp only [mapsToSpace, Bool.or_eq_false_iff, Bool.and_eq_false_iff, decide_eq_false_iff_not]
    omega
  · simp only [mapsToNothing, Bool.or_eq_false_iff, Bool.and_eq_false_iff, decide_eq_false_iff_not]
    omega

theorem plain_parts {a b v : Nat} (composite : PrimaryComposite plainTables a b v) :
    decomposition plainTables v = decomposition plainTables a ++ decomposition plainTables b := by
  cases composite with
  | leadVowel less less' =>
    rw [decomposition_leadVowel _ less less', plain_decomposition (by omega),
      plain_decomposition (by omega)]
    rfl
  | @syllableTrail syllable trail less pos less' =>
    rw [plain_decomposition (by omega : ¬(0xac00 ≤ 0x11a7 + trail ∧ 0x11a7 + trail < 0xd7a4)),
      show syllable = syllable / 21 * 21 + syllable % 21 by omega,
      decomposition_leadVowelTrail _ (by omega) (by omega) pos less',
      decomposition_leadVowel _ (by omega) (by omega)]
    rfl
  | listed inside => cases inside

theorem plain_full {p : Nat} (member : p ∈ reduced plainTables point) :
    reduced plainTables p = [p] ∧ decomposition plainTables p = [p] := by
  have stays : ∀ {q : Nat}, mapsToSpace q = false → mapsToNothing q = false →
      ¬(0xac00 ≤ q ∧ q < 0xd7a4) →
        reduced plainTables q = [q] ∧ decomposition plainTables q = [q] := by
    intro q visible kept other
    rw [plain_reduced visible kept, plain_decomposition other]
    exact ⟨rfl, rfl⟩
  have jamo : ∀ {q : Nat}, 0x1100 ≤ q → q < 0x11c3 →
      reduced plainTables q = [q] ∧ decomposition plainTables q = [q] := by
    intro q low high
    obtain ⟨visible, kept⟩ := hangul_visible (Or.inl ⟨low, high⟩)
    exact stays visible kept (by omega)
  cases visible : mapsToSpace point with
  | true =>
    have spaced : map plainTables point = [0x20] := by rw [map, if_pos visible]
    rw [reduced, spaced] at member
    have same : p = 0x20 := List.mem_singleton.mp member
    rw [same]
    exact ⟨rfl, rfl⟩
  | false =>
    cases kept : mapsToNothing point with
    | true =>
      have nothing : map plainTables point = [] := by
        rw [map, if_neg (by simp [visible]), if_pos kept]
      rw [reduced, nothing] at member
      cases member
    | false =>
      rw [plain_reduced visible kept] at member
      by_cases hangul : 0xac00 ≤ point ∧ point < 0xd7a4
      · rw [decomposition, if_pos (by simpa using hangul)] at member
        have listed := List.mem_of_mem_take member
        simp only [List.mem_cons, List.not_mem_nil, or_false] at listed
        rcases listed with same | same | same
        · exact jamo (by omega) (by omega)
        · exact jamo (by omega) (by omega)
        · exact jamo (by omega) (by omega)
      · rw [plain_decomposition hangul, List.mem_singleton] at member
        rw [member]
        exact stays visible kept hangul

theorem plain_allowed (permitted : allowed plainTables point = true) : scalarOk point = true := by
  have ascending : Ascending plainTables.allowedEnds := by
    intro i j less inside
    have two : j < 2 := inside
    rw [show i = 0 by omega, show j = 1 by omega]
    decide
  have found := (search_found ascending point).after (search plainTables.allowedEnds point) le_rfl
  simp only [allowed, Bool.and_eq_true, decide_eq_true_eq] at permitted
  have inside : search plainTables.allowedEnds point < 2 := permitted.1
  have upper := found permitted.1
  simp only [decide_eq_false_iff_not] at upper
  have bounded : ∀ i < 2, plainTables.allowedEnds.getD i 0 < 0xd800 := by decide
  have least := bounded _ inside
  simp only [scalarOk, Bool.not_eq_true', Bool.or_eq_false_iff, Bool.and_eq_false_iff,
    decide_eq_false_iff_not]
  omega

theorem plain_scalars {p : Nat} (scalar : scalarOk point = true)
    (member : p ∈ map plainTables point) : scalarOk p = true := by
  rw [map] at member
  split at member
  · rw [List.mem_singleton.mp member]
    rfl
  · split at member
    · cases member
    · have same : p = point := List.mem_singleton.mp member
      rwa [same]

theorem plain_correct : plainTables.Correct where
  classes := nofun
  decompositions := nofun
  pairs := nofun
  composites := nofun
  listed := nofun
  starters _ := .starter fun _ entry => Nat.not_lt_zero _ entry.1
  parts := plain_parts
  folded := by
    intro a b v composite _ _
    have hangul : 0xac00 ≤ v ∧ v < 0xd7a4 := by
      cases composite with
      | leadVowel | syllableTrail => omega
      | listed inside => cases inside
    obtain ⟨visible, kept⟩ := hangul_visible (Or.inr hangul)
    exact plain_reduced visible kept
  full _ _ := plain_full
  apart := by
    intro a b v composite
    cases composite with
    | leadVowel | syllableTrail => omega
    | listed inside => cases inside
  space := ⟨.starter fun _ entry => Nat.not_lt_zero _ entry.1, rfl, rfl, rfl⟩
  permitted _ := plain_allowed
  scalars _ scalar _ := plain_scalars scalar

/-- Two jamo and a space before a digit. -/
theorem name_preparation_hangul : StringPreparation plainTables [0x1100, 0x1161, 0x20, 0x31, 0x20]
      [0x20, 0xac00, 0x20, 0x20, 0x31, 0x20] := by
  have run : Gives (prepareScalars plainTables [0x1100, 0x1161, 0x20, 0x31, 0x20]
      (List.replicate 8 0) : Metered Result Unit (List Nat)) ⟨100, ()⟩
        [0x20, 0xac00, 0x20, 0x20, 0x31, 0x20] ⟨75, ()⟩ := by
    rfl
  exact (name_preparation plain_correct [0x1100, 0x1161, 0x20, 0x31, 0x20]
    (List.replicate 8 0)).2.1 _ _ _ run

end TinyCrypto.Unicode
