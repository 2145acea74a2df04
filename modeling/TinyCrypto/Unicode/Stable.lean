import TinyCrypto.Unicode.Composition
import TinyCrypto.Unicode.Spaces

/-! # Preparing what is prepared

Composition only joins what decomposes again in the same order, so what is composed stays as
it is. A space parts a sequence for every step.
-/

namespace TinyCrypto.Unicode

section

variable {key : Nat → Nat}

theorem ordered_concat (points : List Nat) (point : Nat) :
    ordered key (points ++ [point]) = placed key (ordered key points) point := by
  rw [ordered, ordered, List.foldl_append]
  rfl

theorem ordered_of_follows {points : List Nat} (chain : points.IsChain (Follows key)) :
    ordered key points = points := by
  induction points using List.reverseRecOn with
  | nil => rfl
  | append_singleton points last ih =>
    rw [ordered_concat, ih chain.left_of_append, placed]
    split
    · rfl
    · rename_i nonzero
      cases points using List.reverseRecOn with
      | nil => rfl
      | append_singleton front previous =>
        have follows : Follows key previous last := by
          rw [List.isChain_append] at chain
          exact chain.2.2 previous (by simp) last (by simp)
        rw [insertBack_concat, if_pos (follows nonzero), List.append_assoc]
        rfl

theorem insertBack_comm {a b : Nat} (less : key a < key b) (points : List Nat) :
    insertBack key a (insertBack key b points) = insertBack key b (insertBack key a points) := by
  have pair : ∀ points, insertBack key a (points ++ [b]) = insertBack key a points ++ [b] := by
    intro points
    rw [insertBack_concat, if_neg (by omega)]
  induction points using List.reverseRecOn with
  | nil =>
    have swapped := pair []
    have kept := @insertBack_concat key b a []
    rw [if_pos (by omega)] at kept
    rw [List.nil_append] at swapped kept
    rw [insertBack_nil, insertBack_nil, swapped, kept]
    rfl
  | append_singleton points last ih =>
    rcases Nat.lt_or_ge (key b) (key last) with above | below
    · have other : ¬key last ≤ key a := by omega
      simp only [insertBack_concat, if_neg (Nat.not_le.mpr above), if_neg other, ih]
    · have passed : insertBack key b (points ++ [last]) = points ++ [last] ++ [b] := by
        rw [insertBack_concat, if_pos below, List.append_assoc]
        rfl
      rw [passed, pair]
      rcases Nat.lt_or_ge (key a) (key last) with above' | below'
      · rw [insertBack_concat, if_neg (by omega), insertBack_concat, if_pos below,
          List.append_assoc]
        rfl
      · rw [insertBack_concat, if_pos below', show points ++ [last, a] = points ++ [last] ++ [a] by
          simp, insertBack_concat, if_pos (by omega)]
        simp

theorem foldl_placed_swap {point : Nat} {marks : List Nat}
    (lower : ∀ p ∈ marks, key p ≠ 0 ∧ key p < key point) (points : List Nat) :
    marks.foldl (placed key) (placed key points point) =
      placed key (marks.foldl (placed key) points) point := by
  induction marks generalizing points with
  | nil => rfl
  | cons mark marks ih =>
    obtain ⟨nonzero, less⟩ := lower mark (List.mem_cons_self ..)
    have swapped : placed key (placed key points point) mark =
        placed key (placed key points mark) point := by
      have pos : key point ≠ 0 := by omega
      simp only [placed, if_neg nonzero, if_neg pos]
      exact insertBack_comm less points
    rw [List.foldl_cons, List.foldl_cons, swapped,
      ih fun p member => lower p (List.mem_cons_of_mem _ member)]

theorem ordered_swap {point : Nat} {marks : List Nat}
    (lower : ∀ p ∈ marks, key p ≠ 0 ∧ key p < key point) (front rest : List Nat) :
    ordered key (front ++ point :: marks ++ rest) =
      ordered key (front ++ marks ++ point :: rest) := by
  simp only [ordered, List.foldl_append, List.foldl_cons, foldl_placed_swap lower]

theorem ordered_parted {starter : Nat} (zero : key starter = 0) (front rest : List Nat) :
    ordered key (front ++ starter :: rest) = ordered key front ++ starter :: ordered key rest := by
  induction rest using List.reverseRecOn with
  | nil =>
    rw [ordered_concat, placed, if_pos zero]
    rfl
  | append_singleton rest last ih =>
    rw [← List.cons_append, ← List.append_assoc, ordered_concat, ih, ordered_concat, placed, placed]
    split
    · simp
    · exact insertBack_run _ _ zero

theorem mem_ordered {points : List Nat} {p : Nat} : p ∈ ordered key points ↔ p ∈ points := by
  induction points using List.reverseRecOn with
  | nil => rfl
  | append_singleton points last ih =>
    rw [ordered_concat, placed]
    split
    · simp [ih]
    · simp [mem_insertBack, ih, or_comm]

theorem insertBack_perm (point : Nat) (points : List Nat) :
    (insertBack key point points).Perm (point :: points) := by
  have inserted := List.perm_orderedInsert (fun p x => key x ≤ key p) point points.reverse
  exact (List.reverse_perm _).trans (inserted.trans ((List.reverse_perm points).cons point))

theorem ordered_perm (points : List Nat) : (ordered key points).Perm points := by
  induction points using List.reverseRecOn with
  | nil => exact .nil
  | append_singleton points last ih =>
    rw [ordered_concat, placed]
    split
    · exact ih.append_right [last]
    · have moved := (@insertBack_perm key last (ordered key points)).trans (ih.cons last)
      exact moved.trans (List.perm_append_singleton last points).symm

end

variable {t : Tables}

def Basic (t : Tables) (p : Nat) : Prop := reduced t p = [p] ∧ decomposition t p = [p]

/-- A point that mapping changes no more than decomposition. -/
structure Settled (t : Tables) (p : Nat) : Prop where
  folded : reduced t p = decomposition t p
  space : p ≠ 0x20 → 0x20 ∉ decomposition t p

theorem Basic.settled {p : Nat} (basic : Basic t p) : Settled t p := by
  refine ⟨basic.1.trans basic.2.symm, ?_⟩
  intro other
  rw [basic.2, List.mem_singleton]
  exact Ne.symm other

theorem Settled.composite {a b v : Nat} (correct : t.Correct) (left : Settled t a)
    (right : Settled t b) (composite : PrimaryComposite t a b v) : Settled t v := by
  obtain ⟨left_other, right_other, _⟩ := correct.apart composite
  refine ⟨correct.folded composite left.folded right.folded, ?_⟩
  intro _
  rw [correct.parts composite, List.mem_append]
  rintro (member | member)
  · exact left.space left_other member
  · exact right.space right_other member

theorem Kept.next_cases (correct : t.Correct) (k : Kept) (point : Nat) :
    k.next t point = k.keep t point ∨ ∃ starter value, k.starter = some starter ∧
      (lastClass (combiningClass t) k.marks = 0 ∨
        lastClass (combiningClass t) k.marks < combiningClass t point) ∧
      PrimaryComposite t starter point value ∧
      k.next t point = ⟨k.before, some value, k.marks⟩ := by
  cases head : k.starter with
  | none =>
    left
    rw [Kept.next, head]
  | some starter =>
    rw [Kept.next, head]
    dsimp only
    split
    · rename_i look
      split
      · rename_i nonzero
        refine .inr ⟨starter, _, rfl, ?_, (composition_iff correct).mp ⟨rfl, nonzero⟩, rfl⟩
        simpa using look
      · exact .inl rfl
    · exact .inl rfl

/-- What is kept of basic points: the marks are basic, and all decomposes into what was read. -/
structure Kept.Settles (t : Tables) (k : Kept) (read : List Nat) : Prop where
  settled : ∀ p ∈ k.list, Settled t p
  marks : ∀ p ∈ k.marks, Basic t p
  again : ∀ rest, ordered (combiningClass t) (k.list.flatMap (decomposition t) ++ rest) =
    ordered (combiningClass t) (read ++ rest)
  count : k.list.count 0x20 = read.count 0x20

variable {points : List Nat}

theorem flatMap_basic (basic : ∀ p ∈ points, Basic t p) :
    points.flatMap (decomposition t) = points := by
  induction points with
  | nil => rfl
  | cons p points ih =>
    rw [List.flatMap_cons, (basic p (List.mem_cons_self ..)).2,
      ih fun q member => basic q (List.mem_cons_of_mem _ member)]
    rfl

theorem Kept.Settles.keep {k : Kept} {read : List Nat} {point : Nat} (settles : k.Settles t read)
    (basic : Basic t point) : (k.keep t point).Settles t (read ++ [point]) := by
  obtain ⟨settled, marks, again, count⟩ := settles
  have list := k.list_keep (t := t) point
  constructor
  · rw [list]
    intro p member
    rcases List.mem_append.mp member with member | member
    · exact settled p member
    · rw [List.mem_singleton.mp member]
      exact basic.settled
  · rw [Kept.keep]
    split
    · simp
    · intro p member
      rcases List.mem_append.mp member with member | member
      · exact marks p member
      · rw [List.mem_singleton.mp member]
        exact basic
  · intro rest
    rw [list, List.flatMap_append, List.append_assoc, List.append_assoc]
    have one := again ([point] ++ rest)
    simpa [basic.2] using one
  · rw [list, List.count_append, count, List.count_append]

theorem Kept.Settles.combine {k : Kept} {read : List Nat} {starter point value : Nat}
    (correct : t.Correct) (settles : k.Settles t read) (basic : Basic t point)
    (head : k.starter = some starter) (composite : PrimaryComposite t starter point value)
    (lower : ∀ p ∈ k.marks, combiningClass t p ≠ 0 ∧ combiningClass t p < combiningClass t point) :
    (⟨k.before, some value, k.marks⟩ : Kept).Settles t (read ++ [point]) := by
  obtain ⟨settled, marks, again, count⟩ := settles
  have list : k.list = k.before ++ starter :: k.marks := by simp [Kept.list, head]
  have list' : (⟨k.before, some value, k.marks⟩ : Kept).list = k.before ++ value :: k.marks := by
    simp [Kept.list]
  obtain ⟨starter_other, point_other, value_other⟩ := correct.apart composite
  rw [list] at settled again count
  constructor
  · rw [list']
    intro p member
    have at_starter := settled starter (by simp)
    rcases List.mem_append.mp member with member | member
    · exact settled p (by simp [member])
    · rcases List.mem_cons.mp member with rfl | member
      · exact at_starter.composite correct basic.settled composite
      · exact settled p (by simp [member])
  · exact marks
  · intro rest
    have passed := @ordered_swap (combiningClass t) point k.marks lower
      (k.before.flatMap (decomposition t) ++ decomposition t starter) rest
    have before := again (point :: rest)
    rw [List.flatMap_append, List.flatMap_cons, flatMap_basic marks] at before
    rw [list', List.flatMap_append, List.flatMap_cons, flatMap_basic marks, correct.parts composite,
      basic.2]
    simp only [List.append_assoc, List.cons_append, List.nil_append] at passed before ⊢
    rw [passed, before]
  · rw [list', List.count_append, List.count_cons, List.count_append, ← count, List.count_append,
      List.count_cons]
    simp [starter_other, point_other, value_other]

theorem Kept.Settles.fold {k : Kept} {read unread : List Nat} (correct : t.Correct)
    (kept : k.Open (combiningClass t) unread) (settles : k.Settles t read)
    (basic : ∀ p ∈ unread, Basic t p) :
    (unread.foldl (Kept.next t) k).Settles t (read ++ unread) := by
  induction unread generalizing k read with
  | nil => simpa using settles
  | cons point rest ih =>
    have first := basic point (List.mem_cons_self ..)
    have others : ∀ p ∈ rest, Basic t p := fun p member => basic p (List.mem_cons_of_mem _ member)
    rw [List.foldl_cons, show read ++ point :: rest = read ++ [point] ++ rest by simp]
    rcases k.next_cases correct point with next | ⟨starter, value, head, look, composite, next⟩
    · rw [next]
      exact ih kept.keep (settles.keep first) others
    · have lower := (kept.unblocked_iff point).mp look
      have zero := (combiningClass_iff correct).mpr (correct.starters composite)
      rw [next]
      exact ih (kept.combine zero lower) (settles.combine correct first head composite lower)
        others

theorem composed_settles (correct : t.Correct) (chain : points.IsChain (Follows (combiningClass t)))
    (basic : ∀ p ∈ points, Basic t p) : (∀ p ∈ composed t points, Settled t p) ∧
      ordered (combiningClass t) ((composed t points).flatMap (decomposition t)) = points ∧
      (composed t points).count 0x20 = points.count 0x20 := by
  have kept : (⟨[], none, []⟩ : Kept).Open (combiningClass t) points :=
    ⟨nofun, fun _ => rfl, nofun, chain⟩
  have settles : (⟨[], none, []⟩ : Kept).Settles t [] := ⟨nofun, nofun, fun _ => rfl, rfl⟩
  obtain ⟨settled, _, again, count⟩ := settles.fold correct kept basic
  refine ⟨settled, ?_, count⟩
  have whole := again []
  rw [List.append_nil, List.nil_append, List.append_nil, ordered_of_follows chain] at whole
  exact whole

/-- `tc_unicode_nfkc`, as a function. -/
def normalized (t : Tables) (points : List Nat) : List Nat :=
  composed t (ordered (combiningClass t) (points.flatMap (decomposition t)))

/-- What `tc_unicode_prepare_finish` gives to `tc_unicode_finish_name`. -/
def content (t : Tables) (points : List Nat) : List Nat := normalized t (points.flatMap (map t))

def prepared (t : Tables) (points : List Nat) : List Nat := spaced (mark t) (content t points)

theorem content_eq (points : List Nat) :
    content t points = composed t (ordered (combiningClass t) (points.flatMap (reduced t))) := by
  rw [content, normalized, List.flatMap_assoc]
  rfl

theorem reduced_basic (correct : t.Correct) (points : List Nat) :
    ∀ p ∈ ordered (combiningClass t) (points.flatMap (reduced t)), Basic t p := by
  intro p member
  obtain ⟨point, _, made⟩ := List.mem_flatMap.mp (mem_ordered.mp member)
  exact correct.full point p made

theorem content_settled (correct : t.Correct) (points : List Nat) :
    ∀ p ∈ content t points, Settled t p := by
  rw [content_eq]
  exact (composed_settles correct (ordered_canonical _).follows (reduced_basic correct points)).1

theorem content_content (correct : t.Correct) (points : List Nat) :
    content t (content t points) = content t points := by
  have settled := content_settled correct points
  have same : (content t points).flatMap (reduced t) =
      (content t points).flatMap (decomposition t) :=
    List.flatMap_congr fun p member => (settled p member).folded
  rw [content_eq, same, content_eq points]
  exact congrArg (composed t) (composed_settles correct (ordered_canonical _).follows
    (reduced_basic correct points)).2.1

inductive FoldParted (front : List Nat) : Kept → Kept → Prop where
  | marks : FoldParted front ⟨front, some 0x20, marks⟩ ⟨[], none, marks⟩
  | starter : FoldParted front ⟨front ++ 0x20 :: before, some starter, marks⟩
      ⟨before, some starter, marks⟩

theorem FoldParted.list {front : List Nat} {k k' : Kept} (parted : FoldParted front k k') :
    k.list = front ++ 0x20 :: k'.list := by
  cases parted <;> simp [Kept.list]

theorem FoldParted.keep {front : List Nat} {k k' : Kept} (parted : FoldParted front k k')
    (point : Nat) : FoldParted front (k.keep t point) (k'.keep t point) := by
  have list := parted.list
  rw [Kept.keep, Kept.keep, list]
  split
  · exact .starter
  · cases parted
    · exact .marks
    · exact .starter

theorem composition_space (correct : t.Correct) (point : Nat) :
    composition t 0x20 point = 0 ∧ composition t point 0x20 = 0 := by
  constructor
  · by_contra nonzero
    exact (correct.apart ((composition_iff correct).mp ⟨rfl, nonzero⟩)).1 rfl
  · by_contra nonzero
    exact (correct.apart ((composition_iff correct).mp ⟨rfl, nonzero⟩)).2.1 rfl

theorem FoldParted.next {front : List Nat} {k k' : Kept} (correct : t.Correct)
    (parted : FoldParted front k k') (point : Nat) :
    FoldParted front (k.next t point) (k'.next t point) := by
  have keep := parted.keep (t := t) point
  rw [Kept.next, Kept.next]
  cases parted with
  | marks =>
    simp only [(composition_space correct point).1, ne_eq, not_true_eq_false, if_false, ite_self]
    exact keep
  | starter =>
    dsimp only
    split
    · split
      · exact .starter
      · exact keep
    · exact keep

theorem composed_parted (correct : t.Correct) (front rest : List Nat) :
    composed t (front ++ 0x20 :: rest) = composed t front ++ 0x20 :: composed t rest := by
  have zero := (combiningClass_iff correct).mpr correct.space.1
  have next : ∀ k : Kept, k.next t 0x20 = ⟨k.list, some 0x20, []⟩ := by
    intro k
    have keep : k.keep t 0x20 = ⟨k.list, some 0x20, []⟩ := by rw [Kept.keep, if_pos zero]
    rw [Kept.next]
    split
    · exact keep
    · simp only [(composition_space correct _).2, ne_eq, not_true_eq_false, if_false, ite_self]
      exact keep
  rw [composed, List.foldl_append, List.foldl_cons, next]
  have parted : ∀ {rest : List Nat} {k k' : Kept}, FoldParted (composed t front) k k' →
      FoldParted (composed t front) (rest.foldl (Kept.next t) k) (rest.foldl (Kept.next t) k') := by
    intro rest
    induction rest with
    | nil => exact id
    | cons point rest ih => exact fun parted => ih (parted.next correct point)
  exact (parted .marks).list

theorem content_parted (correct : t.Correct) (front rest : List Nat) :
    content t (front ++ 0x20 :: rest) = content t front ++ 0x20 :: content t rest := by
  have zero := (combiningClass_iff correct).mpr correct.space.1
  have alone : reduced t 0x20 = [0x20] := by
    have mapped : map t 0x20 = [0x20] := rfl
    rw [reduced, mapped, List.flatMap_singleton]
    exact correct.space.2.2.2
  rw [content_eq, content_eq, content_eq, List.flatMap_append, List.flatMap_cons, alone,
    List.singleton_append, ordered_parted zero, composed_parted correct]

theorem content_nil : content t [] = [] := rfl

theorem count_decomposition (correct : t.Correct) (settled : ∀ p ∈ points, Settled t p) :
    (points.flatMap (decomposition t)).count 0x20 = points.count 0x20 := by
  induction points with
  | nil => rfl
  | cons p points ih =>
    rw [List.flatMap_cons, List.count_append, List.count_cons,
      ih fun q member => settled q (List.mem_cons_of_mem _ member), Nat.add_comm]
    by_cases same : p = 0x20
    · rw [same, correct.space.2.2.2]
      rfl
    · rw [List.count_eq_zero.mpr ((settled p (List.mem_cons_self ..)).space same)]
      simp [same]

theorem count_content (correct : t.Correct) (settled : ∀ p ∈ points, Settled t p) :
    (content t points).count 0x20 = points.count 0x20 := by
  have same : points.flatMap (reduced t) = points.flatMap (decomposition t) :=
    List.flatMap_congr fun p member => (settled p member).folded
  have count := (composed_settles correct (ordered_canonical (points.flatMap (reduced t))).follows
    (reduced_basic correct points)).2.2
  rw [content_eq, count, (ordered_perm _).count_eq, same, count_decomposition correct settled]

theorem parted_unique {A : Type} [DecidableEq A] {separator : A} {a b a' b' : List A}
    (same : a ++ separator :: b = a' ++ separator :: b')
    (count : a.count separator = a'.count separator) : a = a' ∧ b = b' := by
  induction a generalizing a' with
  | nil =>
    cases a' with
    | nil => exact ⟨rfl, (List.cons.inj same).2⟩
    | cons x a' =>
      obtain ⟨rfl, _⟩ := List.cons.inj same
      simp at count
  | cons x a ih =>
    cases a' with
    | nil =>
      obtain ⟨rfl, _⟩ := List.cons.inj same
      simp at count
    | cons x' a' =>
      obtain ⟨rfl, rest⟩ := List.cons.inj same
      rw [List.count_cons, List.count_cons, Nat.add_right_cancel_iff] at count
      obtain ⟨rfl, rfl⟩ := ih rest count
      exact ⟨rfl, rfl⟩

structure Stable (t : Tables) (points : List Nat) : Prop where
  settled : ∀ p ∈ points, Settled t p
  content : content t points = points

theorem Stable.nil : Stable t [] := ⟨nofun, content_nil⟩

theorem space_settled : Settled t 0x20 := by
  refine ⟨?_, fun other => absurd rfl other⟩
  have mapped : map t 0x20 = [0x20] := rfl
  rw [reduced, mapped, List.flatMap_singleton]

section

variable (correct : t.Correct)

include correct

theorem Stable.join {front rest : List Nat} (left : Stable t front)
    (right : Stable t rest) : Stable t (front ++ 0x20 :: rest) := by
  constructor
  · intro p member
    rcases List.mem_append.mp member with member | member
    · exact left.settled p member
    · rcases List.mem_cons.mp member with rfl | member
      · exact space_settled
      · exact right.settled p member
  · rw [content_parted correct, left.content, right.content]

theorem Stable.part {front rest : List Nat}
    (stable : Stable t (front ++ 0x20 :: rest)) : Stable t front ∧ Stable t rest := by
  obtain ⟨settled, whole⟩ := stable
  have left : ∀ p ∈ front, Settled t p := fun p member => settled p (by simp [member])
  have right : ∀ p ∈ rest, Settled t p := fun p member => settled p (by simp [member])
  rw [content_parted correct] at whole
  obtain ⟨first, second⟩ := parted_unique whole (count_content correct left)
  exact ⟨⟨left, first⟩, ⟨right, second⟩⟩

theorem Stable.spaces {k : Nat} {rest : List Nat}
    (stable : Stable t (List.replicate k 0x20 ++ rest)) : Stable t rest := by
  induction k with
  | zero => exact stable
  | succ k ih =>
    rw [List.replicate_succ, List.cons_append] at stable
    exact ih (@Stable.part t correct [] _ stable).2

theorem Stable.words {points : List Nat} {ws : List (List Nat)}
    (words : Words (mark t) points ws) (stable : Stable t points) :
    Stable t ([0x20, 0x20].intercalate ws) := by
  induction words with
  | @last w k word =>
    have front : Stable t w := by
      cases k with
      | zero => simpa using stable
      | succ k => exact (stable.part correct).1
    simpa using front
  | @more w k rest ws word pos plain more ih =>
    obtain ⟨q, tail, ws', rfl, _⟩ := more.first
    cases k with
    | zero => omega
    | succ k =>
      rw [List.replicate_succ, List.append_assoc, List.cons_append] at stable
      obtain ⟨front, back⟩ := stable.part correct
      have joined := front.join correct (Stable.nil.join correct (ih (back.spaces correct)))
      simpa [List.intercalate] using joined

theorem Stable.spaced (stable : Stable t points) : Stable t (spaced (mark t) points) := by
  have form := spaced_form correct.space.2.1 points
  generalize Unicode.spaced (mark t) points = output at form ⊢
  cases form with
  | spaces => exact Stable.nil.join correct (Stable.nil.join correct .nil)
  | @words k rest ws plain words =>
    have inner := Stable.words correct words (stable.spaces correct)
    exact Stable.nil.join correct (inner.join correct .nil)

theorem content_stable (points : List Nat) : Stable t (content t points) :=
  ⟨content_settled correct points, content_content correct points⟩

theorem prepared_prepared (points : List Nat) : prepared t (prepared t points) =
      if (prepared t points).tail.head?.any (mark t) then 0x20 :: prepared t points
      else prepared t points := by
  have same := ((content_stable correct points).spaced correct).content
  rw [prepared, prepared, same, spaced_spaced correct.space.2.1]

end

end TinyCrypto.Unicode
