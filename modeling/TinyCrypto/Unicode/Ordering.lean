import Mathlib.Data.List.Induction
import Mathlib.Data.List.Sort
import TinyCrypto.Unicode.Prepare

/-! # Canonical ordering

What `append` keeps: every run of marks is sorted by its combining classes, and marks of
one class stay in their order.
-/

namespace TinyCrypto.Unicode

open Library Library.Program Library.Metered

/-- A sorted list with the elements of each key in their order. -/
structure StableSort (key : Nat → Nat) (input output : List Nat) : Prop where
  sorted : output.Pairwise fun a b => key a ≤ key b
  stable : ∀ k, output.filter (key · = k) = input.filter (key · = k)

/-- Each run of points whose class is not zero is sorted; the other points stay. -/
inductive CanonicalOrder (key : Nat → Nat) : List Nat → List Nat → Prop where
  | run : (∀ p ∈ marks, key p ≠ 0) → StableSort key marks sorted → CanonicalOrder key marks sorted
  | starter : CanonicalOrder key before before' → key p = 0 → (∀ p ∈ marks, key p ≠ 0) →
      StableSort key marks sorted →
      CanonicalOrder key (before ++ p :: marks) (before' ++ p :: sorted)

section

variable {key : Nat → Nat}

def insertBack (key : Nat → Nat) (point : Nat) (points : List Nat) : List Nat :=
  (points.reverse.orderedInsert (fun p x => key x ≤ key p) point).reverse

def placed (key : Nat → Nat) (points : List Nat) (point : Nat) : List Nat :=
  if key point = 0 then points ++ [point] else insertBack key point points

theorem insertBack_nil (point : Nat) : insertBack key point [] = [point] := rfl

theorem insertBack_concat (point last : Nat) (points : List Nat) :
    insertBack key point (points ++ [last]) = if key last ≤ key point then points ++ [last, point]
      else insertBack key point points ++ [last] := by
  rw [insertBack, List.reverse_append, List.reverse_singleton, List.singleton_append,
    List.orderedInsert]
  split
  · simp
  · simp [insertBack]

theorem insertBack_run {starter point : Nat} (before marks : List Nat) (lower : key starter = 0) :
    insertBack key point (before ++ starter :: marks) =
      before ++ starter :: insertBack key point marks := by
  induction marks using List.reverseRecOn with
  | nil => simp [insertBack_concat, insertBack_nil, lower]
  | append_singleton marks last ih =>
    rw [← List.cons_append, ← List.append_assoc, insertBack_concat, insertBack_concat, ih]
    split <;> simp

theorem mem_insertBack {point p : Nat} {points : List Nat} :
    p ∈ insertBack key point points ↔ p = point ∨ p ∈ points := by
  rw [insertBack, List.mem_reverse, List.mem_orderedInsert, List.mem_reverse]

theorem StableSort.insert {input output : List Nat} (sort : StableSort key input output)
    (point : Nat) : StableSort key (input ++ [point]) (insertBack key point output) := by
  constructor
  · have sorted := sort.sorted
    generalize output = points at sorted
    induction points using List.reverseRecOn with
    | nil => simp [insertBack_nil]
    | append_singleton points last ih =>
      obtain ⟨front, _, below⟩ := List.pairwise_append.mp sorted
      rw [insertBack_concat]
      split
      · rename_i le
        have last_le : ∀ a ∈ points, key a ≤ key last := fun a member =>
          below a member last (List.mem_singleton_self last)
        rw [List.pairwise_append]
        refine ⟨front, by simpa using le, ?_⟩
        intro a member b listed
        rcases List.mem_cons.mp listed with rfl | listed
        · exact last_le a member
        · rw [List.mem_singleton.mp listed]
          exact Nat.le_trans (last_le a member) le
      · rename_i greater
        rw [List.pairwise_append]
        refine ⟨ih front, List.pairwise_singleton _ _, ?_⟩
        intro a member b listed
        rw [List.mem_singleton.mp listed]
        rcases mem_insertBack.mp member with rfl | member
        · omega
        · exact below a member last (List.mem_singleton_self last)
  · intro k
    rw [List.filter_append, ← sort.stable k]
    have sorted := sort.sorted
    generalize output = points at sorted
    induction points using List.reverseRecOn with
    | nil => simp [insertBack_nil]
    | append_singleton points last ih =>
      obtain ⟨front, _, _⟩ := List.pairwise_append.mp sorted
      rw [insertBack_concat]
      split
      · have pair : [last, point] = [last] ++ [point] := rfl
        rw [pair, List.filter_append, List.filter_append, List.filter_append, List.append_assoc]
      · rename_i greater
        rw [List.filter_append, ih front, List.filter_append, List.append_assoc, List.append_assoc]
        congr 1
        by_cases same : key point = k
        · have other : key last ≠ k := by omega
          simp [same, other]
        · simp [same]

theorem CanonicalOrder.placed {input output : List Nat} (order : CanonicalOrder key input output)
    (point : Nat) : CanonicalOrder key (input ++ [point]) (placed key output point) := by
  rw [Unicode.placed]
  split
  · rename_i zero
    exact .starter order zero nofun ⟨List.Pairwise.nil, fun _ => rfl⟩
  · rename_i nonzero
    cases order with
    | run marks sort =>
      refine .run ?_ (sort.insert point)
      intro p member
      rcases List.mem_append.mp member with member | member
      · exact marks p member
      · rw [List.mem_singleton.mp member]
        exact nonzero
    | starter before zero marks sort =>
      rw [insertBack_run _ _ zero, List.append_assoc, List.cons_append]
      refine .starter before zero ?_ (sort.insert point)
      intro p member
      rcases List.mem_append.mp member with member | member
      · exact marks p member
      · rw [List.mem_singleton.mp member]
        exact nonzero

def ordered (key : Nat → Nat) (points : List Nat) : List Nat := points.foldl (placed key) []

theorem ordered_canonical (points : List Nat) : CanonicalOrder key points (ordered key points) := by
  induction points using List.reverseRecOn with
  | nil => exact .run nofun ⟨List.Pairwise.nil, fun _ => rfl⟩
  | append_singleton points last ih =>
    rw [ordered, List.foldl_append]
    exact ih.placed last

end

theorem take_set_concat {A : Type} {points : List A} {i : Nat} (inside : i < points.length)
    (point : A) : (points.set i point).take (i + 1) = points.take i ++ [point] := by
  rw [List.take_add_one, List.take_set_of_le le_rfl]
  simp [inside]

section

variable {t : Tables} {D : Type} {s s' : Budgeted D}

def Storage.list (storage : Storage) : List Nat := storage.points.take storage.used

/-- What the shifting loop leaves for a point to be written at the freed place. -/
structure Shifted (key : Nat → Nat) (point offset : Nat) (before after : List Nat) (place : Nat) :
    Prop where
  length : after.length = before.length
  inside : place ≤ offset
  upper : after.drop (offset + 1) = before.drop (offset + 1)
  lower : (after.set place point).take (offset + 1) = insertBack key point (before.take offset)

theorem shiftUp_shifted {point offset place : Nat} {before after : List Nat}
    (room : offset < before.length)
    (given : Gives (shiftUp t (combiningClass t point) offset before) s (place, after) s') :
    Shifted (combiningClass t) point offset before after place := by
  induction offset generalizing before s with
  | zero =>
    simp only [shiftUp, gives_pure, Prod.mk.injEq] at given
    obtain ⟨⟨rfl, rfl⟩, _⟩ := given
    refine ⟨rfl, le_rfl, rfl, ?_⟩
    cases before with
    | nil => cases room
    | cons x rest => rfl
  | succ offset ih =>
    rw [shiftUp] at given
    have split_take : before.take (offset + 1) = before.take offset ++ [before.getD offset 0] := by
      rw [List.take_add_one, List.getD_eq_getElem?_getD,
        List.getElem?_eq_getElem (by omega : offset < before.length)]
      rfl
    split at given
    · rename_i greater
      simp only [gives_bind, gives_charge] at given
      obtain ⟨_, _, ⟨_, rfl⟩, given⟩ := given
      have size : (before.set (offset + 1) (before.getD offset 0)).length = before.length :=
        List.length_set
      obtain ⟨length, inside, upper, lower⟩ := ih (by omega) given
      rw [size] at length
      have moved : after.drop (offset + 1) =
          before.getD offset 0 :: before.drop (offset + 1 + 1) := by
        have inside' : offset + 1 < (before.set (offset + 1) (before.getD offset 0)).length := by
          rwa [size]
        rw [upper, List.drop_eq_getElem_cons inside', List.getElem_set_self,
          List.drop_set_of_lt (by omega)]
      refine ⟨length, by omega, ?_, ?_⟩
      · rw [← List.drop_drop, moved]
        rfl
      · have kept : (after.set place point).drop (offset + 1) = after.drop (offset + 1) :=
          List.drop_set_of_lt (by omega)
        rw [List.take_add, lower, kept, moved, split_take, insertBack_concat, if_neg (by omega),
          List.take_set_of_le (by omega)]
        rfl
    · rename_i le
      simp only [gives_pure, Prod.mk.injEq] at given
      obtain ⟨⟨rfl, rfl⟩, _⟩ := given
      refine ⟨rfl, le_rfl, rfl, ?_⟩
      rw [split_take, insertBack_concat, if_pos (by omega), List.take_add_one,
        List.take_set_of_le le_rfl, split_take]
      simp [room]

variable {before after : Storage} {point : Nat}

theorem append_gives (inside : before.used ≤ before.points.length)
    (given : Gives (append t point before) s after s') :
    after.points.length = before.points.length ∧ after.used = before.used + 1 ∧
      before.used < before.points.length ∧
      after.list = placed (combiningClass t) before.list point := by
  rw [append] at given
  split at given
  · exact absurd given gives_throw
  · rename_i room
    rw [gives_bind] at given
    obtain ⟨_, _, charged, given⟩ := given
    have less : before.used < before.points.length := by omega
    rw [placed]
    split at given
    · rename_i nonzero
      simp only [gives_bind, gives_pure] at given
      obtain ⟨⟨offset, points⟩, _, shifted, rfl, _⟩ := given
      obtain ⟨length, _, _, lower⟩ := shiftUp_shifted less shifted
      rw [if_neg nonzero]
      exact ⟨by rw [List.length_set, length], rfl, less, lower⟩
    · rename_i zero
      simp only [gives_bind, gives_pure] at given
      obtain ⟨⟨offset, points⟩, _, ⟨⟨rfl, rfl⟩, _⟩, rfl, _⟩ := given
      rw [if_pos (by omega)]
      refine ⟨by rw [List.length_set], rfl, less, ?_⟩
      exact take_set_concat less point

structure Storage.Holds (t : Tables) (storage : Storage) (capacity : Nat) (points : List Nat) :
    Prop where
  length : storage.points.length = capacity
  used : storage.used = points.length
  inside : storage.used ≤ capacity
  list : storage.list = ordered (combiningClass t) points

theorem Storage.Holds.next {points : List Nat} {capacity : Nat} {before after : Storage}
    (holds : before.Holds t capacity points) (child : Nat)
    (length : after.points.length = before.points.length) (used : after.used = before.used + 1)
    (less : before.used < before.points.length)
    (list : after.list = placed (combiningClass t) before.list child) :
    after.Holds t capacity (points ++ [child]) := by
  refine ⟨length.trans holds.length, ?_, ?_, ?_⟩
  · rw [used, holds.used, List.length_append, List.length_singleton]
  · rw [used, ← holds.length]
    exact less
  rw [list, holds.list, ordered, ordered, List.foldl_append]
  rfl

variable {capacity : Nat}

variable {children points : List Nat} {storage : Storage}

theorem appendAll_gives (holds : before.Holds t capacity points)
    (given : Gives (appendAll t children before) s after s') :
    after.Holds t capacity (points ++ children) := by
  induction children generalizing points before s with
  | nil =>
    simp only [appendAll, gives_pure] at given
    obtain ⟨rfl, _⟩ := given
    rwa [List.append_nil]
  | cons child rest ih =>
    simp only [appendAll, gives_bind] at given
    obtain ⟨middle, _, appended, given⟩ := given
    obtain ⟨length, used, less, list⟩ := append_gives (by rw [holds.length]; exact holds.inside)
      appended
    have rest_holds := ih (holds.next child length used less list) given
    rwa [List.append_assoc] at rest_holds

theorem decompose_gives (holds : before.Holds t capacity points)
    (given : Gives (decompose t point before) s after s') :
    scalarOk point = true ∧ after.Holds t capacity (points ++ decomposition t point) := by
  simp only [decompose, gives_bind, gives_charge] at given
  obtain ⟨_, _, ⟨_, rfl⟩, given⟩ := given
  split at given
  · exact absurd given gives_throw
  · rename_i scalar
    rw [Bool.not_eq_true', Bool.not_eq_false] at scalar
    exact ⟨scalar, appendAll_gives holds given⟩

theorem decomposeAll_gives {input : List Nat} (holds : before.Holds t capacity points)
    (given : Gives (decomposeAll t input before) s after s') : (∀ p ∈ input, scalarOk p = true) ∧
      after.Holds t capacity (points ++ input.flatMap (decomposition t)) := by
  induction input generalizing points before s with
  | nil =>
    simp only [decomposeAll, gives_pure] at given
    obtain ⟨rfl, _⟩ := given
    exact ⟨by simp, by rwa [List.flatMap_nil, List.append_nil]⟩
  | cons point rest ih =>
    simp only [decomposeAll, gives_bind] at given
    obtain ⟨middle, _, decomposed, given⟩ := given
    obtain ⟨scalar, next⟩ := decompose_gives holds decomposed
    obtain ⟨scalars, final⟩ := ih next given
    rw [List.append_assoc, ← List.flatMap_cons] at final
    exact ⟨List.forall_mem_cons.mpr ⟨scalar, scalars⟩, final⟩

theorem Storage.Holds.start {buffer : List Nat} :
    (⟨buffer, 0⟩ : Storage).Holds t buffer.length [] := ⟨rfl, rfl, Nat.zero_le _, rfl⟩

theorem shiftUp_affords (combining offset : Nat) (points : List Nat) :
    Affords offset (shiftUp t combining offset points : Metered Result D (Nat × List Nat)) := by
  induction offset generalizing points with
  | zero => exact affords_pure _
  | succ offset ih =>
    rw [shiftUp, Nat.add_comm]
    split
    · exact (affords_charge Result.limit 1).bind fun _ => ih _
    · exact (affords_pure _).mono (Nat.zero_le _)

theorem append_affords (length : storage.points.length = capacity) (room : storage.used < capacity) :
    Affords (capacity + 1) (append t point storage : Metered Result D Storage) := by
  rw [append]
  dsimp only
  rw [if_neg (by omega)]
  refine Affords.mono ((affords_charge Result.limit 1).bind fun _ => ?_) (by omega : 1 + capacity ≤ _)
  split
  · exact Affords.mono ((shiftUp_affords _ storage.used _).bind fun _ => affords_pure _)
      (by omega)
  · exact Affords.mono ((affords_pure _).bind fun _ => affords_pure _) (Nat.zero_le _)

theorem appendAll_affords (holds : storage.Holds t capacity points)
    (room : points.length + children.length ≤ capacity) : Affords (children.length * (capacity + 1))
      (appendAll t children storage : Metered Result D Storage) := by
  induction children generalizing points storage with
  | nil =>
    rw [List.length_nil, Nat.zero_mul]
    exact affords_pure _
  | cons child rest ih =>
    rw [List.length_cons] at room
    rw [List.length_cons, Nat.succ_mul, Nat.add_comm, appendAll]
    refine Affords.bind_of (append_affords holds.length (by rw [holds.used]; omega))
      (fun _ _ _ given => append_gives (by rw [holds.length]; exact holds.inside) given) ?_
    rintro after ⟨length, used, less, list⟩
    refine ih (holds.next child length used less list) ?_
    rw [List.length_append, List.length_singleton]
    omega

theorem decomposeAll_affords {input points : List Nat} {capacity : Nat} {storage : Storage}
    (holds : storage.Holds t capacity points) (scalars : ∀ p ∈ input, scalarOk p = true)
    (room : points.length + (input.flatMap (decomposition t)).length ≤ capacity) :
    Affords (input.length + (input.flatMap (decomposition t)).length * (capacity + 1))
      (decomposeAll t input storage : Metered Result D Storage) := by
  induction input generalizing points storage with
  | nil => exact (affords_pure _).mono (Nat.zero_le _)
  | cons point rest ih =>
    rw [List.flatMap_cons, List.length_append] at room
    rw [List.length_cons, List.flatMap_cons, List.length_append, Nat.add_mul, decomposeAll]
    have one : Affords (1 + (decomposition t point).length * (capacity + 1))
        (decompose t point storage : Metered Result D Storage) := by
      rw [decompose]
      refine (affords_charge Result.limit 1).bind fun _ => ?_
      have scalar : (!scalarOk point) = false := by
        rw [scalars point (List.mem_cons_self ..), Bool.not_true]
      rw [scalar]
      exact appendAll_affords holds (by omega)
    have more : ∀ after : Storage, after.Holds t capacity (points ++ decomposition t point) →
        Affords (rest.length + (rest.flatMap (decomposition t)).length * (capacity + 1))
          (decomposeAll t rest after : Metered Result D Storage) := by
      intro after next
      refine ih next (fun p member => scalars p (List.mem_cons_of_mem _ member)) ?_
      rw [List.length_append]
      omega
    exact (one.bind_of (fun _ _ _ given => (decompose_gives holds given).2) more).mono (by omega)

end

end TinyCrypto.Unicode
