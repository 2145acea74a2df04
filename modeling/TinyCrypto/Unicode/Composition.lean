import Mathlib.Data.List.Chain
import TinyCrypto.Unicode.Ordering
import TinyCrypto.Unicode.Tables

/-! # Canonical composition

`recompose` reads and writes one buffer. What it leaves is the canonical composition of what
it was given: each point combines with the last starter before it unless it is blocked.
-/

namespace TinyCrypto.Unicode

open Library Library.Program Library.Metered

/-- A point combines with the last starter before it: no point between is a starter or has a
    class that is not less. -/
inductive Combines (key : Nat → Nat) (composite : Nat → Nat → Nat → Prop) :
    List Nat → Nat → List Nat → Prop where
  | intro : key starter = 0 → (∀ p ∈ between, key p ≠ 0 ∧ key p < key point) →
      composite starter point value →
      Combines key composite (before ++ starter :: between) point (before ++ value :: between)

inductive Composes (key : Nat → Nat) (composite : Nat → Nat → Nat → Prop) :
    List Nat → List Nat → List Nat → Prop where
  | done : Composes key composite kept [] kept
  | combine : Combines key composite kept point kept' → Composes key composite kept' rest result →
      Composes key composite kept (point :: rest) result
  | keep : (¬∃ kept', Combines key composite kept point kept') →
      Composes key composite (kept ++ [point]) rest result →
      Composes key composite kept (point :: rest) result

structure Kept where
  before : List Nat
  starter : Option Nat
  marks : List Nat
  deriving DecidableEq

def Kept.list (k : Kept) : List Nat := k.before ++ k.starter.toList ++ k.marks

def lastClass (key : Nat → Nat) (marks : List Nat) : Nat := (marks.getLast?.map key).getD 0

section

variable (t : Tables)

def Kept.keep (k : Kept) (point : Nat) : Kept :=
  if combiningClass t point = 0 then ⟨k.list, some point, []⟩
  else ⟨k.before, k.starter, k.marks ++ [point]⟩

def Kept.next (k : Kept) (point : Nat) : Kept := match k.starter with
  | none => k.keep t point
  | some starter =>
    if lastClass (combiningClass t) k.marks = 0 ||
        lastClass (combiningClass t) k.marks < combiningClass t point then
      if composition t starter point ≠ 0 then
        ⟨k.before, some (composition t starter point), k.marks⟩
      else k.keep t point
    else k.keep t point

def composed (points : List Nat) : List Nat := (points.foldl (Kept.next t) ⟨[], none, []⟩).list

end

variable {t : Tables} {D : Type} {s s' : Budgeted D} {key : Nat → Nat}

theorem lastClass_concat (marks : List Nat) (point : Nat) :
    lastClass key (marks ++ [point]) = key point := by
  simp [lastClass]

theorem Kept.list_keep (k : Kept) (point : Nat) : (k.keep t point).list = k.list ++ [point] := by
  rw [Kept.keep]
  split <;> simp [Kept.list]

def Follows (key : Nat → Nat) (a b : Nat) : Prop := key b ≠ 0 → key a ≤ key b

variable {input output : List Nat}

theorem StableSort.follows (sort : StableSort key input output) : output.IsChain (Follows key) := by
  have pairs : output.Pairwise (Follows key) := by
    refine sort.sorted.imp ?_
    intro a b le _
    exact le
  exact pairs.isChain

theorem CanonicalOrder.follows (order : CanonicalOrder key input output) :
    output.IsChain (Follows key) := by
  induction order with
  | run _ sort => exact sort.follows
  | @starter before before' p marks sorted _ zero _ sort ih =>
    rw [List.isChain_append]
    refine ⟨ih, List.isChain_cons.mpr ⟨?_, sort.follows⟩, ?_⟩
    · intro y _ _
      omega
    · intro x _ y first nonzero
      rw [List.head?_cons, Option.mem_some_iff] at first
      rw [← first] at nonzero
      exact absurd zero nonzero

theorem marks_le_last {marks : List Nat} {last : Nat} (nonzero : ∀ p ∈ marks ++ [last], key p ≠ 0)
    (chain : (marks ++ [last]).IsChain (Follows key)) : ∀ p ∈ marks, key p ≤ key last := by
  induction marks with
  | nil => nofun
  | cons mark marks ih =>
    rw [List.cons_append, List.isChain_cons] at chain
    have below := ih (fun p member => nonzero p (List.mem_cons_of_mem _ member)) chain.2
    intro p member
    rcases List.mem_cons.mp member with rfl | member
    · cases marks with
      | nil => exact chain.1 last (by simp) (nonzero last (by simp))
      | cons next marks =>
        have step := chain.1 next (by simp) (nonzero next (by simp))
        exact Nat.le_trans step (below next (List.mem_cons_self ..))
    · exact below p member

structure Kept.Open (key : Nat → Nat) (k : Kept) (unread : List Nat) : Prop where
  starter : ∀ s ∈ k.starter, key s = 0
  front : k.starter = none → k.before = []
  marks : ∀ p ∈ k.marks, key p ≠ 0
  order : (k.marks ++ unread).IsChain (Follows key)

variable {k : Kept}

theorem Kept.Open.unblocked_iff {unread : List Nat} (kept : k.Open key unread) (point : Nat) :
    lastClass key k.marks = 0 ∨ lastClass key k.marks < key point ↔
      ∀ p ∈ k.marks, key p ≠ 0 ∧ key p < key point := by
  obtain ⟨_, _, nonzero, order⟩ := kept
  have chain := order.left_of_append
  generalize k.marks = marks at *
  induction marks using List.reverseRecOn with
  | nil => simp [lastClass]
  | append_singleton marks last =>
    have below := marks_le_last nonzero chain
    have last_nonzero := nonzero last (by simp)
    rw [lastClass_concat]
    constructor
    · intro less p member
      refine ⟨nonzero p member, ?_⟩
      rcases List.mem_append.mp member with member | member
      · have le := below p member
        omega
      · rw [List.mem_singleton.mp member]
        omega
    · intro all
      exact .inr (all last (by simp)).2

theorem lastStarter_unique {before before' marks marks' : List Nat} {starter starter' : Nat}
    (same : before ++ starter :: marks = before' ++ starter' :: marks') (zero : key starter = 0)
    (zero' : key starter' = 0) (nonzero : ∀ p ∈ marks, key p ≠ 0)
    (nonzero' : ∀ p ∈ marks', key p ≠ 0) :
    before = before' ∧ starter = starter' ∧ marks = marks' := by
  induction marks using List.reverseRecOn generalizing marks' with
  | nil =>
    cases marks' using List.reverseRecOn with
    | nil => simpa using same
    | append_singleton marks' last' =>
      rw [← List.cons_append, ← List.append_assoc] at same
      have last := (List.append_inj' same rfl).2
      simp only [List.cons.injEq, and_true] at last
      exact absurd (last ▸ zero) (nonzero' last' (by simp))
  | append_singleton marks last ih =>
    rw [← List.cons_append, ← List.append_assoc] at same
    cases marks' using List.reverseRecOn with
    | nil =>
      have equal := (List.append_inj' same rfl).2
      simp only [List.cons.injEq, and_true] at equal
      exact absurd (equal ▸ zero') (nonzero last (by simp))
    | append_singleton marks' last' =>
      rw [← List.cons_append, ← List.append_assoc] at same
      obtain ⟨front, equal⟩ := List.append_inj' same rfl
      obtain ⟨rfl, rfl, rfl⟩ := ih front (fun p member => nonzero p (by simp [member]))
        fun p member => nonzero' p (by simp [member])
      simp_all

theorem Kept.Open.keep {k : Kept} {point : Nat} {rest : List Nat}
    (kept : k.Open (combiningClass t) (point :: rest)) :
    (k.keep t point).Open (combiningClass t) rest := by
  obtain ⟨starter, front, marks, order⟩ := kept
  rw [Kept.keep]
  split
  · rename_i zero
    refine ⟨?_, nofun, nofun, ?_⟩
    · intro s member
      rw [Option.mem_some_iff] at member
      rwa [← member]
    · exact (List.isChain_cons.mp order.right_of_append).2
  · rename_i nonzero
    refine ⟨starter, front, ?_, by simpa using order⟩
    intro p member
    rcases List.mem_append.mp member with member | member
    · exact marks p member
    · rwa [List.mem_singleton.mp member]

theorem Kept.Open.combine {point value : Nat} {rest : List Nat} (kept : k.Open key (point :: rest))
    (zero : key value = 0) (unblocked : ∀ p ∈ k.marks, key p ≠ 0 ∧ key p < key point) :
    (⟨k.before, some value, k.marks⟩ : Kept).Open key rest := by
  obtain ⟨_, _, marks, order⟩ := kept
  refine ⟨?_, nofun, marks, ?_⟩
  · intro s member
    rw [Option.mem_some_iff] at member
    rwa [← member]
  · have tail := (List.isChain_cons.mp order.right_of_append)
    rw [List.isChain_append]
    refine ⟨order.left_of_append, tail.2, ?_⟩
    intro x last y first nonzero
    have less := (unblocked x (List.mem_of_mem_getLast? last)).2
    have le := tail.1 y first nonzero
    omega

theorem Kept.Open.no_combines {point : Nat} {unread : List Nat} {composite : Nat → Nat → Nat → Prop}
    (kept : k.Open key unread)
    (none_composite : ∀ s ∈ k.starter, (∀ p ∈ k.marks, key p ≠ 0 ∧ key p < key point) →
      ∀ value, ¬composite s point value) :
    ¬∃ kept', Combines key composite k.list point kept' := by
  rintro ⟨kept', combines⟩
  generalize listed : k.list = list at combines
  cases combines with
  | @intro starter between _ value before zero unblocked composed =>
    cases head : k.starter with
    | none =>
      have only : k.list = k.marks := by simp [Kept.list, kept.front head, head]
      rw [only] at listed
      exact kept.marks starter (by simp [listed]) zero
    | some s =>
      have parted : k.list = k.before ++ s :: k.marks := by simp [Kept.list, head]
      rw [parted] at listed
      obtain ⟨_, rfl, rfl⟩ := lastStarter_unique listed (kept.starter s head) zero kept.marks
        fun p member => (unblocked p member).1
      exact none_composite s head unblocked value composed

theorem Kept.Open.step {k : Kept} {point : Nat} {rest result : List Nat} (correct : t.Correct)
    (kept : k.Open (combiningClass t) (point :: rest))
    (composes : (k.next t point).Open (combiningClass t) rest →
      Composes (combiningClass t) (PrimaryComposite t) (k.next t point).list rest result) :
    Composes (combiningClass t) (PrimaryComposite t) k.list (point :: rest) result := by
  have plain (none_composite : ∀ s ∈ k.starter,
      (∀ p ∈ k.marks, combiningClass t p ≠ 0 ∧ combiningClass t p < combiningClass t point) →
        ∀ value, ¬PrimaryComposite t s point value) (next : k.next t point = k.keep t point) :
      Composes (combiningClass t) (PrimaryComposite t) k.list (point :: rest) result := by
    rw [next] at composes
    refine .keep (kept.no_combines none_composite) ?_
    rw [← k.list_keep]
    exact composes kept.keep
  cases head : k.starter with
  | none =>
    have next : k.next t point = k.keep t point := by rw [Kept.next, head]
    exact plain (by simp [head]) next
  | some starter =>
    by_cases unblocked : ∀ p ∈ k.marks,
        combiningClass t p ≠ 0 ∧ combiningClass t p < combiningClass t point
    · have look := (kept.unblocked_iff point).mpr unblocked
      by_cases nonzero : composition t starter point ≠ 0
      · have composite := (composition_iff correct).mp ⟨rfl, nonzero⟩
        have zero := (combiningClass_iff correct).mpr (correct.starters composite)
        have next : k.next t point = ⟨k.before, some (composition t starter point), k.marks⟩ := by
          rw [Kept.next, head]
          simp [look, nonzero]
        rw [next] at composes
        have combines : Combines (combiningClass t) (PrimaryComposite t) k.list point
            (⟨k.before, some (composition t starter point), k.marks⟩ : Kept).list := by
          have parted : Combines (combiningClass t) (PrimaryComposite t)
              (k.before ++ starter :: k.marks) point
              (k.before ++ composition t starter point :: k.marks) :=
            .intro (kept.starter starter head) unblocked composite
          simpa [Kept.list, head] using parted
        exact .combine combines (composes (kept.combine zero unblocked))
      · have next : k.next t point = k.keep t point := by
          rw [Kept.next, head]
          simp only [nonzero, if_false, ite_self]
        refine plain ?_ next
        intro s member _ value composite
        rw [head, Option.mem_some_iff] at member
        rw [← member] at composite
        obtain ⟨same, pos⟩ := (composition_iff correct).mpr composite
        rw [same] at nonzero
        exact nonzero pos
    · have next : k.next t point = k.keep t point := by
        rw [Kept.next, head]
        have look := fun given => unblocked ((kept.unblocked_iff point).mp given)
        dsimp only
        rw [if_neg (by simpa using look)]
      exact plain (fun _ _ given => absurd given unblocked) next

theorem Kept.Open.composes {k : Kept} {unread : List Nat} (correct : t.Correct)
    (kept : k.Open (combiningClass t) unread) :
    Composes (combiningClass t) (PrimaryComposite t) k.list unread
      (unread.foldl (Kept.next t) k).list := by
  induction unread generalizing k with
  | nil => exact .done
  | cons point rest ih => exact kept.step correct ih

theorem composed_composes (correct : t.Correct)
    (order : CanonicalOrder (combiningClass t) input output) :
    Composes (combiningClass t) (PrimaryComposite t) [] output (composed t output) :=
  @Kept.Open.composes t ⟨[], none, []⟩ output correct ⟨nofun, fun _ => rfl, nofun, order.follows⟩

/-- The variables of the loop before the point at `i`: what is kept lies before it, and what
    is not read yet is as it was. -/
structure Composing.Holds (t : Tables) (original : List Nat) (i : Nat) (k : Kept) (state : Composing) :
    Prop where
  length : state.points.length = original.length
  output : state.output = k.list.length
  inside : state.output ≤ i
  kept : state.points.take state.output = k.list
  unread : state.points.drop i = original.drop i
  starter : state.starter = k.starter.map fun _ => k.before.length
  previous : state.previousClass = lastClass (combiningClass t) k.marks

theorem Composing.Holds.keep {original : List Nat} {i point : Nat} {k : Kept} {state : Composing}
    (holds : state.Holds t original i k) (room : i < original.length) :
    (⟨state.points.set state.output point, state.output + 1,
      if combiningClass t point = 0 then some state.output else state.starter,
      combiningClass t point⟩ : Composing).Holds t original (i + 1) (k.keep t point) := by
  obtain ⟨length, output, inside, kept, unread, starter, previous⟩ := holds
  have less : state.output < state.points.length := by omega
  refine ⟨by simp [length], ?_, by simp [inside], ?_, ?_, ?_, ?_⟩
  · simp [k.list_keep, output]
  · rw [k.list_keep, ← kept]
    exact take_set_concat less point
  · rw [List.drop_set_of_lt (by omega), ← List.drop_drop, unread, List.drop_drop]
  · rw [Kept.keep]
    split
    · simp [output]
    · exact starter
  · rw [Kept.keep]
    split
    · rename_i zero
      exact zero
    · dsimp only
      rw [lastClass_concat]

theorem Composing.Holds.step {original : List Nat} {i : Nat} {k : Kept} {state : Composing}
    (holds : state.Holds t original i k) (room : i < original.length) :
    (recomposeStep t state i).Holds t original (i + 1) (k.next t (original.getD i 0)) := by
  have read : state.points.getD i 0 = original.getD i 0 := by
    have first := congrArg (List.getD · 0 0) holds.unread
    simpa using first
  have keep := @Composing.Holds.keep t original i (original.getD i 0) k state holds room
  obtain ⟨length, output, inside, kept, unread, starter, previous⟩ := holds
  rw [recomposeStep, Kept.next, read, starter, previous]
  cases head : k.starter with
  | none =>
    rw [head] at starter
    rw [starter] at keep
    exact keep
  | some last =>
    have parted : k.list = k.before ++ last :: k.marks := by simp [Kept.list, head]
    have before_output : k.before.length < state.output := by
      rw [output, parted, List.length_append, List.length_cons]
      omega
    have at_starter : state.points.getD k.before.length 0 = last := by
      have listed := congrArg (List.getD · k.before.length 0) kept
      rw [parted] at listed
      simpa [List.getElem?_take, before_output] using listed
    rw [head] at starter
    rw [starter] at keep
    simp only [Option.map_some, at_starter]
    split
    · split
      · refine ⟨by simp [length], ?_, by simp only; omega, ?_, ?_, rfl, rfl⟩
        · rw [output, parted]
          simp [Kept.list]
        · rw [List.take_set, kept, parted]
          simp [Kept.list]
        · rw [List.drop_set_of_lt (by omega), ← List.drop_drop, unread, List.drop_drop]
      · exact keep
    · exact keep

theorem recomposeLoop_gives {original : List Nat} {count i : Nat} {state after : Composing}
    (holds : state.Holds t original i k) (room : i + count ≤ original.length)
    (given : Gives (recomposeLoop t i count state) s after s') : after.Holds t original (i + count)
      (((original.drop i).take count).foldl (Kept.next t) k) := by
  induction count generalizing i k state s with
  | zero =>
    simp only [recomposeLoop, gives_pure] at given
    obtain ⟨rfl, _⟩ := given
    simpa using holds
  | succ count ih =>
    simp only [recomposeLoop, gives_bind, gives_charge] at given
    obtain ⟨_, _, ⟨_, rfl⟩, given⟩ := given
    have room_here : i < original.length := by omega
    have final := ih (holds.step room_here) (by omega) given
    have parts : (original.drop i).take (count + 1) =
        original.getD i 0 :: (original.drop (i + 1)).take count := by
      rw [List.drop_eq_getElem_cons (by omega), List.take_succ_cons]
      simp [room_here]
    rw [parts, List.foldl_cons, show i + (count + 1) = i + 1 + count by omega]
    exact final

theorem recompose_gives {before after : Storage} (inside : before.used ≤ before.points.length)
    (given : Gives (recompose t before) s after s') :
    after.points.length = before.points.length ∧ after.used ≤ before.used ∧
      after.list = composed t before.list := by
  simp only [recompose, gives_bind, gives_pure] at given
  obtain ⟨state, _, looped, rfl, _⟩ := given
  have start : (⟨before.points, 0, none, 0⟩ : Composing).Holds t before.points 0
      ⟨[], none, []⟩ := ⟨rfl, rfl, le_rfl, rfl, rfl, rfl, rfl⟩
  obtain ⟨length, _, within, kept, _⟩ := recomposeLoop_gives start (by omega) looped
  refine ⟨length, by simpa using within, ?_⟩
  rw [Storage.list, composed, kept]
  rfl

theorem recomposeLoop_affords (i count : Nat) (state : Composing) :
    Affords count (recomposeLoop t i count state : Metered Result D Composing) := by
  induction count generalizing i state with
  | zero => exact affords_pure _
  | succ count ih =>
    rw [recomposeLoop, Nat.add_comm]
    exact (affords_charge Result.limit 1).bind fun _ => ih _ _

theorem recompose_affords (storage : Storage) :
    Affords storage.used (recompose t storage : Metered Result D Storage) :=
  (recomposeLoop_affords 0 storage.used _).bind fun _ => affords_pure _

end TinyCrypto.Unicode
