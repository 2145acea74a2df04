import Mathlib.Data.List.Lex
import Mathlib.Order.Nat
import Mathlib.Data.Prod.Lex

/-! # Choosing by rank

A scan keeps one choice. A candidate of a lower rank is dropped, one of a higher rank replaces
the choice, and one of the same rank is merged into it. What holds of the choice is said of the
candidates of the highest rank alone.
-/

namespace Library

def orderSign {κ : Type} [LinearOrder κ] (left right : κ) : Int :=
  if left < right then -1 else if right < left then 1 else 0

section

variable {κ : Type} [LinearOrder κ] {left right : κ}

theorem orderSign_of_lt (less : left < right) : orderSign left right = -1 := if_pos less

theorem orderSign_of_gt (greater : right < left) : orderSign left right = 1 := by
  unfold orderSign
  rw [if_neg greater.not_gt, if_pos greater]

theorem orderSign_self : orderSign left left = 0 := by
  unfold orderSign
  rw [if_neg (lt_irrefl left), if_neg (lt_irrefl left)]

theorem orderSign_congr {κ' : Type} [LinearOrder κ'] {left' right' : κ'}
    (less : left < right ↔ left' < right') (greater : right < left ↔ right' < left') :
    orderSign left right = orderSign left' right' := by
  rcases lt_trichotomy left right with lower | rfl | higher
  · rw [orderSign_of_lt lower, orderSign_of_lt (less.mp lower)]
  · have same : left' = right' :=
      le_antisymm (not_lt.mp fun higher => lt_irrefl _ (greater.mpr higher))
        (not_lt.mp fun lower => lt_irrefl _ (less.mpr lower))
    rw [same, orderSign_self, orderSign_self]
  · rw [orderSign_of_gt higher, orderSign_of_gt (greater.mp higher)]

theorem orderSign_neg : orderSign left right < 0 ↔ left < right := by
  unfold orderSign
  split
  · simp [*]
  · split <;> simp [*]

theorem orderSign_pos : 0 < orderSign left right ↔ right < left := by
  unfold orderSign
  split
  · rename_i less
    simp [less.le]
  · split <;> simp [*]

theorem orderSign_zero : orderSign left right = 0 ↔ left = right := by
  unfold orderSign
  split
  · rename_i less
    simp [less.ne]
  · split
    · rename_i greater
      simp [greater.ne']
    · rename_i notLess notGreater
      simp [le_antisymm (not_lt.mp notGreater) (not_lt.mp notLess)]

end

namespace Ranking

variable {A S κ : Type} [LinearOrder κ] (rank : A → κ) (rankOf : S → κ) (fresh : A → S)
  (tie : S → A → S)

def step (chosen : Option S) (a : A) : S := match chosen with
  | none => fresh a
  | some s =>
    if rank a < rankOf s then s
    else if rankOf s < rank a then fresh a
    else tie s a

/-- After the candidates `as` the choice has the highest rank, and `P` holds of it and the
    candidates of that rank. -/
def Holds (P : List A → S → Prop) (as : List A) : Option S → Prop
  | none => as = []
  | some s => (∀ a ∈ as, rank a ≤ rankOf s) ∧ P (as.filter (rank · = rankOf s)) s

structure Keeps (P : List A → S → Prop) : Prop where
  freshRank : ∀ a, rankOf (fresh a) = rank a
  tieRank : ∀ s a, rank a = rankOf s → rankOf (tie s a) = rankOf s
  start : ∀ a, P [a] (fresh a)
  merge : ∀ as s a, P as s → (∀ b ∈ as, rank b = rankOf s) → rank a = rankOf s →
    P (as ++ [a]) (tie s a)

variable {rank rankOf fresh tie} {P : List A → S → Prop} {as : List A} {a : A}

theorem mem_rank {bound : κ} : a ∈ as.filter (rank · = bound) ↔ a ∈ as ∧ rank a = bound := by
  rw [List.mem_filter, decide_eq_true_iff]

theorem filter_eq_nil_of_lt {bound : κ} (below : ∀ b ∈ as, rank b < bound) :
    as.filter (rank · = bound) = [] := by
  rw [List.filter_eq_nil_iff]
  intro b member same
  exact absurd (of_decide_eq_true same) (below b member).ne

section

variable {s s' : S}

theorem Holds.start (fits : rankOf s = rank a) (single : P [a] s) :
    Holds rank rankOf P [a] (some s) := by
  refine ⟨?_, ?_⟩
  · intro b member
    rw [List.mem_singleton.mp member, fits]
  · rwa [fits, List.filter_singleton, decide_eq_true rfl]

theorem Holds.lower (holds : Holds rank rankOf P as (some s)) (less : rank a < rankOf s) :
    Holds rank rankOf P (as ++ [a]) (some s) := by
  obtain ⟨highest, top⟩ := holds
  refine ⟨?_, ?_⟩
  · intro b member
    rcases List.mem_append.mp member with old | new
    · exact highest b old
    · exact List.mem_singleton.mp new ▸ less.le
  · rwa [List.filter_append, @filter_eq_nil_of_lt _ _ _ rank [a] _ fun b member =>
      List.mem_singleton.mp member ▸ less, List.append_nil]

theorem Holds.higher (holds : Holds rank rankOf P as (some s)) (greater : rankOf s < rank a)
    (fits : rankOf s' = rank a) (single : P [a] s') : Holds rank rankOf P (as ++ [a]) (some s') := by
  obtain ⟨highest, _⟩ := holds
  refine ⟨?_, ?_⟩
  · intro b member
    rw [fits]
    rcases List.mem_append.mp member with old | new
    · exact (lt_of_le_of_lt (highest b old) greater).le
    · exact (congrArg rank (List.mem_singleton.mp new)).le
  · rwa [fits, List.filter_append, filter_eq_nil_of_lt fun b member =>
      lt_of_le_of_lt (highest b member) greater, List.nil_append, List.filter_singleton,
      decide_eq_true rfl]

theorem Holds.same (holds : Holds rank rankOf P as (some s)) (equal : rank a = rankOf s)
    (fits : rankOf s' = rankOf s)
    (merge : ∀ top, (∀ b ∈ top, b ∈ as ∧ rank b = rankOf s) → P top s → P (top ++ [a]) s') :
    Holds rank rankOf P (as ++ [a]) (some s') := by
  obtain ⟨highest, top⟩ := holds
  refine ⟨?_, ?_⟩
  · intro b member
    rw [fits]
    rcases List.mem_append.mp member with old | new
    · exact highest b old
    · rw [List.mem_singleton.mp new, equal]
  · rw [fits, List.filter_append, List.filter_singleton, decide_eq_true equal]
    exact merge _ (fun b member => mem_rank.mp member) top

end

theorem Holds.step (keeps : Keeps rank rankOf fresh tie P) {chosen : Option S}
    (holds : Holds rank rankOf P as chosen) :
    Holds rank rankOf P (as ++ [a]) (some (step rank rankOf fresh tie chosen a)) := by
  cases chosen with
  | none =>
    have empty : as = [] := holds
    subst empty
    exact .start (keeps.freshRank a) (keeps.start a)
  | some s =>
    unfold Ranking.step
    dsimp only
    split
    · exact holds.lower ‹_›
    split
    · exact holds.higher ‹_› (keeps.freshRank a) (keeps.start a)
    · rename_i notLower notHigher
      have equal : rank a = rankOf s := le_antisymm (not_lt.mp notHigher) (not_lt.mp notLower)
      exact holds.same equal (keeps.tieRank s a equal) fun top members held =>
        keeps.merge top s a held (fun b member => (members b member).2) equal

theorem Holds.fold (keeps : Keeps rank rankOf fresh tie P) {chosen : Option S} {before : List A}
    (holds : Holds rank rankOf P before chosen) (as : List A) : Holds rank rankOf P (before ++ as)
      (as.foldl (fun s a => some (Ranking.step rank rankOf fresh tie s a)) chosen) := by
  induction as generalizing chosen before with
  | nil => rwa [List.append_nil]
  | cons a as ih =>
    rw [List.append_cons]
    exact ih (Holds.step keeps holds)

end Ranking

end Library
