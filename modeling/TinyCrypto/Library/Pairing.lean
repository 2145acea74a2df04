import Mathlib.Data.List.Forall2
import Mathlib.Data.List.Perm.Basic
import Mathlib.Data.List.Count

/-! # First-fit pairing

Elements of a list are paired with elements of another, each with the first that is free and
the same. A comparison can also be undetermined. First fit misses no pairing when sameness
is an equivalence.
-/

namespace Library

inductive Comparison where
  | mismatch
  | matching
  | undetermined
  deriving DecidableEq

variable {A : Type}

def Pairs (same : A → A → Prop) (left right : List A) : Prop :=
  ∃ order, order.Perm right ∧ List.Forall₂ same left order

section

variable {same : A → A → Prop} {left right : List A}

theorem Pairs.length (pairs : Pairs same left right) : left.length = right.length := by
  obtain ⟨order, perm, all⟩ := pairs
  rw [all.length_eq, perm.length_eq]

theorem Pairs.refl (reflexive : ∀ a, same a a) (left : List A) : Pairs same left left :=
  ⟨left, .refl left, List.forall₂_same.mpr fun a _ => reflexive a⟩

theorem Pairs.symm (symmetric : ∀ {a b}, same a b → same b a) (pairs : Pairs same left right) :
    Pairs same right left := by
  obtain ⟨order, perm, all⟩ := pairs
  have flipped : List.Forall₂ same order left := all.flip.imp fun _ _ => symmetric
  obtain ⟨order', all', perm'⟩ := List.perm_comp_forall₂ perm.symm flipped
  exact ⟨order', perm', all'⟩

theorem Pairs.trans {last : List A} (transitive : ∀ {a b d}, same a b → same b d → same a d)
    (pairs : Pairs same left right) (pairs' : Pairs same right last) : Pairs same left last := by
  obtain ⟨order, perm, all⟩ := pairs
  obtain ⟨order', perm', all'⟩ := pairs'
  obtain ⟨through, all'', perm''⟩ := List.perm_comp_forall₂ perm all'
  refine ⟨through, perm''.trans perm', ?_⟩
  clear perm perm' perm''
  induction all generalizing through with
  | nil => exact all''
  | cons first _ ih =>
    cases all'' with
    | cons second rest => exact .cons (transitive first second) (ih _ rest)

end

namespace Pairing

section

variable (pair : A → A → Comparison)

/-- The right elements after a search for the first free one that matches, and whether a free
    one is undetermined. -/
def scan (a : A) : (undetermined : Bool) → List (A × Bool) → Option (List (A × Bool)) × Bool
  | undetermined, [] => (none, undetermined)
  | undetermined, (b, true) :: rest =>
    let after := scan a undetermined rest
    (after.1.map ((b, true) :: ·), after.2)
  | undetermined, (b, false) :: rest =>
    if pair a b = .matching then (some ((b, true) :: rest), undetermined)
    else
      let after := scan a (undetermined || pair a b = .undetermined) rest
      (after.1.map ((b, false) :: ·), after.2)

def pairLoop (count : Nat) : (seen : Nat) → (undetermined : Bool) → List A → List (A × Bool) →
    Comparison
  | seen, undetermined, [], _ =>
    if seen ≠ count then .mismatch else if undetermined then .undetermined else .matching
  | seen, undetermined, a :: rest, right =>
    if seen + 1 > count then .mismatch
    else
      match scan pair a false right with
      | (some right, _) => pairLoop count (seen + 1) undetermined rest right
      | (none, true) => pairLoop count (seen + 1) true rest right
      | (none, false) => .mismatch

def firstFit (left right : List A) : Comparison :=
  pairLoop pair right.length 0 false left (right.map (·, false))

end

variable {pair : A → A → Comparison}

def taken (right : List (A × Bool)) : List A := (right.filter (·.2)).map (·.1)

def free (right : List (A × Bool)) : List A := (right.filter (!·.2)).map (·.1)

theorem taken_free (right : List (A × Bool)) :
    (taken right ++ free right).Perm (right.map (·.1)) := by
  rw [taken, free, ← List.map_append]
  exact (List.filter_append_perm (·.2) right).map _

theorem scan_cases (a : A) (undetermined : Bool) (right : List (A × Bool)) :
    (∃ b before after, right = before ++ (b, false) :: after ∧ pair a b = .matching ∧
      (scan pair a undetermined right).1 = some (before ++ (b, true) :: after)) ∨
    ((scan pair a undetermined right).1 = none ∧ (∀ b ∈ free right, pair a b ≠ .matching) ∧
      ((scan pair a undetermined right).2 = true ↔
        undetermined = true ∨ ∃ b ∈ free right, pair a b = .undetermined)) := by
  induction right generalizing undetermined with
  | nil => exact Or.inr ⟨rfl, nofun, by simp [scan, free]⟩
  | cons entry rest ih =>
    obtain ⟨b, mark⟩ := entry
    cases mark with
    | true =>
      have frees : free ((b, true) :: rest) = free rest := rfl
      rcases ih undetermined with ⟨c', before, after, rfl, matching, found⟩ |
          ⟨missing, others, unsure⟩
      · exact Or.inl ⟨c', (b, true) :: before, after, rfl, matching, by rw [scan, found]; rfl⟩
      · exact Or.inr ⟨by rw [scan, missing]; rfl, others, unsure⟩
    | false =>
      have frees : free ((b, false) :: rest) = b :: free rest := rfl
      rw [scan, frees]
      split
      · rename_i matching
        exact Or.inl ⟨b, [], rest, rfl, matching, rfl⟩
      · rename_i other
        rcases ih (undetermined || pair a b = .undetermined) with
          ⟨c', before, after, rfl, matching, found⟩ | ⟨missing, others, unsure⟩
        · refine Or.inl ⟨c', (b, false) :: before, after, rfl, matching, ?_⟩
          simp only [found, Option.map_some, List.cons_append]
        · refine Or.inr ⟨by simp only [missing, Option.map_none], ?_, ?_⟩
          · exact List.forall_mem_cons.mpr ⟨other, others⟩
          · simp only [unsure, Bool.or_eq_true, decide_eq_true_eq, List.exists_mem_cons_iff,
              or_assoc]

def Held (pair : A → A → Comparison) (found : List A) (right : List (A × Bool)) : Prop :=
  ∃ order, order.Perm (taken right) ∧ List.Forall₂ (pair · · = .matching) found order

/-- A left element for which nothing matches that is free by then. -/
def Stuck (pair : A → A → Comparison) (free_differs : A → A → Prop) (left right : List A) : Prop :=
  ∃ before a after marked found, left = before ++ a :: after ∧ marked.map (·.1) = right ∧
    found.Sublist before ∧ Held pair found marked ∧ ∀ b ∈ free marked, free_differs a b

/-- The state of the loop after some left elements: those that are decided were found, and
    all were found unless the outcome is open. -/
structure Progress (pair : A → A → Comparison) (decided : A → Bool) (right seen : List A)
    (undetermined : Bool) (marked : List (A × Bool)) : Prop where
  entries : marked.map (·.1) = right
  found : ∃ found, found.Sublist seen ∧ (seen.filter decided).Sublist found ∧
    Held pair found marked ∧ (undetermined = false → found = seen)
  stuck : undetermined = true → Stuck pair (pair · · ≠ .matching) seen right

theorem mem_free {marked : List (A × Bool)} {b : A} (member : b ∈ free marked) :
    b ∈ marked.map (·.1) := by
  rw [free, List.mem_map] at member
  obtain ⟨entry, listed, rfl⟩ := member
  exact List.mem_map_of_mem (List.mem_filter.mp listed).1

theorem Stuck.append {differs : A → A → Prop} {left right : List A}
    (stuck : Stuck pair differs left right) (more : List A) :
    Stuck pair differs (left ++ more) right := by
  obtain ⟨before, a, after, marked, found, rfl, rest⟩ := stuck
  exact ⟨before, a, after ++ more, marked, found, by simp, rest⟩

theorem Held.take {found : List A} {before after : List (A × Bool)} {a b : A}
    (held : Held pair found (before ++ (b, false) :: after)) (matching : pair a b = .matching) :
    Held pair (found ++ [a]) (before ++ (b, true) :: after) := by
  obtain ⟨order, perm, all⟩ := held
  refine ⟨order ++ [b], ?_, List.rel_append all (.cons matching .nil)⟩
  have parts : taken (before ++ (b, false) :: after) = taken before ++ taken after := by
    simp [taken]
  have parts' : taken (before ++ (b, true) :: after) = taken before ++ b :: taken after := by
    simp [taken]
  rw [parts] at perm
  rw [parts']
  exact (perm.append_right [b]).trans (by
    rw [List.append_assoc]
    exact (List.perm_append_singleton b (taken after)).append_left (taken before))

variable {decided : A → Bool} {right seen rest : List A} {undetermined : Bool}
  {marked : List (A × Bool)}

theorem Progress.take {a b : A} {before after : List (A × Bool)}
    (progress : Progress pair decided right seen undetermined (before ++ (b, false) :: after))
    (matching : pair a b = .matching) :
    Progress pair decided right (seen ++ [a]) undetermined (before ++ (b, true) :: after) := by
  obtain ⟨entries, ⟨found, sub, sure, held, all⟩, stuck⟩ := progress
  refine ⟨by simpa using entries, ⟨found ++ [a], sub.append_right [a], ?_, held.take matching, ?_⟩,
    fun unsure => (stuck unsure).append [a]⟩
  · rw [List.filter_append]
    exact sure.append (List.filter_sublist)
  · intro clear
    rw [all clear]

theorem Progress.pass {a : A} (progress : Progress pair decided right seen undetermined marked)
    (others : ∀ b ∈ free marked, pair a b ≠ .matching) (unsure : decided a = false) :
    Progress pair decided right (seen ++ [a]) true marked := by
  obtain ⟨entries, ⟨found, sub, sure, held, _⟩, _⟩ := progress
  refine ⟨entries, ⟨found, sub.trans (List.sublist_append_left ..), ?_, held, nofun⟩, ?_⟩
  · rw [List.filter_append]
    simpa [unsure] using sure
  · intro _
    exact ⟨seen, a, [], marked, found, rfl, entries, sub, held, others⟩

theorem pairLoop_cases (sure : ∀ a ∈ rest, decided a = true → ∀ b ∈ right, pair a b ≠ .undetermined)
    (progress : Progress pair decided right seen undetermined marked) :
    (pairLoop pair right.length seen.length undetermined rest marked = .mismatch ∧
      ((seen ++ rest).length ≠ right.length ∨
        Stuck pair (pair · · = .mismatch) (seen ++ rest) right)) ∨
    ∃ undetermined' marked', Progress pair decided right (seen ++ rest) undetermined' marked' ∧
      (seen ++ rest).length = right.length ∧
      pairLoop pair right.length seen.length undetermined rest marked =
        if undetermined' then .undetermined else .matching := by
  induction rest generalizing seen undetermined marked with
  | nil =>
    rw [List.append_nil, pairLoop]
    split
    · rename_i different
      exact Or.inl ⟨rfl, Or.inl different⟩
    · rename_i same
      exact Or.inr ⟨undetermined, marked, progress, not_not.mp same, rfl⟩
  | cons a rest ih =>
    have next : seen ++ a :: rest = seen ++ [a] ++ rest := by simp
    have size : (seen ++ [a]).length = seen.length + 1 := by simp
    have sure_rest : ∀ x ∈ rest, decided x = true → ∀ b ∈ right, pair x b ≠ .undetermined :=
      fun x member => sure x (List.mem_cons_of_mem _ member)
    rw [pairLoop]
    split
    · rename_i more
      refine Or.inl ⟨rfl, Or.inl ?_⟩
      rw [List.length_append, List.length_cons]
      omega
    · rcases @scan_cases _ pair a false marked with
        ⟨b, before, after, rfl, matching, found⟩ | ⟨missing, others, unsure⟩
      · have after_found := ih sure_rest (progress.take matching)
        rw [← next, size] at after_found
        generalize outcome : scan pair a false (before ++ (b, false) :: after) = result at found ⊢
        obtain ⟨first, second⟩ := result
        dsimp only at found
        rw [found]
        exact after_found
      · generalize outcome : scan pair a false marked = result at missing unsure ⊢
        obtain ⟨first, second⟩ := result
        dsimp only at missing unsure
        rw [missing]
        cases second with
        | true =>
          obtain ⟨b, member, open_pair⟩ : ∃ b ∈ free marked, pair a b = .undetermined := by
            simpa using unsure
          have undecided : decided a = false := by
            rw [← Bool.not_eq_true]
            intro certain
            refine sure a (List.mem_cons_self ..) certain b ?_ open_pair
            rw [← progress.entries]
            exact mem_free member
          have after_passed := ih sure_rest (progress.pass others undecided)
          rw [← next, size] at after_passed
          exact after_passed
        | false =>
          obtain ⟨entries, ⟨found, sub, _, held, _⟩, _⟩ := progress
          refine Or.inl ⟨rfl, Or.inr ⟨seen, a, rest, marked, found, rfl, entries, sub, held, ?_⟩⟩
          intro b member
          have other := others b member
          have certain : pair a b ≠ .undetermined := by
            intro open_pair
            have wrong := unsure.mpr (Or.inr ⟨b, member, open_pair⟩)
            cases wrong
          cases verdict : pair a b with
          | mismatch => rfl
          | matching => exact absurd verdict other
          | undetermined => exact absurd verdict certain

theorem Progress.start (right : List A) :
    Progress pair decided right [] false (right.map (·, false)) := by
  have nothing : taken (right.map (·, false)) = ([] : List A) := by
    simp [taken, List.filter_eq_nil_iff]
  have entries : (right.map (·, false)).map (·.1) = right := by
    rw [List.map_map]
    exact List.map_id right
  exact ⟨entries, ⟨[], .slnil, .slnil, ⟨[], by rw [nothing], .nil⟩, fun _ => rfl⟩, nofun⟩

theorem firstFit_cases {left : List A}
    (sure : ∀ a ∈ left, decided a = true → ∀ b ∈ right, pair a b ≠ .undetermined) :
    (firstFit pair left right = .mismatch ∧ (left.length ≠ right.length ∨
      Stuck pair (pair · · = .mismatch) left right)) ∨
    ∃ undetermined marked, Progress pair decided right left undetermined marked ∧
      left.length = right.length ∧
      firstFit pair left right = if undetermined then .undetermined else .matching :=
  @pairLoop_cases A pair decided right [] left false (right.map (·, false)) sure (.start right)

theorem pairs_countP {same : A → A → Prop} {left : List A} {test : A → Bool}
    (respects : ∀ a b, same a b → test a = test b) (all : List.Forall₂ same left right) :
    left.countP test = right.countP test := by
  induction all with
  | nil => rfl
  | cons first _ ih => rw [List.countP_cons, List.countP_cons, ih, respects _ _ first]

theorem Held.count_lt {test : A → Bool} {before after found : List A} {a : A}
    (respects : ∀ a b, pair a b = .matching → test a = test b)
    (entries : marked.map (·.1) = right) (sub : found.Sublist before)
    (held : Held pair found marked) (here : test a = true)
    (nowhere : ∀ b ∈ free marked, test b = false) :
    right.countP test < (before ++ a :: after).countP test := by
  obtain ⟨order, perm, all⟩ := held
  have parted := (taken_free marked).countP_eq test
  have none_free : (free marked).countP test = 0 := by
    rw [List.countP_eq_zero]
    intro b member
    rw [nowhere b member]
    exact Bool.false_ne_true
  rw [entries, List.countP_append, none_free, ← perm.countP_eq, ← pairs_countP respects all]
    at parted
  have fewer := sub.countP_le (p := test)
  rw [List.countP_append, List.countP_cons, if_pos here]
  omega

def Same (pair : A → A → Comparison) (a b : A) : Prop := pair a b = .matching

theorem Stuck.not_pairs {differs : A → A → Prop} {left : List A} (same : Equivalence (Same pair))
    (other : ∀ a b, differs a b → pair a b ≠ .matching)
    (stuck : Stuck pair differs left right) : ¬Pairs (Same pair) left right := by
  obtain ⟨before, a, after, marked, found, rfl, entries, sub, held, differ⟩ := stuck
  rintro ⟨order, perm, all⟩
  have respects : ∀ x y, pair x y = .matching →
      decide (pair a x = .matching) = decide (pair a y = .matching) := by
    intro x y joined
    rw [decide_eq_decide]
    exact ⟨fun first => same.trans first joined, fun first => same.trans first (same.symm joined)⟩
  have fewer := @Held.count_lt A pair right marked (fun b => pair a b = .matching) before after
    found a respects entries sub held (by simpa [Same] using same.refl a) fun b member => by
      simpa using other a b (differ b member)
  have equal := pairs_countP respects all
  rw [perm.countP_eq] at equal
  omega

theorem firstFit_matching {left : List A} (same : Equivalence (Same pair)) :
    firstFit pair left right = .matching ↔ Pairs (Same pair) left right := by
  rcases @firstFit_cases A pair (fun _ => false) right left (by simp) with
    ⟨outcome, sizes | stuck⟩ | ⟨undetermined, marked, progress, sizes, outcome⟩
  · rw [outcome]
    exact ⟨nofun, fun pairs => absurd pairs.length sizes⟩
  · rw [outcome]
    refine ⟨nofun, fun pairs => absurd pairs (stuck.not_pairs same ?_)⟩
    intro a b differs matching
    rw [differs] at matching
    cases matching
  · rw [outcome]
    obtain ⟨entries, ⟨found, sub, _, held, all⟩, stuck⟩ := progress
    cases undetermined with
    | true =>
      exact ⟨nofun, fun pairs => absurd pairs ((stuck rfl).not_pairs same fun _ _ other => other)⟩
    | false =>
      refine ⟨fun _ => ?_, fun _ => rfl⟩
      obtain ⟨order, perm, paired⟩ := held
      rw [all rfl] at paired
      have parted := taken_free marked
      rw [entries] at parted
      have size := parted.length_eq
      rw [List.length_append, ← perm.length_eq, ← paired.length_eq, sizes] at size
      have nothing : free marked = [] := List.length_eq_zero_iff.mp (by omega)
      rw [nothing, List.append_nil] at parted
      exact ⟨order, perm.trans parted, paired⟩

section

variable {K : Type} {kind : A → K} {left : List A}

/-- Elements of different kinds mismatch; decided elements are told apart, others of one kind
    are not. -/
structure Kinds (pair : A → A → Comparison) (kind : A → K) (decided : A → Bool) : Prop where
  apart : ∀ a b, kind a ≠ kind b → pair a b = .mismatch
  sure : ∀ a b, decided a = true → decided b = true → pair a b ≠ .undetermined
  unsure : ∀ a b, kind a = kind b → decided a = false → pair a b ≠ .mismatch
  alike : ∀ a b, pair a b = .matching → decided a = decided b

/-- Elements of a kind are all decided or all open, and as many of each are open on both
    sides. -/
structure Uniform (kind : A → K) (decided : A → Bool) (left right : List A) : Prop where
  kinds : ∀ a ∈ left ++ right, ∀ b ∈ left ++ right, kind a = kind b → decided a = decided b
  many : ((left.filter (!decided ·)).map kind).Perm ((right.filter (!decided ·)).map kind)

theorem Uniform.symm (uniform : Uniform kind decided left right) :
    Uniform kind decided right left := by
  refine ⟨fun a first b second => uniform.kinds a ?_ b ?_, uniform.many.symm⟩
  · simpa [or_comm] using first
  · simpa [or_comm] using second

theorem Kinds.kind_eq (kinds : Kinds pair kind decided) {a b : A}
    (matching : pair a b = .matching) : kind a = kind b := by
  by_contra different
  rw [kinds.apart a b different] at matching
  cases matching

theorem Uniform.count_open [DecidableEq K] (uniform : Uniform kind decided left right) {a : A}
    (member : a ∈ left) (undecided : decided a = false) :
    left.countP (kind · = kind a) = right.countP (kind · = kind a) := by
  have only : ∀ list : List A, (∀ b ∈ list, b ∈ left ++ right) →
      list.countP (kind · = kind a) = ((list.filter (!decided ·)).map kind).countP (· = kind a) := by
    intro list inside
    rw [List.countP_map, List.countP_filter]
    refine List.countP_congr fun b listed => ?_
    simp only [decide_eq_true_eq, Function.comp_apply, Bool.and_eq_true, Bool.not_eq_true']
    refine ⟨fun same => ⟨same, ?_⟩, fun both => both.1⟩
    rw [uniform.kinds b (inside b listed) a (by simp [member]) same, undecided]
  rw [only left (by simp +contextual), only right (by simp +contextual), uniform.many.countP_eq]

theorem Uniform.count_decided (uniform : Uniform kind decided left right)
    (sizes : left.length = right.length) : left.countP decided = right.countP decided := by
  have parts : ∀ list : List A,
      list.length = list.countP decided + (list.filter (!decided ·)).length := by
    intro list
    rw [← List.countP_eq_length_filter, List.length_eq_countP_add_countP decided]
    simp only [Bool.not_eq_true, Bool.decide_eq_false]
  have opens := uniform.many.length_eq
  rw [List.length_map, List.length_map] at opens
  have left_all := parts left
  have right_all := parts right
  omega

theorem firstFit_mismatch_symm [DecidableEq K] (same : Equivalence (Same pair))
    (kinds : Kinds pair kind decided) (uniform : Uniform kind decided left right)
    (outcome : firstFit pair left right = .mismatch) : firstFit pair right left = .mismatch := by
  have sure : ∀ list list' : List A, Uniform kind decided list list' →
      ∀ a ∈ list, decided a = true → ∀ b ∈ list', pair a b ≠ .undetermined := by
    intro list list' uniform a member certain b member' open_pair
    by_cases alike : kind a = kind b
    · have other := uniform.kinds a (by simp [member]) b (by simp [member']) alike
      exact kinds.sure a b certain (other ▸ certain) open_pair
    · rw [kinds.apart a b alike] at open_pair
      cases open_pair
  rcases firstFit_cases (sure right left uniform.symm) with ⟨back, _⟩ |
      ⟨undetermined, marked, progress, sizes, back⟩
  · exact back
  exfalso
  rcases firstFit_cases (sure left right uniform) with ⟨_, different | stuck⟩ |
      ⟨undetermined', marked', _, _, forth⟩
  · exact different sizes.symm
  · obtain ⟨before, a, after, marked', found', rfl, entries', sub', held', differ⟩ := stuck
    have member : a ∈ before ++ a :: after := by simp
    cases certain : decided a with
    | false =>
      have nowhere : ∀ b ∈ free marked', decide (kind b = kind a) = false := by
        intro b listed
        rw [decide_eq_false_iff_not]
        exact fun alike => kinds.unsure a b alike.symm certain (differ b listed)
      have fewer := @Held.count_lt A pair right marked' (kind · = kind a) before after found' a
        (fun x y joined => by rw [kinds.kind_eq joined]) entries' sub' held' (by simp) nowhere
      have equal := uniform.count_open member certain
      omega
    | true =>
      have respects : ∀ x y, pair x y = .matching →
          decide (pair a x = .matching) = decide (pair a y = .matching) := by
        intro x y joined
        rw [decide_eq_decide]
        exact ⟨fun first => same.trans first joined,
          fun first => same.trans first (same.symm joined)⟩
      have fewer := @Held.count_lt A pair right marked' (fun b => pair a b = .matching) before
        after found' a respects entries' sub' held' (by simpa [Same] using same.refl a)
        fun b listed => by simp [differ b listed]
      obtain ⟨entries, ⟨found, sub, all, ⟨order, perm, paired⟩, _⟩, _⟩ := progress
      have parted := taken_free marked
      rw [entries] at parted
      have decided_all := parted.countP_eq decided
      rw [List.countP_append, ← perm.countP_eq, ← pairs_countP kinds.alike paired,
        uniform.count_decided sizes.symm] at decided_all
      have decided_found : right.countP decided ≤ found.countP decided := by
        have counted := all.countP_le (p := decided)
        simpa [List.countP_filter] using counted
      have free_open : (free marked).countP decided = 0 := by omega
      have free_other : (free marked).countP (fun b => pair a b = .matching) = 0 := by
        rw [List.countP_eq_zero] at free_open ⊢
        intro b listed matching
        rw [decide_eq_true_eq] at matching
        rw [kinds.alike a b matching] at certain
        exact free_open b listed certain
      have same_all := parted.countP_eq fun b => pair a b = .matching
      rw [List.countP_append, free_other, ← perm.countP_eq, ← pairs_countP respects paired]
        at same_all
      have fewer' := sub.countP_le (p := fun b => pair a b = .matching)
      omega
  · rw [forth] at outcome
    split at outcome <;> cases outcome

end

end Pairing

end Library
