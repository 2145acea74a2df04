import Mathlib.Data.List.Basic

/-! # Insignificant spaces

RFC 4518, section 2.6.1: one space before and one after, two between words. The spaces that
`tc_unicode_finish_name` inserts are told apart from those that carry a mark.
-/

namespace TinyCrypto.Unicode

inductive Word (mark : Nat → Bool) : List Nat → Prop where
  | point : p ≠ 0x20 → Word mark [p]
  | next : (p = 0x20 → mark q = true) → Word mark (q :: rest) → Word mark (p :: q :: rest)

inductive Words (mark : Nat → Bool) : List Nat → List (List Nat) → Prop where
  | last : Word mark w → Words mark (w ++ List.replicate k 0x20) [w]
  | more : Word mark w → 0 < k → rest.head?.any mark = false → Words mark rest ws →
      Words mark (w ++ List.replicate k 0x20 ++ rest) (w :: ws)

inductive InsignificantSpaces (mark : Nat → Bool) : List Nat → List Nat → Prop where
  | spaces : InsignificantSpaces mark (List.replicate k 0x20) [0x20, 0x20]
  | words : (0 < k → rest.head?.any mark = false) → Words mark rest ws →
      InsignificantSpaces mark (List.replicate k 0x20 ++ rest)
        (0x20 :: [0x20, 0x20].intercalate ws ++ [0x20])

def isSpace (mark : Nat → Bool) (p : Nat) (rest : List Nat) : Bool :=
  p = 0x20 && !rest.head?.any mark

def tags (mark : Nat → Bool) : (started pending : Bool) → List Nat → List (Option Nat)
  | _, _, [] => []
  | started, pending, p :: rest =>
    if isSpace mark p rest then tags mark started true rest
    else
      let kept := some p :: tags mark true false rest
      if pending && started then none :: kept else kept

def widened (list : List (Option Nat)) : List Nat :=
  list.flatMap fun tag => tag.elim [0x20, 0x20] fun p => [p]

/-- The pure form of `tc_unicode_finish_name`. -/
def spaced (mark : Nat → Bool) (points : List Nat) : List Nat :=
  0x20 :: widened (tags mark false false points) ++ [0x20]

variable {mark : Nat → Bool}

@[simp] theorem widened_nil : widened [] = [] := rfl

@[simp] theorem widened_none (list : List (Option Nat)) :
    widened (none :: list) = 0x20 :: 0x20 :: widened list := rfl

@[simp] theorem widened_some (p : Nat) (list : List (Option Nat)) :
    widened (some p :: list) = p :: widened list := rfl

def gap (inserted : Bool) : List Nat := if inserted then [0x20, 0x20] else []

variable {rest : List Nat} {p : Nat}

theorem widened_kept (started pending : Bool) (kept : isSpace mark p rest = false) :
    widened (tags mark started pending (p :: rest)) =
      gap (pending && started) ++ p :: widened (tags mark true false rest) := by
  rw [tags, if_neg (by simp [kept])]
  dsimp only
  rw [gap]
  split <;> simp

theorem tags_space (started pending : Bool) (space : isSpace mark p rest = true) :
    tags mark started pending (p :: rest) = tags mark started true rest := by
  rw [tags, if_pos space]

theorem isSpace_iff : isSpace mark p rest = true ↔ p = 0x20 ∧ rest.head?.any mark = false := by
  simp [isSpace]

theorem head_spaces {k : Nat} {rest : List Nat} (space : mark 0x20 = false)
    (plain : rest.head?.any mark = false) :
    (List.replicate k 0x20 ++ rest).head?.any mark = false := by
  cases k with
  | zero => simpa using plain
  | succ k => simp [List.replicate_succ, space]

theorem tags_spaces {k : Nat} {rest : List Nat} (space : mark 0x20 = false)
    (started pending : Bool) (pos : 0 < k) (plain : rest.head?.any mark = false) :
    tags mark started pending (List.replicate k 0x20 ++ rest) = tags mark started true rest := by
  induction k generalizing pending with
  | zero => omega
  | succ k ih =>
    rw [List.replicate_succ, List.cons_append,
      tags_space _ _ (isSpace_iff.mpr ⟨rfl, head_spaces space plain⟩)]
    cases k with
    | zero => rfl
    | succ k => exact ih true (by omega)

theorem tags_only_spaces {k : Nat} (space : mark 0x20 = false) (started pending : Bool) :
    tags mark started pending (List.replicate k 0x20) = [] := by
  cases k with
  | zero => rfl
  | succ k =>
    have all := @tags_spaces mark (k + 1) [] space started pending (Nat.zero_lt_succ k) rfl
    rwa [List.append_nil] at all

variable {points : List Nat}

theorem mem_tags {started pending : Bool} (member : some p ∈ tags mark started pending points) :
    p ∈ points := by
  induction points generalizing started pending with
  | nil => simp [tags] at member
  | cons q points ih =>
    rw [tags] at member
    split at member
    · exact List.mem_cons_of_mem _ (ih member)
    · have kept : some p ∈ some q :: tags mark true false points := by
        dsimp only at member
        split at member
        · simpa using member
        · exact member
      rcases List.mem_cons.mp kept with same | later
      · rw [Option.some.inj same]
        exact List.mem_cons_self ..
      · exact List.mem_cons_of_mem _ (ih later)

theorem mem_spaced (member : p ∈ spaced mark points) : p = 0x20 ∨ p ∈ points := by
  simp only [spaced, widened, List.cons_append, List.mem_cons, List.mem_append, List.mem_flatMap,
    List.not_mem_nil, or_false] at member
  rcases member with same | ⟨tag, listed, shown⟩ | same
  · exact .inl same
  · cases tag with
    | none => exact .inl (by simpa using shown)
    | some q =>
      have same : p = q := by simpa using shown
      rw [same]
      exact .inr (mem_tags listed)
  · exact .inl same

theorem Word.widened {w : List Nat} (word : Word mark w) (started pending : Bool)
    (rest : List Nat) : widened (tags mark started pending (w ++ rest)) =
      gap (pending && started) ++ w ++ Unicode.widened (tags mark true false rest) := by
  induction word generalizing started pending with
  | @point p other =>
    have kept : isSpace mark p rest = false := by simp [isSpace, other]
    rw [List.singleton_append, widened_kept started pending kept]
    simp
  | @next p q tail carried _ ih =>
    have kept : isSpace mark p (q :: tail ++ rest) = false := by
      simp only [isSpace, Bool.and_eq_false_imp, decide_eq_true_eq]
      intro same
      simp [carried same]
    rw [List.cons_append, widened_kept started pending kept, ih true false]
    simp [gap]

variable {ws : List (List Nat)}

theorem Words.widened (space : mark 0x20 = false)
    (words : Words mark points ws) (started pending : Bool) :
    widened (tags mark started pending points) =
      gap (pending && started) ++ [0x20, 0x20].intercalate ws := by
  induction words generalizing started pending with
  | last word =>
    rw [word.widened, tags_only_spaces space]
    simp
  | @more w k rest ws word pos plain more ih =>
    rw [List.append_assoc, word.widened, tags_spaces space _ _ pos plain, ih true true]
    cases ws with
    | nil => cases more
    | cons w' ws => simp [gap, List.intercalate]

theorem InsignificantSpaces.spaced {points output : List Nat} (space : mark 0x20 = false)
    (form : InsignificantSpaces mark points output) : output = spaced mark points := by
  rw [Unicode.spaced]
  cases form with
  | spaces =>
    rw [tags_only_spaces space]
    rfl
  | @words k rest ws plain words =>
    have inner : ∀ pending, Unicode.widened (tags mark false pending rest) =
        [0x20, 0x20].intercalate ws := by
      intro pending
      rw [words.widened space]
      simp [gap]
    rcases Nat.eq_zero_or_pos k with rfl | pos
    · rw [List.replicate_zero, List.nil_append, inner]
    · rw [tags_spaces space _ _ pos (plain pos), inner]

theorem Word.cons_of {w : List Nat} (word : Word mark w) : ∃ q tail, w = q :: tail := by
  cases word with
  | point => exact ⟨_, _, rfl⟩
  | next => exact ⟨_, _, rfl⟩

theorem Word.cons {w rest : List Nat} {p : Nat} (word : Word mark w)
    (kept : isSpace mark p (w ++ rest) = false) : Word mark (p :: w) := by
  obtain ⟨q, tail, rfl⟩ := word.cons_of
  refine .next ?_ word
  intro same
  simpa [isSpace, same] using kept

theorem Words.cons {points : List Nat} {ws : List (List Nat)} {p : Nat}
    (words : Words mark points ws) (kept : isSpace mark p points = false) :
    ∃ ws, Words mark (p :: points) ws := by
  cases words with
  | last word => exact ⟨_, .last (word.cons kept)⟩
  | more word pos plain more =>
    rw [List.append_assoc] at kept
    exact ⟨_, .more (word.cons kept) pos plain more⟩

theorem parted (space : mark 0x20 = false) (points : List Nat) :
    (∃ k, points = List.replicate k 0x20) ∨
      ∃ k rest ws, points = List.replicate k 0x20 ++ rest ∧ Words mark rest ws ∧
        (0 < k → rest.head?.any mark = false) := by
  induction points with
  | nil => exact .inl ⟨0, rfl⟩
  | cons p points ih =>
    by_cases blank : isSpace mark p points = true
    · obtain ⟨rfl, plain⟩ := isSpace_iff.mp blank
      rcases ih with ⟨k, rfl⟩ | ⟨k, rest, ws, rfl, words, first⟩
      · exact .inl ⟨k + 1, rfl⟩
      · refine .inr ⟨k + 1, rest, ws, rfl, words, fun _ => ?_⟩
        rcases Nat.eq_zero_or_pos k with rfl | pos
        · simpa using plain
        · exact first pos
    · rw [Bool.not_eq_true] at blank
      have alone : points.head?.any mark = false → Word mark [p] := by
        intro plain
        refine .point ?_
        rintro rfl
        rw [isSpace_iff.mpr ⟨rfl, plain⟩] at blank
        cases blank
      rcases ih with ⟨k, rfl⟩ | ⟨k, rest, ws, rfl, words, first⟩
      · have plain := @head_spaces mark k [] space rfl
        rw [List.append_nil] at plain
        exact .inr ⟨0, _, _, rfl, .last (alone plain), by omega⟩
      · rcases Nat.eq_zero_or_pos k with rfl | pos
        · obtain ⟨ws, words⟩ := words.cons blank
          exact .inr ⟨0, _, ws, rfl, words, by omega⟩
        · have plain := alone (head_spaces space (first pos))
          exact .inr ⟨0, _, _, rfl, .more plain pos (first pos) words, by omega⟩

theorem spaced_form (space : mark 0x20 = false) (points : List Nat) :
    InsignificantSpaces mark points (spaced mark points) := by
  rcases parted space points with ⟨k, rfl⟩ | ⟨k, rest, ws, rfl, words, plain⟩
  · have form : InsignificantSpaces mark (List.replicate k 0x20) [0x20, 0x20] := .spaces
    rwa [form.spaced space] at form
  · have form := InsignificantSpaces.words plain words
    rwa [form.spaced space] at form

theorem Words.first (words : Words mark points ws) :
    ∃ q tail ws', ws = (q :: tail) :: ws' ∧ points.head? = some q := by
  cases words with
  | last word =>
    obtain ⟨q, tail, rfl⟩ := word.cons_of
    exact ⟨q, tail, _, rfl, rfl⟩
  | more word _ _ _ =>
    obtain ⟨q, tail, rfl⟩ := word.cons_of
    exact ⟨q, tail, _, rfl, rfl⟩

theorem intercalate_first (q : Nat) (tail : List Nat) (ws : List (List Nat)) :
    ([0x20, 0x20].intercalate ((q :: tail) :: ws)).head? = some q := by
  cases ws <;> simp [List.intercalate]

theorem intercalate_cons (p : Nat) (w : List Nat) (ws : List (List Nat)) :
    [0x20, 0x20].intercalate ((p :: w) :: ws) = p :: [0x20, 0x20].intercalate (w :: ws) := by
  cases ws <;> simp [List.intercalate]

theorem Words.marked {points tail : List Nat} {q : Nat}
    (words : Words mark points ((q :: tail) :: ws)) (marked : mark q = true) :
    Words mark (0x20 :: points) ((0x20 :: q :: tail) :: ws) := by
  cases words with
  | last word => exact .last (.next (fun _ => marked) word)
  | more word pos plain more => exact .more (.next (fun _ => marked) word) pos plain more

theorem Words.again {points : List Nat} {ws : List (List Nat)} (words : Words mark points ws) :
    Words mark ([0x20, 0x20].intercalate ws ++ [0x20]) ws := by
  induction words with
  | @last w k word =>
    have once := @Words.last mark w 1 word
    simpa using once
  | @more w k rest ws word pos plain more ih =>
    obtain ⟨q, tail, ws', rfl, first⟩ := more.first
    have plain' : ([0x20, 0x20].intercalate ((q :: tail) :: ws') ++ [0x20]).head?.any mark =
        false := by
      rw [List.head?_append, intercalate_first]
      rwa [first] at plain
    have twice := Words.more (k := 2) word (by omega) plain' ih
    simpa [List.intercalate] using twice

theorem spaced_spaced (space : mark 0x20 = false) (points : List Nat) :
    spaced mark (spaced mark points) =
      if (spaced mark points).tail.head?.any mark then 0x20 :: spaced mark points
      else spaced mark points := by
  have form := spaced_form space points
  generalize spaced mark points = output at form ⊢
  symm
  cases form with
  | spaces =>
    have again : InsignificantSpaces mark (List.replicate 2 0x20) [0x20, 0x20] := .spaces
    rw [if_neg (by simp [space])]
    exact again.spaced space
  | @words k rest ws plain words =>
    obtain ⟨q, tail, ws', rfl, first⟩ := words.first
    have again := words.again
    have head : ([0x20, 0x20].intercalate ((q :: tail) :: ws') ++ [0x20]).head? = some q := by
      rw [List.head?_append, intercalate_first]
      rfl
    rw [List.cons_append, List.tail_cons, head, Option.any_some]
    split
    · rename_i marked
      have outer := @InsignificantSpaces.words mark 0 _ _ (by omega) (again.marked marked)
      have result := outer.spaced space
      rw [intercalate_cons] at result
      exact result
    · rename_i plain'
      have outer := @InsignificantSpaces.words mark 1 _ _ (by
        intro _
        rw [head]
        simpa using plain') again
      exact outer.spaced space

end TinyCrypto.Unicode
