import TinyCrypto.Unicode.Ordering
import TinyCrypto.Unicode.Spaces

/-! # Finishing a name

Both loops of `tc_unicode_finish_name` work in the buffer: the first behind what it reads,
the second from the end and ahead of what it has not read.
-/

namespace TinyCrypto.Unicode

open Library Library.Program Library.Metered

variable {t : Tables} {D : Type} {s s' : Budgeted D}

def shown (tag : Option Nat) : Nat := tag.getD 0x20

/-- Tags written from the start of the buffer, which from `i` on is as it was. -/
structure Behind (buffer : List Nat) (i : Nat) (done : List (Option Nat)) (points : List Nat)
    (compacted spaces : Nat) : Prop where
  length : points.length = buffer.length
  size : compacted = done.length
  written : points.take compacted = done.map shown
  spaces : spaces = done.count none
  unread : points.drop i = buffer.drop i

theorem Behind.next {buffer points : List Nat} {i compacted spaces : Nat}
    {done : List (Option Nat)} (behind : Behind buffer i done points compacted spaces) :
    Behind buffer (i + 1) done points compacted spaces := by
  obtain ⟨length, size, written, count, unread⟩ := behind
  refine ⟨length, size, written, count, ?_⟩
  rw [← List.drop_drop, unread, List.drop_drop]

variable {buffer points rest : List Nat} {compacted i : Nat} {storage : Storage}

variable {done : List (Option Nat)}

theorem Behind.write {spaces : Nat}
    (behind : Behind buffer i done points compacted spaces) (tag : Option Nat)
    (less : compacted < i) (room : i ≤ buffer.length) :
    Behind buffer i (done ++ [tag]) (points.set compacted (shown tag)) (compacted + 1)
      (spaces + if tag = none then 1 else 0) := by
  obtain ⟨length, size, written, count, unread⟩ := behind
  have inside : compacted < points.length := by omega
  refine ⟨by rw [List.length_set, length], by simp [size], ?_, ?_, ?_⟩
  · rw [take_set_concat inside, written, List.map_append]
    rfl
  · rw [List.count_append, count, List.count_singleton]
    simp
  · rw [List.drop_set_of_lt less, unread]

theorem drop_used {used : Nat} (inside : i < used) (room : used ≤ buffer.length) :
    (buffer.take used).drop i = buffer.getD i 0 :: (buffer.take used).drop (i + 1) := by
  rw [List.drop_eq_getElem_cons (by rw [List.length_take]; omega), List.getElem_take]
  simp [show i < buffer.length by omega]

theorem head_used {mark : Nat → Bool} {used : Nat} (inside : i ≤ used) (room : used ≤ buffer.length) :
    (!((buffer.take used).drop i).head?.any mark) = (i = used || !mark (buffer.getD i 0)) := by
  rcases Nat.lt_or_ge i used with less | ge
  · rw [drop_used less room]
    simp [show i ≠ used by omega]
  · have same : i = used := by omega
    rw [List.drop_eq_nil_of_le (by rw [List.length_take]; omega)]
    simp [same]

/-- The variables of the first loop before the point at `i`. -/
structure Compacting.Holds (mark : Nat → Bool) (buffer : List Nat) (used i : Nat)
    (done : List (Option Nat)) (state : Compacting) : Prop where
  behind : Behind buffer i done state.points state.compacted state.spaces
  inside : state.compacted + (if state.pending then 1 else 0) ≤ i
  total : done ++ tags mark (state.compacted ≠ 0) state.pending ((buffer.take used).drop i) =
    tags mark false false (buffer.take used)

theorem Compacting.Holds.step {buffer : List Nat} {used i : Nat} {done : List (Option Nat)}
    {state : Compacting} (holds : state.Holds (mark t) buffer used i done) (less : i < used)
    (room : used ≤ buffer.length) :
    ∃ done', (compactStep t used state i).Holds (mark t) buffer used (i + 1) done' := by
  obtain ⟨behind, inside, total⟩ := holds
  have read : state.points.getD i 0 = buffer.getD i 0 := by
    have first := congrArg (List.getD · 0 0) behind.unread
    simpa using first
  have ahead : state.points.getD (i + 1) 0 = buffer.getD (i + 1) 0 := by
    have first := congrArg (List.getD · 0 0) behind.next.unread
    simpa using first
  have space : (buffer.getD i 0 = 0x20 && (i + 1 = used || !mark t (buffer.getD (i + 1) 0))) =
      isSpace (mark t) (buffer.getD i 0) ((buffer.take used).drop (i + 1)) := by
    rw [isSpace, head_used less room]
  rw [drop_used less room] at total
  rw [compactStep, read, ahead]
  dsimp only
  rw [space]
  split
  · rename_i blank
    rw [tags_space _ _ blank] at total
    refine ⟨done, behind.next, ?_, total⟩
    dsimp only
    split at inside <;> simp only [if_true] <;> omega
  · rename_i kept
    rw [tags, if_neg kept] at total
    split at inside
    · rename_i pending
      by_cases started : state.compacted ≠ 0
      · have once := behind.next.write none (by omega) (by omega)
        have twice := once.write (some (buffer.getD i 0)) (by omega) (by omega)
        simp only [pending, started, Bool.and_self, decide_true, if_true, ne_eq,
          not_false_eq_true] at total ⊢
        refine ⟨_, twice, by simp only [Bool.false_eq_true, if_false]; omega, ?_⟩
        simpa using total
      · have once := behind.next.write (some (buffer.getD i 0)) (by omega) (by omega)
        simp only [started, decide_false, Bool.and_false, if_false, Bool.false_eq_true]
          at total ⊢
        refine ⟨_, once, by simp only [Bool.false_eq_true, if_false]; omega, ?_⟩
        simpa using total
    · rename_i calm
      have once := behind.next.write (some (buffer.getD i 0)) (by omega) (by omega)
      simp only [calm, Bool.false_and, if_false, Bool.false_eq_true] at total ⊢
      refine ⟨_, once, by simp only [Bool.false_eq_true, if_false]; omega, ?_⟩
      simpa using total

theorem compactLoop_gives {used count : Nat} {state after : Compacting}
    (holds : state.Holds (mark t) buffer used i done) (whole : i + count = used)
    (room : used ≤ buffer.length) (given : Gives (compactLoop t used i count state) s after s') :
    (∀ p ∈ (buffer.take used).drop i, allowed t p = true) ∧
      Behind buffer used (tags (mark t) false false (buffer.take used)) after.points
        after.compacted after.spaces := by
  induction count generalizing i done state s with
  | zero =>
    simp only [compactLoop, gives_pure] at given
    obtain ⟨rfl, _⟩ := given
    obtain ⟨behind, _, total⟩ := holds
    have empty : (buffer.take used).drop i = [] :=
      List.drop_eq_nil_of_le (by rw [List.length_take]; omega)
    rw [empty, tags, List.append_nil] at total
    rw [empty, ← total, ← whole]
    exact ⟨by simp, behind⟩
  | succ count ih =>
    simp only [compactLoop, gives_bind, gives_charge] at given
    obtain ⟨_, _, ⟨_, rfl⟩, given⟩ := given
    have read : state.points.getD i 0 = buffer.getD i 0 := by
      have first := congrArg (List.getD · 0 0) holds.behind.unread
      simpa using first
    split at given
    · exact absurd given gives_throw
    · rename_i permitted
      obtain ⟨done', next⟩ := holds.step (by omega) room
      obtain ⟨rest, final⟩ := ih next (by omega) given
      rw [drop_used (by omega) room]
      refine ⟨List.forall_mem_cons.mpr ⟨?_, rest⟩, final⟩
      rw [read] at permitted
      simpa using permitted

def Apart (mark : Nat → Bool) (tag : Option Nat) (next : Nat) : Prop :=
  (tag = none → mark next = false) ∧ (tag = some 0x20 → mark next = true)

def nextShown (list : List (Option Nat)) : Nat := (list.head?.map shown).getD 0

theorem tags_apart {mark : Nat → Bool} (space : mark 0x20 = false) {started pending : Bool}
    (plain : pending = true → points.head?.any mark = false) {front rest : List (Option Nat)}
    {tag : Option Nat} (parts : tags mark started pending points = front ++ tag :: rest) :
    Apart mark tag (nextShown rest) := by
  induction points generalizing started pending front with
  | nil => simp [tags] at parts
  | cons p points ih =>
    rw [tags] at parts
    split at parts
    · rename_i blank
      exact ih (fun _ => (isSpace_iff.mp blank).2) parts
    · rename_i kept
      have kept_apart : Apart mark (some p) (nextShown (tags mark true false points)) := by
        refine ⟨by simp, ?_⟩
        intro same
        rw [Option.some.injEq] at same
        cases points with
        | nil => simp [isSpace, same] at kept
        | cons q points =>
          have marked : mark q = true := by simpa [isSpace, same] using kept
          have other : isSpace mark q points = false := by
            rw [← Bool.not_eq_true, isSpace_iff]
            rintro ⟨rfl, _⟩
            rw [space] at marked
            cases marked
          rw [tags, if_neg (by simp [other])]
          exact marked
      have rest_apart : ∀ {front}, some p :: tags mark true false points = front ++ tag :: rest →
            Apart mark tag (nextShown rest) := by
        intro front parts
        cases front with
        | nil =>
          obtain ⟨rfl, rfl⟩ := List.cons.inj parts
          exact kept_apart
        | cons x front => exact @ih true false (by simp) front (List.cons.inj parts).2
      dsimp only at parts
      split at parts
      · rename_i pushed
        cases front with
        | nil =>
          obtain ⟨rfl, rfl⟩ := List.cons.inj parts
          refine ⟨fun _ => ?_, by simp⟩
          rw [Bool.and_eq_true] at pushed
          have first := plain pushed.1
          exact first
        | cons x front => exact rest_apart (List.cons.inj parts).2
      · exact rest_apart parts

theorem copies_eq {tag : Option Nat} {next : Nat} (apart : Apart (mark t) tag next) :
    copies t (shown tag) next = (widened [tag]).length := by
  rw [copies]
  cases tag with
  | none => simp [shown, apart.1 rfl]
  | some p =>
    by_cases same : p = 0x20
    · rw [same] at apart ⊢
      simp [shown, apart.2 rfl]
    · simp [shown, same]

theorem widened_append (list list' : List (Option Nat)) :
    widened (list ++ list') = widened list ++ widened list' := List.flatMap_append

theorem widened_eq (tag : Option Nat) :
    widened [tag] = List.replicate (widened [tag]).length (shown tag) := by
  cases tag <;> rfl

theorem length_widened (list : List (Option Nat)) :
    (widened list).length = list.length + list.count none := by
  induction list with
  | nil => rfl
  | cons tag list ih =>
    cases tag with
    | none => simp [ih]; omega
    | some p => simp [ih]; omega

theorem writeDown_spec {point count offset : Nat} {points : List Nat} (room : count ≤ offset)
    (inside : offset ≤ points.length) : (writeDown point count offset points).1 = offset - count ∧
      (writeDown point count offset points).2.length = points.length ∧
      (writeDown point count offset points).2.take (offset - count) = points.take (offset - count) ∧
      (writeDown point count offset points).2.drop (offset - count) =
        List.replicate count point ++ points.drop offset := by
  induction count generalizing offset points with
  | zero => simp [writeDown]
  | succ count ih =>
    obtain ⟨place, length, lower, upper⟩ :=
      @ih (offset - 1) (points.set (offset - 1) point) (by omega) (by rw [List.length_set]; omega)
    have less : offset - 1 < points.length := by omega
    rw [show offset - 1 - count = offset - (count + 1) by omega] at place lower upper
    rw [writeDown]
    refine ⟨place, by rw [length, List.length_set], ?_, ?_⟩
    · rw [lower, List.take_set_of_le (by omega)]
    · rw [upper, List.drop_eq_getElem_cons (by rwa [List.length_set]), List.getElem_set_self,
        List.drop_set_of_lt (by omega), show offset - 1 + 1 = offset by omega,
        List.replicate_succ', List.append_assoc]
      rfl

/-- The variables of the second loop before it reads the `i` points that remain: the tags after
    them are widened, and nothing below the offset is written. -/
structure Expanding.Holds (list : List (Option Nat)) (capacity i : Nat) (rest : List Nat)
    (state : Expanding) : Prop where
  length : state.points.length = capacity
  unread : state.points.take i = (list.take i).map shown
  offset : state.offset = 1 + (widened (list.take i)).length
  inside : state.offset ≤ capacity
  written : state.points.drop state.offset = widened (list.drop i) ++ rest
  next : state.next = nextShown (list.drop i)

variable {list : List (Option Nat)} {capacity : Nat}

theorem Expanding.Holds.above {state : Expanding}
    (holds : state.Holds list capacity i rest) (room : i ≤ list.length) : i < state.offset := by
  rw [holds.offset, length_widened, List.length_take]
  omega

theorem Expanding.Holds.read {state : Expanding}
    (holds : state.Holds list capacity (i + 1) rest) (room : i < list.length) :
    state.points.getD i 0 = shown list[i] := by
  have listed := congrArg (List.getD · i 0) holds.unread
  simpa [List.getElem?_take, room] using listed

theorem Expanding.Holds.step {list : List (Option Nat)} {capacity i : Nat} {rest : List Nat}
    {state : Expanding} (holds : state.Holds list capacity (i + 1) rest) (room : i < list.length)
    (apart : Apart (mark t) list[i] (nextShown (list.drop (i + 1)))) :
    (expandStep t state i).Holds list capacity i rest := by
  have read := holds.read room
  obtain ⟨length, unread, offset, inside, written, next⟩ := holds
  have front : list.take (i + 1) = list.take i ++ [list[i]] := by
    rw [List.take_add_one, List.getElem?_eq_getElem room]
    rfl
  have back : list.drop i = list[i] :: list.drop (i + 1) := List.drop_eq_getElem_cons room
  rw [front, widened_append, List.length_append] at offset
  have many : i ≤ (widened (list.take i)).length := by
    rw [length_widened, List.length_take]
    omega
  rw [expandStep, read, next, copies_eq apart]
  generalize list[i] = tag at *
  obtain ⟨place, size, lower, upper⟩ :=
    @writeDown_spec (shown tag) (widened [tag]).length state.offset state.points (by omega)
      (by omega)
  have target : state.offset - (widened [tag]).length = 1 + (widened (list.take i)).length := by
    omega
  rw [target] at place lower upper
  refine ⟨by rw [size, length], ?_, place, by simp only [place]; omega, ?_, ?_⟩
  · have shorter := congrArg (List.take i) lower
    rw [List.take_take, List.take_take, Nat.min_eq_left (by omega)] at shorter
    have unread_less := congrArg (List.take i) unread
    rw [List.take_take, Nat.min_eq_left (Nat.le_succ i), ← List.map_take, List.take_take,
      Nat.min_eq_left (Nat.le_succ i)] at unread_less
    rw [shorter, unread_less]
  · dsimp only
    rw [place, upper, written, back, ← widened_eq, ← List.append_assoc, ← widened_append,
      List.singleton_append]
  · rw [back]
    rfl

inductive Expands (t : Tables) (count : Nat) (start : Expanding) : Nat → Expanding → Prop where
  | start : Expands t count start count start
  | step {i : Nat} {before : Expanding} :
      Expands t count start (i + 1) before → Expands t count start i (expandStep t before i)

theorem Expands.holds {start state : Expanding}
    (holds : start.Holds list capacity list.length rest)
    (apart : ∀ i (inside : i < list.length), Apart (mark t) list[i] (nextShown (list.drop (i + 1))))
    (expands : Expands t list.length start i state) :
    i ≤ list.length ∧ state.Holds list capacity i rest := by
  induction expands with
  | start => exact ⟨le_rfl, holds⟩
  | @step i before _ ih =>
    obtain ⟨within, holds⟩ := ih
    exact ⟨by omega, holds.step within (apart i within)⟩

theorem expandLoop_gives {count : Nat} {start state : Expanding}
    (expands : Expands t count start i state) (given : Gives (expandLoop t i state) s points s') :
    ∃ final, Expands t count start 0 final ∧ points = final.points := by
  induction i generalizing state s with
  | zero =>
    simp only [expandLoop, gives_pure] at given
    obtain ⟨rfl, _⟩ := given
    exact ⟨state, expands, rfl⟩
  | succ i ih =>
    simp only [expandLoop, gives_bind, gives_charge] at given
    obtain ⟨_, _, ⟨_, rfl⟩, given⟩ := given
    exact ih expands.step given

theorem expandLoop_affords (i : Nat) (state : Expanding) :
    Affords (2 * i) (expandLoop t i state : Metered Result D (List Nat)) := by
  induction i generalizing state with
  | zero => exact affords_pure _
  | succ i ih =>
    rw [expandLoop]
    have few : copies t (state.points.getD i 0) state.next ≤ 2 := by
      rw [copies]
      split <;> omega
    exact ((affords_charge Result.limit _).bind fun _ => ih _).mono (by omega)

theorem compactLoop_affords {used count : Nat} {state : Compacting}
    (holds : state.Holds (mark t) buffer used i done) (whole : i + count = used)
    (room : used ≤ buffer.length) (permitted : ∀ p ∈ (buffer.take used).drop i, allowed t p = true) :
    Affords count (compactLoop t used i count state : Metered Result D Compacting) := by
  induction count generalizing i done state with
  | zero => exact affords_pure _
  | succ count ih =>
    have read : state.points.getD i 0 = buffer.getD i 0 := by
      have first := congrArg (List.getD · 0 0) holds.behind.unread
      simpa using first
    rw [drop_used (by omega) room, List.forall_mem_cons] at permitted
    obtain ⟨done', next⟩ := holds.step (by omega) room
    rw [compactLoop, Nat.add_comm, read, permitted.1]
    exact (affords_charge Result.limit 1).bind fun _ => ih next (by omega) permitted.2

theorem Compacting.Holds.start {mark : Nat → Bool} (buffer : List Nat) (used : Nat) :
    (⟨buffer, 0, 0, false⟩ : Compacting).Holds mark buffer used 0 [] :=
  ⟨⟨rfl, rfl, rfl, rfl, rfl⟩, le_rfl, rfl⟩

theorem length_spaced (mark : Nat → Bool) (points : List Nat) :
    (spaced mark points).length = (tags mark false false points).length +
      (tags mark false false points).count none + 2 := by
  rw [spaced, List.length_append, List.length_cons, length_widened]
  rfl

theorem Behind.expanding {used spaces : Nat}
    (behind : Behind buffer used list points compacted spaces)
    (room : compacted + spaces + 2 ≤ buffer.length) :
    (⟨compacted + spaces + 1, 0, points.set (compacted + spaces + 1) 0x20⟩ : Expanding).Holds list
      buffer.length list.length (0x20 :: points.drop (compacted + spaces + 2)) := by
  obtain ⟨length, size, written, count, _⟩ := behind
  have inside : compacted + spaces + 1 < points.length := by omega
  constructor
  · rw [List.length_set, length]
  · rw [List.take_length, ← size, List.take_set_of_le (by omega), written]
  · rw [List.take_length, length_widened, ← size, ← count]
    dsimp only
    omega
  · dsimp only
    omega
  · dsimp only
    rw [List.drop_length, widened_nil, List.nil_append,
      List.drop_eq_getElem_cons (by rwa [List.length_set]), List.getElem_set_self,
      List.drop_set_of_lt (by omega)]
  · rw [List.drop_length]
    rfl

theorem tags_apart_at (correct : mark t 0x20 = false) (points : List Nat) (i : Nat)
    (inside : i < (tags (mark t) false false points).length) :
    Apart (mark t) (tags (mark t) false false points)[i]
      (nextShown ((tags (mark t) false false points).drop (i + 1))) := by
  have parts : tags (mark t) false false points = (tags (mark t) false false points).take i ++
      (tags (mark t) false false points)[i] :: (tags (mark t) false false points).drop (i + 1) := by
    rw [← List.drop_eq_getElem_cons inside, List.take_append_drop]
  exact tags_apart correct (by simp) parts

theorem Expanding.Holds.finished {final : Expanding}
    (holds : final.Holds list capacity 0 (0x20 :: rest)) :
    (final.points.set 0 0x20).take (list.length + list.count none + 2) =
      0x20 :: widened list ++ [0x20] := by
  obtain ⟨_, _, offset, _, written, _⟩ := holds
  rw [List.take_zero, widened_nil, List.length_nil] at offset
  rw [offset, List.drop_zero] at written
  rw [← length_widened]
  cases shape : final.points with
  | nil => simp [shape] at written
  | cons x tail =>
    rw [shape, Nat.add_zero, List.drop_succ_cons, List.drop_zero] at written
    have cut : (widened list ++ 0x20 :: rest).take ((widened list).length + 1) =
        widened list ++ [0x20] := by
      rw [List.take_length_add_append]
      rfl
    rw [written, List.set_cons_zero, List.take_succ_cons, cut]
    rfl

theorem finishName_gives {output : List Nat} (correct : mark t 0x20 = false)
    (inside : storage.used ≤ storage.points.length)
    (given : Gives (finishName t storage) s output s') :
    (∀ p ∈ storage.list, allowed t p = true) ∧ output = spaced (mark t) storage.list ∧
      output.length ≤ storage.points.length := by
  simp only [finishName, gives_bind] at given
  obtain ⟨state, _, compacted, given⟩ := given
  obtain ⟨permitted, behind⟩ := compactLoop_gives (.start storage.points storage.used)
    (by omega) inside compacted
  split at given
  · exact absurd given gives_throw
  · rename_i fits
    simp only [Bool.or_eq_true, decide_eq_true_eq] at fits
    have room : state.compacted + state.spaces + 2 ≤ storage.points.length := by omega
    simp only [gives_bind, gives_charge, gives_pure] at given
    obtain ⟨_, _, _, points, _, expanded, _, _, _, rfl, _⟩ := given
    obtain ⟨final, expands, rfl⟩ := expandLoop_gives .start expanded
    have start := behind.expanding room
    rw [show state.compacted + state.spaces + 1 = state.compacted + state.spaces + 2 - 1 by omega,
      behind.size, behind.spaces] at start
    rw [behind.size, behind.spaces] at expands
    obtain ⟨_, holds⟩ := expands.holds start (tags_apart_at correct _)
    have finished := holds.finished
    rw [behind.size, behind.spaces, finished]
    refine ⟨permitted, rfl, ?_⟩
    have length := length_spaced (mark t) (storage.points.take storage.used)
    rw [spaced] at length
    rw [length, ← behind.size, ← behind.spaces]
    exact room

theorem finishName_affords (inside : storage.used ≤ storage.points.length)
    (permitted : ∀ p ∈ storage.list, allowed t p = true)
    (fits : (spaced (mark t) storage.list).length ≤ storage.points.length) :
    Affords (storage.used + 2 * storage.points.length + 2)
      (finishName t storage : Metered Result D (List Nat)) := by
  have first : Affords storage.used (compactLoop t storage.used 0 storage.used
      ⟨storage.points, 0, 0, false⟩ : Metered Result D Compacting) :=
    compactLoop_affords (.start storage.points storage.used) (by omega) inside permitted
  rw [finishName]
  refine Affords.mono (first.bind_of (fun _ _ _ given =>
    (compactLoop_gives (.start storage.points storage.used) (by omega) inside given).2) ?_)
    (by omega : storage.used + (1 + (2 * storage.points.length + 1)) ≤ _)
  intro state behind
  rw [length_spaced, Storage.list, ← behind.size, ← behind.spaces] at fits
  rw [if_neg (by simp only [Bool.or_eq_true, decide_eq_true_eq]; omega)]
  have loop := @expandLoop_affords t D state.compacted
    ⟨state.compacted + state.spaces + 2 - 1, 0,
      state.points.set (state.compacted + state.spaces + 2 - 1) 0x20⟩
  exact (affords_charge Result.limit 1).bind fun _ => ((loop.mono (by omega)).bind fun _ =>
    (affords_charge Result.limit 1).bind fun _ => affords_pure _)

end TinyCrypto.Unicode
