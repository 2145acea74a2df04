import Mathlib.Data.List.Basic
import Mathlib.Data.Nat.Basic
import Mathlib.Tactic.Basic

/-! # Programs that change a state and may fail

A failure keeps the state it was reached in. `Gives` is the result of a
completed program as a relation; its equations take a program apart one command
at a time. `Moves` is what a program does to the state however it ends.
-/

namespace Library

/-- Programs over a state `S` that fail with `E`. -/
abbrev Program (E S : Type) := ExceptT E (StateM S)

inductive Turn (A B : Type) where
  | next (a : A)
  | leave (b : B)

variable {E S A B : Type}

/-- What holds after a loop: `I` when it ran to its end, `L` when it left. -/
def Turn.Ends (I : A → Prop) (L : B → Prop) : Turn A B → Prop
  | .next a => I a
  | .leave b => L b

namespace Program

def exec (m : Program E S A) (s : S) : Except E A × S := m.run.run s

def lift : Except E A → Program E S A
  | .ok a => pure a
  | .error e => throw e

def state : Program E S S := ExceptT.mk fun s => (.ok s, s)

def change (f : S → S) : Program E S Unit := ExceptT.mk fun s => (.ok (), f s)

def trial (m : Program E S A) : Program E S (Except E A) :=
  ExceptT.mk fun s => (.ok (m.exec s).1, (m.exec s).2)

/-- `for (i = first; i < first + count; ++i)` over an accumulator, where the
    body may leave the function early. -/
def forRange (body : Nat → A → Program E S (Turn A B)) :
    (first count : Nat) → A → Program E S (Turn A B)
  | _, 0, a => pure (.next a)
  | i, count + 1, a => do
    match ← body i a with
    | .next a' => forRange body (i + 1) count a'
    | .leave b => pure (.leave b)

@[simp] theorem exec_pure (a : A) (s : S) : (pure a : Program E S A).exec s = (.ok a, s) := rfl

@[simp] theorem exec_throw (e : E) (s : S) : (throw e : Program E S A).exec s = (.error e, s) := rfl

@[simp] theorem exec_state (s : S) : (state : Program E S S).exec s = (.ok s, s) := rfl

@[simp] theorem exec_change (f : S → S) (s : S) :
    (change f : Program E S Unit).exec s = (.ok (), f s) := rfl

theorem exec_bind (m : Program E S A) (f : A → Program E S B) (s : S) : (m >>= f).exec s =
      match m.exec s with
      | (.ok a, middle) => (f a).exec middle
      | (.error e, middle) => (.error e, middle) := by
  change (ExceptT.bindCont f (m.exec s).1) (m.exec s).2 = _
  rcases m.exec s with ⟨e | a, middle⟩ <;> rfl

theorem exec_bind_after {m : Program E S A} {f : A → Program E S B} {s : S} {P : S → Prop}
    (failed : ∀ e s', m.exec s = (.error e, s') → P s')
    (completed : ∀ a s', m.exec s = (.ok a, s') → P ((f a).exec s').2) :
    P ((m >>= f).exec s).2 := by
  rw [exec_bind]
  rcases h : m.exec s with ⟨e | a, middle⟩
  · exact failed e middle h
  · exact completed a middle h

/-- `m`, started in `s`, completes with `a` and leaves `s'`. -/
def Gives (m : Program E S A) (s : S) (a : A) (s' : S) : Prop := m.exec s = (.ok a, s')

section

variable {s s' : S}

@[simp] theorem gives_pure {a b : A} : Gives (pure a : Program E S A) s b s' ↔ a = b ∧ s = s' := by
  change (Except.ok a, s) = (Except.ok b, s') ↔ _
  simp

@[simp] theorem gives_throw {e : E} {a : A} : ¬ Gives (throw e : Program E S A) s a s' := by
  intro given
  cases given

@[simp] theorem gives_bind {m : Program E S A} {f : A → Program E S B} {b : B} :
    Gives (m >>= f) s b s' ↔ ∃ a middle, Gives m s a middle ∧ Gives (f a) middle b s' := by
  unfold Gives
  rw [exec_bind]
  rcases h : m.exec s with ⟨e | a, middle⟩
  · simp
  · simp only [Prod.mk.injEq, Except.ok.injEq]
    constructor
    · intro given
      exact ⟨a, middle, ⟨rfl, rfl⟩, given⟩
    · rintro ⟨_, _, ⟨rfl, rfl⟩, given⟩
      exact given

@[simp] theorem gives_lift {r : Except E A} {a : A} :
    Gives (lift r : Program E S A) s a s' ↔ r = .ok a ∧ s = s' := by
  cases r with
  | ok value => simp [lift]
  | error e => simp [lift]

@[simp] theorem gives_state {a : S} : Gives (state : Program E S S) s a s' ↔ s = a ∧ s = s' := by
  change (Except.ok s, s) = (Except.ok a, s') ↔ _
  simp

@[simp] theorem gives_change {f : S → S} {u : Unit} :
    Gives (change f : Program E S Unit) s u s' ↔ f s = s' := by
  change (Except.ok (), f s) = (Except.ok u, s') ↔ _
  simp

@[simp] theorem gives_trial {m : Program E S A} {outcome : Except E A} :
    Gives (trial m) s outcome s' ↔ m.exec s = (outcome, s') := by
  change ((Except.ok (m.exec s).1, (m.exec s).2) : Except E (Except E A) × S) =
    (Except.ok outcome, s') ↔ _
  rcases m.exec s with ⟨value, after⟩
  simp

/-- The invariant rule: a body that keeps `I`, or leaves with `L`, does so
    over the whole range. -/
theorem gives_forRange {body : Nat → A → Program E S (Turn A B)} {first count stop : Nat} {a : A}
    {t : Turn A B} (I : Nat → A → S → Prop) (L : B → S → Prop)
    (given : Gives (forRange body first count a) s t s') (range : first + count = stop)
    (start : I first a s)
    (keep : ∀ i a s a' s', i < stop → I i a s → Gives (body i a) s (.next a') s' → I (i + 1) a' s')
    (leave : ∀ i a s b s', i < stop → I i a s → Gives (body i a) s (.leave b) s' → L b s') :
    t.Ends (I stop · s') (L · s') := by
  induction count generalizing first a s with
  | zero =>
    simp only [forRange, gives_pure] at given
    obtain ⟨rfl, rfl⟩ := given
    simpa [Turn.Ends, ← range] using start
  | succ count ih =>
    simp only [forRange, gives_bind] at given
    obtain ⟨turn, middle, here, rest⟩ := given
    have inside : first < stop := by omega
    cases turn with
    | next a' => exact ih rest (by omega) (keep _ _ _ _ _ inside start here)
    | leave b =>
      obtain ⟨rfl, rfl⟩ := gives_pure.mp rest
      exact leave _ _ _ _ _ inside start here

end

/-- Every run of `m`, failed or not, moves the state along `R`. -/
def Moves (R : S → S → Prop) (m : Program E S A) : Prop := ∀ s, R s (m.exec s).2

section

variable {R : S → S → Prop}

theorem Moves.pure [Std.Refl R] (a : A) : Moves R (pure a : Program E S A) :=
  fun s => Std.Refl.refl s

theorem Moves.throw [Std.Refl R] (e : E) : Moves R (throw e : Program E S A) :=
  fun s => Std.Refl.refl s

theorem Moves.lift [Std.Refl R] (r : Except E A) : Moves R (lift r : Program E S A) := by
  cases r with
  | ok a => exact .pure a
  | error e => exact .throw e

theorem Moves.state [Std.Refl R] : Moves R (state : Program E S S) := fun s => Std.Refl.refl s

theorem Moves.change {f : S → S} (step : ∀ s, R s (f s)) :
    Moves R (change f : Program E S Unit) := step

variable {m : Program E S A}

theorem Moves.trial (moves : Moves R m) : Moves R (trial m) := moves

theorem Moves.of_gives {s s' : S} {a : A} (moves : Moves R m) (given : Gives m s a s') :
    R s s' := by
  have here := moves s
  rwa [given] at here

/-- The continuation only has to move along `R` for answers that `m` gives. -/
theorem Moves.bind_of [IsTrans S R] {f : A → Program E S B} {Q : A → Prop} (first : Moves R m)
    (answers : ∀ s a s', Gives m s a s' → Q a) (second : ∀ a, Q a → Moves R (f a)) :
    Moves R (m >>= f) := by
  intro s
  rw [exec_bind]
  have here := first s
  rcases h : m.exec s with ⟨e | a, middle⟩
  · rw [h] at here
    exact here
  · rw [h] at here
    exact IsTrans.trans s middle _ here (second a (answers s a middle h) middle)

theorem Moves.bind [IsTrans S R] {f : A → Program E S B} (first : Moves R m)
    (second : ∀ a, Moves R (f a)) : Moves R (m >>= f) :=
  Moves.bind_of (Q := fun _ => True) first (fun _ _ _ _ => trivial) fun a _ => second a

theorem Moves.forRange [Std.Refl R] [IsTrans S R] {body : Nat → A → Program E S (Turn A B)}
    (moves : ∀ i a, Moves R (body i a)) (first count : Nat) (a : A) :
    Moves R (forRange body first count a) := by
  induction count generalizing first a with
  | zero => exact .pure _
  | succ count ih =>
    refine .bind (moves first a) fun turn => ?_
    cases turn with
    | next a' => exact ih (first + 1) a'
    | leave b => exact .pure _

end

/-- Every failure of `m` satisfies `P`. -/
def Throws (P : E → Prop) (m : Program E S A) : Prop := ∀ s e s', m.exec s = (.error e, s') → P e

section

variable {P : E → Prop}

theorem Throws.pure (a : A) : Throws P (pure a : Program E S A) := by
  intro s e s' failed
  cases failed

theorem Throws.throw {e : E} (holds : P e) : Throws P (throw e : Program E S A) := by
  intro s e' s' failed
  cases failed
  exact holds

theorem throws_state : Throws P (state : Program E S S) := by
  intro s e s' failed
  cases failed

theorem throws_change {f : S → S} : Throws P (change f : Program E S Unit) := by
  intro s e s' failed
  cases failed

theorem Throws.lift {r : Except E A} (holds : ∀ e, r = .error e → P e) :
    Throws P (lift r : Program E S A) := by
  cases r with
  | ok a => exact .pure a
  | error e => exact .throw (holds e rfl)

theorem Throws.ite {c : Prop} [Decidable c] {m p : Program E S A} (yes : c → Throws P m)
    (no : ¬ c → Throws P p) : Throws P (if c then m else p) := by
  split
  · exact yes ‹_›
  · exact no ‹_›

theorem Throws.bind {m : Program E S A} {f : A → Program E S B} (first : Throws P m)
    (second : ∀ s a s', Gives m s a s' → Throws P (f a)) : Throws P (m >>= f) := by
  intro s e s' failed
  rw [exec_bind] at failed
  rcases h : m.exec s with ⟨e' | a, middle⟩
  · rw [h] at failed
    simp only [Prod.mk.injEq, Except.error.injEq] at failed
    rw [← failed.1]
    exact first s e' middle h
  · rw [h] at failed
    exact second s a middle h middle e s' failed

/-- Every run moves the state along `R`, and every failure satisfies `P`. -/
structure Behaves (R : S → S → Prop) (P : E → Prop) (m : Program E S A) : Prop where
  moves : Moves R m
  throws : Throws P m

variable {R : S → S → Prop}

theorem Behaves.pure [Std.Refl R] (a : A) : Behaves R P (pure a : Program E S A) :=
  ⟨Moves.pure a, Throws.pure a⟩

theorem Behaves.throw [Std.Refl R] {e : E} (holds : P e) :
    Behaves R P (throw e : Program E S A) := ⟨Moves.throw e, Throws.throw holds⟩

theorem Behaves.bind [IsTrans S R] {m : Program E S A} {f : A → Program E S B}
    (first : Behaves R P m) (second : ∀ s a s', Gives m s a s' → Behaves R P (f a)) :
    Behaves R P (m >>= f) where
  moves := Moves.bind_of (Q := fun a => Behaves R P (f a)) first.moves second
    fun _ behaves => behaves.moves
  throws := Throws.bind first.throws fun s a s' given => (second s a s' given).throws

end

end Program

end Library

/-! # Runs of a system that answers calls

A system holds one state. Each call gives an answer and the next state. A run
is recorded newest call first, so that the last step of a run is the head of
its history and invariants are proved by following the calls.
-/

namespace Library

variable {State Call Answer : Type*}

/-- `Reaches step start history state`: the calls of `history`, made one after
    the other from `start`, got the recorded answers and left `state`. -/
inductive Reaches (step : State → Call → Answer × State) (start : State) :
    List (Call × Answer) → State → Prop
  | start : Reaches step start [] start
  | call {history : List (Call × Answer)} {state : State}
      (reached : Reaches step start history state) (c : Call) :
      Reaches step start ((c, (step state c).1) :: history) (step state c).2

def runFrom (step : State → Call → Answer × State) :
    List (Call × Answer) → State → List Call → List (Call × Answer) × State
  | history, state, [] => (history, state)
  | history, state, c :: rest =>
    runFrom step ((c, (step state c).1) :: history) (step state c).2 rest

variable {step : State → Call → Answer × State} {start state : State}

theorem Reaches.runFrom {history : List (Call × Answer)}
    (reached : Reaches step start history state) (calls : List Call) :
    Reaches step start (Library.runFrom step history state calls).1
      (Library.runFrom step history state calls).2 := by
  induction calls generalizing history state with
  | nil => exact reached
  | cons c rest ih => exact ih (reached.call c)

theorem reaches_cons {entry : Call × Answer} {history : List (Call × Answer)} :
    Reaches step start (entry :: history) state ↔
      ∃ before, Reaches step start history before ∧ step before entry.1 = (entry.2, state) := by
  constructor
  · intro reached
    cases reached with
    | call reached c => exact ⟨_, reached, rfl⟩
  · rintro ⟨before, reached, answered⟩
    have next := reached.call entry.1
    rwa [answered] at next

theorem Reaches.split {newer older : List (Call × Answer)}
    (reached : Reaches step start (newer ++ older) state) :
    ∃ middle, Reaches step start older middle ∧ Reaches step middle newer state := by
  induction newer generalizing state with
  | nil => exact ⟨state, reached, .start⟩
  | cons entry newer ih =>
    obtain ⟨before, reached, answered⟩ := reaches_cons.mp reached
    obtain ⟨middle, first, second⟩ := ih reached
    exact ⟨middle, first, reaches_cons.mpr ⟨before, second, answered⟩⟩

end Library
