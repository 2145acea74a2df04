import TinyCrypto.Library.Metered

/-! # Programs that agree up to their work

Two metered programs agree when, from any budgets, they end alike unless one of
them ran out of work. What a program charges does not matter to it.
-/

namespace Library.Metered

open Program

variable {E E' D D' A B : Type}

/-- Both runs complete with one answer and one data, or both fail with one error. -/
inductive Alike : Except E A × Budgeted D → Except E A × Budgeted D → Prop
  | ok (a : A) (d : D) (work work' : Nat) : Alike (.ok a, ⟨work, d⟩) (.ok a, ⟨work', d⟩)
  | error (e : E) (s s' : Budgeted D) : Alike (.error e, s) (.error e, s')

/-- The programs end alike, unless one ends with `limit`. -/
def Agree (limit : E) (m m' : Metered E D A) : Prop :=
  ∀ work work' d, (m.exec ⟨work, d⟩).1 = .error limit ∨ (m'.exec ⟨work', d⟩).1 = .error limit ∨
    Alike (m.exec ⟨work, d⟩) (m'.exec ⟨work', d⟩)

def locally (f : E → E') (start : D') (m : Metered E D' A) : Metered E' D (A × D') :=
  ExceptT.mk fun s =>
    let outcome := m.exec ⟨s.work, start⟩
    (match outcome.1 with
      | .ok a => .ok (a, outcome.2.data)
      | .error e => .error (f e), ⟨outcome.2.work, s.data⟩)

/-- Run a program that owns no data on the same budget, with its errors renamed. -/
def borrow (f : E → E') (m : Metered E Unit A) : Metered E' D A := ExceptT.mk fun s =>
    ((m.exec ⟨s.work, ()⟩).1.mapError f, ⟨(m.exec ⟨s.work, ()⟩).2.work, s.data⟩)

variable {limit : E} {m m' : Metered E D A}

theorem agree_pure (a : A) : Agree limit (pure a : Metered E D A) (pure a) :=
  fun work work' d => .inr (.inr (.ok a d work work'))

theorem agree_throw (e : E) : Agree limit (throw e : Metered E D A) (throw e) :=
  fun work work' d => .inr (.inr (.error e ⟨work, d⟩ ⟨work', d⟩))

theorem agree_lift (r : Except E A) : Agree limit (lift r : Metered E D A) (lift r) := by
  cases r with
  | ok a => exact agree_pure a
  | error e => exact agree_throw e

theorem agree_data : Agree limit (data : Metered E D D) data :=
  fun work work' d => .inr (.inr (.ok d d work work'))

theorem agree_update (f : D → D) : Agree limit (update f : Metered E D Unit) (update f) :=
  fun work work' d => .inr (.inr (.ok () (f d) work work'))

theorem agree_charge (amount amount' : Nat) :
    Agree limit (charge limit amount : Metered E D Unit) (charge limit amount') := by
  intro work work' d
  rw [exec_charge, exec_charge]
  split
  · exact .inl rfl
  · split
    · exact .inr (.inl rfl)
    · exact .inr (.inr (.ok () d _ _))

theorem agree_bind {f f' : A → Metered E D B} (first : Agree limit m m')
    (second : ∀ a, Agree limit (f a) (f' a)) : Agree limit (m >>= f) (m' >>= f') := by
  intro work work' d
  rw [exec_bind, exec_bind]
  have start := first work work' d
  rcases left : m.exec ⟨work, d⟩ with ⟨e | a, after, data⟩
  · rw [left] at start
    rcases right : m'.exec ⟨work', d⟩ with ⟨e' | a', after', data'⟩
    · rw [right] at start
      obtain one | one | same := start
      · cases one
        exact .inl rfl
      · cases one
        exact .inr (.inl rfl)
      · cases same
        exact .inr (.inr (.error e _ _))
    · rw [right] at start
      obtain one | one | one := start
      · cases one
        exact .inl rfl
      · cases one
      · cases one
  · rw [left] at start
    rcases right : m'.exec ⟨work', d⟩ with ⟨e' | a', after', data'⟩
    · rw [right] at start
      obtain one | one | one := start
      · cases one
      · cases one
        exact .inr (.inl rfl)
      · cases one
    · rw [right] at start
      obtain one | one | same := start
      · cases one
      · cases one
      · cases same
        exact second a after after' data

theorem exec_locally (f : E → E') (start : D') (p : Metered E D' A) (work : Nat) (d : D) :
    (locally f start p : Metered E' D (A × D')).exec ⟨work, d⟩ =
      (match (p.exec ⟨work, start⟩).1 with
        | .ok a => .ok (a, (p.exec ⟨work, start⟩).2.data)
        | .error e => .error (f e), ⟨(p.exec ⟨work, start⟩).2.work, d⟩) := rfl

theorem exec_borrow (f : E → E') (p : Metered E Unit A) (work : Nat) (d : D) :
    (borrow f p : Metered E' D A).exec ⟨work, d⟩ =
      ((p.exec ⟨work, ()⟩).1.mapError f, ⟨(p.exec ⟨work, ()⟩).2.work, d⟩) := rfl

variable {f : E → E'}

theorem agree_locally {start : D'} {p p' : Metered E D' A} (agree : Agree limit p p') :
    Agree (f limit) (locally f start p : Metered E' D (A × D')) (locally f start p') := by
  intro work work' d
  rw [exec_locally, exec_locally]
  obtain one | two | same := agree work work' start
  · rw [one]
    exact .inl rfl
  · rw [two]
    exact .inr (.inl rfl)
  · generalize p.exec ⟨work, start⟩ = left, p'.exec ⟨work', start⟩ = right at same ⊢
    cases same with
    | ok a d' w w' => exact .inr (.inr (.ok (a, d') d w w'))
    | error e s s' => exact .inr (.inr (.error (f e) _ _))

theorem agree_borrow {p p' : Metered E Unit A} (agree : Agree limit p p') :
    Agree (f limit) (borrow f p : Metered E' D A) (borrow f p') := by
  intro work work' d
  rw [exec_borrow, exec_borrow]
  obtain one | two | same := agree work work' ()
  · rw [one]
    exact .inl rfl
  · rw [two]
    exact .inr (.inl rfl)
  · generalize p.exec ⟨work, ()⟩ = left, p'.exec ⟨work', ()⟩ = right at same ⊢
    cases same with
    | ok a d' w w' => exact .inr (.inr (.ok a d w w'))
    | error e s s' => exact .inr (.inr (.error (f e) _ _))

theorem agree_ite {c : Prop} [Decidable c] {p p' : Metered E D A} (yes : c → Agree limit m m')
    (no : ¬ c → Agree limit p p') : Agree limit (if c then m else p) (if c then m' else p') := by
  split
  · exact yes ‹_›
  · exact no ‹_›

theorem agree_guard {c : Prop} [Decidable c] {e : E} (rest : ¬c → Agree limit m m') :
    Agree limit (if c then throw e else m) (if c then throw e else m') :=
  agree_ite (fun _ => agree_throw e) rest

@[simp] theorem gives_borrow {p : Metered E Unit A} {s s' : Budgeted D} {a : A} :
    Gives (borrow f p) s a s' ↔ ∃ work, Gives p ⟨s.work, ()⟩ a ⟨work, ()⟩ ∧ s' = ⟨work, s.data⟩ := by
  rw [Gives, exec_borrow]
  unfold Gives
  rcases p.exec ⟨s.work, ()⟩ with ⟨e | value, work, data⟩
  · simp [Except.mapError]
  · simp only [Except.mapError, Prod.mk.injEq, Except.ok.injEq, Budgeted.mk.injEq, and_true]
    constructor
    · rintro ⟨rfl, rfl⟩
      exact ⟨work, ⟨rfl, rfl⟩, rfl⟩
    · rintro ⟨_, ⟨rfl, rfl⟩, rfl⟩
      exact ⟨rfl, rfl⟩

theorem gives_locally {start : D'} {p : Metered E D' A} {s s' : Budgeted D} {a : A} {d : D'} :
    Gives (locally f start p) s (a, d) s' ↔
      ∃ work, Gives p ⟨s.work, start⟩ a ⟨work, d⟩ ∧ s' = ⟨work, s.data⟩ := by
  rw [Gives, exec_locally]
  unfold Gives
  rcases p.exec ⟨s.work, start⟩ with ⟨e | value, work, data⟩
  · simp
  · simp only [Prod.mk.injEq, Except.ok.injEq, Budgeted.mk.injEq]
    constructor
    · rintro ⟨⟨rfl, rfl⟩, rfl⟩
      exact ⟨work, ⟨rfl, rfl, rfl⟩, rfl⟩
    · rintro ⟨w, ⟨rfl, rfl, rfl⟩, rfl⟩
      exact ⟨⟨rfl, rfl⟩, rfl⟩

def Unmetered (m : Metered E D A) : Prop := ∀ d, ∃ r d', ∀ work, m.exec ⟨work, d⟩ = (r, ⟨work, d'⟩)

theorem Unmetered.steady (unmetered : Unmetered m) : Agree limit m m := by
  intro work work' d
  obtain ⟨r, d', run⟩ := unmetered d
  rw [run, run]
  cases r with
  | ok a => exact .inr (.inr (.ok a d' work work'))
  | error e => exact .inr (.inr (.error e _ _))

/-- From the data `d` the program ends in one way, unless it ends with `limit`. -/
def Ends (limit : E) (m : Metered E D A) (d : D) : Except E (A × D) → Prop
  | .ok (a, d') => ∀ work, (m.exec ⟨work, d⟩).1 = .error limit ∨
      ∃ left, m.exec ⟨work, d⟩ = (.ok a, ⟨left, d'⟩)
  | .error e => ∀ work, (m.exec ⟨work, d⟩).1 = .error limit ∨ (m.exec ⟨work, d⟩).1 = .error e

variable {d d' : D} {a : A} {e : E}

theorem ends_pure : Ends limit (pure a : Metered E D A) d (.ok (a, d)) :=
  fun work => .inr ⟨work, rfl⟩

theorem ends_throw : Ends limit (throw e : Metered E D A) d (.error e) := fun _ => .inr rfl

theorem ends_data : Ends limit (data : Metered E D D) d (.ok (d, d)) := fun work => .inr ⟨work, rfl⟩

theorem ends_update (f : D → D) : Ends limit (update f : Metered E D Unit) d (.ok ((), f d)) :=
  fun work => .inr ⟨work, rfl⟩

theorem ends_charge (amount : Nat) :
    Ends limit (charge limit amount : Metered E D Unit) d (.ok ((), d)) := by
  intro work
  rw [exec_charge]
  split
  · exact .inl rfl
  · exact .inr ⟨_, rfl⟩

theorem ends_limit {r : Except E (A × D)} : Ends limit (throw limit : Metered E D A) d r := by
  rcases r with failure | ⟨b, final⟩
  · exact fun _ => .inl rfl
  · exact fun _ => .inl rfl

theorem exec_bind_failed {f : A → Metered E D B} {s : Budgeted D}
    (failed : (m.exec s).1 = .error e) : ((m >>= f).exec s).1 = .error e := by
  rw [exec_bind]
  rcases outcome : m.exec s with ⟨e' | a, after⟩
  · rw [outcome] at failed
    cases failed
    rfl
  · rw [outcome] at failed
    cases failed

theorem ends_bind {f : A → Metered E D B} {r : Except E (B × D)} (first : Ends limit m d (.ok (a, d')))
    (second : Ends limit (f a) d' r) : Ends limit (m >>= f) d r := by
  have later : ∀ work, ((m >>= f).exec ⟨work, d⟩).1 = .error limit ∨
      ∃ left, (m >>= f).exec ⟨work, d⟩ = (f a).exec ⟨left, d'⟩ := by
    intro work
    obtain short | ⟨left, completed⟩ := first work
    · exact .inl (exec_bind_failed short)
    · refine .inr ⟨left, ?_⟩
      rw [exec_bind, completed]
  rcases r with failure | ⟨b, final⟩
  · intro work
    obtain short | ⟨left, completed⟩ := later work
    · exact .inl short
    · rw [completed]
      exact second left
  · intro work
    obtain short | ⟨left, completed⟩ := later work
    · exact .inl short
    · rw [completed]
      exact second left

theorem ends_bind_error {f : A → Metered E D B} (first : Ends limit m d (.error e)) :
    Ends limit (m >>= f) d (.error e) := by
  intro work
  obtain short | failed := first work
  · exact .inl (exec_bind_failed short)
  · exact .inr (exec_bind_failed failed)

theorem Ends.gives {a' : A} {work : Nat} {s' : Budgeted D}
    (ends : Ends limit m d (.ok (a, d'))) (given : Gives m ⟨work, d⟩ a' s') : a' = a := by
  obtain short | ⟨left, completed⟩ := ends work
  · rw [given] at short
    cases short
  · rw [given] at completed
    cases completed
    rfl

theorem ends_locally {start final : D'} {p : Metered E D' A}
    (inner : Ends limit p start (.ok (a, final))) :
    Ends (f limit) (locally f start p : Metered E' D (A × D')) d (.ok ((a, final), d)) := by
  intro work
  rw [exec_locally]
  obtain short | ⟨left, completed⟩ := inner work
  · rw [short]
    exact .inl rfl
  · rw [completed]
    exact .inr ⟨left, rfl⟩

theorem ends_locally_error {start : D'} {p : Metered E D' A} (inner : Ends limit p start (.error e)) :
    Ends (f limit) (locally f start p : Metered E' D (A × D')) d (.error (f e)) := by
  intro work
  rw [exec_locally]
  obtain short | failed := inner work
  · rw [short]
    exact .inl rfl
  · rw [failed]
    exact .inr rfl

theorem agree_of_ends (same : ∀ d, ∃ r, Ends limit m d r ∧ Ends limit m' d r) : Agree limit m m' := by
  intro work work' d
  obtain ⟨failure | ⟨a, final⟩, left, right⟩ := same d
  · obtain one | one := left work
    · exact .inl one
    obtain two | two := right work'
    · exact .inr (.inl two)
    refine .inr (.inr ?_)
    generalize m.exec ⟨work, d⟩ = ended, m'.exec ⟨work', d⟩ = ended' at one two
    obtain ⟨_, s⟩ := ended
    obtain ⟨_, s'⟩ := ended'
    cases one
    cases two
    exact .error failure s s'
  · obtain one | ⟨w, one⟩ := left work
    · exact .inl one
    obtain two | ⟨w', two⟩ := right work'
    · exact .inr (.inl two)
    rw [one, two]
    exact .inr (.inr (.ok a final w w'))

end Library.Metered

namespace Library.Program

variable {E S A B : Type}

/-- A run that completed with `Q` or failed with `F`. -/
def Ended (Q : A → S → Prop) (F : E → S → Prop) : Except E A × S → Prop
  | (.ok a, s) => Q a s
  | (.error e, s) => F e s

/-- Every run from `P` completes with `Q`, or fails with `F`. -/
def Triple (P : S → Prop) (m : Program E S A) (Q : A → S → Prop) (F : E → S → Prop) : Prop :=
  ∀ s, P s → Ended Q F (m.exec s)

variable {P P' R : S → Prop} {m : Program E S A} {Q Q' : A → S → Prop} {F F' : E → S → Prop}

theorem triple_pure {a : A} (holds : ∀ s, P s → Q a s) : Triple P (pure a : Program E S A) Q F := holds

theorem triple_throw {e : E} (holds : ∀ s, P s → F e s) : Triple P (throw e : Program E S A) Q F := holds

theorem triple_bind {f : A → Program E S B} {Q' : B → S → Prop} (first : Triple P m Q F)
    (second : ∀ a, Triple (Q a) (f a) Q' F) : Triple P (m >>= f) Q' F := by
  intro s before
  have here := first s before
  rw [exec_bind]
  rcases ended : m.exec s with ⟨e | a, middle⟩ <;> rw [ended] at here
  · exact here
  · exact second a middle here

theorem triple_lift {r : Except E A} (good : ∀ a, r = .ok a → ∀ s, P s → Q a s)
    (bad : ∀ e, r = .error e → ∀ s, P s → F e s) : Triple P (lift r : Program E S A) Q F := by
  cases r with
  | ok a => exact triple_pure (good a rfl)
  | error e => exact triple_throw (bad e rfl)

theorem triple_ite {c : Prop} [Decidable c] {p : Program E S A} (yes : c → Triple P m Q F)
    (no : ¬ c → Triple P p Q F) : Triple P (if c then m else p) Q F := by
  split
  · exact yes ‹_›
  · exact no ‹_›

theorem triple_fact {c : Prop} (fact : ∀ s, P s → c) (then_ : c → Triple P m Q F) : Triple P m Q F :=
  fun s before => then_ (fact s before) s before

theorem Triple.mono (triple : Triple P m Q F) (before : ∀ s, P' s → P s)
    (after : ∀ a s, Q a s → Q' a s) (failed : ∀ e s, F e s → F' e s) : Triple P' m Q' F' := by
  intro s start
  have here := triple s (before s start)
  rcases ended : m.exec s with ⟨e | a, final⟩ <;> rw [ended] at here
  · exact failed e final here
  · exact after a final here

theorem Triple.gives {s s' : S} {a : A} (triple : Triple P m Q F) (before : P s)
    (given : Gives m s a s') : Q a s' := by
  have here := triple s before
  rw [given] at here
  exact here

theorem triple_trial {G : E → S → Prop} (triple : Triple P m Q F) :
    Triple P (trial m) (fun outcome s => Ended Q F (outcome, s)) G :=
  fun s before => triple s before

theorem Triple.after {T : S → Prop} {s : S} (triple : Triple P m Q F) (before : P s)
    (good : ∀ a s, Q a s → T s) (bad : ∀ e s, F e s → T s) : T (m.exec s).2 := by
  have here := triple s before
  rcases ended : m.exec s with ⟨e | a, final⟩ <;> rw [ended] at here
  · exact bad e final here
  · exact good a final here

end Library.Program

namespace Library.Metered

open Program

variable {E E' D A : Type} {P : D → Prop} {F : E → D → Prop}

abbrev Data (P : D → Prop) : Budgeted D → Prop := fun s => P s.data

theorem triple_charge {limit : E} {amount : Nat} (failed : ∀ d, P d → F limit d) :
    Triple (Data P) (charge limit amount : Metered E D Unit) (fun _ => Data P) fun e => Data (F e) := by
  rintro ⟨work, d⟩ before
  rw [exec_charge]
  split
  · exact failed d before
  · exact before

theorem triple_pure_data {Q : A → D → Prop} {a : A} {d : D} {F : E → Budgeted D → Prop}
    (before : ∀ d', P d' → d' = d) (holds : Q a d) :
    Triple (Data P) (pure a : Metered E D A) (fun a => Data (Q a)) F := by
  intro s start
  obtain rfl := before s.data start
  exact holds

theorem triple_call {Q : A → D → Prop} {limit : E} {p : Priced (Except E A)}
    (good : ∀ a d, p.result = .ok a → P d → Q a d) (failed : ∀ e d, P d → F e d) :
    Triple (Data P) (call limit p : Metered E D A) (fun a => Data (Q a)) fun e => Data (F e) := by
  apply triple_bind (Q := fun _ => Data P) (triple_charge (failed limit))
  intro _
  exact triple_lift (fun a given s => good a s.data given) fun e _ s => failed e s.data

theorem triple_answer {Q : A → D → Prop} {limit : A} {p : Priced A}
    (short : ∀ d, P d → Q limit d) (enough : ∀ d, P d → Q p.result d) :
    Triple (Data P) (answer limit p : Metered E D A) (fun a => Data (Q a)) fun e => Data (F e) := by
  rintro ⟨work, d⟩ before
  rw [exec_answer]
  split
  · exact short d before
  · exact enough d before

theorem triple_data {Q : D → D → Prop} (holds : ∀ d, P d → Q d d) :
    Triple (Data P) (data : Metered E D D) (fun d => Data (Q d)) fun e => Data (F e) :=
  fun s before => holds s.data before

theorem triple_update {f : D → D} {Q : Unit → D → Prop} (holds : ∀ d, P d → Q () (f d)) :
    Triple (Data P) (update f : Metered E D Unit) (fun u => Data (Q u)) fun e => Data (F e) :=
  fun s before => holds s.data before

theorem triple_borrow {f : E' → E} {p : Metered E' Unit A} {Q : A → D → Prop}
    (good : ∀ work left a, Gives p ⟨work, ()⟩ a ⟨left, ()⟩ → ∀ d, P d → Q a d)
    (bad : ∀ e d, P d → F (f e) d) :
    Triple (Data P) (borrow f p : Metered E D A) (fun a => Data (Q a)) fun e => Data (F e) := by
  rintro ⟨work, d⟩ before
  rw [exec_borrow]
  rcases ended : p.exec ⟨work, ()⟩ with ⟨e | a, left, owned⟩
  · exact bad e d before
  · exact good work left a ended d before

theorem throws_borrow {f : E' → E} {p : Metered E' Unit A} {R : E → Prop} (holds : ∀ e, R (f e)) :
    Throws R (borrow f p : Metered E D A) := by
  rintro ⟨work, d⟩ e s' failed
  rw [exec_borrow] at failed
  generalize p.exec ⟨work, ()⟩ = outcome at failed
  obtain ⟨failure | a, left⟩ := outcome
  · cases failed
    exact holds failure
  · cases failed

/-- `m` keeps `P` however it ends, and what it answers satisfies `Q`. -/
def Keeps (P : D → Prop) (m : Metered E D A) (Q : A → Prop) : Prop :=
  Triple (Data P) m (fun a => Data fun d => P d ∧ Q a) fun _ => Data P

variable {m : Metered E D A} {Q Q' : A → Prop}

theorem keeps_pure {a : A} (holds : Q a) : Keeps P (pure a : Metered E D A) Q :=
  fun _ before => ⟨before, holds⟩

theorem keeps_throw {e : E} : Keeps P (throw e : Metered E D A) Q := fun _ before => before

theorem keeps_bind {B : Type} {f : A → Metered E D B} {R : B → Prop} (first : Keeps P m Q)
    (second : ∀ a, Q a → Keeps P (f a) R) : Keeps P (m >>= f) R := by
  apply triple_bind first
  intro a
  exact fun s before => second a before.2 s before.1

theorem keeps_charge {limit : E} {amount : Nat} :
    Keeps P (charge limit amount : Metered E D Unit) fun _ => True :=
  (triple_charge fun _ before => before).mono (fun _ before => before)
    (fun _ _ after => ⟨after, trivial⟩) fun _ _ failed => failed

theorem keeps_lift {r : Except E A} (good : ∀ a, r = .ok a → Q a) :
    Keeps P (lift r : Metered E D A) Q :=
  triple_lift (fun a given _ before => ⟨before, good a given⟩) fun _ _ _ before => before

theorem keeps_call {limit : E} {p : Priced (Except E A)} (good : ∀ a, p.result = .ok a → Q a) :
    Keeps P (call limit p : Metered E D A) Q :=
  triple_call (fun a _ given before => ⟨before, good a given⟩) fun _ _ before => before

theorem keeps_answer {limit : A} {p : Priced A} (short : Q limit) (enough : Q p.result) :
    Keeps P (answer limit p : Metered E D A) Q :=
  triple_answer (fun _ before => ⟨before, short⟩) fun _ before => ⟨before, enough⟩

theorem keeps_data {Q : D → Prop} (holds : ∀ d, P d → Q d) : Keeps P (data : Metered E D D) Q :=
  triple_data fun d before => ⟨before, holds d before⟩

theorem keeps_update {f : D → D} (holds : ∀ d, P d → P (f d)) :
    Keeps P (update f : Metered E D Unit) fun _ => True :=
  triple_update fun d before => ⟨holds d before, trivial⟩

theorem keeps_trial (keeps : Keeps P m Q) :
    Keeps P (trial m) fun outcome => ∀ a, outcome = .ok a → Q a := by
  have tried : Triple (Data P) (trial m) _ fun _ => Data P := triple_trial keeps
  apply tried.mono (fun _ before => before) _ fun _ _ failed => failed
  intro outcome s ended
  cases outcome with
  | error e => exact ⟨ended, fun _ given => nomatch given⟩
  | ok a => exact ⟨ended.1, fun _ given => Except.ok.inj given ▸ ended.2⟩

theorem keeps_ite {c : Prop} [Decidable c] {p : Metered E D A} (yes : c → Keeps P m Q)
    (no : ¬c → Keeps P p Q) : Keeps P (if c then m else p) Q := triple_ite yes no

theorem keeps_guard {c : Prop} [Decidable c] {e : E} (rest : ¬c → Keeps P m Q) :
    Keeps P (if c then throw e else m) Q := keeps_ite (fun _ => keeps_throw) rest

theorem Keeps.mono (keeps : Keeps P m Q) (weaker : ∀ a, Q a → Q' a) : Keeps P m Q' :=
  Triple.mono keeps (fun _ before => before) (fun a _ after => ⟨after.1, weaker a after.2⟩)
    fun _ _ failed => failed

theorem Keeps.triple {R G : D → Prop} {T : A → D → Prop} (keeps : Keeps P m Q)
    (start : ∀ d, R d → P d) (good : ∀ a d, P d → Q a → T a d) (failed : ∀ d, P d → G d) :
    Triple (Data R) m (fun a => Data (T a)) fun _ => Data G :=
  Triple.mono keeps (fun s => start s.data) (fun a s after => good a s.data after.1 after.2)
    fun _ s => failed s.data

theorem keeps_next {B : Type} {a : A} {I : A → Prop} {L : B → Prop} (holds : I a) :
    Keeps P (pure (.next a) : Metered E D (Turn A B)) (Turn.Ends I L) := keeps_pure holds

theorem keeps_range {B : Type} {body : Nat → A → Metered E D (Turn A B)} {I : Nat → A → Prop}
    {L : B → Prop} (first count : Nat) (step : ∀ i a, first ≤ i → i < first + count → I i a →
      Keeps P (body i a) (Turn.Ends (I (i + 1)) L)) {a : A} (start : I first a) :
    Keeps P (forRange body first count a) (Turn.Ends (I (first + count)) L) := by
  induction count generalizing first a with
  | zero => exact keeps_pure start
  | succ count ih =>
    apply keeps_bind (step first a le_rfl (by omega) start)
    intro turn ends
    cases turn with
    | next a' =>
      have rest := @ih (first + 1) (fun i a low high => step i a (by omega) (by omega)) a' ends
      rwa [show first + (count + 1) = first + 1 + count by omega]
    | leave b => exact keeps_pure ends

theorem keeps_forRange {B : Type} {body : Nat → A → Metered E D (Turn A B)} {I : A → Prop}
    {L : B → Prop} (step : ∀ i a, I a → Keeps P (body i a) (Turn.Ends I L)) (first count : Nat)
    {a : A} (start : I a) : Keeps P (forRange body first count a) (Turn.Ends I L) :=
  @keeps_range _ _ _ P B body (fun _ => I) L first count (fun i a _ _ held => step i a held) a start

theorem Keeps.throws {R : E → Prop} (keeps : Keeps P m Q) (throws : Throws R m) :
    Triple (Data P) m (fun a => Data fun d => P d ∧ Q a) fun e => Data fun d => P d ∧ R e := by
  intro s before
  have here := keeps s before
  rcases ended : m.exec s with ⟨e | a, final⟩ <;> rw [ended] at here
  · exact ⟨here, throws s e final ended⟩
  · exact here

/-- A budget that is large enough lets the program complete with `a`, on the data as it was. -/
def Pays (m : Metered E D A) (a : A) : Prop :=
  ∃ cost, ∀ s, cost ≤ s.work → ∃ left, m.exec s = (.ok a, ⟨left, s.data⟩) ∧ s.work ≤ left + cost

section

variable {B : Type} {a b : A}

theorem pays_pure : Pays (pure a : Metered E D A) a := ⟨0, fun s _ => ⟨s.work, rfl, le_rfl⟩⟩

theorem pays_charge {limit : E} {amount : Nat} :
    Pays (charge limit amount : Metered E D Unit) () := by
  refine ⟨amount, ?_⟩
  rintro ⟨work, d⟩ enough
  refine ⟨work - amount, ?_, by dsimp only; omega⟩
  rw [exec_charge, if_neg (by dsimp only at enough; omega)]

theorem pays_bind {f : A → Metered E D B} {b : B} (first : Pays m a) (second : Pays (f a) b) :
    Pays (m >>= f) b := by
  obtain ⟨cost, first⟩ := first
  obtain ⟨cost', second⟩ := second
  refine ⟨cost + cost', ?_⟩
  intro s enough
  obtain ⟨left, ended, spent⟩ := first s (by omega)
  obtain ⟨left', ended', spent'⟩ := second ⟨left, s.data⟩ (by dsimp only; omega)
  refine ⟨left', ?_, by dsimp only at spent'; omega⟩
  rw [exec_bind, ended]
  exact ended'

theorem pays_lift {r : Except E A} (given : r = .ok a) : Pays (lift r : Metered E D A) a := by
  rw [given]
  exact pays_pure

theorem pays_call {limit : E} {p : Priced (Except E A)} (given : p.result = .ok a) :
    Pays (call limit p : Metered E D A) a := by
  unfold call
  exact pays_bind pays_charge (pays_lift given)

end

/-- From `d` every budget that covers `cost` leads to one outcome, with `d'` left. -/
def Completes (cost : Nat) (m : Metered E D A) (d : D) (r : Except E A) (d' : D) : Prop :=
  ∀ work, cost ≤ work → ∃ left, m.exec ⟨work, d⟩ = (r, ⟨left, d'⟩) ∧ work ≤ left + cost

section

variable {B : Type} {a : A} {e : E} {d d' d'' : D} {cost cost' : Nat}

theorem completes_pure : Completes 0 (pure a : Metered E D A) d (.ok a) d :=
  fun work _ => ⟨work, rfl, le_rfl⟩

theorem completes_throw : Completes 0 (throw e : Metered E D A) d (.error e) d :=
  fun work _ => ⟨work, rfl, le_rfl⟩

theorem completes_data : Completes 0 (data : Metered E D D) d (.ok d) d :=
  fun work _ => ⟨work, rfl, le_rfl⟩

variable {r : Except E A}

theorem completes_state {f : Budgeted D → Metered E D A}
    (continued : ∀ work, cost ≤ work → Completes cost (f ⟨work, d⟩) d r d') :
    Completes cost (state >>= f) d r d' := by
  intro work enough
  rw [exec_bind, exec_state]
  exact continued work enough work enough

theorem completes_update {f : D → D} :
    Completes 0 (update f : Metered E D Unit) d (.ok ()) (f d) := fun work _ => ⟨work, rfl, le_rfl⟩

theorem completes_charge {limit : E} {amount : Nat} :
    Completes amount (charge limit amount : Metered E D Unit) d (.ok ()) d := by
  intro work enough
  refine ⟨work - amount, ?_, by omega⟩
  rw [exec_charge, if_neg (by omega)]

variable {f : A → Metered E D B}

theorem completes_bind {r : Except E B} (first : Completes cost m d (.ok a) d')
    (second : Completes cost' (f a) d' r d'') : Completes (cost + cost') (m >>= f) d r d'' := by
  intro work enough
  obtain ⟨left, ended, spent⟩ := first work (by omega)
  obtain ⟨left', ended', spent'⟩ := second left (by omega)
  refine ⟨left', ?_, by omega⟩
  rw [exec_bind, ended]
  exact ended'

theorem completes_bind_free {r : Except E B} (first : Completes cost m d (.ok a) d')
    (second : Completes 0 (f a) d' r d'') : Completes cost (m >>= f) d r d'' := by
  have whole := completes_bind first second
  rwa [Nat.add_zero] at whole

theorem completes_locally {D' E' : Type} {f : E → E'} {start final : D'} {p : Metered E D' A}
    (inner : Completes cost p start (.ok a) final) :
    Completes cost (locally f start p : Metered E' D (A × D')) d (.ok (a, final)) d := by
  intro work enough
  obtain ⟨left, ended, spent⟩ := inner work enough
  refine ⟨left, ?_, spent⟩
  rw [exec_locally]
  rw [ended]

theorem Completes.mono (completes : Completes cost m d r d') (le : cost ≤ cost') :
    Completes cost' m d r d' := by
  intro work enough
  obtain ⟨left, ended, spent⟩ := completes work (by omega)
  exact ⟨left, ended, by omega⟩

def Reaches (m : Metered E D A) (d : D) (r : Except E A) (d' : D) : Prop :=
  ∃ cost, Completes cost m d r d'

theorem reaches_pure : Reaches (pure a : Metered E D A) d (.ok a) d := ⟨0, completes_pure⟩

theorem reaches_throw : Reaches (throw e : Metered E D A) d (.error e) d := ⟨0, completes_throw⟩

theorem reaches_data : Reaches (data : Metered E D D) d (.ok d) d := ⟨0, completes_data⟩

theorem reaches_update {f : D → D} : Reaches (update f : Metered E D Unit) d (.ok ()) (f d) :=
  ⟨0, completes_update⟩

theorem reaches_charge {limit : E} {amount : Nat} :
    Reaches (charge limit amount : Metered E D Unit) d (.ok ()) d := ⟨amount, completes_charge⟩

theorem reaches_answer {limit : A} {p : Priced A} :
    Reaches (answer limit p : Metered E D A) d (.ok p.result) d := by
  refine ⟨p.cost, fun work enough => ⟨work - p.cost, ?_, by omega⟩⟩
  rw [exec_answer, if_neg (by omega)]

theorem reaches_bind {r : Except E B} (first : Reaches m d (.ok a) d')
    (second : Reaches (f a) d' r d'') : Reaches (m >>= f) d r d'' := by
  obtain ⟨cost, first⟩ := first
  obtain ⟨cost', second⟩ := second
  exact ⟨cost + cost', completes_bind first second⟩

theorem reaches_trial (reaches : Reaches m d r d') : Reaches (trial m) d (.ok r) d' := by
  obtain ⟨cost, completes⟩ := reaches
  refine ⟨cost, fun work enough => ?_⟩
  obtain ⟨left, ended, spent⟩ := completes work enough
  refine ⟨left, ?_, spent⟩
  change ((Except.ok (m.exec ⟨work, d⟩).1 : Except E (Except E A)), (m.exec ⟨work, d⟩).2) = _
  rw [ended]

variable {F : E → Prop} {G : A → Prop}

/-- Every large enough budget leads from `d` to one answer, to an answer in `G` or to an error in
    `F`, for each of the programs. -/
def Concludes (F : E → Prop) (G : A → Prop) (m : Nat → Metered E D A) (d : D) : Prop :=
  ∃ cost, (∃ a d', ∀ i, Completes cost (m i) d (.ok a) d') ∨
    ∀ i work, cost ≤ work → (∃ a s', Gives (m i) ⟨work, d⟩ a s' ∧ G a) ∨
      ∃ e s', (m i).exec ⟨work, d⟩ = (.error e, s') ∧ F e

theorem concludes_reached {m : Metered E D A} {a : A} (reached : Reaches m d (.ok a) d') :
    Concludes F G (fun _ => m) d := by
  obtain ⟨cost, reached⟩ := reached
  exact ⟨cost, .inl ⟨a, d', fun _ => reached⟩⟩

theorem concludes_throw {e : E} (ends : F e) :
    Concludes F G (fun _ => (throw e : Metered E D A)) d :=
  ⟨0, .inr fun _ work _ => .inr ⟨e, ⟨work, d⟩, rfl, ends⟩⟩

theorem Concludes.step {m : Metered E D B} {f : Nat → B → Metered E D A} {b : B}
    (reached : Reaches m d (.ok b) d') (second : Concludes F G (fun i => f i b) d') :
    Concludes F G (fun i => m >>= f i) d := by
  obtain ⟨cost, completes⟩ := reached
  obtain ⟨cost', ⟨a, d'', completes'⟩ | stops⟩ := second
  · exact ⟨cost + cost', .inl ⟨a, d'', fun i => completes_bind completes (completes' i)⟩⟩
  · refine ⟨cost + cost', .inr fun i work enough => ?_⟩
    obtain ⟨left, ended, spent⟩ := completes work (by omega)
    simp only [Gives, exec_bind, ended]
    exact stops i left (by omega)

theorem Concludes.bind {m : Metered E D B} {f : Nat → B → Metered E D A}
    (first : Concludes F (fun _ => False) (fun _ => m) d)
    (second : ∀ b d', Concludes F G (fun i => f i b) d') :
    Concludes F G (fun i => m >>= f i) d := by
  obtain ⟨cost, ⟨b, d', completes⟩ | stops⟩ := first
  · exact .step ⟨cost, completes 0⟩ (second b d')
  · refine ⟨cost, .inr fun i work enough => ?_⟩
    rcases stops i work enough with ⟨_, _, _, never⟩ | ⟨e, s', failed, ends⟩
    · exact never.elim
    · exact .inr ⟨e, s', by rw [exec_bind, failed], ends⟩

end

end Library.Metered

namespace Library.Metered

open Program

variable {E E' D D' A B : Type}

/-- What any run completes with, every large enough budget completes with. -/
def Reliable (m : Metered E D A) : Prop := ∀ ⦃s a s'⦄, Gives m s a s' → Pays m a

section

variable {m p : Metered E D A}

theorem reliable_pure {a : A} : Reliable (pure a : Metered E D A) := by
  intro s b s' given
  obtain ⟨rfl, -⟩ := gives_pure.mp given
  exact pays_pure

theorem reliable_throw {e : E} : Reliable (throw e : Metered E D A) := by
  intro s a s' given
  simp at given

theorem reliable_lift {r : Except E A} : Reliable (lift r : Metered E D A) :=
  fun _ _ _ given => pays_lift (gives_lift.mp given).1

theorem reliable_charge {limit : E} {amount : Nat} : Reliable (charge limit amount : Metered E D Unit) :=
  fun _ _ _ _ => pays_charge

theorem Reliable.bind {f : A → Metered E D B} (first : Reliable m) (second : ∀ a, Reliable (f a)) :
    Reliable (m >>= f) := by
  intro s b s' given
  obtain ⟨a, middle, given, given'⟩ := gives_bind.mp given
  exact pays_bind (first given) (second a given')

theorem reliable_ite {c : Prop} [Decidable c] (yes : c → Reliable m) (no : ¬c → Reliable p) :
    Reliable (if c then m else p) := by
  split
  · exact yes ‹_›
  · exact no ‹_›

theorem reliable_guard {c : Prop} [Decidable c] {e : E} (rest : ¬c → Reliable m) :
    Reliable (if c then throw e else m) := reliable_ite (fun _ => reliable_throw) rest

theorem reliable_borrow {f : E → E'} {p : Metered E Unit A} (reliable : Reliable p) :
    Reliable (borrow f p : Metered E' D A) := by
  intro s a s' given
  obtain ⟨work, given, -⟩ := gives_borrow.mp given
  obtain ⟨cost, paid⟩ := reliable given
  refine ⟨cost, fun t enough => ?_⟩
  obtain ⟨left, run, spent⟩ := paid ⟨t.work, ()⟩ enough
  refine ⟨left, ?_, spent⟩
  rw [exec_borrow, run]
  rfl

end

theorem reliable_locally {limit : E} {f : E → E'} {start : D'} {amount : Nat} {p : Metered E D' A}
    (unmetered : Unmetered p) :
    Reliable (locally f start (do charge limit amount; p) : Metered E' D (A × D')) := by
  rintro s ⟨a, d⟩ s' given
  obtain ⟨work, given, -⟩ := gives_locally.mp given
  obtain ⟨u, middle, charged, given⟩ := gives_bind.mp given
  obtain ⟨-, rfl⟩ := gives_charge.mp charged
  obtain ⟨r, final, run⟩ := unmetered start
  obtain ⟨rfl, same⟩ := Prod.ext_iff.mp ((run _).symm.trans given)
  obtain rfl : final = d := congrArg Budgeted.data same
  refine ⟨amount, fun t enough => ⟨t.work - amount, ?_, by omega⟩⟩
  have inner : (do charge limit amount; p : Metered E D' A).exec ⟨t.work, start⟩ =
      (.ok a, ⟨t.work - amount, final⟩) := by
    rw [exec_bind, exec_charge, if_neg (by omega)]
    exact run _
  rw [exec_locally, inner]

end Library.Metered
