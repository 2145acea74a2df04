import TinyCrypto.Library.Steady

/-! # Two programs side by side

With enough work two metered programs end with one answer, and their data stay related. What they
charge may differ.
-/

namespace Library.Metered

open Program

variable {E D D' A B : Type}

section

variable {m : Metered E D A} {a : A} {e : E} {d d' d'' : D} {cost : Nat}

variable {f : A → Metered E D B}

theorem completes_bind_error (first : Completes cost m d (.error e) d') :
    Completes cost (m >>= f) d (.error e) d' := by
  intro work enough
  obtain ⟨left, ended, spent⟩ := first work enough
  exact ⟨left, by rw [exec_bind, ended], spent⟩

theorem reaches_bind_error (first : Reaches m d (.error e) d') :
    Reaches (m >>= f) d (.error e) d' :=
  first.imp fun _ => completes_bind_error

theorem reaches_lift {r : Except E A} : Reaches (lift r : Metered E D A) d r d := by
  cases r with
  | ok a => exact reaches_pure
  | error e => exact reaches_throw

theorem reaches_call {limit : E} {p : Priced (Except E A)} :
    Reaches (call limit p : Metered E D A) d p.result d :=
  reaches_bind reaches_charge reaches_lift

open Classical in
theorem reaches_search {p : Nat → Prop} {body : Nat → Unit → Metered E D (Turn Unit Unit)}
    (first count : Nat) (each : ∀ i, first ≤ i → i < first + count →
      Reaches (body i ()) d (.ok (if p i then .leave () else .next ())) d) :
    Reaches (forRange body first count ()) d
      (.ok (if ∃ i, first ≤ i ∧ i < first + count ∧ p i then .leave () else .next ())) d := by
  induction count generalizing first with
  | zero =>
    rw [if_neg fun ⟨i, low, high, _⟩ => by omega]
    exact reaches_pure
  | succ count ih =>
    have here := each first le_rfl (by omega)
    have rest := ih (first + 1) fun i low high => each i (by omega) (by omega)
    by_cases holds : p first
    · rw [if_pos holds] at here
      rw [if_pos ⟨first, le_rfl, by omega, holds⟩]
      exact reaches_bind here reaches_pure
    · rw [if_neg holds] at here
      have later : (∃ i, first + 1 ≤ i ∧ i < first + 1 + count ∧ p i) ↔
          ∃ i, first ≤ i ∧ i < first + (count + 1) ∧ p i := by
        constructor
        · exact fun ⟨i, low, high, found⟩ => ⟨i, by omega, by omega, found⟩
        · rintro ⟨i, low, high, found⟩
          have other : i ≠ first := fun same => holds (same ▸ found)
          exact ⟨i, by omega, by omega, found⟩
      simp only [later] at rest
      exact reaches_bind here rest

def Answered (m : Metered E D A) : Prop := ∃ r, ∀ d, Reaches m d r d

theorem answered_pure : Answered (pure a : Metered E D A) := ⟨_, fun _ => reaches_pure⟩

theorem answered_throw : Answered (throw e : Metered E D A) := ⟨_, fun _ => reaches_throw⟩

theorem answered_charge {limit : E} {amount : Nat} :
    Answered (charge limit amount : Metered E D Unit) := ⟨_, fun _ => reaches_charge⟩

theorem answered_lift {r : Except E A} : Answered (lift r : Metered E D A) :=
  ⟨_, fun _ => reaches_lift⟩

theorem answered_call {limit : E} {p : Priced (Except E A)} :
    Answered (call limit p : Metered E D A) := ⟨_, fun _ => reaches_call⟩

theorem Answered.bind (first : Answered m) (second : ∀ a, Answered (f a)) : Answered (m >>= f) := by
  obtain ⟨e | a, first⟩ := first
  · exact ⟨_, fun d => reaches_bind_error (first d)⟩
  · obtain ⟨r, second⟩ := second a
    exact ⟨r, fun d => reaches_bind (first d) (second d)⟩

theorem Answered.trial (answered : Answered m) : Answered (trial m) := by
  obtain ⟨r, reaches⟩ := answered
  exact ⟨_, fun d => reaches_trial (reaches d)⟩

theorem answered_ite {c : Prop} [Decidable c] {p : Metered E D A} (yes : Answered m)
    (no : Answered p) : Answered (if c then m else p) := by
  split
  · exact yes
  · exact no

end

def Settles (Q : A → D → D' → Prop) (F : D → D' → Prop) : Except E A → D → D' → Prop
  | .ok a, d, d' => Q a d d'
  | .error _, d, d' => F d d'

/-- From data related by `P` both programs reach one answer, on data related by `Q`, or one error,
    on data related by `F`. -/
def Together (P : D → D' → Prop) (m : Metered E D A) (m' : Metered E D' A) (Q : A → D → D' → Prop)
    (F : D → D' → Prop) : Prop :=
  ∀ d d', P d d' → ∃ r final final', Reaches m d r final ∧ Reaches m' d' r final' ∧
    Settles Q F r final final'

section

variable {P P' F F' : D → D' → Prop} {m : Metered E D A} {m' : Metered E D' A}
  {Q Q' : A → D → D' → Prop} {R : B → D → D' → Prop}

theorem together_pure {a : A} (holds : ∀ d d', P d d' → Q a d d') :
    Together P (pure a : Metered E D A) (pure a) Q F :=
  fun d d' before => ⟨.ok a, d, d', reaches_pure, reaches_pure, holds d d' before⟩

theorem together_throw {e : E} (holds : ∀ d d', P d d' → F d d') :
    Together P (throw e : Metered E D A) (throw e) Q F :=
  fun d d' before => ⟨.error e, d, d', reaches_throw, reaches_throw, holds d d' before⟩

theorem together_charge {limit : E} {amount amount' : Nat} :
    Together P (charge limit amount : Metered E D Unit) (charge limit amount') (fun _ => P) F :=
  fun d d' before => ⟨.ok (), d, d', reaches_charge, reaches_charge, before⟩

theorem together_update {f : D → D} {f' : D' → D'} (holds : ∀ d d', P d d' → P' (f d) (f' d')) :
    Together P (update f : Metered E D Unit) (update f') (fun _ => P') F :=
  fun d d' before => ⟨.ok (), f d, f' d', reaches_update, reaches_update, holds d d' before⟩

theorem together_answer {limit : A} {p : Priced A} (holds : ∀ d d', P d d' → Q p.result d d') :
    Together P (answer limit p : Metered E D A) (answer limit p) Q F :=
  fun d d' before => ⟨_, d, d', reaches_answer, reaches_answer, holds d d' before⟩

theorem Together.bind {f : A → Metered E D B} {f' : A → Metered E D' B} (first : Together P m m' Q F)
    (second : ∀ a, Together (Q a) (f a) (f' a) R F) : Together P (m >>= f) (m' >>= f') R F := by
  intro d d' before
  obtain ⟨e | a, middle, middle', one, two, holds⟩ := first d d' before
  · exact ⟨.error e, middle, middle', reaches_bind_error one, reaches_bind_error two, holds⟩
  · obtain ⟨r, final, final', three, four, ends⟩ := second a middle middle' holds
    exact ⟨r, final, final', reaches_bind one three, reaches_bind two four, ends⟩

theorem Together.trial (together : Together P m m' Q F) :
    Together P (trial m) (trial m') (fun outcome => Settles Q F outcome) F' := by
  intro d d' before
  obtain ⟨r, final, final', one, two, holds⟩ := together d d' before
  exact ⟨.ok r, final, final', reaches_trial one, reaches_trial two, holds⟩

theorem together_data {f : D → Metered E D B} {f' : D' → Metered E D' B}
    (next : ∀ d d', P d d' → Together (fun x x' => x = d ∧ x' = d') (f d) (f' d') R F) :
    Together P (data >>= f) (data >>= f') R F := by
  intro d d' before
  obtain ⟨r, final, final', one, two, holds⟩ := next d d' before d d' ⟨rfl, rfl⟩
  exact ⟨r, final, final', reaches_bind reaches_data one, reaches_bind reaches_data two, holds⟩

theorem together_ite {c : Prop} [Decidable c] {p : Metered E D A} {p' : Metered E D' A}
    (yes : c → Together P m m' Q F) (no : ¬c → Together P p p' Q F) :
    Together P (if c then m else p) (if c then m' else p') Q F := by
  split
  · exact yes ‹_›
  · exact no ‹_›

theorem Together.mono (together : Together P m m' Q F) (start : ∀ d d', P' d d' → P d d')
    (good : ∀ a d d', Q a d d' → Q' a d d') (bad : ∀ d d', F d d' → F' d d') :
    Together P' m m' Q' F' := by
  intro d d' before
  obtain ⟨r, final, final', one, two, holds⟩ := together d d' (start d d' before)
  refine ⟨r, final, final', one, two, ?_⟩
  cases r with
  | ok a => exact good a final final' holds
  | error e => exact bad final final' holds

theorem together_answers {r : Except E A} (one : ∀ d, Reaches m d r d) (two : ∀ d, Reaches m' d r d) :
    Together P m m' (fun a d d' => P d d' ∧ r = .ok a) P := by
  intro d d' before
  refine ⟨r, d, d', one d, two d', ?_⟩
  cases r with
  | ok a => exact ⟨before, rfl⟩
  | error e => exact before

theorem together_lift {r : Except E A} (good : ∀ a, r = .ok a → ∀ d d', P d d' → Q a d d')
    (bad : ∀ d d', P d d' → F d d') : Together P (lift r : Metered E D A) (lift r) Q F :=
  (together_answers (fun _ => reaches_lift) fun _ => reaches_lift).mono (fun _ _ before => before)
    (fun a d d' after => good a after.2 d d' after.1) bad

theorem together_call {limit : E} {p : Priced (Except E A)}
    (good : ∀ a, p.result = .ok a → ∀ d d', P d d' → Q a d d') (bad : ∀ d d', P d d' → F d d') :
    Together P (call limit p : Metered E D A) (call limit p) Q F :=
  (together_answers (fun _ => reaches_call) fun _ => reaches_call).mono (fun _ _ before => before)
    (fun a d d' after => good a after.2 d d' after.1) bad

theorem together_forRange {body : Nat → A → Metered E D (Turn A B)}
    {body' : Nat → A → Metered E D' (Turn A B)} {I : A → D → D' → Prop} {L : B → D → D' → Prop}
    (step : ∀ i a, Together (I a) (body i a) (body' i a)
      (fun turn d d' => turn.Ends (I · d d') (L · d d')) F) (first count : Nat) (a : A) :
    Together (I a) (forRange body first count a) (forRange body' first count a)
      (fun turn d d' => turn.Ends (I · d d') (L · d d')) F := by
  induction count generalizing first a with
  | zero => exact together_pure fun _ _ before => before
  | succ count ih =>
    refine (step first a).bind fun turn => ?_
    cases turn with
    | next a' => exact ih (first + 1) a'
    | leave b => exact together_pure fun _ _ before => before

end

def Alongside (P : D → D' → Prop) (m : Metered E D A) (m' : Metered E D' A) : Prop :=
  Together P m m' (fun _ => P) P

section

variable {P : D → D' → Prop} {m p : Metered E D A} {m' p' : Metered E D' A}

theorem alongside_pure {a : A} : Alongside P (pure a : Metered E D A) (pure a) :=
  together_pure fun _ _ before => before

theorem alongside_throw {e : E} : Alongside P (throw e : Metered E D A) (throw e) :=
  together_throw fun _ _ before => before

theorem alongside_charge {limit : E} {amount : Nat} :
    Alongside P (charge limit amount : Metered E D Unit) (charge limit amount) := together_charge

theorem alongside_lift {r : Except E A} : Alongside P (lift r : Metered E D A) (lift r) :=
  together_lift (fun _ _ _ _ before => before) fun _ _ before => before

theorem alongside_call {limit : E} {r : Priced (Except E A)} :
    Alongside P (call limit r : Metered E D A) (call limit r) :=
  together_call (fun _ _ _ _ before => before) fun _ _ before => before

theorem alongside_update {f : D → D} {f' : D' → D'} (holds : ∀ d d', P d d' → P (f d) (f' d')) :
    Alongside P (update f : Metered E D Unit) (update f') := together_update holds

theorem Alongside.bind {f : A → Metered E D B} {f' : A → Metered E D' B} (first : Alongside P m m')
    (second : ∀ a, Alongside P (f a) (f' a)) : Alongside P (m >>= f) (m' >>= f') :=
  Together.bind first second

theorem Alongside.trial (alongside : Alongside P m m') : Alongside P (trial m) (trial m') := by
  refine (Together.trial alongside).mono (fun _ _ before => before) (fun outcome d d' after => ?_)
    fun _ _ failed => failed
  cases outcome with
  | ok a => exact after
  | error e => exact after

theorem alongside_data {f : D → Metered E D B} {f' : D' → Metered E D' B}
    (next : ∀ d d', P d d' → Alongside P (f d) (f' d')) :
    Alongside P (data >>= f) (data >>= f') := by
  refine together_data fun d d' before => (next d d' before).mono ?_ (fun _ _ _ after => after)
    fun _ _ failed => failed
  rintro _ _ ⟨rfl, rfl⟩
  exact before

theorem alongside_ite {c : Prop} [Decidable c] (yes : c → Alongside P m m')
    (no : ¬c → Alongside P p p') : Alongside P (if c then m else p) (if c then m' else p') :=
  together_ite yes no

theorem alongside_guard {c : Prop} [Decidable c] {e : E} (rest : ¬c → Alongside P m m') :
    Alongside P (if c then throw e else m) (if c then throw e else m') :=
  alongside_ite (fun _ => alongside_throw) rest

theorem alongside_forRange {body : Nat → A → Metered E D (Turn A B)}
    {body' : Nat → A → Metered E D' (Turn A B)} (step : ∀ i a, Alongside P (body i a) (body' i a))
    (first count : Nat) (a : A) :
    Alongside P (forRange body first count a) (forRange body' first count a) := by
  have ends (turn : Turn A B) (d : D) (d' : D') : turn.Ends (fun _ => P d d') (fun _ => P d d') ↔ P d d' := by
    cases turn <;> rfl
  refine (together_forRange (I := fun _ => P) (L := fun _ => P) (F := P) (fun i a => ?_) first count
    a).mono (fun _ _ before => before) (fun turn d d' after => (ends turn d d').mp after)
    fun _ _ failed => failed
  exact (step i a).mono (fun _ _ before => before) (fun turn d d' after => (ends turn d d').mpr after)
    fun _ _ failed => failed

theorem Answered.alongside {q : Metered E D A} {P : D → D → Prop} (answered : Answered q) :
    Alongside P q q := by
  obtain ⟨r, reaches⟩ := answered
  exact (together_answers reaches reaches).mono (fun _ _ before => before)
    (fun _ _ _ after => after.1) fun _ _ failed => failed

end

end Library.Metered

namespace Library.Metered

open Program

variable {E D A B : Type} {limit : E} {m : Metered E D A} {d : D} {a : A} {e : E}

/-- From `d` the program answers `r`, unless it runs out of work. -/
structure Decides (limit : E) (m : Metered E D A) (d : D) (r : Except E A) : Prop where
  ends : Ends limit m d (r.map fun a => (a, d))
  reaches : Reaches m d r d

theorem decides_pure : Decides limit (pure a : Metered E D A) d (.ok a) := ⟨ends_pure, reaches_pure⟩

theorem decides_throw : Decides limit (throw e : Metered E D A) d (.error e) :=
  ⟨ends_throw, reaches_throw⟩

theorem decides_lift {r : Except E A} : Decides limit (lift r : Metered E D A) d r := by
  cases r with
  | ok a => exact decides_pure
  | error e => exact decides_throw

theorem decides_charge {amount : Nat} : Decides limit (charge limit amount : Metered E D Unit) d (.ok ()) :=
  ⟨ends_charge amount, reaches_charge⟩

theorem Decides.bind {f : A → Metered E D B} {r : Except E B} (first : Decides limit m d (.ok a))
    (second : Decides limit (f a) d r) : Decides limit (m >>= f) d r :=
  ⟨ends_bind first.ends second.ends, reaches_bind first.reaches second.reaches⟩

theorem Decides.stop {f : A → Metered E D B} (first : Decides limit m d (.error e)) :
    Decides limit (m >>= f) d (.error e) :=
  ⟨ends_bind_error first.ends, reaches_bind_error first.reaches⟩

theorem decides_free {r : Except E A} (run : ∀ work, m.exec ⟨work, d⟩ = (r, ⟨work, d⟩)) :
    Decides limit m d r := by
  refine ⟨?_, 0, fun work _ => ⟨work, run work, le_rfl⟩⟩
  cases r with
  | ok a => exact fun work => .inr ⟨work, run work⟩
  | error e => exact fun work => .inr (congrArg Prod.fst (run work))

theorem Decides.unique {r r' : Except E A} (first : Decides limit m d r) (second : Decides limit m d r') :
    r = r' := by
  obtain ⟨cost, completes⟩ := first.reaches
  obtain ⟨cost', completes'⟩ := second.reaches
  obtain ⟨left, run, -⟩ := completes (max cost cost') (le_max_left _ _)
  obtain ⟨left', run', -⟩ := completes' (max cost cost') (le_max_right _ _)
  exact congrArg Prod.fst (run.symm.trans run')

end Library.Metered
