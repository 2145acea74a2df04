import TinyCrypto.Library.Program

/-! # Metered programs

A metered program spends a work budget beside the data it owns. A charge that
the budget does not cover empties it and fails.
-/

namespace Library

structure Budgeted (D : Type) where
  work : Nat
  data : D

/-- Programs that fail with `E`, keeping work and data. -/
abbrev Metered (E D : Type) := Program E (Budgeted D)

/-- A deterministic callee: what it charges, and what it answers when the
    budget covers the charge. -/
structure Priced (A : Type) where
  cost : Nat
  result : A

variable {E D A B : Type}

namespace Metered

open Program

/-- Charge `amount`. Exhaustion empties the budget and fails with `limit`. -/
def charge (limit : E) (amount : Nat) : Metered E D Unit := ExceptT.mk fun s =>
    if amount > s.work then (.error limit, { s with work := 0 })
    else (.ok (), { s with work := s.work - amount })

def call (limit : E) (p : Priced (Except E A)) : Metered E D A := do
  charge limit p.cost
  lift p.result

def answer (limit : A) (p : Priced A) : Metered E D A := ExceptT.mk fun s =>
    if p.cost > s.work then (.ok limit, { s with work := 0 })
    else (.ok p.result, { s with work := s.work - p.cost })

def data : Metered E D D := ExceptT.mk fun s => (.ok s.data, s)

def update (f : D → D) : Metered E D Unit := ExceptT.mk fun s => (.ok (), { s with data := f s.data })

@[simp] theorem exec_update (f : D → D) (s : Budgeted D) :
    (update f : Metered E D Unit).exec s = (.ok (), { s with data := f s.data }) := rfl

variable {s s' : Budgeted D}

@[simp] theorem exec_data (s : Budgeted D) : (data : Metered E D D).exec s = (.ok s.data, s) := rfl

variable {amount : Nat} {limit : E} {u : Unit} {a : A} {P : E → Prop}

theorem exec_charge (limit : E) (amount work : Nat) (d : D) :
    (charge limit amount : Metered E D Unit).exec ⟨work, d⟩ =
      if amount > work then (.error limit, ⟨0, d⟩) else (.ok (), ⟨work - amount, d⟩) := rfl

theorem exec_answer (limit : A) (p : Priced A) (work : Nat) (d : D) :
    (answer limit p : Metered E D A).exec ⟨work, d⟩ =
      if p.cost > work then (.ok limit, ⟨0, d⟩) else (.ok p.result, ⟨work - p.cost, d⟩) := rfl

@[simp] theorem gives_charge : Gives (charge limit amount) s u s' ↔
      amount ≤ s.work ∧ s' = { s with work := s.work - amount } := by
  rw [Gives, exec_charge]
  split
  · rename_i short
    simp [Nat.not_le.mpr short]
  · rename_i enough
    simp [Nat.not_lt.mp enough, eq_comm]

@[simp] theorem gives_call {p : Priced (Except E A)} : Gives (call limit p) s a s' ↔
      p.cost ≤ s.work ∧ p.result = .ok a ∧ s' = { s with work := s.work - p.cost } := by
  simp only [call, gives_bind, gives_charge, gives_lift]
  constructor
  · rintro ⟨_, _, ⟨enough, rfl⟩, result, rfl⟩
    exact ⟨enough, result, rfl⟩
  · rintro ⟨enough, result, rfl⟩
    exact ⟨(), _, ⟨enough, rfl⟩, result, rfl⟩

theorem paid_answer {limit : A} {p : Priced A}
    (given : Gives (answer limit p : Metered E D A) s a s') :
    (a = limit ∧ s'.work = 0 ∨ a = p.result) ∧ s'.data = s.data := by
  rw [Gives, exec_answer] at given
  split at given
  · cases given
    exact ⟨.inl ⟨rfl, rfl⟩, rfl⟩
  · cases given
    exact ⟨.inr rfl, rfl⟩

theorem gives_answer {limit : A} {p : Priced A}
    (given : Gives (answer limit p : Metered E D A) s a s') :
    (a = limit ∨ a = p.result) ∧ s'.data = s.data :=
  ⟨(paid_answer given).1.imp_left And.left, (paid_answer given).2⟩

@[simp] theorem gives_data {d : D} : Gives (data : Metered E D D) s d s' ↔ s.data = d ∧ s = s' := by
  change (Except.ok s.data, s) = (Except.ok d, s') ↔ _
  simp

@[simp] theorem gives_update {f : D → D} :
    Gives (update f : Metered E D Unit) s u s' ↔ s' = { s with data := f s.data } := by
  change (Except.ok (), { s with data := f s.data }) = (Except.ok u, s') ↔ _
  simp [eq_comm]

theorem throws_charge (holds : P limit) : Throws P (charge limit amount : Metered E D Unit) := by
  intro s e s' failed
  rw [exec_charge] at failed
  split at failed
  · cases failed
    exact holds
  · cases failed

theorem throws_answer {P : E → Prop} {limit : A} {p : Priced A} :
    Throws P (answer limit p : Metered E D A) := by
  intro s e s' failed
  rw [exec_answer] at failed
  split at failed <;> cases failed

theorem throws_data : Throws P (data : Metered E D D) := by
  intro s e s' failed
  cases failed

theorem throws_update {f : D → D} : Throws P (update f : Metered E D Unit) := by
  intro s e s' failed
  cases failed

def Spends (s s' : Budgeted D) : Prop := s'.work ≤ s.work

instance : Std.Refl (Spends (D := D)) := ⟨fun _ => Nat.le_refl _⟩

instance : IsTrans (Budgeted D) Spends := ⟨fun _ _ _ first second => Nat.le_trans second first⟩

theorem spends_charge : Moves Spends (charge limit amount : Metered E D Unit) := by
  intro s
  rw [exec_charge]
  split
  · exact Nat.zero_le _
  · exact Nat.sub_le _ _

theorem spends_answer {limit : A} {p : Priced A} :
    Moves Spends (answer limit p : Metered E D A) := by
  intro s
  rw [exec_answer]
  split
  · exact Nat.zero_le _
  · exact Nat.sub_le _ _

theorem spends_data : Moves Spends (data : Metered E D D) := fun _ => Nat.le_refl _

theorem spends_update {f : D → D} : Moves Spends (update f : Metered E D Unit) :=
  fun _ => Nat.le_refl _

end Metered

end Library

namespace Library.Metered

open Program

variable {E D A B : Type}

def Affords (cost : Nat) (m : Metered E D A) : Prop :=
  ∀ s, cost ≤ s.work → ∃ a s', Gives m s a s' ∧ s.work ≤ s'.work + cost

variable {m : Metered E D A} {f : A → Metered E D B} {cost cost' : Nat}

theorem affords_pure (a : A) : Affords 0 (pure a : Metered E D A) :=
  fun s _ => ⟨a, s, gives_pure.mpr ⟨rfl, rfl⟩, le_rfl⟩

theorem affords_charge (limit : E) (amount : Nat) :
    Affords amount (charge limit amount : Metered E D Unit) := by
  intro s enough
  refine ⟨(), { s with work := s.work - amount }, gives_charge.mpr ⟨enough, rfl⟩, ?_⟩
  dsimp only
  omega

theorem Affords.mono (affords : Affords cost m) (le : cost ≤ cost') : Affords cost' m := by
  intro s enough
  obtain ⟨a, s', given, spent⟩ := affords s (Nat.le_trans le enough)
  exact ⟨a, s', given, by omega⟩

theorem Affords.bind_of {P : A → Prop} (first : Affords cost m)
    (answers : ∀ s a s', Gives m s a s' → P a) (rest : ∀ a, P a → Affords cost' (f a)) :
    Affords (cost + cost') (m >>= f) := by
  intro s enough
  obtain ⟨a, middle, given, spent⟩ := first s (by omega)
  obtain ⟨b, s', given', spent'⟩ := rest a (answers s a middle given) middle (by omega)
  exact ⟨b, s', gives_bind.mpr ⟨a, middle, given, given'⟩, by omega⟩

theorem Affords.bind (first : Affords cost m) (rest : ∀ a, Affords cost' (f a)) :
    Affords (cost + cost') (m >>= f) :=
  @Affords.bind_of E D A B m f cost cost' (fun _ => True) first (fun _ _ _ _ => trivial)
    fun a _ => rest a

end Library.Metered

namespace Library

open Program

variable {E S D A B : Type} {e : E}

/-- A program never fails with `e`. -/
def Excludes (e : E) (m : Program E S A) : Prop := Throws (· ≠ e) m

namespace Excludes

theorem of_pure (a : A) : Excludes e (pure a : Program E S A) := Throws.pure a

theorem of_throw {e' : E} (other : e' ≠ e) : Excludes e (throw e' : Program E S A) :=
  Throws.throw other

theorem bind {m : Program E S A} {f : A → Program E S B} (first : Excludes e m)
    (rest : ∀ a, Excludes e (f a)) : Excludes e (m >>= f) :=
  Throws.bind first fun _ a _ _ => rest a

theorem of_lift {r : Except E A} (other : r ≠ .error e) : Excludes e (lift r : Program E S A) :=
  Throws.lift fun _ failed same => other (same ▸ failed)

theorem of_trial (m : Program E S A) : Excludes e (trial m) := by
  intro s e' s' failed
  cases failed

theorem of_charge {limit : E} (other : limit ≠ e) (amount : Nat) :
    Excludes e (Metered.charge limit amount : Metered E D Unit) := Metered.throws_charge other

end Excludes

end Library
