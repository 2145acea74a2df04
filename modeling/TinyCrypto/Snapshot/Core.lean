import Mathlib.Tactic.Common
import TinyCrypto.Common.Bytes
import TinyCrypto.Library.Program

/-! # Snapshot slots and their shared lifecycle

The certificate store and the canceled card list keep snapshots in caller-owned
slots. `snapshot.c` moves a slot through its states, counts its readers and
replaces the published slot. Slots are named by the type `ι`; a pointer that
may be NULL is an `Option`. Two objects overlap only when they are the same
object, or when the caller passes a result or input pointer into one of them.
-/

namespace TinyCrypto.Snapshot

/-- `TC_snapshot_state`. -/
inductive State where
  | free
  | prepared
  | current
  | retired
  deriving DecidableEq

/-- One typed slot. `default` of the payload is its zero-initialized value. -/
structure Slot (P : Type) where
  payload : P
  readers : Nat
  state : State

/-- A zero-initialized slot, which is also what recycling leaves. -/
instance {P : Type} [Inhabited P] : Inhabited (Slot P) := ⟨⟨default, 0, .free⟩⟩

structure Store (ι P : Type) where
  current : Option ι
  revision : Nat
  slots : ι → Slot P

def Store.zero {ι P : Type} [Inhabited P] : Store ι P := ⟨none, 0, fun _ => default⟩

section

variable {ι P : Type} [DecidableEq ι]

def Store.set (s : Store ι P) (i : ι) (slot : Slot P) : Store ι P :=
  { s with slots := fun j => if j = i then slot else s.slots j }

@[simp] theorem Store.set_current (s : Store ι P) (i : ι) (slot : Slot P) :
    (s.set i slot).current = s.current := rfl

@[simp] theorem Store.set_slots (s : Store ι P) (i j : ι) (slot : Slot P) :
    (s.set i slot).slots j = if j = i then slot else s.slots j := rfl

variable [Inhabited P]

/-- `recycle`: zero the whole slot. -/
def recycle (s : Store ι P) (i : ι) : Store ι P := s.set i default

/-- `tc_snapshot_held`. -/
def held (state : State) (readers : Nat) : Bool :=
  readers ≠ 0 && (state = .current || state = .retired)

inductive ResultPointer where
  | null
  | overlapsStore
  | overlapsCurrent
  | apart
  deriving DecidableEq

/-- `tc_snapshot_prepare`. -/
def prepare (s : Store ι P) : Option ι → Result × Store ι P
  | none => (.argument, s)
  | some i =>
    if (s.slots i).state ≠ .free ∨ (s.slots i).readers ≠ 0 then (.limit, s)
    else (.ok, s.set i { s.slots i with state := .prepared })

/-- `tc_snapshot_discard`. -/
def discard (s : Store ι P) : Option ι → Result × Store ι P
  | none => (.argument, s)
  | some i =>
    if (s.slots i).state ≠ .prepared ∨ (s.slots i).readers ≠ 0 then (.argument, s)
    else (.ok, recycle s i)

/-- `tc_snapshot_publish_check`. The previous slot is the store's current one. -/
def publishCheck (s : Store ι P) (hasStore : Bool) (next : Option ι) : Result :=
  match hasStore, next with
  | false, _ => .argument
  | true, none => .argument
  | true, some i =>
    match s.current with
    | none =>
      if (s.slots i).state ≠ .prepared ∨ (s.slots i).readers ≠ 0 then .argument else .ok
    | some j =>
      -- The same slot twice is an overlap.
      if j = i then .argument
      else if (s.slots i).state ≠ .prepared ∨ (s.slots i).readers ≠ 0 ∨
          (s.slots j).state ≠ .current then .argument
      else .ok

/-- `tc_snapshot_publish_commit`, after `publishCheck` returned OK. -/
def publishCommit (sizeMax : Nat) (s : Store ι P) (next : ι) (expected : Nat) :
    Result × Store ι P :=
  if expected ≠ s.revision then (.invalid, s)
  else if s.revision = sizeMax then (.limit, s)
  else
    let published := s.set next { s.slots next with state := .current }
    let counted := { published with revision := published.revision + 1 }
    match s.current with
    | none => (.ok, counted)
    | some j =>
      if (counted.slots j).readers ≠ 0 then
        (.ok, counted.set j { counted.slots j with state := .retired })
      else (.ok, recycle counted j)

/-- `tc_snapshot_acquire`. -/
def acquire (sizeMax : Nat) (s : Store ι P) (hasStore : Bool) (out : ResultPointer) :
    Result × Store ι P :=
  if hasStore = false ∨ out = .null ∨ out = .overlapsStore then (.argument, s)
  else
    match s.current with
    | none => (.end, s)
    | some i =>
      if out = .overlapsCurrent ∨ (s.slots i).state ≠ .current then (.argument, s)
      else if (s.slots i).readers = sizeMax then (.limit, s)
      else (.ok, s.set i { s.slots i with readers := (s.slots i).readers + 1 })

/-- `tc_snapshot_release`. -/
def release (s : Store ι P) : Option ι → Result × Store ι P
  | none => (.argument, s)
  | some i =>
    if held (s.slots i).state (s.slots i).readers = false then (.argument, s)
    else
      let left := s.set i { s.slots i with readers := (s.slots i).readers - 1 }
      if (left.slots i).readers = 0 ∧ (left.slots i).state = .retired then (.ok, recycle left i)
      else (.ok, left)

end

inductive Change (ι P : Type) where
  | prepare (slot : ι) (payload : P)
  | discard (slot : ι)
  | publish (slot : ι) (expected : Nat)
  | acquire (slot : ι)
  | release (slot : ι)

namespace Change

variable {ι P : Type}

def published : List (Change ι P) → Option ι
  | [] => none
  | .publish i _ :: _ => some i
  | .prepare _ _ :: rest | .discard _ :: rest | .acquire _ :: rest | .release _ :: rest =>
    published rest

def publications : List (Change ι P) → Nat
  | [] => 0
  | .publish _ _ :: rest => publications rest + 1
  | .prepare _ _ :: rest | .discard _ :: rest | .acquire _ :: rest | .release _ :: rest =>
    publications rest

variable [DecidableEq ι]

def acquires (i : ι) : List (Change ι P) → Nat
  | [] => 0
  | .acquire j :: rest => if j = i then acquires i rest + 1 else acquires i rest
  | .prepare _ _ :: rest | .discard _ :: rest | .publish _ _ :: rest | .release _ :: rest =>
    acquires i rest

def releases (i : ι) : List (Change ι P) → Nat
  | [] => 0
  | .release j :: rest => if j = i then releases i rest + 1 else releases i rest
  | .prepare _ _ :: rest | .discard _ :: rest | .publish _ _ :: rest | .acquire _ :: rest =>
    releases i rest

/-- The slot was replaced as the published slot while readers held it, and has
    not been prepared or published again since. -/
def ReplacedHeld (i : ι) : List (Change ι P) → Prop
  | [] => False
  | .publish j _ :: rest =>
    j ≠ i ∧ (published rest = some i ∧ acquires i rest ≠ releases i rest ∨
      published rest ≠ some i ∧ ReplacedHeld i rest)
  | .prepare j _ :: rest => j ≠ i ∧ ReplacedHeld i rest
  | .discard _ :: rest | .acquire _ :: rest | .release _ :: rest => ReplacedHeld i rest

def preparedPayload (i : ι) : List (Change ι P) → Option P
  | [] => none
  | .prepare j payload :: rest => if j = i then some payload else preparedPayload i rest
  | .discard _ :: rest | .publish _ _ :: rest | .acquire _ :: rest | .release _ :: rest =>
    preparedPayload i rest

def Numbered : List (Change ι P) → Prop
  | [] => True
  | .publish _ expected :: rest => expected = publications rest ∧ Numbered rest
  | .prepare _ _ :: rest | .discard _ :: rest | .acquire _ :: rest | .release _ :: rest =>
    Numbered rest

theorem not_published_of_replacedHeld {i : ι} {history : List (Change ι P)}
    (h : ReplacedHeld i history) : published history ≠ some i := by
  induction history with
  | nil => exact h.elim
  | cons c rest ih =>
    cases c with
    | publish j expected => simpa [published] using h.1
    | prepare j payload => exact ih h.2
    | discard j | acquire j | release j => exact ih h

def Enabled (sizeMax : Nat) (s : Store ι P) : Change ι P → Prop
  | .prepare i _ => (s.slots i).state = .free ∧ (s.slots i).readers = 0
  | .discard i => (s.slots i).state = .prepared ∧ (s.slots i).readers = 0
  | .publish i expected =>
    (s.slots i).state = .prepared ∧ (s.slots i).readers = 0 ∧ expected = s.revision ∧
      s.revision ≠ sizeMax
  | .acquire i => s.current = some i ∧ (s.slots i).state = .current
  | .release i =>
    (s.slots i).readers ≠ 0 ∧ ((s.slots i).state = .current ∨ (s.slots i).state = .retired)

variable [Inhabited P]

def supersede (slot : Slot P) : Slot P :=
  if slot.readers ≠ 0 then { slot with state := .retired } else default

def letGo (slot : Slot P) : Slot P := if slot.readers - 1 = 0 ∧ slot.state = .retired then default
  else { slot with readers := slot.readers - 1 }

def apply (s : Store ι P) : Change ι P → Store ι P
  | .prepare i payload => s.set i ⟨payload, (s.slots i).readers, .prepared⟩
  | .discard i => s.set i default
  | .publish i _ =>
    { current := some i
      revision := s.revision + 1
      slots := fun j =>
        if j = i then { s.slots i with state := .current }
        else if s.current = some j then supersede (s.slots j)
        else s.slots j }
  | .acquire i => s.set i { s.slots i with readers := (s.slots i).readers + 1 }
  | .release i => s.set i (letGo (s.slots i))

end Change

open Change

section

variable {ι P : Type} [DecidableEq ι]

structure Agrees (history : List (Change ι P)) (s : Store ι P) : Prop where
  current : s.current = published history
  revision : s.revision = publications history
  /-- At most one slot is CURRENT, and it is the store's current slot. -/
  unique : ∀ i, (s.slots i).state = .current ↔ s.current = some i
  readers : ∀ i, (s.slots i).readers + releases i history = acquires i history
  retired : ∀ i, (s.slots i).state = .retired ↔ ReplacedHeld i history ∧ (s.slots i).readers ≠ 0
  /-- A slot outside CURRENT and RETIRED has no readers. -/
  idle : ∀ i, (s.slots i).state = .free ∨ (s.slots i).state = .prepared → (s.slots i).readers = 0
  numbered : Numbered history
  /-- A slot in use still holds the payload it was prepared with. -/
  payload : ∀ i, (s.slots i).state ≠ .free → preparedPayload i history = some (s.slots i).payload

namespace Agrees

theorem zero [Inhabited P] : Agrees [] (Store.zero : Store ι P) where
  current := rfl
  revision := rfl
  unique i := by simp [Store.zero, default]
  readers i := by simp [Store.zero, default, releases, acquires]
  retired i := by simp [Store.zero, default, ReplacedHeld]
  idle i _ := rfl
  numbered := trivial
  payload i h := by simp [Store.zero, default] at h

variable {history : List (Change ι P)} {s : Store ι P}

theorem readers_zero_iff (agrees : Agrees history s) (i : ι) :
    (s.slots i).readers = 0 ↔ acquires i history = releases i history := by
  have balance := agrees.readers i
  omega

section

variable (agrees : Agrees history s)

include agrees

variable {c : Change ι P} {i : ι}

theorem set {slot : Slot P} (current : published (c :: history) = published history)
    (revision : publications (c :: history) = publications history)
    (numbered : Numbered (c :: history))
    (frame : ∀ j, j ≠ i → releases j (c :: history) = releases j history ∧
      acquires j (c :: history) = acquires j history ∧
      (ReplacedHeld j (c :: history) ↔ ReplacedHeld j history) ∧
      preparedPayload j (c :: history) = preparedPayload j history)
    (unique : slot.state = .current ↔ s.current = some i)
    (readers : slot.readers + releases i (c :: history) = acquires i (c :: history))
    (retired : slot.state = .retired ↔ ReplacedHeld i (c :: history) ∧ slot.readers ≠ 0)
    (idle : slot.state = .free ∨ slot.state = .prepared → slot.readers = 0)
    (payload : slot.state ≠ .free → preparedPayload i (c :: history) = some slot.payload) :
    Agrees (c :: history) (s.set i slot) where
  current := agrees.current.trans current.symm
  revision := agrees.revision.trans revision.symm
  unique j := by
    by_cases eq : j = i
    · subst eq
      simpa using unique
    · simpa [eq] using agrees.unique j
  readers j := by
    by_cases eq : j = i
    · subst eq
      simpa using readers
    · simpa [eq, frame j eq] using agrees.readers j
  retired j := by
    by_cases eq : j = i
    · subst eq
      simpa using retired
    · simpa [eq, frame j eq] using agrees.retired j
  idle j := by
    by_cases eq : j = i
    · subst eq
      simpa using idle
    · simpa [eq] using agrees.idle j
  numbered := numbered
  payload j := by
    by_cases eq : j = i
    · subst eq
      simpa using payload
    · simpa [eq, frame j eq] using agrees.payload j

variable [Inhabited P]

theorem prepare {sizeMax : Nat} {payload : P} (enabled : Enabled sizeMax s (.prepare i payload)) :
    Agrees (.prepare i payload :: history) (apply s (.prepare i payload)) := by
  refine agrees.set rfl rfl agrees.numbered (fun j other => ?_) ?_ (agrees.readers i) ?_ ?_ ?_
  · simp [releases, acquires, ReplacedHeld, preparedPayload, Ne.symm other]
  · simpa [enabled.1] using agrees.unique i
  · simp [ReplacedHeld]
  · simp [enabled.2]
  · simp [preparedPayload]

theorem discard {sizeMax : Nat} (enabled : Enabled sizeMax s (.discard i)) :
    Agrees (.discard i :: history) (apply s (.discard i)) := by
  refine agrees.set rfl rfl agrees.numbered (fun _ _ => ⟨rfl, rfl, .rfl, rfl⟩) ?_ ?_ ?_ ?_ ?_
  · simpa [enabled.1, default] using agrees.unique i
  · simpa [releases, acquires, default, enabled.2] using agrees.readers i
  · simp [default]
  · simp [default]
  · simp [default]

theorem acquire {sizeMax : Nat} (enabled : Enabled sizeMax s (.acquire i)) :
    Agrees (.acquire i :: history) (apply s (.acquire i)) := by
  have balance := agrees.readers i
  -- The published slot was not replaced.
  have here : published history = some i := agrees.current ▸ enabled.1
  have notReplaced : ¬ReplacedHeld i history := fun h => not_published_of_replacedHeld h here
  refine agrees.set rfl rfl agrees.numbered (fun j other => ?_) (agrees.unique i) ?_ ?_ ?_ ?_
  · simp [releases, acquires, ReplacedHeld, preparedPayload, Ne.symm other]
  · simp only [releases, acquires, if_true]
    omega
  · simp [ReplacedHeld, enabled.2, notReplaced]
  · simp [enabled.2]
  · exact agrees.payload i

theorem release {sizeMax : Nat} (enabled : Enabled sizeMax s (.release i)) :
    Agrees (.release i :: history) (apply s (.release i)) := by
  have balance := agrees.readers i
  have some := enabled.1
  have unique := agrees.unique i
  have same := agrees.retired i
  have frame : ∀ j, j ≠ i → releases j (.release i :: history) = releases j history ∧
      acquires j (.release i :: history) = acquires j history ∧
      (ReplacedHeld j (.release i :: history) ↔ ReplacedHeld j history) ∧
      preparedPayload j (.release i :: history) = preparedPayload j history := fun j other => by
    simp [releases, acquires, ReplacedHeld, preparedPayload, Ne.symm other]
  by_cases last : (s.slots i).readers - 1 = 0 ∧ (s.slots i).state = .retired
  · rw [apply, letGo, if_pos last]
    refine agrees.set rfl rfl agrees.numbered frame ?_ ?_ ?_ ?_ ?_
    · simpa [last.2, default] using unique
    · simp only [default, releases, acquires, if_true]
      omega
    · simp [default]
    · simp [default]
    · simp [default]
  · rw [apply, letGo, if_neg last]
    refine agrees.set rfl rfl agrees.numbered frame unique ?_ ?_ ?_ (agrees.payload i)
    · simp only [releases, acquires, if_true]
      omega
    · constructor
      · intro state
        exact ⟨(same.mp state).1, fun none => last ⟨none, state⟩⟩
      · rintro ⟨replaced, -⟩
        exact same.mpr ⟨replaced, some⟩
    · intro state
      rcases enabled.2 with held | held <;> simp [held] at state

theorem publish {sizeMax : Nat} {expected : Nat} (enabled : Enabled sizeMax s (.publish i expected)) :
    Agrees (.publish i expected :: history) (apply s (.publish i expected)) := by
  have notCurrent : s.current ≠ some i := fun eq => by
    have := (agrees.unique i).mpr eq
    rw [enabled.1] at this
    cases this
  refine ⟨rfl, congrArg (· + 1) agrees.revision, fun j => ?_, fun j => ?_, fun j => ?_,
    fun j h => ?_, ⟨enabled.2.2.1.trans agrees.revision, agrees.numbered⟩, fun j h => ?_⟩
  · by_cases eq : j = i
    · subst eq
      simp [apply]
    · have same := agrees.unique j
      by_cases previous : s.current = some j
      · by_cases readers : (s.slots j).readers = 0 <;>
          simp [apply, eq, previous, supersede, readers, default, Ne.symm eq]
      · simp [apply, eq, previous, same, Ne.symm eq]
  · have balance := agrees.readers j
    by_cases eq : j = i
    · subst eq
      simpa [apply, releases, acquires] using balance
    · by_cases previous : s.current = some j
      · by_cases readers : (s.slots j).readers = 0
        · simpa [apply, eq, previous, supersede, readers, default, releases, acquires] using balance
        · simpa [apply, eq, previous, supersede, readers, releases, acquires] using balance
      · simpa [apply, eq, previous, releases, acquires] using balance
  · have zero := agrees.readers_zero_iff j
    by_cases eq : j = i
    · subst eq
      simp [apply, ReplacedHeld]
    · by_cases previous : s.current = some j
      · have here : published history = some j := agrees.current ▸ previous
        by_cases readers : (s.slots j).readers = 0
        · simp [apply, eq, previous, supersede, readers, default]
        · have unequal : acquires j history ≠ releases j history := fun h => readers (zero.mpr h)
          simp [apply, eq, Ne.symm eq, previous, supersede, readers, ReplacedHeld, here, unequal]
      · have elsewhere : published history ≠ some j := agrees.current ▸ previous
        have same := agrees.retired j
        simp [apply, eq, Ne.symm eq, previous, ReplacedHeld, elsewhere, same]
  · by_cases eq : j = i
    · subst eq
      simp [apply] at h
    · by_cases previous : s.current = some j
      · by_cases readers : (s.slots j).readers = 0
        · simp [apply, eq, previous, supersede, readers, default]
        · simp [apply, eq, previous, supersede, readers] at h
      · simpa [apply, eq, previous] using agrees.idle j (by simpa [apply, eq, previous] using h)
  · by_cases eq : j = i
    · subst eq
      simpa [apply, preparedPayload] using agrees.payload j (by simp [enabled.1])
    · by_cases previous : s.current = some j
      · have used : (s.slots j).state ≠ .free := by simp [(agrees.unique j).mpr previous]
        by_cases readers : (s.slots j).readers = 0
        · simp [apply, eq, previous, supersede, readers, default] at h
        · simpa [apply, eq, previous, supersede, readers, preparedPayload] using
            agrees.payload j used
      · simpa [apply, eq, previous, preparedPayload] using
          agrees.payload j (by simpa [apply, eq, previous] using h)

theorem apply {sizeMax : Nat} (enabled : Enabled sizeMax s c) :
    Agrees (c :: history) (apply s c) := by
  cases c with
  | prepare i payload => exact agrees.prepare enabled
  | discard i => exact agrees.discard enabled
  | publish i expected => exact agrees.publish enabled
  | acquire i => exact agrees.acquire enabled
  | release i => exact agrees.release enabled

end

end Agrees

end

/-! # Calls on a snapshot store

Writers prepare, discard and publish slots, readers acquire and release them.
The application serializes the calls with its own lock, so writers and readers
interleave call by call, in any order. `Safe` is what every such run keeps. A
store earns it by showing that each of its calls makes the change it reports
and no other (`Refines`).
-/

open Library

/-- One call of a writer or a reader, with `A` the payload arguments of its
    prepare function. -/
inductive Call (ι A : Type) where
  | prepare (slot : Option ι) (input : A)
  | discard (slot : Option ι)
  | publish (hasStore : Bool) (revision : Nat) (slot : Option ι)
  | acquire (hasStore : Bool) (out : ResultPointer)
  | release (slot : Option ι)

/-- The returned status and, after an acquire, the slot written to `out`. -/
abbrev Answer (ι : Type) := Result × Option ι

def Call.change {ι A P : Type} (payloadOf : A → Option P) :
    Call ι A × Answer ι → Option (Change ι P)
  | (.prepare (some i) input, (.ok, _)) => (payloadOf input).map (.prepare i)
  | (.discard (some i), (.ok, _)) => some (.discard i)
  | (.publish _ revision (some i), (.ok, _)) => some (.publish i revision)
  | (.acquire _ _, (.ok, some i)) => some (.acquire i)
  | (.release (some i), (.ok, _)) => some (.release i)
  | _ => none

def Reused {P : Type} (before after : Slot P) : Prop := after.payload ≠ before.payload ∨
    after.state ≠ before.state ∧ (after.state = .free ∨ after.state = .prepared)

/-- Both calls are publications expecting the same revision, and both succeeded. -/
def LostUpdate {ι A : Type} : Call ι A × Answer ι → Call ι A × Answer ι → Prop
  | (.publish _ r _, a), (.publish _ r' _, a') => r = r' ∧ a.1 = .ok ∧ a'.1 = .ok
  | _, _ => False

def Call.publishes {ι A : Type} : Call ι A × Answer ι → Nat
  | (.publish _ _ _, (.ok, _)) => 1
  | _ => 0

section

variable {ι A P : Type} [DecidableEq ι] [Inhabited P]

def Refines (sizeMax : Nat) (step : Store ι P → Call ι A → Answer ι × Store ι P)
    (payloadOf : A → Option P) : Prop :=
  ∀ s c, match Call.change payloadOf (c, (step s c).1) with
    | none => (step s c).1.1 ≠ .ok ∧ (step s c).2 = s
    | some made => (step s c).1.1 = .ok ∧ Enabled sizeMax s made ∧ (step s c).2 = apply s made

/-- What every run of a store keeps, whoever makes its calls. -/
structure Safe (step : Store ι P → Call ι A → Answer ι × Store ι P) (payloadOf : A → Option P) :
    Prop where
  /-- A failed call leaves the store and every slot as they were. -/
  unchanged : ∀ s c, (step s c).1.1 ≠ .ok → (step s c).2 = s
  /-- At most one slot is CURRENT, and it is the store's current slot. -/
  current : ∀ history s, Reaches step Store.zero history s →
    ∀ i, (s.slots i).state = .current ↔ s.current = some i
  /-- RETIRED slots are those replaced while held that still have readers. -/
  retired : ∀ history s, Reaches step Store.zero history s → ∀ i, (s.slots i).state = .retired ↔
      ReplacedHeld i (history.filterMap (Call.change payloadOf)) ∧ (s.slots i).readers ≠ 0
  /-- A reader count is acquires minus releases. -/
  readers : ∀ history s, Reaches step Store.zero history s →
    ∀ i, (s.slots i).readers + releases i (history.filterMap (Call.change payloadOf)) =
      acquires i (history.filterMap (Call.change payloadOf))
  /-- A slot is cleared or reused only when every acquire of it was released. -/
  reused : ∀ history s, Reaches step Store.zero history s → ∀ c i,
    Reused (s.slots i) ((step s c).2.slots i) →
      acquires i (((c, (step s c).1) :: history).filterMap (Call.change payloadOf)) =
        releases i (((c, (step s c).1) :: history).filterMap (Call.change payloadOf))
  /-- The revision grows by one for a successful publication, and only then. -/
  revision : ∀ s c, (step s c).2.revision = s.revision + Call.publishes (c, (step s c).1)
  /-- Of two publications expecting one revision at most one succeeds. -/
  noLostUpdate : ∀ history s, Reaches step Store.zero history s →
    history.Pairwise fun later earlier => ¬LostUpdate later earlier

namespace Refines

variable {sizeMax : Nat} {step : Store ι P → Call ι A → Answer ι × Store ι P}
  {payloadOf : A → Option P}

theorem made (refines : Refines sizeMax step payloadOf) (s : Store ι P) (c : Call ι A) :
    (Call.change payloadOf (c, (step s c).1) = none ∧ (step s c).1.1 ≠ .ok ∧ (step s c).2 = s) ∨
      ∃ made, Call.change payloadOf (c, (step s c).1) = some made ∧ (step s c).1.1 = .ok ∧
        Enabled sizeMax s made ∧ (step s c).2 = apply s made := by
  have here := refines s c
  cases change : Call.change payloadOf (c, (step s c).1) <;> rw [change] at here
  · exact .inl ⟨rfl, here⟩
  · exact .inr ⟨_, rfl, here⟩

theorem agrees (refines : Refines sizeMax step payloadOf) {history : List (Call ι A × Answer ι)}
    {s : Store ι P} (reached : Reaches step Store.zero history s) :
    Agrees (history.filterMap (Call.change payloadOf)) s := by
  induction reached with
  | start => exact Agrees.zero
  | @call history s _ c agrees =>
    obtain ⟨change, -, same⟩ | ⟨_, change, -, enabled, same⟩ := refines.made s c
    · simpa only [List.filterMap_cons_none change, same] using agrees
    · simpa only [List.filterMap_cons_some change, same] using agrees.apply enabled

omit [Inhabited P] [DecidableEq ι] in
private theorem expected_lt {history : List (Call ι A × Answer ι)}
    (numbered : Numbered (history.filterMap (Call.change payloadOf)))
    {hasStore : Bool} {r : Nat} {slot : ι} {out : Option ι}
    (member : (.publish hasStore r (some slot), (.ok, out)) ∈ history) :
    r < publications (history.filterMap (Call.change payloadOf)) := by
  induction history with
  | nil => simp at member
  | cons entry rest ih =>
    rcases List.mem_cons.mp member with rfl | member
    · simp only [List.filterMap_cons, Call.change, Numbered, publications] at numbered ⊢
      omega
    · cases change : Call.change payloadOf entry with
      | none =>
        rw [List.filterMap_cons_none change] at numbered ⊢
        exact ih numbered member
      | some made =>
        rw [List.filterMap_cons_some change] at numbered ⊢
        cases made with
        | publish i e =>
          exact Nat.lt_succ_of_lt (ih numbered.2 member)
        | prepare i p | discard i | acquire i | release i => exact ih numbered member

private theorem reused_state {s : Store ι P} {made : Change ι P} (enabled : Enabled sizeMax s made)
    {i : ι} (reused : Reused (s.slots i) ((apply s made).slots i)) :
    ((apply s made).slots i).state = .free ∨ ((apply s made).slots i).state = .prepared := by
  rcases reused with payload | ⟨-, state⟩
  · cases made with
    | prepare j p =>
      by_cases eq : i = j
      · simp [apply, eq]
      · simp [apply, eq] at payload
    | discard j =>
      by_cases eq : i = j
      · simp [apply, eq, default]
      · simp [apply, eq] at payload
    | publish j expected =>
      by_cases eq : i = j
      · subst eq
        simp [apply] at payload
      · by_cases previous : s.current = some i
        · by_cases none : (s.slots i).readers = 0
          · simp [apply, eq, previous, supersede, none, default]
          · simp [apply, eq, previous, supersede, none] at payload
        · simp [apply, eq, previous] at payload
    | acquire j =>
      by_cases eq : i = j
      · subst eq
        simp [apply] at payload
      · simp [apply, eq] at payload
    | release j =>
      by_cases eq : i = j
      · subst eq
        by_cases last : (s.slots i).readers - 1 = 0 ∧ (s.slots i).state = .retired
        · simp [apply, letGo, last, default]
        · simp [apply, letGo, if_neg last] at payload
      · simp [apply, eq] at payload
  · exact state

/-- A call that reports a change reports success, and a reported publication is
    the publication made. -/
private theorem publishes_change {entry : Call ι A × Answer ι} {made : Change ι P}
    (change : Call.change payloadOf entry = some made) (s : Store ι P) :
    (apply s made).revision = s.revision + Call.publishes entry := by
  obtain ⟨c, result, out⟩ := entry
  cases c with
  | prepare slot input =>
    cases slot <;> cases result <;> simp [Call.change] at change
    obtain ⟨payload, -, rfl⟩ := change
    rfl
  | discard slot =>
    cases slot <;> cases result <;> simp [Call.change] at change
    subst change
    rfl
  | publish hasStore r slot =>
    cases slot <;> cases result <;> simp [Call.change] at change
    subst change
    rfl
  | acquire hasStore pointer =>
    cases out <;> cases result <;> simp [Call.change] at change
    subst change
    rfl
  | release slot =>
    cases slot <;> cases result <;> simp [Call.change] at change
    subst change
    rfl

private theorem publish_named (refines : Refines sizeMax step payloadOf)
    {history : List (Call ι A × Answer ι)} {s : Store ι P}
    (reached : Reaches step Store.zero history s) :
    ∀ hasStore r slot out, (.publish hasStore r slot, (.ok, out)) ∈ history → ∃ i, slot = some i := by
  induction reached with
  | start => simp
  | @call history s _ c ih =>
    intro hasStore r slot out member
    rcases List.mem_cons.mp member with same | member
    · cases slot with
      | some i => exact ⟨i, rfl⟩
      | none =>
        -- Without a slot the call would report success and no change.
        have made := refines s c
        rw [← same] at made
        simp only [Prod.mk.injEq] at same
        rw [← same.2] at made
        exact absurd rfl made.1
    · exact ih hasStore r slot out member

theorem safe (refines : Refines sizeMax step payloadOf) : Safe step payloadOf where
  unchanged s c failed := by
    obtain ⟨-, -, same⟩ | ⟨_, -, ok, -⟩ := refines.made s c
    · exact same
    · exact absurd ok failed
  current history s reached := (refines.agrees reached).unique
  retired history s reached := (refines.agrees reached).retired
  readers history s reached := (refines.agrees reached).readers
  reused history s reached c i reused := by
    have after := refines.agrees (reached.call c)
    obtain ⟨-, -, same⟩ | ⟨_, -, -, enabled, same⟩ := refines.made s c
    · simp [same, Reused] at reused
    · rw [same] at reused after
      exact (after.readers_zero_iff i).mp (after.idle i (reused_state enabled reused))
  revision s c := by
    obtain ⟨_, failed, same⟩ | ⟨_, change, -, -, same⟩ := refines.made s c
    · rw [same]
      cases c <;> cases result : (step s _).1 <;> simp_all [Call.publishes]
    · rw [same]
      exact publishes_change change s
  noLostUpdate history s reached := by
    have numbered := (refines.agrees reached).numbered
    have named := refines.publish_named reached
    clear reached
    induction history with
    | nil => exact .nil
    | cons entry rest ih =>
      have restNumbered : Numbered (rest.filterMap (Call.change payloadOf)) := by
        cases change : Call.change payloadOf entry with
        | none => simpa only [List.filterMap_cons_none change] using numbered
        | some made =>
          rw [List.filterMap_cons_some change] at numbered
          cases made with
          | publish i e => exact numbered.2
          | prepare i p | discard i | acquire i | release i => exact numbered
      refine .cons (fun earlier member lost => ?_)
        (ih restNumbered fun b r slot out member => named b r slot out (.tail _ member))
      -- The later publication expected the number of publications before it.
      obtain ⟨later, result, out⟩ := entry
      obtain ⟨c, result', out'⟩ := earlier
      cases later <;> cases c <;> simp only [LostUpdate] at lost
      obtain ⟨rfl, rfl, rfl⟩ := lost
      obtain ⟨i, rfl⟩ := named _ _ _ _ (.head _)
      obtain ⟨j, rfl⟩ := named _ _ _ _ (.tail _ member)
      have earlier := expected_lt restNumbered member
      have same : _ = publications _ := numbered.1
      omega

end Refines

end

end TinyCrypto.Snapshot
