import Mathlib.Data.List.Forall2
import TinyCrypto.Common.Bytes

/-! # Arena layouts

`x509_path_workspace.c` and the workspace of `validation.c`: arrays of several element types
in one buffer of the caller. The same code computes the size and assigns the arrays.
-/

namespace TinyCrypto.X509

inductive ElementType where
  | frame
  | bytes
  | uint32
  | uint8
  | policyNode
  | policyEdge
  | policyExpected
  | policyMapping
  | certificate
  | extensionSummary
  | searchFrame
  | revocationNode
  | revocationScope
  deriving DecidableEq

/-- What the platform fixes. `validation_alignment_covers_path` is checked at compile time. -/
structure ArenaPlatform where
  sizeMax : Nat
  pointerMax : Nat
  sizeof : ElementType → Nat
  pathAlignment : Nat
  validationAlignment : Nat
  sized : ∀ type, 0 < sizeof type
  aligned : 0 < pathAlignment
  covers : 0 < validationAlignment ∧ validationAlignment % pathAlignment = 0

/-- `TC_X509_path_capacity`. -/
structure PathCapacity where
  frames : Nat
  oids : Nat
  nameScalars : Nat
  nameAttributes : Nat
  policyNodes : Nat
  policyEdges : Nat
  policyExpected : Nat
  policyMappings : Nat
  policies : Nat
  path : Nat
  deriving DecidableEq

/-- `TC_validation_capacity`. -/
structure ValidationCapacity extends PathCapacity where
  certificates : Nat
  signatureBytes : Nat
  crls : Nat
  revocationNodes : Nat
  deriving DecidableEq

structure ArenaArray where
  type : ElementType
  count : Nat
  deriving DecidableEq

/-- The arrays of `tc_x509_path_workspace_layout`. -/
def PathCapacity.arrays (c : PathCapacity) : List ArenaArray :=
  [⟨.frame, c.frames⟩, ⟨.bytes, c.oids⟩, ⟨.uint32, c.nameScalars⟩, ⟨.uint32, c.nameScalars⟩,
    ⟨.uint8, c.nameAttributes⟩, ⟨.policyNode, c.policyNodes⟩, ⟨.policyEdge, c.policyEdges⟩,
    ⟨.policyExpected, c.policyExpected⟩, ⟨.policyMapping, c.policyMappings⟩, ⟨.bytes, c.policies⟩,
    ⟨.certificate, c.path⟩, ⟨.extensionSummary, c.path⟩]

/-- `TC_CMS_SIGNED_DIGEST_BYTES`. -/
def signedDigestBytes : Nat := 64

/-- The arrays of `layout` in `validation.c`: those of the path, then its own. -/
def ValidationCapacity.arrays (c : ValidationCapacity) : List ArenaArray :=
  c.toPathCapacity.arrays ++
    [⟨.bytes, c.path⟩, ⟨.searchFrame, c.path⟩, ⟨.bytes, c.certificates⟩, ⟨.uint8, c.signatureBytes⟩,
      ⟨.uint8, signedDigestBytes⟩, ⟨.bytes, c.path⟩, ⟨.uint8, c.crls⟩,
      ⟨.revocationNode, c.revocationNodes⟩, ⟨.revocationScope, c.crls⟩, ⟨.bytes, c.path⟩,
      ⟨.bytes, c.policies⟩]

def PathCapacity.required (c : PathCapacity) : List Nat :=
  [c.frames, c.oids, c.nameScalars, c.nameAttributes, c.path]

def ValidationCapacity.required (c : ValidationCapacity) : List Nat :=
  c.toPathCapacity.required ++ [c.certificates]

section

variable (p : ArenaPlatform) (alignment : Nat)

/-- `tc_x509_path_arena_reserve`: the start of the array and the offset after it. -/
def arenaReserve (offset count width : Nat) : Option (Nat × Nat) :=
  let remainder := offset % alignment
  let padding := if remainder ≠ 0 then alignment - remainder else 0
  if padding > p.sizeMax - offset then none
  else
    let start := offset + padding
    if count > (p.sizeMax - start) / width then none else some (start, start + count * width)

/-- The arrays from `offset` on: their pointers, NULL in a sizing pass or without elements,
    and the offset reached. -/
def arenaLayout (arena : Nat) : List ArenaArray → Nat → Option (List Span × Nat)
  | [], offset => some ([], offset)
  | a :: rest, offset =>
    match arenaReserve p alignment offset a.count (p.sizeof a.type) with
    | none => none
    | some (start, offset) =>
      match arenaLayout arena rest offset with
      | none => none
      | some (placed, offset) =>
        some (⟨if arena ≠ 0 && a.count ≠ 0 then arena + start else 0, a.count * p.sizeof a.type⟩ ::
          placed, offset)

/-- `workspace_size`, and the sizing pass of `layout`. -/
def arenaSize (required : List Nat) (arrays : List ArenaArray) : Except Result Nat :=
  if 0 ∈ required then .error .argument
  else
    match arenaLayout p alignment 0 arrays 0 with
    | none => .error .limit
    | some (_, size) => .ok size

/-- The workspace init functions: the arrays, and the end that the assigning pass reaches. -/
def arenaInit (required : List Nat) (arrays : List ArenaArray) (arena out capacity : Span) :
    Except Result (Option (List Span × Nat)) :=
  if arena.address = 0 || arena.address % alignment ≠ 0 || !arena.valid p.pointerMax ||
      !arena.disjoint out || !arena.disjoint capacity || !out.disjoint capacity then .error .argument
  else
    match arenaSize p alignment required arrays with
    | .error e => .error e
    | .ok size =>
      if arena.length < size then .error .limit
      else .ok (arenaLayout p alignment arena.address arrays 0)

end

/-- `TC_X509_path_workspace_size`. -/
def pathWorkspaceSize (p : ArenaPlatform) (c : PathCapacity) : Except Result Nat :=
  arenaSize p p.pathAlignment c.required c.arrays

/-- `TC_X509_path_workspace_init`. -/
def pathWorkspaceInit (p : ArenaPlatform) (c : PathCapacity) :=
  arenaInit p p.pathAlignment c.required c.arrays

/-- `TC_validation_workspace_size`. -/
def validationWorkspaceSize (p : ArenaPlatform) (c : ValidationCapacity) : Except Result Nat :=
  arenaSize p p.validationAlignment c.required c.arrays

/-- `TC_validation_workspace_init`. -/
def validationWorkspaceInit (p : ArenaPlatform) (c : ValidationCapacity) :=
  arenaInit p p.validationAlignment c.required c.arrays

/-- The least multiple of the alignment from `offset` on. -/
def alignUp (alignment offset : Nat) : Nat := (offset + (alignment - 1)) / alignment * alignment

/-- The end of an array that is placed from `offset` on. -/
def exactEnd (p : ArenaPlatform) (alignment offset : Nat) (a : ArenaArray) : Nat :=
  alignUp alignment offset + a.count * p.sizeof a.type

def exactEnds (p : ArenaPlatform) (alignment : Nat) : List ArenaArray → Nat → List Nat
  | [], _ => []
  | a :: rest, offset =>
    exactEnd p alignment offset a :: exactEnds p alignment rest (exactEnd p alignment offset a)

variable {p : ArenaPlatform} {alignment offset : Nat}

theorem alignUp_eq (pos : 0 < alignment) : alignUp alignment offset =
      offset + if offset % alignment ≠ 0 then alignment - offset % alignment else 0 := by
  have parts := Nat.div_add_mod offset alignment
  have less := Nat.mod_lt offset pos
  rw [alignUp]
  generalize offset / alignment = q at parts
  generalize offset % alignment = m at parts less
  subst parts
  split
  · rename_i some
    rw [show alignment * q + m + (alignment - 1) = alignment * (q + 1) + (m - 1) by
      rw [Nat.mul_succ]; omega, Nat.mul_add_div pos, Nat.div_eq_of_lt (by omega), Nat.add_zero,
      Nat.mul_comm, Nat.mul_succ]
    omega
  · rename_i none
    rw [show m = 0 by omega, Nat.add_assoc, Nat.mul_add_div pos, Nat.div_eq_of_lt (by omega),
      Nat.add_zero, Nat.mul_comm]
    rfl

theorem arenaReserve_eq (pos : 0 < alignment) (small : offset ≤ p.sizeMax) (a : ArenaArray) :
    arenaReserve p alignment offset a.count (p.sizeof a.type) =
      if exactEnd p alignment offset a ≤ p.sizeMax then
        some (alignUp alignment offset, exactEnd p alignment offset a) else none := by
  rw [exactEnd, alignUp_eq pos, arenaReserve]
  simp only
  generalize (if offset % alignment ≠ 0 then alignment - offset % alignment else 0) = padding
  have width := p.sized a.type
  split
  · rw [if_neg (by omega)]
  · have fits : a.count > (p.sizeMax - (offset + padding)) / p.sizeof a.type ↔
        ¬ offset + padding + a.count * p.sizeof a.type ≤ p.sizeMax := by
      rw [gt_iff_lt, Nat.div_lt_iff_lt_mul width]
      omega
    split
    · rename_i beyond
      rw [if_neg (fits.mp beyond)]
    · rename_i within
      rw [if_pos (not_not.mp (mt fits.mpr within))]

variable {arena reached : Nat} {arrays : List ArenaArray} {placed : List Span} {required : List Nat}

section

variable (pos : 0 < alignment) (small : offset ≤ p.sizeMax)

include pos small

theorem arenaLayout_cons (a : ArenaArray) (rest : List ArenaArray) :
    arenaLayout p alignment arena (a :: rest) offset =
      if exactEnd p alignment offset a ≤ p.sizeMax then
        (arenaLayout p alignment arena rest (exactEnd p alignment offset a)).map fun answer =>
          (⟨if arena ≠ 0 && a.count ≠ 0 then arena + alignUp alignment offset else 0,
            a.count * p.sizeof a.type⟩ :: answer.1, answer.2) else none := by
  rw [arenaLayout, arenaReserve_eq pos small]
  by_cases within : exactEnd p alignment offset a ≤ p.sizeMax
  · rw [if_pos within, if_pos within]
    dsimp only
    cases arenaLayout p alignment arena rest _ <;> rfl
  · rw [if_neg within, if_neg within]

theorem arenaLayout_none : arenaLayout p alignment arena arrays offset = none ↔
      ∃ e ∈ exactEnds p alignment arrays offset, p.sizeMax < e := by
  induction arrays generalizing offset with
  | nil => simp [arenaLayout, exactEnds]
  | cons a rest ih =>
    rw [arenaLayout_cons pos small]
    simp only [exactEnds, List.mem_cons, exists_eq_or_imp]
    split
    · rename_i within
      rw [Option.map_eq_none_iff, ih within]
      exact (or_iff_right (Nat.not_lt.mpr within)).symm
    · rename_i beyond
      exact iff_of_true rfl (.inl (Nat.not_le.mp beyond))

theorem arenaLayout_reached
    (ended : arenaLayout p alignment arena arrays offset = some (placed, reached)) :
    reached = (exactEnds p alignment arrays offset).getLastD offset := by
  induction arrays generalizing offset placed with
  | nil =>
    cases ended
    rfl
  | cons a rest ih =>
    rw [arenaLayout_cons pos small] at ended
    split at ended
    · rename_i within
      obtain ⟨⟨later, last⟩, ran, same⟩ := Option.map_eq_some_iff.mp ended
      obtain ⟨rfl, rfl⟩ := Prod.mk.inj same
      rw [ih within ran, exactEnds, List.getLastD_cons]
    · cases ended

end

structure ArenaPlaced (p : ArenaPlatform) (alignment arena first last : Nat) (a : ArenaArray)
    (span : Span) : Prop where
  length : span.length = a.count * p.sizeof a.type
  empty : a.count = 0 → span.address = 0
  inside : a.count ≠ 0 → span.address % alignment = 0 ∧ arena + first ≤ span.address ∧
    span.address + span.length ≤ arena + last

theorem alignUp_spec (pos : 0 < alignment) :
    offset ≤ alignUp alignment offset ∧ alignUp alignment offset % alignment = 0 := by
  refine ⟨?_, Nat.mul_mod_left _ _⟩
  rw [alignUp_eq pos]
  exact Nat.le_add_right _ _

theorem arenaLayout_placed (pos : 0 < alignment) (small : offset ≤ p.sizeMax)
    (aligned : arena % alignment = 0) (present : arena ≠ 0)
    (ended : arenaLayout p alignment arena arrays offset = some (placed, reached)) :
    offset ≤ reached ∧ List.Forall₂ (ArenaPlaced p alignment arena offset reached) arrays placed ∧
      (∀ span ∈ placed, span.length ≠ 0 → arena + offset ≤ span.address) ∧
      placed.Pairwise Span.Apart := by
  induction arrays generalizing offset placed with
  | nil =>
    cases ended
    exact ⟨Nat.le_refl _, .nil, by simp, .nil⟩
  | cons a rest ih =>
    rw [arenaLayout_cons pos small] at ended
    split at ended
    · rename_i within
      obtain ⟨⟨later, last⟩, ran, same⟩ := Option.map_eq_some_iff.mp ended
      obtain ⟨rfl, rfl⟩ := Prod.mk.inj same
      obtain ⟨grows, inside, above, apart⟩ := ih within ran
      obtain ⟨up, multiple⟩ := @alignUp_spec alignment offset pos
      have room : alignUp alignment offset + a.count * p.sizeof a.type ≤ last := grows
      have past : offset ≤ exactEnd p alignment offset a := Nat.le_add_right_of_le up
      have aligned' : (arena + alignUp alignment offset) % alignment = 0 := by
        rw [Nat.add_mod, aligned, multiple, Nat.zero_mod]
      have pointer : a.count ≠ 0 →
          (if arena ≠ 0 && a.count ≠ 0 then arena + alignUp alignment offset else 0) =
            arena + alignUp alignment offset := fun some => if_pos (by simp [present, some])
      refine ⟨Nat.le_trans past grows, .cons ⟨rfl, fun none => by simp [none], fun some => ?_⟩ ?_, ?_,
        .cons ?_ apart⟩
      · simp only [pointer some]
        exact ⟨aligned', by omega, by omega⟩
      · exact inside.imp fun b span placed => ⟨placed.length, placed.empty, fun some =>
          ⟨(placed.inside some).1, Nat.le_trans (by omega) (placed.inside some).2.1,
            (placed.inside some).2.2⟩⟩
      · rw [List.forall_mem_cons]
        refine ⟨fun some => ?_, fun span member some => Nat.le_trans (by omega) (above span member some)⟩
        rw [pointer fun none => some (by simp [none])]
        exact Nat.add_le_add_left up arena
      · rintro span member address ⟨⟨-, below⟩, from_, below'⟩
        have some : a.count ≠ 0 := fun none => by simp [none] at below
        have next := above span member (by omega)
        simp only [pointer some] at below
        simp only [exactEnd] at next
        omega
    · cases ended

/-- The layout of one workspace: its counts, its size and its init function. -/
structure ArenaExact (p : ArenaPlatform) (alignment : Nat) (required : List Nat)
    (arrays : List ArenaArray) (size : Except Result Nat)
    (init : Span → Span → Span → Except Result (Option (List Span × Nat))) : Prop where
  argument : size = .error .argument ↔ 0 ∈ required
  limit : size = .error .limit ↔ 0 ∉ required ∧ ∃ e ∈ exactEnds p alignment arrays 0, p.sizeMax < e
  exact : ∀ bytes, size = .ok bytes → bytes = (exactEnds p alignment arrays 0).getLastD 0
  assigned : ∀ arena out capacity answer, init arena out capacity = .ok answer →
    ∃ placed bytes, answer = some (placed, bytes) ∧ size = .ok bytes ∧ bytes ≤ arena.length ∧
      List.Forall₂ (ArenaPlaced p alignment arena.address 0 bytes) arrays placed ∧
      placed.Pairwise Span.Apart

theorem arena_exact (pos : 0 < alignment) :
    ArenaExact p alignment required arrays (arenaSize p alignment required arrays)
      (arenaInit p alignment required arrays) := by
  have fails := fun arena => @arenaLayout_none p alignment 0 arena arrays pos (Nat.zero_le _)
  have ends := fun arena placed reached => @arenaLayout_reached p alignment 0 arena reached arrays placed
    pos (Nat.zero_le _)
  by_cases zero : 0 ∈ required
  · have size : arenaSize p alignment required arrays = .error .argument := if_pos zero
    refine ⟨by simp [size, zero], by simp [size, zero], by simp [size], fun arena out capacity answer ran => ?_⟩
    rw [arenaInit, size] at ran
    split at ran <;> cases ran
  · cases sized : arenaLayout p alignment 0 arrays 0 with
    | none =>
      have size : arenaSize p alignment required arrays = .error .limit := by
        rw [arenaSize, if_neg zero, sized]
      refine ⟨by simp [size, zero], iff_of_true size ⟨zero, (fails 0).mp sized⟩, by simp [size],
        fun arena out capacity answer ran => ?_⟩
      rw [arenaInit, size] at ran
      split at ran <;> cases ran
    | some sized' =>
      obtain ⟨unplaced, bytes⟩ := sized'
      have size : arenaSize p alignment required arrays = .ok bytes := by
        rw [arenaSize, if_neg zero, sized]
      have fits : ¬ ∃ e ∈ exactEnds p alignment arrays 0, p.sizeMax < e := fun beyond => by
        rw [(fails 0).mpr beyond] at sized
        cases sized
      refine ⟨by simp [size, zero], iff_of_false (by simp [size]) fun beyond => fits beyond.2, ?_,
        fun arena out capacity answer ran => ?_⟩
      · rintro _ same
        rw [← Except.ok.inj (size.symm.trans same)]
        exact ends _ _ _ sized
      · rw [arenaInit, size] at ran
        split at ran
        · cases ran
        rename_i accepted
        simp only [Bool.or_eq_true, decide_eq_true_eq, not_or, Bool.not_eq_true', Bool.not_eq_false,
          ne_eq, not_not] at accepted
        dsimp only at ran
        split at ran
        · cases ran
        rename_i room
        cases assigned : arenaLayout p alignment arena.address arrays 0 with
        | none => exact absurd ((fails _).mp assigned) fits
        | some answer' =>
          obtain ⟨placed, reached⟩ := answer'
          obtain rfl : bytes = reached := (ends _ _ _ sized).trans (ends _ _ _ assigned).symm
          obtain ⟨-, inside, -, apart⟩ := arenaLayout_placed pos (Nat.zero_le _)
            accepted.1.1.1.1.2 accepted.1.1.1.1.1 assigned
          exact ⟨placed, bytes, by rw [← Except.ok.inj ran, assigned], size, Nat.not_lt.mp room, inside, apart⟩

/-- Both workspaces, for any capacities. -/
theorem workspace_exact (p : ArenaPlatform) :
    (∀ c : PathCapacity, ArenaExact p p.pathAlignment c.required c.arrays (pathWorkspaceSize p c)
        (pathWorkspaceInit p c)) ∧
      ∀ c : ValidationCapacity, ArenaExact p p.validationAlignment c.required c.arrays
        (validationWorkspaceSize p c) (validationWorkspaceInit p c) :=
  ⟨fun _ => arena_exact p.aligned, fun _ => arena_exact p.covers.1⟩

/-- A zero count is reported before any end. -/
theorem workspace_zero_count :
    let p : ArenaPlatform := ⟨2 ^ 32 - 1, 2 ^ 32 - 1, fun _ => 4, 4, 4, fun _ => by decide, by decide, by decide⟩
    let c : PathCapacity := ⟨0, 2 ^ 31, 1, 1, 0, 0, 0, 0, 0, 1⟩
    (∃ e ∈ exactEnds p p.pathAlignment c.arrays 0, p.sizeMax < e) ∧
      pathWorkspaceSize p c ≠ .error .limit := by
  decide

end TinyCrypto.X509
