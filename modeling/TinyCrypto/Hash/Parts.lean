import TinyCrypto.Hash.Core

/-! # Updates in parts

`tc_hash_core_update_parts` absorbs the parts of a message one after another. The
limit is checked part by part, and so is the place of a part.
-/

namespace TinyCrypto.Hash

open Library

structure Part where
  span : Span
  bytes : Bytes
  size : bytes.length = span.length

/-- What the platform and the caller fix: `UINTPTR_MAX`, the most spans of one array,
    the storage of the context and the address of the array. -/
structure PartsCall where
  pointerMax : Nat
  mostSpans : Nat
  place : Span
  array : Nat

/-- `tc_hash_update_args`. -/
def PartsCall.updateArgs (c : PartsCall) (data : Span) : Bool :=
  c.place.address ≠ 0 && data.valid c.pointerMax && c.place.disjoint data

/-- `tc_internal_parts_valid`, without an output. -/
def PartsCall.partsValid (c : PartsCall) (parts : List Part) : Bool :=
  !(parts.length ≠ 0 && c.array = 0) && parts.length ≤ c.mostSpans &&
    parts.all fun part => part.span.valid c.pointerMax

namespace Info

variable (info : Info) (c : PartsCall)

/-- `tc_hash_core_update`, with its argument checks. -/
def updateSpan (ctx : Context) (part : Part) : Bool × Context :=
  if !c.updateArgs part.span then (false, ctx) else info.coreUpdate ctx part.bytes

/-- The loop of `tc_hash_core_update_parts`. -/
def updateLoop : Context → List Part → Bool × Context
  | ctx, [] => (true, ctx)
  | ctx, part :: rest =>
    match info.updateSpan c ctx part with
    | (false, ctx) => (false, ctx)
    | (true, ctx) => updateLoop ctx rest

/-- `tc_hash_core_update_parts`: whether it returned TC_OK, and the context. -/
def coreUpdateParts (ctx : Context) (parts : List Part) : Bool × Context :=
  if c.place.address = 0 || !c.partsValid parts then (false, ctx) else info.updateLoop c ctx parts

def AllOrNothing (ctx : Context) (parts : List Part) (result : Bool × Context) : Prop :=
  result.1 = true ∧ result = info.coreUpdate ctx (parts.flatMap Part.bytes) ∨ result = (false, ctx)

def Fits (view : View) (data : Bytes) : Prop :=
  data = [] ∨ view.count + data.length ≤ info.maxMessageBytes

/-- Every part is clear of the context, and together they stay within the limit. -/
def TakesAll (ctx : Context) (parts : List Part) : Prop :=
  (∀ part ∈ parts, c.place.disjoint part.span = true) ∧ info.Fits ctx.view (parts.flatMap Part.bytes)

/-- The first part with bytes overlaps the context or exceeds the limit. -/
def RefusesFirst (ctx : Context) (parts : List Part) : Prop := ∃ first ∈ parts.find? (·.bytes ≠ []),
    c.place.disjoint first.span = false ∨ ¬ info.Fits ctx.view first.bytes

end Info

variable {info : Info} {c : PartsCall} {ctx : Context} {part : Part} {parts : List Part}

variable {view after : View} {data : Bytes}

theorem absorb_taken (taken : info.absorb view data = some after) : info.Fits view data := by
  refine or_iff_not_imp_left.mpr fun filled => ?_
  rw [Info.absorb, if_neg filled] at taken
  split at taken
  · cases taken
  · rename_i inside
    simp only [Bool.or_eq_true, decide_eq_true_eq, not_or] at inside
    omega

theorem absorb_beyond (beyond : ¬ info.Fits view data) : info.absorb view data = none :=
  Option.eq_none_iff_forall_ne_some.mpr fun _ taken => beyond (absorb_taken taken)

theorem fits_then {more : Bytes} (fits : info.Fits view data)
    (counted : after.count = view.count + data.length) :
    info.Fits after more ↔ info.Fits view (data ++ more) := by
  simp only [Info.Fits, counted, List.append_eq_nil_iff, List.length_append] at fits ⊢
  by_cases none : more = []
  · simpa [none] using fits
  · simp only [none, and_false, false_or, Nat.add_assoc]

section

variable (short : view.buffer.length < info.blockBytes)

include short

theorem absorb_fits (fits : info.Fits view data) : info.absorb view data = some
      ⟨(Blocks.fold info.blockBytes info.compress view.state (view.buffer ++ data)).1,
        view.count + data.length,
        (Blocks.fold info.blockBytes info.compress view.state (view.buffer ++ data)).2⟩ := by
  by_cases empty : data = []
  · subst empty
    rw [Info.absorb, if_pos rfl, List.append_nil, Blocks.fold_short short]
    rfl
  · have within := fits.resolve_left empty
    have inside : ¬ (view.count > info.maxMessageBytes ∨
        data.length > info.maxMessageBytes - view.count) := by omega
    rw [Info.absorb, if_neg empty, if_neg (by simpa using inside), streamAbsorb_fold short]

theorem absorb_then (taken : info.absorb view data = some after) :
    after.buffer.length < info.blockBytes ∧ after.count = view.count + data.length ∧
      ∀ more, info.absorb after more = info.absorb view (data ++ more) := by
  have fits := absorb_taken taken
  have same := Option.some.inj (taken.symm.trans (absorb_fits short fits))
  have counted : after.count = view.count + data.length := by rw [same]
  have short' : after.buffer.length < info.blockBytes := by
    rw [same]
    exact (Blocks.fold_rest_length info.block_pos _ _).trans_lt (Nat.mod_lt _ info.block_pos)
  refine ⟨short', counted, fun more => ?_⟩
  have folded : Blocks.fold info.blockBytes info.compress after.state (after.buffer ++ more) =
      Blocks.fold info.blockBytes info.compress view.state (view.buffer ++ (data ++ more)) := by
    rw [same, ← List.append_assoc, Blocks.fold_append info.block_pos view.state (view.buffer ++ data)]
  have together := @fits_then info view after data more fits counted
  by_cases later : info.Fits after more
  · rw [absorb_fits short' later, absorb_fits short (together.mp later), folded, counted,
      List.length_append, Nat.add_assoc]
  · rw [absorb_beyond later, absorb_beyond (later ∘ together.mpr)]

end

theorem coreUpdate_live (live : info.viewIsLive ctx = true) (data : Bytes) :
    (¬ info.Fits ctx.view data ∧ info.coreUpdate ctx data = (false, ctx)) ∨
      info.Fits ctx.view data ∧ ∃ after, info.coreUpdate ctx data = (true, after) ∧
        info.viewIsLive after = true ∧ after.view.count = ctx.view.count + data.length ∧
        ∀ more, (info.coreUpdate after more).1 = true →
          info.coreUpdate after more = info.coreUpdate ctx (data ++ more) := by
  obtain ⟨active, short⟩ : ctx.active = true ∧ ctx.view.buffer.length < info.blockBytes := by
    simpa [Info.viewIsLive] using live
  by_cases fits : info.Fits ctx.view data
  · obtain ⟨view, taken⟩ : ∃ view, info.absorb ctx.view data = some view := ⟨_, absorb_fits short fits⟩
    obtain ⟨short', counted, more⟩ := absorb_then short taken
    have live' : info.viewIsLive { ctx with view } = true := by simp [Info.viewIsLive, active, short']
    refine .inr ⟨fits, { ctx with view }, by simp [Info.coreUpdate, live, taken], live', counted, ?_⟩
    intro data' went
    simp only [Info.coreUpdate, live, live', more, Bool.not_true, Bool.false_eq_true, if_false]
      at went ⊢
    cases both : info.absorb ctx.view (data ++ data') with
    | none =>
      rw [both] at went
      cases went
    | some last => rfl
  · exact .inl ⟨fits, by simp [Info.coreUpdate, live, absorb_beyond fits]⟩

theorem updateSpan_eq (address : c.place.address ≠ 0) (valid : part.span.valid c.pointerMax = true) :
    info.updateSpan c ctx part =
      if c.place.disjoint part.span = true then info.coreUpdate ctx part.bytes else (false, ctx) := by
  cases clear : c.place.disjoint part.span <;>
    simp [Info.updateSpan, PartsCall.updateArgs, address, valid, clear]

section

variable (address : c.place.address ≠ 0)
    (valid : ∀ part ∈ parts, part.span.valid c.pointerMax = true)
    (live : info.viewIsLive ctx = true)

include address valid live

theorem updateLoop_taken : ((info.updateLoop c ctx parts).1 = true ↔ info.TakesAll c ctx parts) ∧
      ((info.updateLoop c ctx parts).1 = true →
        info.updateLoop c ctx parts = info.coreUpdate ctx (parts.flatMap Part.bytes)) ∧
      ctx.view.count ≤ (info.updateLoop c ctx parts).2.view.count := by
  induction parts generalizing ctx with
  | nil => simp [Info.updateLoop, Info.TakesAll, Info.Fits, Info.coreUpdate, live, Info.absorb]
  | cons part rest ih =>
    rw [List.forall_mem_cons] at valid
    rw [Info.updateLoop, updateSpan_eq address valid.1]
    cases clear : c.place.disjoint part.span with
    | false => simp [Info.TakesAll, clear]
    | true =>
      rw [if_pos rfl]
      rcases coreUpdate_live live part.bytes with ⟨beyond, refused⟩ |
        ⟨fits, after, taken, live', counted, more⟩
      · rw [refused]
        refine ⟨iff_of_false Bool.false_ne_true fun all => beyond ?_, by simp, Nat.le_refl _⟩
        refine all.2.imp (fun none => (List.append_eq_nil_iff.mp none).1) fun within => ?_
        simp only [List.flatMap_cons, List.length_append] at within
        omega
      · obtain ⟨all, same, grows⟩ := ih valid.2 live'
        simp only [taken, all, List.flatMap_cons]
        refine ⟨by simp [Info.TakesAll, clear, fits_then fits counted], fun went => ?_, by omega⟩
        have reached := same (all.mpr went)
        exact reached.trans (more _ (reached ▸ all.mpr went))

theorem updateLoop_unchanged :
    info.updateLoop c ctx parts = (false, ctx) ↔ info.RefusesFirst c ctx parts := by
  induction parts with
  | nil => simp [Info.updateLoop, Info.RefusesFirst]
  | cons part rest ih =>
    rw [List.forall_mem_cons] at valid
    rw [Info.updateLoop, updateSpan_eq address valid.1]
    by_cases empty : part.bytes = []
    · have clear : c.place.disjoint part.span = true := by
        simp [Span.disjoint, ← part.size, empty]
      have kept : info.coreUpdate ctx [] = (true, ctx) := by simp [Info.coreUpdate, live, Info.absorb]
      rw [if_pos clear, empty, kept, ih valid.2]
      simp [Info.RefusesFirst, empty]
    · have first : info.RefusesFirst c ctx (part :: rest) ↔
          c.place.disjoint part.span = false ∨ ¬ info.Fits ctx.view part.bytes := by
        simp [Info.RefusesFirst, empty]
      rw [first]
      cases clear : c.place.disjoint part.span with
      | false => simp
      | true =>
        rw [if_pos rfl]
        rcases coreUpdate_live live part.bytes with ⟨beyond, refused⟩ |
          ⟨fits, after, taken, live', counted, -⟩
        · simp [refused, beyond]
        · have grows := (updateLoop_taken address valid.2 live').2.2
          have some_bytes := List.length_pos_iff.mpr empty
          rw [taken]
          refine iff_of_false (fun same => ?_) (by simp [fits])
          simp only [same] at grows
          omega

end

/-- All or nothing fails exactly when a part is refused after bytes of another were taken. -/
theorem coreUpdateParts_all_or_nothing (c : PartsCall)
    (ctx : { ctx : Context // info.viewIsLive ctx = true }) (parts : List Part) :
    info.AllOrNothing ctx parts (info.coreUpdateParts c ctx parts) ↔
      c.place.address = 0 ∨ c.partsValid parts = false ∨ info.TakesAll c ctx parts ∨
        info.RefusesFirst c ctx parts := by
  rw [Info.AllOrNothing, Info.coreUpdateParts]
  by_cases address : c.place.address = 0
  · simp [address]
  cases accepted : c.partsValid parts with
  | false => simp
  | true =>
    have valid : ∀ part ∈ parts, part.span.valid c.pointerMax = true := by
      simp only [PartsCall.partsValid, Bool.and_eq_true, List.all_eq_true] at accepted
      exact accepted.2
    obtain ⟨all, same, -⟩ := updateLoop_taken address valid ctx.2
    simp only [address, Bool.not_true, Bool.or_false, decide_false, Bool.false_eq_true, if_false,
      false_or, reduceCtorEq]
    rw [updateLoop_unchanged address valid ctx.2, ← all]
    exact or_congr_left ⟨And.left, fun taken => ⟨taken, same taken⟩⟩

/-- SHA-256 one byte below its limit: the first part is taken, the second refused. -/
theorem coreUpdateParts_torn :
    ¬ ∀ (info : Info) (c : PartsCall) (ctx : { ctx : Context // info.viewIsLive ctx = true })
      (parts : List Part), info.AllOrNothing ctx parts (info.coreUpdateParts c ctx parts) := by
  intro law
  have torn := law (Core.info (.sha .sha256) ⟨[], fun s _ => s, fun _ => List.replicate 32 0, fun _ => rfl⟩)
    ⟨2 ^ 32 - 1, 2 ^ 28, ⟨0x1000, 112⟩, 0x2000⟩
    ⟨⟨⟨[], 2 ^ 61 - 2, List.replicate 62 0⟩, true⟩, by decide⟩
    [⟨⟨0x3000, 1⟩, [1], rfl⟩, ⟨⟨0x3001, 1⟩, [2], rfl⟩]
  rcases torn with ⟨went, -⟩ | same
  · exact absurd went (by decide)
  · exact absurd (congrArg (·.2.view.count) same) (by decide)

end TinyCrypto.Hash
