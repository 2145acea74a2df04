import Mathlib.Data.List.Induction
import TinyCrypto.Common.Bytes

/-! # Storage preflight

`pki_storage.c`: a plan records the ranges that an operation writes and checks them
against each other and against what it reads. The first failure stays.
-/

namespace TinyCrypto.Storage

open Span (Apart)

/-- The private copy of the work counter, and the comparisons made so far. -/
structure Work where
  left : Nat
  comparisons : Nat
  deriving DecidableEq

/-- `tc_pki_storage_plan`. `count` is the length of `writes`. -/
structure Plan where
  writes : List Span
  capacity : Nat
  budget : Work
  initialBudget : Nat
  isSealed : Bool
  status : Result
  deriving DecidableEq

/-- `tc_pki_storage_plan_begin`. The caller's array is there or NULL. -/
def planBegin (present : Bool) (capacity budget : Nat) : Plan where
  writes := []
  capacity := capacity
  budget := ⟨budget, 0⟩
  initialBudget := budget
  isSealed := false
  status := if present || capacity = 0 then .ok else .argument

/-- The loop of `tc_pki_storage_input`. -/
def inputLoop (input : Span) : List Span → Work → Result × Work
  | [], work => (.ok, work)
  | write :: rest, work =>
    if work.left = 0 then (.limit, work)
    else
      let work : Work := ⟨work.left - 1, work.comparisons + 1⟩
      if !write.disjoint input then (.argument, work) else inputLoop input rest work

section

variable (sizeMax pointerMax : Nat)

/-- `tc_pki_storage_span`, or none for TC_TLV_ARGUMENT. -/
def storageSpan (data count width : Nat) : Option Span :=
  if width = 0 || count > sizeMax / width then none
  else if !Span.valid pointerMax ⟨data, count * width⟩ then none
  else some ⟨data, count * width⟩

/-- `tc_pki_storage_input`. -/
def storageInput (writes : List Span) (input : Span) (work : Work) : Result × Work :=
  if !input.valid pointerMax then (.argument, work) else inputLoop input writes work

/-- The loop of `tc_pki_storage_plan_seal`: every write against those before it. -/
def sealLoop : (before rest : List Span) → Work → Result × Work
  | _, [], work => (.ok, work)
  | before, write :: rest, work =>
    match storageInput pointerMax before write work with
    | (.ok, work) => sealLoop (before ++ [write]) rest work
    | failed => failed

namespace Plan

variable (plan : Plan)

/-- `tc_pki_storage_plan_write`. -/
def write (data count width : Nat) : Plan := if plan.status ≠ .ok then plan
  else if plan.isSealed || plan.writes.length = plan.capacity then { plan with status := .argument }
  else
    match storageSpan sizeMax pointerMax data count width with
    | none => { plan with status := .argument }
    | some span => { plan with writes := plan.writes ++ [span] }

/-- `tc_pki_storage_plan_write_span`. -/
def writeSpan (span : Span) : Plan := plan.write sizeMax pointerMax span.address span.length 1

/-- `tc_pki_storage_plan_fail`. -/
def fail (status : Result) : Plan := if plan.status = .ok then { plan with status } else plan

/-- `tc_pki_storage_plan_seal`. -/
def «seal» : Plan := if plan.status ≠ .ok then plan
  else
    let (status, budget) := sealLoop pointerMax [] plan.writes plan.budget
    { plan with status, budget, isSealed := true }

/-- `tc_pki_storage_plan_input_span`. -/
def inputSpan (input : Span) : Plan := if plan.status ≠ .ok then plan
  else if !plan.isSealed then { plan with status := .argument }
  else
    let (status, budget) := storageInput pointerMax plan.writes input plan.budget
    { plan with status, budget }

/-- `tc_pki_storage_plan_input`. -/
def input (data count width : Nat) : Plan := if plan.status ≠ .ok then plan
  else
    match storageSpan sizeMax pointerMax data count width with
    | none => { plan with status := .argument }
    | some span => plan.inputSpan pointerMax span

/-- `tc_pki_storage_plan_input_spans`. -/
def inputSpans : Plan → List Span → Plan
  | plan, [] => plan
  | plan, input :: rest =>
    if plan.status ≠ .ok then plan else inputSpans (plan.inputSpan pointerMax input) rest

/-- `tc_pki_storage_plan_finish` with the caller's counter. -/
def finish (work : Nat) : Result × Nat :=
  (plan.status, if plan.status = .ok then plan.budget.left else work)

end Plan

inductive Call where
  | write (data count width : Nat)
  | writeSpan (span : Span)
  | fail (status : Result)
  | «seal»
  | input (data count width : Nat)
  | inputSpan (span : Span)
  | inputSpans (spans : List Span)
  deriving DecidableEq

def Call.step (plan : Plan) : Call → Plan
  | .write data count width => plan.write sizeMax pointerMax data count width
  | .writeSpan span => plan.writeSpan sizeMax pointerMax span
  | .fail status => plan.fail status
  | .seal => plan.seal pointerMax
  | .input data count width => plan.input sizeMax pointerMax data count width
  | .inputSpan span => plan.inputSpan pointerMax span
  | .inputSpans spans => plan.inputSpans pointerMax spans

def Plan.run (plan : Plan) (calls : List Call) : Plan :=
  calls.foldl (Call.step sizeMax pointerMax) plan

end

def Call.inputs : Call → List Span
  | .input data count width => [⟨data, count * width⟩]
  | .inputSpan span => [span]
  | .inputSpans spans => spans
  | _ => []

def Call.records : Call → Bool
  | .write .. | .writeSpan _ => true
  | _ => false

def Unwrapped (pointerMax : Nat) (span : Span) : Prop :=
  span.length = 0 ∨ span.address + span.length ≤ pointerMax

variable {sizeMax pointerMax : Nat} {writes before : List Span} {span input : Span} {work : Work}

theorem disjoint_apart {a b : Span} (disjoint : a.disjoint b = true) : Apart a b := by
  rintro address ⟨inside, inside'⟩
  unfold Span.Holds at inside inside'
  unfold Span.disjoint at disjoint
  split at disjoint
  · rename_i empty
    simp only [Bool.or_eq_true, decide_eq_true_eq] at empty
    omega
  · split at disjoint <;> simp only [decide_eq_true_eq] at disjoint <;> omega

theorem valid_unwrapped (valid : span.valid pointerMax = true) : Unwrapped pointerMax span := by
  simp only [Span.valid, Bool.and_eq_true, decide_eq_true_eq] at valid
  unfold Unwrapped
  omega

theorem storageSpan_some {data count width : Nat}
    (fits : storageSpan sizeMax pointerMax data count width = some span) :
    span = ⟨data, count * width⟩ ∧ Unwrapped pointerMax span := by
  unfold storageSpan at fits
  split at fits
  · cases fits
  split at fits
  · cases fits
  · rename_i valid
    cases fits
    exact ⟨rfl, valid_unwrapped (by simpa using valid)⟩

def Work.total (work : Work) : Nat := work.left + work.comparisons

theorem inputLoop_spec : (inputLoop input writes work).2.total = work.total ∧
      ((inputLoop input writes work).1 = .ok → ∀ write ∈ writes, Apart write input) := by
  induction writes generalizing work with
  | nil => exact ⟨rfl, fun _ => by simp⟩
  | cons write rest ih =>
    unfold inputLoop
    split
    · exact ⟨rfl, nofun⟩
    rename_i some
    have spent : Work.total ⟨work.left - 1, work.comparisons + 1⟩ = work.total := by
      simp only [Work.total]
      omega
    split
    · exact ⟨spent, nofun⟩
    · rename_i disjoint
      obtain ⟨total, apart⟩ := @ih ⟨work.left - 1, work.comparisons + 1⟩
      refine ⟨total.trans spent, fun passed => List.forall_mem_cons.mpr ⟨?_, apart passed⟩⟩
      exact disjoint_apart (by simpa using disjoint)

theorem storageInput_spec : (storageInput pointerMax writes input work).2.total = work.total ∧
      ((storageInput pointerMax writes input work).1 = .ok →
        Unwrapped pointerMax input ∧ ∀ write ∈ writes, Apart write input) := by
  unfold storageInput
  split
  · exact ⟨rfl, nofun⟩
  · rename_i valid
    exact ⟨inputLoop_spec.1, fun passed =>
      ⟨valid_unwrapped (by simpa using valid), inputLoop_spec.2 passed⟩⟩

theorem sealLoop_spec {rest : List Span} :
    (sealLoop pointerMax before rest work).2.total = work.total ∧
      ((sealLoop pointerMax before rest work).1 = .ok → before.Pairwise Apart →
        (before ++ rest).Pairwise Apart) := by
  induction rest generalizing before work with
  | nil => exact ⟨rfl, fun _ apart => by rwa [List.append_nil]⟩
  | cons write rest ih =>
    obtain ⟨total, passes⟩ := @storageInput_spec pointerMax before write work
    unfold sealLoop
    split
    · rename_i work' checked
      rw [checked] at total passes
      obtain ⟨total', apart⟩ := @ih (before ++ [write]) work'
      refine ⟨total'.trans total, fun passed earlier => ?_⟩
      have joined : (before ++ [write]).Pairwise Apart :=
        List.pairwise_append.mpr ⟨earlier, List.pairwise_singleton _ _, by simpa using (passes rfl).2⟩
      rw [List.append_cons]
      exact apart passed joined
    · rename_i failed
      refine ⟨total, fun passed => absurd ?_ (failed (storageInput pointerMax before write work).2)⟩
      exact Prod.ext passed rfl

variable {plan plan' : Plan} {data count width capacity work : Nat} {calls : List Call} {call : Call}

theorem running {next : Plan} (passed : (if plan.status ≠ .ok then plan else next).status = .ok) :
    plan.status = .ok ∧ next.status = .ok ∧ (if plan.status ≠ .ok then plan else next) = next := by
  split at passed
  · rename_i failed
    exact absurd passed failed
  · rename_i status
    exact ⟨not_not.mp status, passed, if_neg status⟩

theorem write_ok (passed : (plan.write sizeMax pointerMax data count width).status = .ok) :
    plan.status = .ok ∧ plan.isSealed = false ∧ plan.writes.length ≠ plan.capacity ∧
      ∃ span, Unwrapped pointerMax span ∧ plan.write sizeMax pointerMax data count width =
          { plan with writes := plan.writes ++ [span] } := by
  unfold Plan.write at passed ⊢
  obtain ⟨status, passed, same⟩ := running passed
  rw [same]
  split at passed
  · cases passed
  rename_i room
  rw [if_neg room]
  simp only [Bool.or_eq_true, decide_eq_true_eq, not_or, Bool.not_eq_true] at room
  split at passed
  · cases passed
  · rename_i span fits
    exact ⟨status, room.1, room.2, span, (storageSpan_some fits).2, rfl⟩

theorem seal_ok (passed : (plan.seal pointerMax).status = .ok) :
    plan.status = .ok ∧ plan.writes.Pairwise Apart ∧ ∃ budget, budget.total = plan.budget.total ∧
      plan.seal pointerMax = { plan with budget, isSealed := true } := by
  unfold Plan.seal at passed ⊢
  obtain ⟨status, passed, same⟩ := running passed
  obtain ⟨total, apart⟩ := @sealLoop_spec pointerMax [] plan.budget plan.writes
  rw [same]
  exact ⟨status, apart passed .nil, _, total, by rw [← passed.trans status.symm]⟩

/-- The calls that check inputs change nothing but the budget. -/
def Checks (pointerMax : Nat) (plan plan' : Plan) (inputs : List Span) : Prop := plan.status = .ok ∧
    (∀ input ∈ inputs, plan.isSealed = true ∧ Unwrapped pointerMax input ∧
      ∀ write ∈ plan.writes, Apart write input) ∧
    ∃ budget, budget.total = plan.budget.total ∧ plan' = { plan with budget }

theorem fail_ok {status : Result} (passed : (plan.fail status).status = .ok) :
    Checks pointerMax plan (plan.fail status) [] := by
  unfold Plan.fail at passed ⊢
  split at passed
  · rename_i ok
    exact ⟨ok, by simp, plan.budget, rfl, by rw [if_pos ok, ← passed.trans ok.symm]⟩
  · rename_i failed
    exact absurd passed failed

theorem inputSpan_ok (passed : (plan.inputSpan pointerMax span).status = .ok) :
    Checks pointerMax plan (plan.inputSpan pointerMax span) [span] := by
  unfold Plan.inputSpan at passed ⊢
  obtain ⟨status, passed, same⟩ := running passed
  rw [same]
  split at passed
  · cases passed
  rename_i closed
  obtain ⟨total, checked⟩ := @storageInput_spec pointerMax plan.writes span plan.budget
  refine ⟨status, ?_, _, total, by rw [if_neg closed, ← passed.trans status.symm]⟩
  rw [List.forall_mem_singleton]
  exact ⟨by simpa using closed, checked passed⟩

theorem input_ok (passed : (plan.input sizeMax pointerMax data count width).status = .ok) :
    Checks pointerMax plan (plan.input sizeMax pointerMax data count width) [⟨data, count * width⟩] := by
  unfold Plan.input at passed ⊢
  obtain ⟨status, passed, same⟩ := running passed
  rw [same]
  split at passed
  · cases passed
  · rename_i span fits
    obtain ⟨rfl, -⟩ := storageSpan_some fits
    exact inputSpan_ok passed

theorem inputSpans_ok {spans : List Span} (passed : (plan.inputSpans pointerMax spans).status = .ok) :
    Checks pointerMax plan (plan.inputSpans pointerMax spans) spans := by
  induction spans generalizing plan with
  | nil => exact ⟨passed, by simp, plan.budget, rfl, rfl⟩
  | cons span rest ih =>
    unfold Plan.inputSpans at passed ⊢
    obtain ⟨-, passed, same⟩ := running passed
    obtain ⟨ok, later, last, total, same'⟩ := ih passed
    obtain ⟨status, here, budget, total', same''⟩ := inputSpan_ok ok
    rw [same, same', same'']
    rw [same''] at later total
    exact ⟨status, List.forall_mem_cons.mpr ⟨by simpa using here, later⟩, last, total.trans total', rfl⟩

structure Sound (pointerMax : Nat) (plan : Plan) (capacity work : Nat) (calls : List Call) : Prop where
  writes : ∀ write ∈ plan.writes, Unwrapped pointerMax write
  closed : plan.isSealed = true ↔ .seal ∈ calls
  apart : plan.isSealed = true → plan.writes.Pairwise Apart
  inputs : ∀ input ∈ calls.flatMap Call.inputs, plan.isSealed = true ∧ Unwrapped pointerMax input ∧
    ∀ write ∈ plan.writes, Apart write input
  recorded : plan.writes.length = calls.countP Call.records
  room : plan.capacity = capacity ∧ plan.writes.length ≤ capacity
  budget : plan.budget.total = work

theorem Sound.check (sound : Sound pointerMax plan capacity work calls)
    (checks : Checks pointerMax plan plan' call.inputs) (other : call ≠ .seal)
    (none : call.records = false) : Sound pointerMax plan' capacity work (calls ++ [call]) := by
  obtain ⟨-, checked, budget, total, rfl⟩ := checks
  refine ⟨sound.writes, ?_, sound.apart, ?_, ?_, sound.room, total.trans sound.budget⟩
  · simp [sound.closed, other.symm]
  · intro input member
    simp only [List.flatMap_append, List.flatMap_singleton, List.mem_append] at member
    exact member.elim (sound.inputs input) (checked input)
  · simp [sound.recorded, none]

theorem Sound.write (sound : Sound pointerMax plan capacity work calls)
    (passed : (plan.write sizeMax pointerMax data count width).status = .ok)
    (recorded : call.records = true) (other : call ≠ .seal) (noInputs : call.inputs = []) :
    Sound pointerMax (plan.write sizeMax pointerMax data count width) capacity work (calls ++ [call]) := by
  obtain ⟨-, unsealed, room, span, fits, same⟩ := write_ok passed
  have none : calls.flatMap Call.inputs = [] := by
    refine List.eq_nil_iff_forall_not_mem.mpr fun input member => ?_
    have := (sound.inputs input member).1
    rw [unsealed] at this
    cases this
  rw [same]
  refine ⟨?_, ?_, ?_, ?_, ?_, ?_, sound.budget⟩
  · intro write member
    rcases List.mem_append.mp member with member | member
    · exact sound.writes write member
    · rwa [List.mem_singleton.mp member]
  · simp [sound.closed, other.symm]
  · simp [unsealed]
  · simp [none, noInputs]
  · simp [sound.recorded, recorded]
  · obtain ⟨size, within⟩ := sound.room
    refine ⟨size, ?_⟩
    simp only [List.length_append, List.length_singleton]
    omega

theorem Sound.seal (sound : Sound pointerMax plan capacity work calls)
    (passed : (plan.seal pointerMax).status = .ok) :
    Sound pointerMax (plan.seal pointerMax) capacity work (calls ++ [.seal]) := by
  obtain ⟨-, apart, budget, total, same⟩ := seal_ok passed
  rw [same]
  refine ⟨sound.writes, by simp, fun _ => apart, ?_, ?_, sound.room, total.trans sound.budget⟩
  · intro input member
    simp only [List.flatMap_append, List.flatMap_singleton, Call.inputs, List.append_nil] at member
    exact ⟨rfl, (sound.inputs input member).2⟩
  · simp [sound.recorded, Call.records]

theorem Sound.step (sound : plan.status = .ok → Sound pointerMax plan capacity work calls)
    (passed : (call.step sizeMax pointerMax plan).status = .ok) :
    Sound pointerMax (call.step sizeMax pointerMax plan) capacity work (calls ++ [call]) := by
  cases call with
  | write data count width => exact (sound (write_ok passed).1).write passed rfl nofun rfl
  | writeSpan span => exact (sound (write_ok passed).1).write passed rfl nofun rfl
  | fail status =>
    have checks := @fail_ok pointerMax plan status passed
    exact (sound checks.1).check checks nofun rfl
  | «seal» => exact (sound (seal_ok passed).1).seal passed
  | input data count width =>
    have checks := input_ok passed
    exact (sound checks.1).check checks nofun rfl
  | inputSpan span =>
    have checks := inputSpan_ok passed
    exact (sound checks.1).check checks nofun rfl
  | inputSpans spans =>
    have checks := inputSpans_ok passed
    exact (sound checks.1).check checks nofun rfl

theorem run_sound {present : Bool} (calls : List Call)
    (passed : ((planBegin present capacity work).run sizeMax pointerMax calls).status = .ok) :
    Sound pointerMax ((planBegin present capacity work).run sizeMax pointerMax calls) capacity work calls := by
  induction calls using List.reverseRecOn with
  | nil => exact ⟨by simp [Plan.run, planBegin], by simp [Plan.run, planBegin], nofun, by simp, rfl,
      ⟨rfl, Nat.zero_le _⟩, rfl⟩
  | append_singleton calls call ih =>
    rw [Plan.run, List.foldl_append] at passed ⊢
    exact Sound.step ih passed

end TinyCrypto.Storage
