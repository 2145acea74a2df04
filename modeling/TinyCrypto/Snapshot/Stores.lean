import TinyCrypto.Snapshot.Core

/-! # The certificate store and the canceled card list store

`x509_store.c` and `twic_ccl.c` wrap the shared lifecycle: they check their
payloads, add the publication-date order of the canceled card list and point
the store at the published slot. Callback and context pointers are opaque
numbers here; NULL is `none`, or zero for a context.
-/

namespace TinyCrypto.Snapshot

open Change Library

section

variable {ι P : Type} [DecidableEq ι] [Inhabited P]

/-- `prepare` followed by the wrapper's copy of the payload into the slot. -/
def preparePayload (s : Store ι P) (slot : Option ι) (payload : P) : Result × Store ι P :=
  match prepare s slot, slot with
  | (.ok, s'), some i => (.ok, s'.set i { s'.slots i with payload := payload })
  | outcome, _ => outcome

omit [Inhabited P] in
theorem preparePayload_spec (s : Store ι P) (slot : Option ι) (payload : P) :
    (preparePayload s slot payload).1 ≠ .ok ∧ (preparePayload s slot payload).2 = s ∨
      ∃ i, slot = some i ∧ (s.slots i).state = .free ∧ (s.slots i).readers = 0 ∧
        preparePayload s slot payload = (.ok, s.set i ⟨payload, (s.slots i).readers, .prepared⟩) := by
  cases slot with
  | none => exact .inl ⟨by simp [preparePayload, prepare], rfl⟩
  | some i =>
    by_cases busy : (s.slots i).state ≠ .free ∨ (s.slots i).readers ≠ 0
    · exact .inl ⟨by simp [preparePayload, prepare, busy], by simp [preparePayload, prepare, busy]⟩
    · have idle : (s.slots i).state = .free ∧ (s.slots i).readers = 0 := by
        simpa using busy
      refine .inr ⟨i, rfl, idle.1, idle.2, ?_⟩
      simp only [preparePayload, prepare, if_neg busy, Store.set, if_true]
      congr 2
      funext j
      split <;> rfl

theorem discard_spec (s : Store ι P) (slot : Option ι) :
    (discard s slot).1 ≠ .ok ∧ (discard s slot).2 = s ∨
      ∃ i, slot = some i ∧ (s.slots i).state = .prepared ∧ (s.slots i).readers = 0 ∧
        discard s slot = (.ok, s.set i default) := by
  cases slot with
  | none => exact .inl ⟨by simp [discard], rfl⟩
  | some i =>
    by_cases bad : (s.slots i).state ≠ .prepared ∨ (s.slots i).readers ≠ 0
    · exact .inl ⟨by simp [discard, bad], by simp [discard, bad]⟩
    · have good : (s.slots i).state = .prepared ∧ (s.slots i).readers = 0 := by simpa using bad
      exact .inr ⟨i, rfl, good.1, good.2, by simp only [discard, if_neg bad, recycle]⟩

theorem release_spec (s : Store ι P) (slot : Option ι) :
    (release s slot).1 ≠ .ok ∧ (release s slot).2 = s ∨
      ∃ i, slot = some i ∧ (s.slots i).readers ≠ 0 ∧
        ((s.slots i).state = .current ∨ (s.slots i).state = .retired) ∧
        release s slot = (.ok, s.set i (letGo (s.slots i))) := by
  cases slot with
  | none => exact .inl ⟨by simp [release], rfl⟩
  | some i =>
    by_cases loose : held (s.slots i).state (s.slots i).readers = false
    · exact .inl ⟨by simp [release, loose], by simp [release, loose]⟩
    · have reading : (s.slots i).readers ≠ 0 ∧
          ((s.slots i).state = .current ∨ (s.slots i).state = .retired) := by
        rw [Bool.not_eq_false] at loose
        simpa [held] using loose
      refine .inr ⟨i, rfl, reading.1, reading.2, ?_⟩
      simp only [release, if_neg loose, Store.set_slots, if_true, letGo]
      by_cases last : (s.slots i).readers - 1 = 0 ∧ (s.slots i).state = .retired
      · simp only [if_pos last, recycle, Store.set]
        congr 2
        funext j
        split <;> rfl
      · simp only [if_neg last]

omit [Inhabited P] in
theorem acquire_spec (sizeMax : Nat) (s : Store ι P) (hasStore : Bool) (out : ResultPointer) :
    (acquire sizeMax s hasStore out).1 ≠ .ok ∧ (acquire sizeMax s hasStore out).2 = s ∨
      ∃ i, s.current = some i ∧ (s.slots i).state = .current ∧ acquire sizeMax s hasStore out =
          (.ok, s.set i { s.slots i with readers := (s.slots i).readers + 1 }) := by
  unfold acquire
  split
  · exact .inl ⟨by simp, rfl⟩
  · split
    · exact .inl ⟨by simp, rfl⟩
    · rename_i i current
      split
      · exact .inl ⟨by simp, rfl⟩
      · rename_i good
        split
        · exact .inl ⟨by simp, rfl⟩
        · exact .inr ⟨i, current, by simpa using fun h => good (.inr h), rfl⟩

/-- `publishCheck`, then the wrapper's own rule, then `publishCommit` and the
    store's new current pointer. -/
def publishWith (sizeMax : Nat) (s : Store ι P) (hasStore : Bool) (revision : Nat)
    (slot : Option ι) (rule : Slot P → Result) : Result × Store ι P :=
  match publishCheck s hasStore slot, slot with
  | .ok, some i =>
    match rule (s.slots i) with
    | .ok =>
      match publishCommit sizeMax s i revision with
      | (.ok, s') => (.ok, { s' with current := some i })
      | (failed, s') => (failed, s')
    | failed => (failed, s)
  | failed, _ => (failed, s)

omit [Inhabited P] in
theorem publishCheck_spec {s : Store ι P} {hasStore : Bool} {slot : Option ι}
    (passed : publishCheck s hasStore slot = .ok) :
    ∃ i, slot = some i ∧ (s.slots i).state = .prepared ∧ (s.slots i).readers = 0 ∧
      ∀ j, s.current = some j → j ≠ i := by
  cases hasStore with
  | false => simp [publishCheck] at passed
  | true =>
    cases slot with
    | none => simp [publishCheck] at passed
    | some i =>
      cases current : s.current with
      | none =>
        simp only [publishCheck, current] at passed
        split at passed
        · cases passed
        · rename_i good
          push Not at good
          exact ⟨i, rfl, good.1, good.2, by simp⟩
      | some j =>
        simp only [publishCheck, current] at passed
        split at passed
        · cases passed
        · rename_i different
          split at passed
          · cases passed
          · rename_i good
            push Not at good
            exact ⟨i, rfl, good.1, good.2.1, by simpa using different⟩

theorem publishCommit_spec (sizeMax : Nat) (s : Store ι P) (i : ι) (expected : Nat)
    (different : ∀ j, s.current = some j → j ≠ i) :
    (publishCommit sizeMax s i expected).1 ≠ .ok ∧ (publishCommit sizeMax s i expected).2 = s ∨
      expected = s.revision ∧ s.revision ≠ sizeMax ∧ ∃ s', publishCommit sizeMax s i expected =
        (.ok, s') ∧ { s' with current := some i } = apply s (.publish i expected) := by
  unfold publishCommit
  split
  · exact .inl ⟨by simp, rfl⟩
  · rename_i stale
    split
    · exact .inl ⟨by simp, rfl⟩
    · rename_i full
      refine .inr ⟨not_not.mp stale, full, ?_⟩
      cases current : s.current with
      | none => exact ⟨_, rfl, by simp [apply, current, Store.set]⟩
      | some j =>
        -- Either way the replaced slot becomes what `supersede` says.
        have apart := different j current
        refine ⟨(({ s.set i { s.slots i with state := .current } with
          revision := s.revision + 1 } : Store ι P)).set j (supersede (s.slots j)), ?_, ?_⟩
        · by_cases readers : (s.slots j).readers = 0 <;>
            simp [Store.set, recycle, apart, readers, supersede]
        · simp only [Store.set, apply, current, Option.some.injEq, Store.mk.injEq, true_and]
          funext k
          by_cases atNext : k = i
          · simp [atNext, apart.symm]
          · by_cases atPrevious : k = j
            · simp [atPrevious, apart]
            · simp [atNext, atPrevious, Ne.symm atPrevious]

theorem publishWith_spec (sizeMax : Nat) (s : Store ι P) (hasStore : Bool) (revision : Nat)
    (slot : Option ι) (rule : Slot P → Result) :
    (publishWith sizeMax s hasStore revision slot rule).1 ≠ .ok ∧
        (publishWith sizeMax s hasStore revision slot rule).2 = s ∨
      ∃ i, slot = some i ∧ rule (s.slots i) = .ok ∧ Enabled sizeMax s (.publish i revision) ∧
        publishWith sizeMax s hasStore revision slot rule = (.ok, apply s (.publish i revision)) := by
  cases checked : publishCheck s hasStore slot with
  | ok =>
    obtain ⟨i, rfl, state, readers, different⟩ := publishCheck_spec checked
    cases ruled : rule (s.slots i) with
    | ok =>
      rcases publishCommit_spec sizeMax s i revision different with
        ⟨failed, same⟩ | ⟨expected, full, s', done, next⟩
      · refine .inl ?_
        simpa only [publishWith, checked, ruled] using ⟨failed, same⟩
      · refine .inr ⟨i, rfl, ruled, ⟨state, readers, expected, full⟩, ?_⟩
        simp only [publishWith, checked, ruled, done, next]
    | _ => exact .inl (by simp [publishWith, checked, ruled])
  | _ => exact .inl (by simp [publishWith, checked])

end

/-- `TC_X509_store_source`. -/
structure StoreSource where
  context : Nat
  candidateCount : Nat
  anchorCount : Nat
  candidate : Option Nat
  anchor : Option Nat

instance : Inhabited StoreSource := ⟨⟨0, 0, 0, none, none⟩⟩

/-- The source argument of `TC_X509_store_prepare`: NULL, or a descriptor that
    may lie inside the slot. -/
structure SourceArgument where
  source : StoreSource
  overlapsSlot : Bool

/-- `TC_TWIC_CCL_source`, the one field of an index. -/
structure CclIndex where
  context : Nat
  count : Nat
  read : Option Nat

/-- `TC_TWIC_CCL_metadata`. -/
structure CclMetadata where
  publishedAt : Nat
  receivedAt : Nat

structure CclPayload where
  index : CclIndex
  metadata : CclMetadata

instance : Inhabited CclPayload := ⟨⟨⟨0, 0, none⟩, ⟨0, 0⟩⟩⟩

/-- The index and metadata arguments of `TC_TWIC_CCL_store_prepare`. -/
structure CclArguments where
  index : Option CclIndex
  metadata : Option CclMetadata
  overlapsSlot : Bool

section

variable {ι : Type} [DecidableEq ι]

/-- `TC_X509_store_prepare`. -/
def x509StorePrepare (s : Store ι StoreSource) (slot : Option ι) (input : Option SourceArgument) :
    Result × Store ι StoreSource :=
  match slot, input with
  | some i, some argument =>
    if argument.overlapsSlot ∨
        argument.source.candidateCount ≠ 0 ∧ argument.source.candidate = none ∨
        argument.source.anchorCount ≠ 0 ∧ argument.source.anchor = none then (.argument, s)
    else preparePayload s (some i) argument.source
  | _, _ => (.argument, s)

/-- `TC_X509_store_publish`. -/
def x509StorePublish (sizeMax : Nat) (s : Store ι StoreSource) (hasStore : Bool) (revision : Nat)
    (slot : Option ι) : Result × Store ι StoreSource :=
  publishWith sizeMax s hasStore revision slot fun _ => .ok

/-- One call on the certificate store. An acquire writes the store's current
    slot to `out`. -/
def x509Store (sizeMax : Nat) (s : Store ι StoreSource) :
    Call ι (Option SourceArgument) → Answer ι × Store ι StoreSource
  | .prepare slot input =>
    let outcome := x509StorePrepare s slot input
    ((outcome.1, none), outcome.2)
  | .discard slot =>
    let outcome := discard s slot
    ((outcome.1, none), outcome.2)
  | .publish hasStore revision slot =>
    let outcome := x509StorePublish sizeMax s hasStore revision slot
    ((outcome.1, none), outcome.2)
  | .acquire hasStore out =>
    let outcome := acquire sizeMax s hasStore out
    ((outcome.1, if outcome.1 = .ok then s.current else none), outcome.2)
  | .release slot =>
    let outcome := release s slot
    ((outcome.1, none), outcome.2)

/-- `snapshot_result`. -/
def snapshotResult : Result → Result
  | .ok => .ok
  | .limit => .limit
  | .invalid => .invalid
  | _ => .argument

/-- `TC_TWIC_CCL_store_prepare`. -/
def twicCclStorePrepare (s : Store ι CclPayload) (slot : Option ι) (input : CclArguments) :
    Result × Store ι CclPayload :=
  match slot, input.index, input.metadata with
  | some i, some index, some metadata =>
    if index.read = none ∨ index.count = 0 ∨ input.overlapsSlot then (.argument, s)
    else if metadata.publishedAt > metadata.receivedAt then (.invalid, s)
    else
      let outcome := preparePayload s (some i) ⟨index, metadata⟩
      (snapshotResult outcome.1, outcome.2)
  | _, _, _ => (.argument, s)

def cclPublishRule (s : Store ι CclPayload) (next : Slot CclPayload) : Result :=
  match s.current with
  | none => .ok
  | some j =>
    if next.payload.metadata.publishedAt < (s.slots j).payload.metadata.publishedAt then .stale
    else .ok

/-- `TC_TWIC_CCL_store_publish`. STALE is the rule's own status; the shared
    lifecycle's statuses are translated. -/
def twicCclStorePublish (sizeMax : Nat) (s : Store ι CclPayload) (hasStore : Bool) (revision : Nat)
    (slot : Option ι) : Result × Store ι CclPayload :=
  let outcome := publishWith sizeMax s hasStore revision slot (cclPublishRule s)
  (if outcome.1 = .stale then .stale else snapshotResult outcome.1, outcome.2)

def twicCclStore (sizeMax : Nat) (s : Store ι CclPayload) :
    Call ι CclArguments → Answer ι × Store ι CclPayload
  | .prepare slot input =>
    let outcome := twicCclStorePrepare s slot input
    ((outcome.1, none), outcome.2)
  | .discard slot =>
    let outcome := discard s slot
    ((snapshotResult outcome.1, none), outcome.2)
  | .publish hasStore revision slot =>
    let outcome := twicCclStorePublish sizeMax s hasStore revision slot
    ((outcome.1, none), outcome.2)
  | .acquire hasStore out =>
    let outcome := acquire sizeMax s hasStore out
    ((if outcome.1 = .end then .unavailable else snapshotResult outcome.1,
      if outcome.1 = .ok then s.current else none), outcome.2)
  | .release slot =>
    let outcome := release s slot
    ((snapshotResult outcome.1, none), outcome.2)

def x509Payload (input : Option SourceArgument) : Option StoreSource := input.map (·.source)

def cclPayload (input : CclArguments) : Option CclPayload := match input.index, input.metadata with
  | some index, some metadata => some ⟨index, metadata⟩
  | _, _ => none

@[simp] theorem snapshotResult_eq_ok {result : Result} :
    snapshotResult result = .ok ↔ result = .ok := by
  cases result <;> simp [snapshotResult]

theorem x509StorePrepare_spec (s : Store ι StoreSource) (slot : Option ι)
    (input : Option SourceArgument) :
    (x509StorePrepare s slot input).1 ≠ .ok ∧ (x509StorePrepare s slot input).2 = s ∨
      ∃ i payload, slot = some i ∧ x509Payload input = some payload ∧
        (s.slots i).state = .free ∧ (s.slots i).readers = 0 ∧ x509StorePrepare s slot input =
          (.ok, s.set i ⟨payload, (s.slots i).readers, .prepared⟩) := by
  cases slot with
  | none => exact .inl ⟨by simp [x509StorePrepare], rfl⟩
  | some i =>
    cases input with
    | none => exact .inl ⟨by simp [x509StorePrepare], rfl⟩
    | some argument =>
      simp only [x509StorePrepare]
      split
      · exact .inl ⟨by simp, rfl⟩
      · rcases preparePayload_spec s (some i) argument.source with
          failed | ⟨j, same, free, idle, done⟩
        · exact .inl failed
        · cases same
          exact .inr ⟨i, argument.source, rfl, rfl, free, idle, done⟩

theorem twicCclStorePrepare_spec (s : Store ι CclPayload) (slot : Option ι) (input : CclArguments) :
    (twicCclStorePrepare s slot input).1 ≠ .ok ∧ (twicCclStorePrepare s slot input).2 = s ∨
      ∃ i payload, slot = some i ∧ cclPayload input = some payload ∧
        (s.slots i).state = .free ∧ (s.slots i).readers = 0 ∧ twicCclStorePrepare s slot input =
          (.ok, s.set i ⟨payload, (s.slots i).readers, .prepared⟩) := by
  obtain ⟨index, metadata, overlaps⟩ := input
  cases slot with
  | none => exact .inl ⟨by simp [twicCclStorePrepare], rfl⟩
  | some i =>
    cases index with
    | none => exact .inl ⟨by simp [twicCclStorePrepare], rfl⟩
    | some index =>
      cases metadata with
      | none => exact .inl ⟨by simp [twicCclStorePrepare], rfl⟩
      | some metadata =>
        simp only [twicCclStorePrepare]
        split
        · exact .inl ⟨by simp, rfl⟩
        · split
          · exact .inl ⟨by simp, rfl⟩
          · rcases preparePayload_spec s (some i) ⟨index, metadata⟩ with
              failed | ⟨j, same, free, idle, done⟩
            · exact .inl ⟨by simpa using failed.1, failed.2⟩
            · cases same
              refine .inr ⟨i, ⟨index, metadata⟩, rfl, rfl, free, idle, ?_⟩
              simp only [done, snapshotResult]

omit [DecidableEq ι] in
private theorem change_failed {A P : Type} (payloadOf : A → Option P) (c : Call ι A)
    {answer : Answer ι} (failed : answer.1 ≠ .ok) : Call.change payloadOf (c, answer) = none := by
  obtain ⟨result, out⟩ := answer
  cases c with
  | prepare slot input => cases slot <;> cases result <;> simp_all [Call.change]
  | discard slot => cases slot <;> cases result <;> simp_all [Call.change]
  | publish hasStore r slot => cases slot <;> cases result <;> simp_all [Call.change]
  | acquire hasStore pointer => cases out <;> cases result <;> simp_all [Call.change]
  | release slot => cases slot <;> cases result <;> simp_all [Call.change]

/-- To refine the five changes it is enough that each call either fails and
    changes nothing, or makes the change it reports. -/
theorem refines_of_calls {A P : Type} [Inhabited P] {sizeMax : Nat}
    {step : Store ι P → Call ι A → Answer ι × Store ι P} {payloadOf : A → Option P}
    (calls : ∀ s c, (step s c).1.1 ≠ .ok ∧ (step s c).2 = s ∨
      ∃ made, Call.change payloadOf (c, (step s c).1) = some made ∧ (step s c).1.1 = .ok ∧
        Enabled sizeMax s made ∧ (step s c).2 = apply s made) : Refines sizeMax step payloadOf := by
  intro s c
  rcases calls s c with ⟨failed, same⟩ | ⟨made, change, done⟩
  · rw [change_failed payloadOf c failed]
    exact ⟨failed, same⟩
  · rw [change]
    exact done

theorem x509Store_refines (sizeMax : Nat) :
    Refines sizeMax (x509Store (ι := ι) sizeMax) x509Payload := by
  refine refines_of_calls fun s c => ?_
  cases c with
  | prepare slot input =>
    rcases x509StorePrepare_spec s slot input with failed | ⟨i, payload, rfl, given, free, idle, done⟩
    · exact .inl failed
    · refine .inr ⟨.prepare i payload, ?_, ?_, ⟨free, idle⟩, ?_⟩ <;>
        simp [x509Store, done, Call.change, given, apply]
  | discard slot =>
    rcases discard_spec s slot with failed | ⟨i, rfl, prepared, idle, done⟩
    · exact .inl failed
    · refine .inr ⟨.discard i, ?_, ?_, ⟨prepared, idle⟩, ?_⟩ <;>
        simp [x509Store, done, Call.change, apply]
  | publish hasStore revision slot =>
    rcases publishWith_spec sizeMax s hasStore revision slot (fun _ => .ok) with
      failed | ⟨i, rfl, -, enabled, done⟩
    · exact .inl failed
    · refine .inr ⟨.publish i revision, ?_, ?_, enabled, ?_⟩ <;>
        simp [x509Store, x509StorePublish, done, Call.change]
  | acquire hasStore out =>
    rcases acquire_spec sizeMax s hasStore out with failed | ⟨i, current, state, done⟩
    · exact .inl failed
    · refine .inr ⟨.acquire i, ?_, ?_, ⟨current, state⟩, ?_⟩ <;>
        simp [x509Store, done, Call.change, current, apply]
  | release slot =>
    rcases release_spec s slot with failed | ⟨i, rfl, reading, state, done⟩
    · exact .inl failed
    · refine .inr ⟨.release i, ?_, ?_, ⟨reading, state⟩, ?_⟩ <;>
        simp [x509Store, done, Call.change, apply]

theorem twicCclStorePublish_spec (sizeMax : Nat) (s : Store ι CclPayload) (hasStore : Bool)
    (revision : Nat) (slot : Option ι) :
    (twicCclStorePublish sizeMax s hasStore revision slot).1 ≠ .ok ∧
        (twicCclStorePublish sizeMax s hasStore revision slot).2 = s ∨
      ∃ i, slot = some i ∧ cclPublishRule s (s.slots i) = .ok ∧
        Enabled sizeMax s (.publish i revision) ∧
        twicCclStorePublish sizeMax s hasStore revision slot =
          (.ok, apply s (.publish i revision)) := by
  rcases publishWith_spec sizeMax s hasStore revision slot (cclPublishRule s) with
    failed | ⟨i, rfl, ruled, enabled, done⟩
  · refine .inl ⟨?_, failed.2⟩
    simp only [twicCclStorePublish]
    split <;> simp [failed.1]
  · refine .inr ⟨i, rfl, ruled, enabled, ?_⟩
    simp [twicCclStorePublish, done]

theorem twicCclStore_refines (sizeMax : Nat) :
    Refines sizeMax (twicCclStore (ι := ι) sizeMax) cclPayload := by
  refine refines_of_calls fun s c => ?_
  cases c with
  | prepare slot input =>
    rcases twicCclStorePrepare_spec s slot input with
      failed | ⟨i, payload, rfl, given, free, idle, done⟩
    · exact .inl failed
    · refine .inr ⟨.prepare i payload, ?_, ?_, ⟨free, idle⟩, ?_⟩ <;>
        simp [twicCclStore, done, Call.change, given, apply]
  | discard slot =>
    rcases discard_spec s slot with failed | ⟨i, rfl, prepared, idle, done⟩
    · exact .inl ⟨by simpa [twicCclStore] using failed.1, failed.2⟩
    · refine .inr ⟨.discard i, ?_, ?_, ⟨prepared, idle⟩, ?_⟩ <;>
        simp [twicCclStore, done, Call.change, snapshotResult, apply]
  | publish hasStore revision slot =>
    rcases twicCclStorePublish_spec sizeMax s hasStore revision slot with
      failed | ⟨i, rfl, -, enabled, done⟩
    · exact .inl failed
    · refine .inr ⟨.publish i revision, ?_, ?_, enabled, ?_⟩ <;>
        simp [twicCclStore, done, Call.change]
  | acquire hasStore out =>
    rcases acquire_spec sizeMax s hasStore out with failed | ⟨i, current, state, done⟩
    · refine .inl ⟨?_, failed.2⟩
      simp only [twicCclStore]
      split <;> simp [failed.1]
    · refine .inr ⟨.acquire i, ?_, ?_, ⟨current, state⟩, ?_⟩ <;>
        simp [twicCclStore, done, Call.change, current, snapshotResult, apply]
  | release slot =>
    rcases release_spec s slot with failed | ⟨i, rfl, reading, state, done⟩
    · exact .inl ⟨by simpa [twicCclStore] using failed.1, failed.2⟩
    · refine .inr ⟨.release i, ?_, ?_, ⟨reading, state⟩, ?_⟩ <;>
        simp [twicCclStore, done, Call.change, snapshotResult, apply]

def publishedDates : List (Change ι CclPayload) → List Nat
  | [] => []
  | .publish i _ :: rest =>
    ((preparedPayload i rest).map (·.metadata.publishedAt)).toList ++ publishedDates rest
  | .prepare _ _ :: rest | .discard _ :: rest | .acquire _ :: rest | .release _ :: rest =>
    publishedDates rest

private def DatesOrdered (dates : List Nat) (s : Store ι CclPayload) : Prop :=
  dates.Pairwise (· ≥ ·) ∧
    dates.head? = s.current.map fun i => (s.slots i).payload.metadata.publishedAt

omit [DecidableEq ι] in
private theorem DatesOrdered.same_current {dates : List Nat} {s s' : Store ι CclPayload}
    (ordered : DatesOrdered dates s) (current : s'.current = s.current)
    (payload : ∀ i, s.current = some i → (s'.slots i).payload = (s.slots i).payload) :
    DatesOrdered dates s' := by
  refine ⟨ordered.1, ordered.2.trans ?_⟩
  rw [current]
  cases held : s.current with
  | none => rfl
  | some i => simp [payload i held]

omit [DecidableEq ι] in
private theorem DatesOrdered.publish {dates : List Nat} {s : Store ι CclPayload} {next : Slot CclPayload}
    (ordered : DatesOrdered dates s) (ruled : cclPublishRule s next = .ok) :
    (next.payload.metadata.publishedAt :: dates).Pairwise (· ≥ ·) := by
  refine .cons (fun date member => ?_) ordered.1
  cases dates with
  | nil => simp at member
  | cons newest older =>
    obtain ⟨i, current, rfl⟩ := Option.map_eq_some_iff.mp ordered.2.symm
    -- The rule compares with the current list, and that is the newest so far.
    have notOlder : ¬next.payload.metadata.publishedAt <
        (s.slots i).payload.metadata.publishedAt := by
      intro older
      simp [cclPublishRule, current, older] at ruled
    rcases List.mem_cons.mp member with rfl | member
    · exact Nat.le_of_not_lt notOlder
    · exact Nat.le_trans (List.rel_of_pairwise_cons ordered.1 member) (Nat.le_of_not_lt notOlder)

omit [DecidableEq ι] in
private theorem publish_of_change {A P : Type} {payloadOf : A → Option P} {c : Call ι A}
    {answer : Answer ι} {j : ι} {expected : Nat}
    (change : Call.change payloadOf (c, answer) = some (.publish j expected)) :
    ∃ hasStore, c = .publish hasStore expected (some j) := by
  obtain ⟨result, out⟩ := answer
  cases c with
  | prepare slot input => cases slot <;> cases result <;> simp [Call.change] at change
  | discard slot => cases slot <;> cases result <;> simp [Call.change] at change
  | publish hasStore r slot =>
    cases slot <;> cases result <;> simp [Call.change] at change
    exact ⟨hasStore, by rw [change.1, change.2]⟩
  | acquire hasStore pointer => cases out <;> cases result <;> simp [Call.change] at change
  | release slot => cases slot <;> cases result <;> simp [Call.change] at change

private theorem dates_ordered (sizeMax : Nat) {history : List (Call ι CclArguments × Answer ι)}
    {s : Store ι CclPayload} (reached : Reaches (twicCclStore sizeMax) Store.zero history s) :
    DatesOrdered (publishedDates (history.filterMap (Call.change cclPayload))) s := by
  induction reached with
  | start => exact ⟨.nil, rfl⟩
  | @call history s reached c ordered =>
    have agrees := (twicCclStore_refines sizeMax).agrees reached
    have made := twicCclStore_refines sizeMax s c
    cases change : Call.change cclPayload (c, (twicCclStore sizeMax s c).1) with
    | none =>
      simp only [change] at made
      simpa only [List.filterMap_cons_none change, made.2] using ordered
    | some made' =>
      simp only [change] at made
      obtain ⟨done, enabled, next⟩ := made
      rw [List.filterMap_cons_some change, next]
      -- A slot that is FREE or PREPARED is not the current one.
      have apart : ∀ {i j}, s.current = some i → (s.slots j).state ≠ .current → i ≠ j := by
        rintro i j current state rfl
        exact state ((agrees.unique i).mpr current)
      cases made' with
      | prepare j payload =>
        refine ordered.same_current rfl fun i current => ?_
        simp [apply, apart current (by simp [enabled.1] : (s.slots j).state ≠ .current)]
      | discard j =>
        refine ordered.same_current rfl fun i current => ?_
        simp [apply, apart current (by simp [enabled.1] : (s.slots j).state ≠ .current)]
      | acquire j =>
        refine ordered.same_current rfl fun i current => ?_
        by_cases eq : i = j <;> simp [apply, eq]
      | release j =>
        refine ordered.same_current rfl fun i current => ?_
        by_cases eq : i = j
        · subst eq
          simp [apply, letGo, (agrees.unique i).mpr current]
        · simp [apply, eq]
      | publish j expected =>
        have payload := agrees.payload j (by simp [enabled.1])
        have ruled : cclPublishRule s (s.slots j) = .ok := by
          obtain ⟨hasStore, rfl⟩ := publish_of_change change
          rcases twicCclStorePublish_spec sizeMax s hasStore expected (some j) with
            ⟨failed, -⟩ | ⟨i, same, ruled, -⟩
          · exact absurd done failed
          · cases same
            exact ruled
        simp only [publishedDates, payload, Option.map_some, Option.toList_some,
          List.singleton_append]
        exact ⟨ordered.publish ruled, by simp [apply]⟩

/-- Every run of the canceled card list store publishes lists whose dates never
    fall. -/
def PublicationsMonotone (step : Store ι CclPayload → Call ι CclArguments →
    Answer ι × Store ι CclPayload) : Prop :=
  ∀ history s, Reaches step Store.zero history s →
    (publishedDates (history.filterMap (Call.change cclPayload))).Pairwise (· ≥ ·)

/-- Snapshot stores over any interleaving of writers and readers: both stores
    are safe in every reachable state, and the canceled card list store never
    publishes a list dated before one it published earlier. -/
theorem snapshot_stores_safe (ι : Type) [DecidableEq ι] (sizeMax : Nat) :
    Safe (x509Store (ι := ι) sizeMax) x509Payload ∧
      Safe (twicCclStore (ι := ι) sizeMax) cclPayload ∧
      PublicationsMonotone (twicCclStore (ι := ι) sizeMax) :=
  ⟨(x509Store_refines sizeMax).safe, (twicCclStore_refines sizeMax).safe,
    fun _ _ reached => (dates_ordered sizeMax reached).1⟩

/-- A reader keeps the first snapshot across the second publication: slot 0 is
    retired with its reader while slot 1 is current. -/
example :
    let source : Option SourceArgument := some ⟨default, false⟩
    let end_ := (runFrom (x509Store 100) [] (Store.zero : Store (Fin 2) StoreSource)
      [.prepare (some 0) source, .publish true 0 (some 0), .acquire true .apart,
        .prepare (some 1) source, .publish true 1 (some 1)]).2
    (end_.slots 0).state = .retired ∧ (end_.slots 0).readers = 1 ∧ end_.current = some 1 := by
  decide

end

end TinyCrypto.Snapshot
