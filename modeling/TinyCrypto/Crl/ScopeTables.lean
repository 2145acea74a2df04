import TinyCrypto.Crl.ScopeIndex
import TinyCrypto.Crl.Variants
import TinyCrypto.Crl.ProposalOrder

/-! # Scopes with and without the table

A table that the index filled groups the records as pairwise comparison does. So
`tc_x509_crl_scopes` visits the same groups and gives the same evidence with it.
-/

namespace TinyCrypto.Crl

open Library Library.Program Library.Metered
open X509 (Certificate SignerPath PathStatus)

/-- `SIZE_MAX`. -/
def noRecord : Nat := 2 ^ 64 - 1

def scopeTable (slots : List Slot) : List Nat := slots.map fun slot => slot.representative.getD noRecord

/-- A path check that enough work brings to one status, within the work it was given. -/
def ChecksSteadily {N K : Type} (c : Primitives N K) : Prop :=
  ∀ verify, c.check = some verify → ∀ context path selected, ∃ status context' cost, ∀ work,
    cost ≤ work → ∃ left, verify context path selected work = (status, left, context') ∧
      left ≤ work ∧ work ≤ left + cost

section

variable {N K : Type} {c : Primitives N K} {details : List Details} {slots : List Slot}
  {reference : Nat} {proposes : Bool} {query : Query N}

variable {i : Nat}

theorem setState_alongside {state : SignatureState} :
    Alongside Eq (setState i state : ScopeProgram K Unit) (setState i state) := by
  refine alongside_update ?_
  rintro d _ rfl
  rfl

theorem signatureCached_alongside {signer : Bytes} :
    Alongside Eq (signatureCached c signer i) (signatureCached c signer i) := by
  refine alongside_charge.bind fun _ => alongside_data ?_
  rintro d _ rfl
  cases d.states[i]? with
  | none => exact alongside_throw
  | some state =>
    cases state with
    | valid => exact alongside_pure
    | invalid => exact alongside_throw
    | unchecked =>
      refine .bind (together_answer fun _ _ same => same) fun r => ?_
      cases r with
      | ok => exact setState_alongside
      | invalid => exact setState_alongside.bind fun _ => alongside_throw
      | _ => exact alongside_throw

theorem proposalMerge_answered {chosen : Option Proposal} {candidate : Proposal} :
    Answered (proposalMerge c chosen candidate) := by
  cases chosen with
  | none => exact answered_pure
  | some chosen =>
    refine crlOrder_answered.bind fun order => ?_
    refine answered_ite answered_pure (answered_ite answered_pure ?_)
    refine answered_ite answered_pure (answered_ite answered_pure ?_)
    refine answered_ite answered_pure (record_answered.bind fun a => record_answered.bind fun b => ?_)
    refine answered_charge.bind fun _ => answered_lift.bind fun order => ?_
    exact answered_lift.bind fun equal => answered_pure

theorem attemptPath_alongside {signer : Bytes} :
    Alongside Eq (attemptPath c reference signer) (attemptPath c reference signer) := by
  have cached : Alongside Eq (cachedPath signer : ScopeProgram K (Option SignerPath))
      (cachedPath signer) := by
    refine alongside_data ?_
    rintro d _ rfl
    rcases d.saved with _ | ⟨saved, path⟩
    · exact alongside_pure
    · exact alongside_ite (fun _ => alongside_pure) fun _ => alongside_charge.bind fun _ => alongside_pure
  have init : Alongside Eq (signatureCacheInit c) (signatureCacheInit c) := by
    refine alongside_data ?_
    rintro d _ rfl
    refine alongside_guard fun _ => alongside_charge.bind fun _ => ?_
    exact alongside_update fun _ _ same => same ▸ rfl
  have validate : Alongside Eq (signerValidate c reference signer) (signerValidate c reference signer) := by
    refine alongside_guard fun _ => ?_
    refine .bind (together_answer fun _ _ same => same) fun r => ?_
    cases r with
    | ok =>
      refine .bind (together_answer fun _ _ same => same) fun found => ?_
      obtain ⟨failed, outcome⟩ := found
      refine .bind (alongside_update fun _ _ same => same ▸ rfl) fun _ => ?_
      cases outcome with
      | error status => exact alongside_throw
      | ok path => exact alongside_pure
    | _ => exact alongside_throw
  have save (path : SignerPath) : Alongside Eq (savePath c signer path) (savePath c signer path) := by
    refine alongside_ite (fun _ => ?_) fun _ => alongside_pure
    refine alongside_call.bind fun _ => ?_
    exact (alongside_update fun _ _ same => same ▸ rfl).bind fun _ => alongside_pure
  refine cached.bind fun found => ?_
  cases found with
  | some path => exact signatureCached_alongside.bind fun _ => alongside_pure
  | none =>
    refine .bind (alongside_update fun _ _ same => same ▸ rfl) fun _ => init.bind fun _ => ?_
    exact validate.bind fun path => setState_alongside.bind fun _ => save path

theorem verifyPath_reaches (steady : ChecksSteadily c) (path : SignerPath)
    (selected : Option Selected) (context : K) :
    ∃ status context', ∀ d : Storage K, d.context = context →
      Reaches (verifyPath c path selected) d (.ok status) { d with context := context' } := by
  cases check : c.check with
  | none =>
    refine ⟨.valid, context, fun d same => ⟨0, fun work _ => ⟨work, ?_, le_rfl⟩⟩⟩
    unfold verifyPath
    rw [check, ← same]
    rfl
  | some verify =>
    obtain ⟨status, context', cost, runs⟩ := steady verify check context path selected
    refine ⟨status, context', fun d same => ⟨cost, fun work enough => ?_⟩⟩
    obtain ⟨left, ended, low, spent⟩ := runs work enough
    refine ⟨left, ?_, spent⟩
    unfold verifyPath
    rw [check, exec, ExceptT.run_mk, StateT.run]
    dsimp only
    rw [same, ended]
    dsimp only
    rw [if_neg (Nat.not_lt.mpr low)]

theorem verifyPath_alongside (steady : ChecksSteadily c) {path : SignerPath}
    {selected : Option Selected} :
    Alongside Eq (verifyPath c path selected) (verifyPath c path selected) := by
  rintro d _ rfl
  obtain ⟨status, context', reaches⟩ := verifyPath_reaches steady path selected d.context
  exact ⟨_, _, _, reaches d rfl, reaches d rfl, rfl⟩

theorem attemptCheck_alongside (steady : ChecksSteadily c) {path : SignerPath} {evaluated : Evaluated} :
    Alongside Eq (attemptCheck c proposes path evaluated) (attemptCheck c proposes path evaluated) := by
  have note (pending : Proposal) : Alongside Eq (notePending c pending) (notePending c pending) := by
    refine alongside_data ?_
    rintro d _ rfl
    refine proposalMerge_answered.alongside.bind fun merged => ?_
    exact alongside_update fun _ _ same => same ▸ rfl
  refine (verifyPath_alongside steady).bind fun status => ?_
  dsimp only
  split
  · exact (note _).bind fun _ => alongside_throw
  · exact alongside_guard fun _ => alongside_pure

def Detailed (c : Primitives N K) (details : List Details) : Prop := details.length = c.records.length

theorem table_entry {i k : Nat} (chosen : representativeOf slots i = some k) :
    (scopeTable slots)[i]? = some k := by
  unfold representativeOf at chosen
  unfold scopeTable
  rw [List.getElem?_map]
  cases found : slots[i]? with
  | none =>
    rw [found] at chosen
    cases chosen
  | some slot =>
    rw [found, Option.bind_some] at chosen
    rw [Option.map_some, chosen, Option.getD_some]

theorem Usable.inside {i : Nat} (usable : Usable c details i) : i < c.records.length := by
  obtain ⟨record, info, found, -⟩ := usable
  exact (List.getElem?_eq_some_iff.mp found).1

theorem IndexedUpTo.first (indexed : IndexedUpTo c details c.records.length slots)
    (usable : Usable c details i) :
    ∃ k, (scopeTable slots)[i]? = some k ∧ FirstOfScope c details i k := by
  obtain ⟨k, chosen, first⟩ := indexed.chosen i usable.inside usable
  exact ⟨k, table_entry chosen, first⟩

theorem Detailed.usable (detailed : Detailed c details) {record : Record}
    (found : c.records[i]? = some record) (policy : record.policy = .ok) : Usable c details i := by
  have inside := (List.getElem?_eq_some_iff.mp found).1
  exact ⟨record, details.get ⟨i, detailed ▸ inside⟩, found, List.getElem?_eq_getElem _, policy⟩

theorem table_same (decided : ScopesDecided c details)
    (indexed : IndexedUpTo c details c.records.length slots) (usable : Usable c details reference)
    (usable' : Usable c details i) : (c.scopeEqual reference i).result =
      .ok (decide ((scopeTable slots)[i]? = (scopeTable slots)[reference]?)) := by
  obtain ⟨b, answer⟩ := decided.decided reference i usable usable'
  obtain ⟨k, entry, first⟩ := indexed.first usable
  obtain ⟨k', entry', first'⟩ := indexed.first usable'
  have same : k = k' ↔ (c.scopeEqual reference i).result = .ok true :=
    first.same_iff decided usable usable' first'
  rw [answer, Except.ok.injEq] at same
  rw [answer, entry, entry', Except.ok.injEq, Bool.eq_iff_iff, decide_eq_true_eq, Option.some.injEq,
    ← same, eq_comm]

theorem sameScope_alongside (decided : ScopesDecided c details)
    (indexed : IndexedUpTo c details c.records.length slots) (pairwise : c.scopes = none)
    (detailed : Detailed c details) (usable : Usable c details reference) :
    SameScopes Eq c (some (scopeTable slots)) c.hasCache c.cacheStore reference := by
  intro i record found policy
  have same := table_same decided indexed usable (detailed.usable found policy)
  have one (d : Storage K) : Reaches (sameScope c reference i) d
      (.ok (decide ((scopeTable slots)[i]? = (scopeTable slots)[reference]?))) d := by
    unfold sameScope
    rw [pairwise, ← same]
    exact reaches_call
  exact (together_answers one fun _ => reaches_pure).mono (fun _ _ before => before)
    (fun _ _ _ after => after.1) fun _ _ failed => failed

theorem firstOfScope_alongside (decided : ScopesDecided c details)
    (indexed : IndexedUpTo c details c.records.length slots) (pairwise : c.scopes = none)
    (detailed : Detailed c details) (usable : Usable c details reference) :
    Alongside Eq (firstOfScope c reference)
      (firstOfScope (c.vary (some (scopeTable slots)) c.hasCache c.cacheStore) reference) := by
  classical
  have one (d : Storage K) : Reaches (firstOfScope c reference) d
      (.ok (decide ((scopeTable slots)[reference]? = some reference))) d := by
    unfold firstOfScope
    rw [pairwise]
    dsimp only
    refine reaches_bind (reaches_search (p := fun m => Usable c details m ∧ SameScope c reference m) 0
      reference fun m _ less => ?_) ?_
    · obtain ⟨record, found⟩ : ∃ record, c.records[m]? = some record :=
        ⟨_, List.getElem?_eq_getElem (by have := usable.inside; omega)⟩
      have recorded : Reaches (Crl.record c m) d (.ok record) d := by
        unfold Crl.record
        rw [found]
        exact reaches_pure
      refine reaches_bind recorded ?_
      by_cases skipped : record.policy ≠ .ok
      · have unusable : ¬Usable c details m := by
          rintro ⟨_, _, again, _, policy⟩
          rw [found] at again
          cases again
          exact skipped policy
        rw [if_pos skipped, if_neg fun both => unusable both.1]
        exact reaches_pure
      · have usable' : Usable c details m := detailed.usable found (not_not.mp skipped)
        obtain ⟨b, answer⟩ := decided.decided reference m usable usable'
        have compared : Reaches (call .limit (c.scopeEqual reference m) : ScopeProgram K Bool) d
            (.ok b) d := answer ▸ reaches_call
        rw [if_neg skipped]
        refine reaches_bind compared ?_
        cases b with
        | true =>
          have both : Usable c details m ∧ SameScope c reference m := ⟨usable', answer⟩
          rw [if_pos both]
          exact reaches_pure
        | false =>
          have other : ¬(Usable c details m ∧ SameScope c reference m) := fun both =>
            nomatch answer.symm.trans both.2
          rw [if_neg other]
          exact reaches_pure
    · obtain ⟨k, entry, first⟩ := indexed.first usable
      by_cases earlier : ∃ m, 0 ≤ m ∧ m < 0 + reference ∧ Usable c details m ∧ SameScope c reference m
      · obtain ⟨m, low, less, known, same⟩ := earlier
        have other : k ≠ reference := by
          rintro rfl
          exact first.first m (by omega) known (decided.symm k m usable known same)
        rw [if_pos ⟨m, low, less, known, same⟩, entry, decide_eq_false fun self => other (Option.some.inj self)]
        exact reaches_pure
      · have self : k = reference := by
          by_contra other
          have less : k < reference := Nat.lt_of_le_of_ne first.le other
          exact earlier ⟨k, Nat.zero_le k, by omega, first.usable,
            decided.symm k reference first.usable usable first.same⟩
        rw [if_neg earlier, entry, self, decide_eq_true rfl]
        exact reaches_pure
  exact (together_answers one fun _ => reaches_pure).mono (fun _ _ before => before)
    (fun _ _ _ after => after.1) fun _ _ failed => failed

structure Tabled (c : Primitives N K) (details : List Details) (slots : List Slot) : Prop where
  decided : ScopesDecided c details
  indexed : IndexedUpTo c details c.records.length slots
  pairwise : c.scopes = none
  detailed : Detailed c details
  steady : ChecksSteadily c

def tabled (c : Primitives N K) (slots : List Slot) : Primitives N K :=
  c.vary (some (scopeTable slots)) c.hasCache c.cacheStore

theorem scopeAttempt_alongside (table : Tabled c details slots) (usable : Usable c details reference)
    {signer : Certificate} : Alongside Eq (scopeAttempt c proposes reference query signer)
      (scopeAttempt (tabled c slots) proposes reference query signer) := by
  have same := sameScope_alongside table.decided table.indexed table.pairwise table.detailed usable
  refine attemptPath_alongside.bind fun path => alongside_data ?_
  rintro d _ rfl
  refine (scopeEvaluate_alongside (fun i _ => signatureCached_alongside) same query d.attempt
    (proposes || c.check.isSome)).bind fun evaluated => ?_
  refine alongside_guard fun _ => ?_
  refine (attemptCheck_alongside table.steady).bind fun _ => ?_
  exact (attemptPublish_alongside (R := Eq) (fun _ _ _ same => by rw [same])
    fun _ _ _ same => by rw [same]).bind fun _ => alongside_pure

theorem searchAttempt_alongside (table : Tabled c details slots) (usable : Usable c details reference)
    {candidate : Certificate} : Alongside Eq (searchAttempt c proposes reference query candidate)
      (searchAttempt (tabled c slots) proposes reference query candidate) := by
  refine .bind answered_call.trial.alongside fun outcome => ?_
  rcases outcome with e | matched
  · cases e <;> exact alongside_throw
  · cases matched with
    | false => exact alongside_pure
    | true => exact (scopeAttempt_alongside table usable).bind fun path => alongside_pure

theorem signerSearch_alongside (table : Tabled c details slots) (usable : Usable c details reference)
    (candidates : List (Priced (Except Result Certificate))) (failure : PathStatus) :
    Alongside Eq (signerSearch c proposes reference query candidates failure)
      (signerSearch (tabled c slots) proposes reference query candidates failure) := by
  induction candidates generalizing failure with
  | nil => exact alongside_throw
  | cons next rest ih =>
    refine .bind answered_call.trial.alongside fun outcome => ?_
    rcases outcome with e | candidate
    · refine .bind (alongside_update fun _ _ same => same ▸ rfl) fun _ => ?_
      exact alongside_throw
    refine alongside_charge.bind fun _ => (searchAttempt_alongside table usable).trial.bind fun r => ?_
    rcases r with e | _ | path
    · refine .bind (alongside_data ?_) fun failure => ih failure
      rintro d _ rfl
      exact alongside_guard fun _ =>
        alongside_guard fun _ => alongside_pure
    · exact ih failure
    · refine alongside_data ?_
      rintro d _ rfl
      exact alongside_guard fun _ => alongside_pure

theorem groupFailed_alongside {g : Group} {e : Result} :
    Alongside Eq (groupFailed c g e) (groupFailed c g e) := by
  refine alongside_data ?_
  rintro d _ rfl
  refine alongside_guard fun _ => ?_
  cases d.unresolved with
  | none => exact alongside_pure
  | some unresolved => exact proposalMerge_answered.alongside.bind fun chosen => alongside_pure

theorem groupFound_alongside {g : Group} : Alongside Eq (groupFound c g) (groupFound c g) := by
  refine alongside_data ?_
  rintro d _ rfl
  rcases d.unresolved with _ | unresolved
  · rcases d.proposal with _ | candidate
    · exact alongside_throw
    · exact proposalMerge_answered.alongside.bind fun chosen => alongside_pure
  · refine proposalMerge_answered.alongside.bind fun candidate => ?_
    exact proposalMerge_answered.alongside.bind fun chosen => alongside_pure

section

variable (table : Tabled c details slots)

include table

theorem groupStep_alongside (usable : Usable c details reference) {g : Group} :
    Alongside Eq (groupStep c reference query i g) (groupStep (tabled c slots) reference query i g) := by
  refine alongside_charge.bind fun _ => alongside_record fun candidate found => ?_
  refine alongside_ite (fun _ => alongside_pure) fun policy => ?_
  have usable' : Usable c details i := table.detailed.usable found (not_not.mp policy)
  have same := sameScope_alongside table.decided table.indexed table.pairwise table.detailed usable
  refine (same i candidate found (not_not.mp policy)).bind fun inScope =>
    alongside_ite (fun _ => ?_) fun _ => alongside_pure
  refine .bind (alongside_update fun _ _ same => same ▸ rfl) fun _ => ?_
  refine (signerSearch_alongside table usable' c.store .invalid).trial.bind fun outcome => ?_
  rcases outcome with e | path
  · exact groupFailed_alongside.bind fun g => alongside_pure
  · exact groupFound_alongside.bind fun g => alongside_pure

theorem crlGroup_alongside (usable : Usable c details reference) :
    Alongside Eq (crlGroup c reference query) (crlGroup (tabled c slots) reference query) := by
  refine (alongside_forRange (fun i g => groupStep_alongside table usable) 0 c.records.length
    ⟨none, .end, false⟩).bind fun turn => ?_
  cases turn with
  | next g =>
    refine alongside_guard fun _ => ?_
    cases g.chosen with
    | none => exact alongside_throw
    | some chosen => exact alongside_pure
  | leave _ => exact alongside_throw

theorem scopeRecord_alongside {allScopes : Bool} {a : Scopes} :
    Alongside Eq (scopeRecord c allScopes query i a)
      (scopeRecord (tabled c slots) allScopes query i a) := by
  refine alongside_record fun candidate found => alongside_guard fun policy => ?_
  have usable : Usable c details i := table.detailed.usable found (not_not.mp policy)
  refine scopeReasons_answered.alongside.bind fun reasons => alongside_guard
    fun _ => alongside_ite (fun _ => ?_) fun _ => ?_
  · refine .bind ?_ fun added => alongside_pure
    refine (firstOfScope_alongside table.decided table.indexed table.pairwise table.detailed
      usable).bind fun first => alongside_ite (fun _ => ?_) fun _ => alongside_throw
    refine (crlGroup_alongside table usable).bind fun chosen => alongside_guard
      fun _ => ?_
    split
    · exact alongside_pure
    · exact alongside_throw
  · refine .bind ?_ fun found => alongside_pure
    refine .bind (alongside_update fun _ _ same => same ▸ rfl) fun _ => ?_
    refine (signerSearch_alongside table usable c.store .invalid).bind fun path => alongside_data ?_
    rintro d _ rfl
    exact alongside_pure

theorem scopesStep_alongside {allScopes : Bool} {a : Scopes} :
    Alongside Eq (scopesStep c allScopes query i a)
      (scopesStep (tabled c slots) allScopes query i a) := by
  refine alongside_charge.bind fun _ => (scopeRecord_alongside table).trial.bind fun outcome => ?_
  rcases outcome with e | a
  · refine alongside_data ?_
    rintro d _ rfl
    exact alongside_guard fun _ => alongside_pure
  · refine alongside_lift.bind fun status => ?_
    exact alongside_pure

end

variable {selection : Selection} {fields : Fields N}

theorem scopesPoint_alongside (table : Tabled c details slots) {point : DistributionPoint N}
    {a : Scopes} : Alongside Eq (scopesPoint c selection fields point a)
      (scopesPoint (tabled c slots) selection fields point a) :=
  alongside_forRange (fun _ _ => scopesStep_alongside table) _ _ _

theorem scopesPoints_alongside (table : Tabled c details slots)
    (points : List (Priced (Except Result (DistributionPoint N)))) (a : Scopes) :
    Alongside Eq (scopesPoints c selection fields points a)
      (scopesPoints (tabled c slots) selection fields points a) := by
  induction points generalizing a with
  | nil => exact alongside_pure
  | cons next rest ih =>
    refine .bind answered_call.trial.alongside fun outcome => ?_
    rcases outcome with e | point
    · cases e <;> first | exact alongside_pure | exact alongside_throw
    · refine (scopesPoint_alongside table).bind fun turn => ?_
      cases turn with
      | next a => exact ih a
      | leave a => exact alongside_pure

theorem crlScopes_alongside (table : Tabled c details slots) :
    Alongside Eq (crlScopes c selection fields) (crlScopes (tabled c slots) selection fields) := by
  have publishes (a : Scopes) : Alongside Eq (publish selection a : ScopeProgram K Unit)
      (publish selection a) := alongside_update fun _ _ same => same ▸ rfl
  refine alongside_guard fun _ => alongside_data ?_
  rintro d _ rfl
  refine alongside_lift.bind fun status => alongside_guard fun _ => ?_
  refine .bind ?_ fun turn => ?_
  · refine (scopesPoints_alongside table fields.points _).bind fun turn => ?_
    cases turn with
    | leave a => exact alongside_pure
    | next a =>
      refine (scopesPoint_alongside table).bind fun turn => ?_
      cases turn with
      | leave a => exact alongside_pure
      | next a =>
        cases fields.alternative with
        | none => exact alongside_pure
        | some point => exact scopesPoint_alongside table
  · cases turn with
    | leave a => exact publishes a
    | next a =>
      exact alongside_guard fun _ =>
        alongside_guard fun _ => publishes a

end

/-- A finished table tells of every two records that are not skipped whether their scopes are equal,
    by the first record of each scope. With it the same groups are visited, and
    `tc_x509_crl_scopes` ends alike. -/
theorem scope_table_groups {N K : Type} (c : Primitives N K) (details : List Details) (o : Outside)
    (sizeT sizeMax : Nat) (t : Unicode.Tables) (limits : Tlv.Limits)
    (workspace : X509.NameWorkspace) (correct : t.Correct)
    (names : ComparesNames sizeT sizeMax t limits workspace o)
    (determined : NamesDetermined o c details) (detailed : Detailed c details)
    (pairwise : c.scopes = none) (steady : ChecksSteadily c) (s s' : Budgeted (List Slot)) (u : Unit)
    (given : Gives (scopesIndex (comparing o c details) details) s u s') :
    (∀ i j, Usable c details i → Usable c details j →
      (representativeOf s'.data i = representativeOf s'.data j ↔
        SameScope (comparing o c details) i j)) ∧
    (∀ i, Usable c details i → ∃ k, representativeOf s'.data i = some k ∧
      SameScope (comparing o c details) k i ∧
        ∀ m, Usable c details m → SameScope (comparing o c details) m i → k ≤ m) ∧
    (∀ i, Usable c details i → Alongside Eq (firstOfScope (comparing o c details) i)
        (firstOfScope (tabled (comparing o c details) s'.data) i) ∧
      ∀ j, Usable c details j → Alongside Eq (sameScope (comparing o c details) i j)
        (sameScope (tabled (comparing o c details) s'.data) i j)) ∧
    ∀ selection fields, Alongside Eq (crlScopes (comparing o c details) selection fields)
      (crlScopes (tabled (comparing o c details) s'.data) selection fields) := by
  have decided := comparing_decided correct names determined
  have indexed := scopesIndex_gives decided given
  have table : Tabled (comparing o c details) details s'.data :=
    ⟨decided, indexed, pairwise, detailed, steady⟩
  refine ⟨?_, ?_, ?_, fun selection fields => crlScopes_alongside table⟩
  · intro i j usable usable'
    obtain ⟨k, chosen, first⟩ := indexed.chosen i (Usable.inside usable) usable
    obtain ⟨k', chosen', first'⟩ := indexed.chosen j (Usable.inside usable') usable'
    rw [chosen, chosen', Option.some.injEq]
    exact first.same_iff decided usable usable' first'
  · intro i usable
    obtain ⟨k, chosen, first⟩ := indexed.chosen i (Usable.inside usable) usable
    refine ⟨k, chosen, first.same, fun m known same => ?_⟩
    by_contra less
    exact first.first m (Nat.lt_of_not_le less) known same
  · intro i usable
    refine ⟨firstOfScope_alongside decided indexed pairwise detailed usable, ?_⟩
    rintro j ⟨record, info, found, -, policy⟩
    exact sameScope_alongside decided indexed pairwise detailed usable j record found policy

def selfNamed : Bytes :=
  X509.pairName (X509.shortAttribute 0x0c 0x31) (X509.shortAttribute 0x13 0x32)

def selfComparing : Outside where
  nameEqual left right :=
    if left = selfNamed ∧ right = selfNamed then ⟨1, .ok true⟩ else ⟨0, .error .argument⟩
  hashes := bytewise.hashes

def selfDetails : Details := { numberedDetails with issuer := selfNamed }

theorem scope_table_groups_pair : ∃ slots, (representativeOf slots 0 = representativeOf slots 1 ↔
      SameScope (comparing selfComparing numberedPair [selfDetails, selfDetails]) 0 1) ∧
    representativeOf slots 1 = some 0 := by
  have compared : ((X509.nameEqual 8 (2 ^ 64 - 1) Unicode.plainTables X509.shortLimits ⟨4, 2⟩ selfNamed
      selfNamed : Metered Result Unit Bool).exec ⟨1000, ()⟩).1 = .ok true := by decide +kernel
  have names : ComparesNames 8 (2 ^ 64 - 1) Unicode.plainTables X509.shortLimits ⟨4, 2⟩
      selfComparing := by
    intro left right same answer
    unfold selfComparing at answer
    dsimp only at answer
    split at answer
    · rename_i both
      cases answer
      rw [both.1, both.2]
      exact ⟨_, _, Prod.ext compared rfl⟩
    · cases answer
  have issuers {i : Nat} {info : Details} (found : [selfDetails, selfDetails][i]? = some info) :
      info.issuer = selfNamed := by
    match i, found with
    | 0, rfl => rfl
    | 1, rfl => rfl
  have determined : NamesDetermined selfComparing numberedPair [selfDetails, selfDetails] := by
    intro i j info info' _ _ found found'
    refine ⟨true, ?_⟩
    rw [issuers found, issuers found']
    rfl
  have run : ((scopesIndex (comparing selfComparing numberedPair [selfDetails, selfDetails])
      [selfDetails, selfDetails]).exec ⟨100, [⟨none, none, none⟩, ⟨none, none, none⟩]⟩).1 = .ok () := by
    decide +kernel
  have table := scope_table_groups numberedPair [selfDetails, selfDetails] selfComparing 8 (2 ^ 64 - 1)
    Unicode.plainTables X509.shortLimits ⟨4, 2⟩ Unicode.plain_correct names determined rfl rfl nofun _ _
    () (Prod.ext run rfl)
  exact ⟨_, table.1 0 1 ⟨numberedRecord, selfDetails, rfl, rfl, rfl⟩
    ⟨numberedRecord, selfDetails, rfl, rfl, rfl⟩, by decide +kernel⟩

end TinyCrypto.Crl
