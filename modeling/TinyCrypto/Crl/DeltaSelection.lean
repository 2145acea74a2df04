import TinyCrypto.Crl.Deltas
import TinyCrypto.Crl.ProposalOrder

/-! # Delta selection

What `tc_x509_crl_delta_select` answers when it completes, what END says, and why the order of the
records does not matter.
-/

namespace TinyCrypto.Crl

open Library Library.Program Library.Metered
open Library.ByteCounter (value)

variable {N K : Type} {o : Outside} {c : Primitives N K} {signer : Bytes} {base i : Nat}
  {details : List Details} {delta : Nat} {conflict : Bool}

abbrev Fails (e : Result) : Prop := e ≠ .end

theorem throws_record {i : Nat} : Throws Fails (record c i) := by
  unfold record
  split
  · exact .pure _
  · exact .throw (by decide)

theorem throws_call {D A : Type} {p : Priced (Except Result A)} (other : p.result ≠ .error .end) :
    Throws Fails (call .limit p : Metered Result D A) :=
  .bind (throws_charge (by decide)) fun _ _ _ _ =>
    .lift fun e failed same => other (same ▸ failed)

theorem throws_forRange {D A B : Type} {body : Nat → A → Metered Result D (Turn A B)}
    (step : ∀ i a, Throws Fails (body i a)) (first count : Nat) (a : A) :
    Throws Fails (forRange body first count a) := by
  induction count generalizing first a with
  | zero => exact .pure _
  | succ count ih =>
    apply Throws.bind (step first a)
    intro _ turn _ _
    cases turn with
    | next a' => exact ih (first + 1) a'
    | leave b => exact .pure _

theorem andThen_error {E A B : Type} {p : Priced (Except E A)} {f : A → Priced (Except E B)} {e : E}
    (first : p.result ≠ .error e) (rest : ∀ a, (f a).result ≠ .error e) :
    (andThen p f).result ≠ .error e := by
  unfold andThen
  split
  · rename_i e' failed
    intro same
    cases same
    exact first failed
  · rename_i a _
    exact rest a

theorem numberCompare_fails (left right : Bytes) :
    (numberCompare left right).result ≠ .error .end := by
  unfold numberCompare
  split
  · decide
  · refine andThen_error (by decide) fun _ => ?_
    dsimp only
    split
    · exact fun same => nomatch same
    · exact fun same => nomatch same

theorem whenEqual_fails {left right : Bytes} {rest : Priced (Except Result Bool)}
    (fails : rest.result ≠ .error .end) : (whenEqual left right rest).result ≠ .error .end := by
  refine andThen_error (fun same => nomatch same) fun order => ?_
  split
  · decide
  · exact fails

theorem extensionPolicy_fails (r : Record) : extensionPolicy r ≠ .end := by
  unfold extensionPolicy
  dsimp only
  repeat' split
  all_goals decide

theorem scopeEqual_fails (promised : Promised o c details) (left : Record) (leftInfo : Details)
    (right : Record) (rightInfo : Details) :
    (scopeEqual o left leftInfo right rightInfo).result ≠ .error .end := by
  unfold scopeEqual
  split
  · decide
  · refine andThen_error (fun same => nomatch same) fun order => ?_
    split
    · decide
    · exact promised.names _ _

theorem deltaCompatible_fails (promised : Promised o c details) (left : Record)
    (leftInfo : Details) (right : Record) (rightInfo : Details) :
    (deltaCompatible o left leftInfo right rightInfo).result ≠ .error .end := by
  unfold deltaCompatible
  dsimp only
  split
  · exact fun same => extensionPolicy_fails left (Except.error.inj same)
  split
  · exact fun same => extensionPolicy_fails right (Except.error.inj same)
  split
  · decide
  refine andThen_error (numberCompare_fails _ _) fun order => ?_
  split
  · decide
  refine andThen_error (numberCompare_fails _ _) fun order => ?_
  split
  · decide
  refine andThen_error (scopeEqual_fails promised _ _ _ _) fun equal => ?_
  split
  · decide
  split
  · decide
  exact whenEqual_fails (whenEqual_fails (whenEqual_fails (by decide)))

theorem preparedOk_fails (h : Hashes) (prepared : Prepared) :
    (free (preparedOk h prepared)).result ≠ .error .end := by
  unfold preparedOk
  split
  · simp [free]
  · split <;> simp [free]

theorem preparedEqual_fails (prepared : Prepared) (tbs : Bytes) :
    (preparedEqual o prepared tbs).result ≠ .error .end := by
  refine andThen_error (preparedOk_fails _ _) fun _ => ?_
  split
  · decide
  · refine andThen_error (fun same => nomatch same) fun _ => ?_
    split
    · decide
    · exact whenEqual_fails (by decide)

theorem contentEqual_fails (left right : Details) :
    (contentEqual o left right).result ≠ .error .end := by
  unfold contentEqual
  split
  · exact whenEqual_fails (by decide)
  · exact preparedEqual_fails _ _
  · exact preparedEqual_fails _ _
  · refine andThen_error (preparedOk_fails _ _) fun _ => ?_
    split
    · decide
    · exact andThen_error (preparedOk_fails _ _) fun _ => whenEqual_fails (by decide)

theorem compareRecords_fails {A : Type} {j : Nat}
    {compare : Record → Details → Record → Details → Priced (Except Result A)}
    (fails : ∀ r info r' info', (compare r info r' info').result ≠ .error .end) :
    (compareRecords c details compare i j).result ≠ .error .end := by
  unfold compareRecords
  split
  · exact fails _ _ _ _
  · exact fun same => nomatch same

theorem signatureCached_fails (promised : Promised o c details) :
    Throws Fails (signatureCached c signer i) := by
  unfold signatureCached
  refine .bind (throws_charge (by decide)) fun _ _ _ _ => ?_
  refine .bind throws_data fun _ d _ _ => ?_
  split
  · exact .pure _
  · exact .throw (by decide)
  · refine .bind throws_answer fun s r s' answered => ?_
    split
    · exact throws_update
    · exact .bind throws_update fun _ _ _ _ => .throw (by decide)
    · obtain ⟨rfl | rfl, _⟩ := gives_answer answered
      · exact .throw (by decide)
      · exact .throw (promised.signatures i signer)
  · exact .throw (by decide)

theorem timeCompare_fails (left right : X509.Time) : timeCompare left right ≠ .error .end := by
  unfold timeCompare
  split <;> exact fun same => nomatch same

theorem freshAt_fails (time : RevocationTime) (r : Record) : freshAt time r ≠ .error .end := by
  unfold freshAt freshnessAt
  dsimp only
  repeat' split
  all_goals exact fun same => nomatch same

theorem throws_lift {D A : Type} {r : Except Result A} (other : r ≠ .error .end) :
    Throws Fails (lift r : Metered Result D A) :=
  .lift fun _ failed same => other (same ▸ failed)

theorem deltaRank_fails (a : DeltaChoice) : Throws Fails (deltaRank (comparing o c details) i a) := by
  unfold deltaRank
  split
  · exact .pure _
  refine .bind (throws_call (compareRecords_fails fun _ _ _ _ => numberCompare_fails _ _))
    fun _ order _ _ => ?_
  refine .ite (fun _ => .pure _) fun _ => .ite (fun _ => .pure _) fun _ => ?_
  refine .bind (throws_call (compareRecords_fails fun _ _ _ _ => contentEqual_fails _ _))
    fun _ equal _ _ => ?_
  refine .ite (fun _ => .pure _) fun _ => ?_
  refine .bind (throws_charge (by decide)) fun _ _ _ _ => ?_
  refine .bind throws_record fun _ left _ _ => .bind throws_record fun _ right _ _ => ?_
  exact .bind (throws_lift (timeCompare_fails _ _)) fun _ _ _ _ => .pure _

theorem deltaStep_fails (promised : Promised o c details) (a : DeltaChoice) :
    Throws Fails (deltaStep (comparing o c details) signer base i a) := by
  have next : Throws Fails (deltaNext (comparing o c details) base i) := by
    unfold deltaNext
    refine .bind (throws_charge (by decide)) fun _ _ _ _ => ?_
    refine .bind throws_record fun _ delta _ _ => ?_
    exact .ite (fun _ => .pure _) fun _ => throws_call
      (compareRecords_fails fun _ _ _ _ => deltaCompatible_fails promised _ _ _ _)
  have promised' : Promised o (comparing o c details) details :=
    ⟨promised.numbers, promised.bases, promised.digests, promised.names, promised.signatures,
      promised.policies⟩
  unfold deltaStep
  refine .bind next fun _ found _ _ => .ite (fun _ => ?_) fun _ => .pure _
  refine .bind throws_record fun _ delta _ _ => ?_
  refine .bind (throws_lift (freshAt_fails _ _)) fun _ freshness _ _ => ?_
  refine .ite (fun _ => .pure _) fun _ => ?_
  have tried : Throws Fails (trial (signatureCached (comparing o c details) signer i)) :=
    fun _ _ _ failed => nomatch failed
  refine .bind tried fun s outcome s' given => ?_
  split
  · exact .pure _
  · rename_i e _
    exact .throw (signatureCached_fails promised' s e s' (gives_trial.mp given))
  · exact .bind (deltaRank_fails a) fun _ _ _ _ => .pure _

theorem deltaSelect_triple (promised : Promised o c details) :
    Triple (Data (Exact (comparing o c details) signer))
      (deltaSelect (comparing o c details) signer base)
      (fun out => Data fun d => Exact (comparing o c details) signer d ∧
        DeltaSelected (comparing o c details) details signer base out.1 out.2)
      fun e => Data fun d => Exact (comparing o c details) signer d ∧
        (e = .end → ∀ i, ¬Eligible (comparing o c details) signer base i) := by
  unfold deltaSelect
  have reads : Keeps (Exact (comparing o c details) signer)
      (record (comparing o c details) base) (c.records[base]? = some ·) := record_keeps
  apply triple_bind ((reads.throws throws_record).mono (fun _ before => before)
    (fun _ _ after => after) fun e s failed => ⟨failed.1, fun same => absurd same failed.2⟩)
  intro complete
  apply triple_fact fun _ held => held.2
  intro found
  apply triple_ite
  · exact fun _ => triple_throw fun s held => ⟨held.1, fun same =>
      absurd same (promised.policies complete (List.mem_of_getElem? found))⟩
  intro _
  apply triple_ite
  · exact fun _ => triple_throw fun s held => ⟨held.1, fun same => nomatch same⟩
  intro _
  have scans := keeps_range 0 c.records.length
    (P := Exact (comparing o c details) signer) (L := fun (_ : Unit) => False)
    (I := Scanned (comparing o c details) signer base details)
    (fun i a _ inside scanned => deltaStep_scanned (by omega) scanned) (a := ⟨none, false⟩)
    ⟨[], fun j => ⟨fun inside => (nomatch inside), fun held => absurd held.1 (Nat.not_lt_zero j)⟩, rfl⟩
  apply triple_bind ((scans.throws (throws_forRange (fun i a => deltaStep_fails promised a) _ _ _)).mono
    (fun _ held => held.1) (fun _ _ after => after)
    fun e s failed => ⟨failed.1, fun same => absurd same failed.2⟩)
  intro turn
  apply triple_fact fun _ held => held.2
  intro ends
  split
  · rename_i delta conflict
    rw [Nat.zero_add] at ends
    exact triple_pure fun s held => ⟨held.1, Scanned.selected promised ends⟩
  · rename_i other
    refine triple_throw fun s held => ⟨held.1, fun _ i eligible => ?_⟩
    cases turn with
    | leave b => exact ends
    | next a =>
      obtain ⟨current, conflicting⟩ := a
      cases current with
      | some delta => exact other delta conflicting rfl
      | none =>
        obtain ⟨deltas, members, empty⟩ := ends
        have none : deltas = [] := empty
        obtain ⟨_, r, ok⟩ := id eligible
        have member := (members i).mpr
          ⟨by rw [Nat.zero_add]; exact (List.getElem?_eq_some_iff.mp ok.record).1, eligible⟩
        rw [none] at member
        cases member

structure Reordered (σ : Equiv.Perm Nat) (c c' : Primitives N K) (details details' : List Details) :
    Prop where
  records : ∀ i, c'.records[i]? = c.records[σ i]?
  details : ∀ i, details'[i]? = details[σ i]?
  signatures : ∀ i signer, c'.signerCheck i signer = c.signerCheck (σ i) signer
  time : c'.time = c.time

section

variable {σ : Equiv.Perm Nat} {c' : Primitives N K} {details' : List Details}

section

variable (same : Reordered σ c c' details details')

include same

theorem Reordered.compare {A : Type}
    (compare : Record → Details → Record → Details → Priced (Except Result A)) (i j : Nat) :
    compareRecords c' details' compare i j = compareRecords c details compare (σ i) (σ j) := by
  unfold compareRecords
  rw [same.records, same.records, same.details, same.details]

theorem Reordered.eligible {i : Nat} : Eligible (comparing o c' details') signer (σ.symm base) i ↔
      Eligible (comparing o c details) signer base (σ i) := by
  have other : i ≠ σ.symm base ↔ σ i ≠ base := by rw [ne_eq, ne_eq, Equiv.eq_symm_apply]
  have compatible : (comparing o c' details').compatible (σ.symm base) i =
      (comparing o c details).compatible base (σ i) := by
    have moved := same.compare (deltaCompatible o) (σ.symm base) i
    rwa [Equiv.apply_symm_apply] at moved
  unfold Eligible
  rw [other]
  refine and_congr_right fun _ => exists_congr fun delta => ?_
  constructor
  · intro ok
    exact ⟨(same.records i).symm.trans ok.record, ok.policy, ok.isDelta,
      (congrArg Priced.result compatible).symm.trans ok.compatible,
      (congrArg (freshAt · delta) same.time).symm.trans ok.current,
      (congrArg Priced.result (same.signatures i signer)).symm.trans ok.verified⟩
  · intro ok
    exact ⟨(same.records i).trans ok.record, ok.policy, ok.isDelta,
      (congrArg Priced.result compatible).trans ok.compatible,
      (congrArg (freshAt · delta) same.time).trans ok.current,
      (congrArg Priced.result (same.signatures i signer)).trans ok.verified⟩

theorem Reordered.number (i : Nat) : numberOf details' i = numberOf details (σ i) := by
  rw [numberOf, numberOf, same.details]

theorem Reordered.promised (promised : Promised o c details) : Promised o c' details' where
  numbers i r info record found := by
    rw [same.records] at record
    rw [same.details] at found
    exact promised.numbers (σ i) r info record found
  bases i r info record found := by
    rw [same.records] at record
    rw [same.details] at found
    exact promised.bases (σ i) r info record found
  digests := by
    have known (info : Details) (member : info ∈ details') : info ∈ details := by
      obtain ⟨i, found⟩ := List.mem_iff_getElem?.mp member
      exact List.mem_of_getElem? ((same.details i).symm.trans found)
    exact fun left inside right inside' => promised.digests left (known left inside) right
      (known right inside')
  names := promised.names
  signatures i signer := by
    rw [same.signatures]
    exact promised.signatures (σ i) signer
  policies r member := by
    obtain ⟨i, found⟩ := List.mem_iff_getElem?.mp member
    exact promised.policies r (List.mem_of_getElem? ((same.records i).symm.trans found))

theorem DeltaSelected.reordered {delta' : Nat} {conflict' : Bool}
    (one : DeltaSelected (comparing o c details) details signer base delta conflict)
    (two : DeltaSelected (comparing o c' details') details' signer (σ.symm base) delta' conflict') :
    value (numberOf details' delta') = value (numberOf details delta) ∧ conflict' = conflict ∧
      (conflict = false → σ delta' = delta ∨
        ((comparing o c details).contentEqual (σ delta') delta).result = .ok true) := by
  have eligible' := same.eligible.mp two.eligible
  have back : Eligible (comparing o c' details') signer (σ.symm base) (σ.symm delta) := by
    apply same.eligible.mpr
    rw [Equiv.apply_symm_apply]
    exact one.eligible
  have numbers : value (numberOf details' delta') = value (numberOf details delta) := by
    apply le_antisymm
    · rw [same.number]
      exact one.highest (σ delta') eligible'
    · have bound := two.highest (σ.symm delta) back
      rwa [same.number, Equiv.apply_symm_apply] at bound
  have conflicts : conflict' = true ↔ conflict = true := by
    rw [one.conflicts, two.conflicts, numbers]
    constructor
    · rintro ⟨i, j, left, right, first, second, apart⟩
      refine ⟨σ i, σ j, same.eligible.mp left, same.eligible.mp right, ?_, ?_, ?_⟩
      · rw [← same.number, first]
      · rw [← same.number, second]
      · exact (congrArg Priced.result (same.compare _ i j)).symm.trans apart
    · rintro ⟨i, j, left, right, first, second, apart⟩
      refine ⟨σ.symm i, σ.symm j, same.eligible.mpr ?_, same.eligible.mpr ?_, ?_, ?_, ?_⟩
      · rwa [Equiv.apply_symm_apply]
      · rwa [Equiv.apply_symm_apply]
      · rw [same.number, Equiv.apply_symm_apply, first]
      · rw [same.number, Equiv.apply_symm_apply, second]
      · have moved := same.compare (fun _ left _ right => contentEqual o left right) (σ.symm i)
          (σ.symm j)
        rw [Equiv.apply_symm_apply, Equiv.apply_symm_apply] at moved
        exact (congrArg Priced.result moved).trans apart
  refine ⟨numbers, Bool.eq_iff_iff.mpr conflicts, ?_⟩
  intro none
  exact one.content none (σ delta') eligible' (by rw [← same.number, numbers])

end

end

/-- A selected delta has the highest number of the eligible ones, a conflict is two of that number
    with different content, and the order of the records changes neither the number nor the
    conflict nor, without one, the content; END says that no delta is eligible. -/
theorem delta_selection (o : Outside) (c : Primitives N K) (details : List Details)
    (promised : Promised o c details) (signer : Bytes) (base work : Nat) (d : Storage K)
    (cache : Exact (comparing o c details) signer d) :
    (match (deltaSelect (comparing o c details) signer base).exec ⟨work, d⟩ with
    | (.ok (delta, conflict), _) =>
      DeltaSelected (comparing o c details) details signer base delta conflict ∧
        ∀ (σ : Equiv.Perm Nat) (c' : Primitives N K) (details' : List Details),
          Reordered σ c c' details details' → ∀ (s s' : Budgeted (Storage K)) (delta' : Nat)
            (conflict' : Bool), Exact (comparing o c' details') signer s.data →
          Gives (deltaSelect (comparing o c' details') signer (σ.symm base)) s
            (delta', conflict') s' →
          value (numberOf details' delta') = value (numberOf details delta) ∧
            conflict' = conflict ∧ (conflict = false → σ delta' = delta ∨
              ((comparing o c details).contentEqual (σ delta') delta).result = .ok true)
    | (.error e, _) => e = .end → ∀ i, ¬Eligible (comparing o c details) signer base i) ∧
    ∀ i, Eligible (comparing o c details) signer base i →
      ∃ r info r' info', c.records[base]? = some r ∧ details[base]? = some info ∧
        c.records[i]? = some r' ∧ details[i]? = some info' ∧
        value info'.baseNumber ≤ value info.number ∧ value info.number < value info'.number ∧
        (scopeEqual o r info r' info').result = .ok true ∧
        r.has extAuthority = r'.has extAuthority ∧ info.authority = info'.authority := by
  refine ⟨?_, ?_⟩
  · have ended := @deltaSelect_triple _ _ _ _ _ base _ promised ⟨work, d⟩ cache
    rcases outcome : (deltaSelect (comparing o c details) signer base).exec ⟨work, d⟩ with
      ⟨e | ⟨delta, conflict⟩, final⟩ <;> rw [outcome] at ended
    · exact ended.2
    · refine ⟨ended.2, ?_⟩
      intro σ c' details' same s s' delta' conflict' cache' given
      have other := (deltaSelect_triple (same.promised promised)).gives cache' given
      exact ended.2.reordered same other.2
  · intro i eligible
    obtain ⟨r, info, r', info', one, two, three, four, ok⟩ := compatible_of_eligible eligible
    have number := promised.numbers base r info one two ok.numbered.1
    have number' := promised.numbers i r' info' three four ok.numbered.2
    have start := promised.bases i r' info' three four ok.isDelta
    refine ⟨r, info, r', info', one, two, three, four, ?_, (numberKey_lt number number').mp ok.upTo,
      ok.scope, ok.named, ok.authority⟩
    exact not_lt.mp fun less => absurd ok.from_ (not_le.mpr ((numberKey_lt number start).mpr less))

def deltaRecord : Record :=
  { numberedRecord with present := extNumber ||| extDelta, critical := extDelta }

def deltaRecords : Primitives Unit Unit :=
  { numberedPair with records := [numberedRecord, deltaRecord, deltaRecord, deltaRecord] }

def deltaDetail (number content : UInt8) : Details :=
  { numberedDetails with number := [number], baseNumber := [5], tbs := [content] }

def deltaDetails : List Details :=
  [numberedDetails, deltaDetail 6 1, deltaDetail 7 2, deltaDetail 7 3]

theorem natural_byte {b : UInt8} (low : b.toNat < 128) : Natural [b] := low

theorem deltaRecords_promised : Promised bytewise deltaRecords deltaDetails where
  numbers i r info _ found _ := by
    match i, found with
    | 0, found => exact Option.some.inj found ▸ natural_byte (b := 5) (by decide)
    | 1, found => exact Option.some.inj found ▸ natural_byte (b := 6) (by decide)
    | 2, found | 3, found => exact Option.some.inj found ▸ natural_byte (b := 7) (by decide)
  bases i r info record found isDelta := by
    match i, record, found with
    | 0, record, _ =>
      rw [← Option.some.inj record] at isDelta
      exact absurd isDelta (by decide)
    | 1, _, found | 2, _, found | 3, _, found =>
      exact Option.some.inj found ▸ natural_byte (b := 5) (by decide)
  digests := fun _ _ _ _ _ _ given => nomatch given
  names _ _ := fun same => nomatch same
  signatures _ _ := fun same => nomatch same
  policies := by decide

/-- Two deltas of the highest number that differ conflict. -/
theorem delta_selection_conflict :
    DeltaSelected (comparing bytewise deltaRecords deltaDetails) deltaDetails [] 0 2 true := by
  have selected := (delta_selection bytewise deltaRecords deltaDetails deltaRecords_promised [] 0 1000
    { idleStorage with states := List.replicate 4 .unchecked } (by
      intro i inside
      match i, inside with
      | 0, _ | 1, _ | 2, _ | 3, _ => exact ⟨fun given => (nomatch given), fun given => (nomatch given)⟩)).1
  exact selected.1

end TinyCrypto.Crl
