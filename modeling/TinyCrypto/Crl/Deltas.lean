import TinyCrypto.Crl.Comparisons
import TinyCrypto.Crl.SelectionKeeps
import TinyCrypto.Library.ByteCounter

/-! # Choosing a delta

The scan of `tc_x509_crl_delta_select` ranks the eligible deltas by number. Stripped contents of
nonnegative INTEGERs are ordered as the integers they stand for.
-/

namespace TinyCrypto.Crl

open Library Library.Program Library.Metered
open Library.ByteCounter (value value_cons value_lt value_injective)

variable {N K : Type}

/-- The contents of a nonnegative INTEGER in DER: the top bit is clear, and a leading zero is
    there for the top bit of the next byte. -/
def Natural (number : Bytes) : Prop := match number with
  | [] => False
  | [b] => b.toNat < 128
  | a :: b :: _ => a.toNat < 128 ∧ (a = 0 → 128 ≤ b.toNat)

theorem value_withoutZero (number : Bytes) : value (withoutZero number) = value number := by
  unfold withoutZero
  split
  · rw [value_cons 0, show (0 : UInt8).toNat = 0 from rfl, Nat.zero_mul, Nat.zero_add]
  · rfl

theorem Natural.stripped {number : Bytes} (natural : Natural number) :
    ∃ a rest, withoutZero number = a :: rest ∧ (rest ≠ [] → a ≠ 0) := by
  match number, natural with
  | [b], _ => exact ⟨b, [], by unfold withoutZero; split <;> simp_all, fun some => absurd rfl some⟩
  | a :: b :: rest, ⟨_, needed⟩ =>
    by_cases zero : a = 0
    · refine ⟨b, rest, by rw [zero]; rfl, ?_⟩
      rintro _ rfl
      exact absurd (needed zero) (by decide)
    · refine ⟨a, b :: rest, ?_, fun _ => zero⟩
      unfold withoutZero
      split
      · rename_i same
        exact absurd (List.cons.inj same).1 zero
      · rfl

variable {left right : Bytes}

theorem value_lt_of_shorter (shorter : left.length < right.length)
    (head : ∃ a rest, right = a :: rest ∧ (rest ≠ [] → a ≠ 0)) (some : left ≠ []) :
    value left < value right := by
  obtain ⟨a, rest, rfl, nonzero⟩ := head
  have pos : 0 < left.length := List.length_pos_of_ne_nil some
  rw [List.length_cons] at shorter
  have more : rest ≠ [] := List.ne_nil_of_length_pos (by omega)
  have top : 0 < a.toNat := Nat.pos_of_ne_zero fun zero => nonzero more (UInt8.toNat_inj.mp zero)
  calc value left < 256 ^ left.length := value_lt left
    _ ≤ 256 ^ rest.length := Nat.pow_le_pow_right (by decide) (by omega)
    _ ≤ a.toNat * 256 ^ rest.length := Nat.le_mul_of_pos_left _ top
    _ ≤ value (a :: rest) := by
      rw [value_cons]
      exact Nat.le_add_right _ _

theorem value_lt_of_lex (same : left.length = right.length)
    (less : left.map UInt8.toNat < right.map UInt8.toNat) : value left < value right := by
  induction left generalizing right with
  | nil =>
    have empty : right = [] := List.eq_nil_of_length_eq_zero same.symm
    rw [empty] at less
    exact absurd less (lt_irrefl _)
  | cons a left ih =>
    cases right with
    | nil => cases same
    | cons b right =>
      rw [value_cons, value_cons, Nat.succ.inj same]
      rcases List.cons_lt_cons_iff.mp less with lower | ⟨equal, rest⟩
      · have bound := value_lt left
        rw [Nat.succ.inj same] at bound
        have room := Nat.mul_le_mul_right (256 ^ right.length) (Nat.succ_le_of_lt lower)
        rw [Nat.succ_mul] at room
        omega
      · rw [equal]
        exact Nat.add_lt_add_left (ih (Nat.succ.inj same) rest) _

theorem numberKey_lt (natural : Natural left) (natural' : Natural right) :
    numberKey left < numberKey right ↔ value left < value right := by
  have forward {left right : Bytes} (natural : Natural left) (natural' : Natural right)
      (less : numberKey left < numberKey right) : value left < value right := by
    rw [← value_withoutZero left, ← value_withoutZero right]
    obtain ⟨a, rest, stripped, _⟩ := natural.stripped
    rcases Prod.Lex.toLex_lt_toLex.mp less with shorter | ⟨same, lower⟩
    · exact value_lt_of_shorter shorter natural'.stripped (by rw [stripped]; exact List.cons_ne_nil _ _)
    · exact value_lt_of_lex same lower
  constructor
  · exact forward natural natural'
  · intro less
    rcases lt_trichotomy (numberKey left) (numberKey right) with lower | same | higher
    · exact lower
    · have parts := toLex_inj.mp same
      have bytes : withoutZero left = withoutZero right :=
        List.map_injective_iff.mpr (fun _ _ => UInt8.toNat_inj.mp) (Prod.mk.inj parts).2
      rw [← value_withoutZero left, bytes, value_withoutZero] at less
      exact absurd less (Nat.lt_irrefl _)
    · exact absurd (forward natural' natural higher) (Nat.lt_asymm less)

structure Compatible (o : Outside) (base : Record) (baseInfo : Details) (delta : Record)
    (deltaInfo : Details) : Prop where
  complete : base.has extDelta = false
  isDelta : delta.has extDelta = true
  numbered : base.has extNumber = true ∧ delta.has extNumber = true
  restricted : base.has extDistribution = delta.has extDistribution
  from_ : numberKey deltaInfo.baseNumber ≤ numberKey baseInfo.number
  upTo : numberKey baseInfo.number < numberKey deltaInfo.number
  scope : (scopeEqual o base baseInfo delta deltaInfo).result = .ok true
  named : base.has extAuthority = delta.has extAuthority
  authority : baseInfo.authority = deltaInfo.authority

variable {b : Bool}

theorem whenEqual_ok {rest : Priced (Except Result Bool)} :
    (whenEqual left right rest).result = .ok b ↔
      (left = right ∧ rest.result = .ok b) ∨ (left ≠ right ∧ b = false) := by
  unfold whenEqual
  rw [andThen_ok]
  change (∃ order, (.ok (spanOrder left right) : Except Result Int) = .ok order ∧ _) ↔ _
  simp only [Except.ok.injEq, exists_eq_left', ne_eq, spanOrder_zero]
  by_cases same : left = right
  · simp [same]
  · simp [same, free, eq_comm]

theorem deltaCompatible_ok {o : Outside} {base delta : Record} {baseInfo deltaInfo : Details}
    (given : (deltaCompatible o base baseInfo delta deltaInfo).result = .ok true) :
    Compatible o base baseInfo delta deltaInfo := by
  unfold deltaCompatible at given
  dsimp only at given
  split at given
  · cases given
  split at given
  · cases given
  split at given
  · cases given
  rename_i shape
  simp only [Bool.or_eq_true, Bool.not_eq_true', Bool.and_eq_false_iff, ne_eq, decide_eq_true_eq,
    not_or, Bool.not_eq_true, Bool.not_eq_false, not_not] at shape
  obtain ⟨order, low, given⟩ := andThen_ok.mp given
  split at given
  · cases given
  rename_i lower
  obtain ⟨order', high, given⟩ := andThen_ok.mp given
  split at given
  · cases given
  rename_i upper
  obtain ⟨equal, scope, given⟩ := andThen_ok.mp given
  split at given
  · cases given
  rename_i equalScope
  split at given
  · cases given
  rename_i keyed
  rw [Bool.not_eq_true, Bool.not_eq_false'] at equalScope
  rw [(numberCompare_sign.mp low).2.2, orderSign_neg, not_lt] at lower
  rw [(numberCompare_sign.mp high).2.2, ge_iff_le, not_le, orderSign_neg] at upper
  simp only [whenEqual_ok, Bool.true_eq_false, and_false, or_false, ne_eq, not_not] at given keyed
  obtain ⟨key, issuer, serial, _⟩ := given
  have authority : baseInfo.authority = deltaInfo.authority := by
    cases left : baseInfo.authority
    cases right : deltaInfo.authority
    simp_all
  exact ⟨shape.1.1.1.1, shape.1.1.2.2, ⟨shape.1.1.1.2, shape.1.1.2.1⟩, shape.1.2, lower, upper,
    equalScope ▸ scope, shape.2, authority⟩

def DigestsDiffer (h : Hashes) (details : List Details) : Prop :=
  ∀ left ∈ details, ∀ right ∈ details, ∀ hash digest, h.digest hash left.tbs = some digest →
    h.digest hash right.tbs = some digest → left.tbs = right.tbs

variable {o : Outside}

theorem free_ok {E A : Type} {r : Except E A} {a : A} : (free r).result = .ok a ↔ r = .ok a := Iff.rfl

/-- What a comparison of contents has found when it answers `b`. -/
def Found (h : Hashes) (left right : Details) (b : Bool) : Prop :=
  match left.prepared, right.prepared with
  | none, none => b = decide (left.tbs = right.tbs)
  | some prepared, none =>
    ∃ digest, h.digest prepared.hash right.tbs = some digest ∧ b = decide (prepared.digest = digest)
  | none, some prepared =>
    ∃ digest, h.digest prepared.hash left.tbs = some digest ∧ b = decide (prepared.digest = digest)
  | some first, some second => first.hash = second.hash ∧ b = decide (first.digest = second.digest)

theorem whenEqual_decide :
    (whenEqual left right (free (.ok true))).result = .ok b ↔ b = decide (left = right) := by
  rw [whenEqual_ok, free_ok, Except.ok.injEq]
  by_cases same : left = right
  · simp [same, eq_comm]
  · simp [same]

theorem preparedEqual_found {prepared : Prepared} {tbs : Bytes}
    (given : (preparedEqual o prepared tbs).result = .ok b) :
    ∃ digest, o.hashes.digest prepared.hash tbs = some digest ∧
      b = decide (prepared.digest = digest) := by
  unfold preparedEqual at given
  obtain ⟨_, _, given⟩ := andThen_ok.mp given
  split at given
  · cases given
  obtain ⟨_, _, given⟩ := andThen_ok.mp given
  split at given
  · cases given
  · rename_i digest computed
    exact ⟨digest, computed, whenEqual_decide.mp given⟩

theorem contentEqual_found {left right : Details}
    (given : (contentEqual o left right).result = .ok b) : Found o.hashes left right b := by
  unfold contentEqual at given
  split at given <;> rename_i one two <;> simp only [Found, one, two]
  · exact whenEqual_decide.mp given
  · exact preparedEqual_found given
  · exact preparedEqual_found given
  · obtain ⟨_, _, given⟩ := andThen_ok.mp given
    split at given
    · cases given
    rename_i hashes
    obtain ⟨_, _, given⟩ := andThen_ok.mp given
    exact ⟨(not_not.mp hashes).symm, whenEqual_decide.mp given⟩

theorem Found.refl (h : Hashes) (info : Details) : Found h info info true := by
  unfold Found
  cases info.prepared with
  | none => exact (decide_eq_true rfl).symm
  | some prepared => exact ⟨rfl, (decide_eq_true rfl).symm⟩

theorem contentEqual_middle {details : List Details} (differ : DigestsDiffer o.hashes details)
    {left middle right : Details} (inside : left ∈ details) (inside' : right ∈ details)
    (one : Found o.hashes left middle true) (two : Found o.hashes right middle true) :
    ¬Found o.hashes left right false := by
  intro apart
  unfold Found at one two apart
  cases first : left.prepared <;> cases second : right.prepared <;> cases third : middle.prepared <;>
    simp only [first, second, third, eq_comm (a := true), eq_comm (a := false), decide_eq_true_eq,
      decide_eq_false_iff_not] at one two apart
  all_goals grind [DigestsDiffer]

section

variable (c : Primitives N K) (signer : Bytes) (base : Nat)

def Eligible (i : Nat) : Prop := i ≠ base ∧ ∃ delta, DeltaOk c signer base i delta

def StatesExact (states : List SignatureState) : Prop :=
  ∀ i, i < c.records.length → (states[i]? = some .valid → Verified c signer i) ∧
    (states[i]? = some .invalid → (c.signerCheck i signer).result = .invalid)

def Exact (d : Storage K) : Prop := StatesExact c signer d.states

def numberOf (details : List Details) (i : Nat) : Bytes := (details[i]?.map Details.number).getD []

def OneNumber (deltas : List Nat) (s : Nat × Bool) : Prop := s.1 ∈ deltas ∧
    (s.2 = false → ∀ i ∈ deltas, i = s.1 ∨ (c.contentEqual i s.1).result = .ok true) ∧
    (s.2 = true → ∃ i ∈ deltas, ∃ j ∈ deltas, (c.contentEqual i j).result = .ok false)

def DeltaChoice.choice (a : DeltaChoice) : Option (Nat × Bool) := a.chosen.map (·, a.conflicting)

def Chosen (details : List Details) (deltas : List Nat) (a : DeltaChoice) : Prop :=
  Ranking.Holds (fun i => numberKey (numberOf details i))
    (fun s => numberKey (numberOf details s.1)) (OneNumber c) deltas a.choice

/-- The choice among the eligible deltas before `i`. -/
def Scanned (details : List Details) (i : Nat) (a : DeltaChoice) : Prop :=
  ∃ deltas, (∀ j, j ∈ deltas ↔ j < i ∧ Eligible c signer base j) ∧ Chosen c details deltas a

end

variable {c : Primitives N K} {signer : Bytes} {base i : Nat} {details : List Details}

theorem exact_set {d : Storage K} {state : SignatureState} (known : Exact c signer d)
    (valid : state = .valid → Verified c signer i)
    (invalid : state = .invalid → (c.signerCheck i signer).result = .invalid) :
    Exact c signer { d with states := d.states.set i state } := by
  intro j inside
  rw [List.getElem?_set]
  split
  · rename_i same
    split
    · exact same ▸ ⟨fun given => valid (Option.some.inj given), fun given =>
        invalid (Option.some.inj given)⟩
    · exact ⟨fun given => (nomatch given), fun given => (nomatch given)⟩
  · exact known j inside

theorem signatureCached_triple (inside : i < c.records.length) :
    Triple (Data (Exact c signer)) (signatureCached c signer i)
      (fun _ => Data fun d => Exact c signer d ∧ Verified c signer i)
      fun e => Data fun d => Exact c signer d ∧ (e = .invalid → ¬Verified c signer i) := by
  have refused (result : (c.signerCheck i signer).result = .invalid) : ¬Verified c signer i := by
    intro verified
    exact absurd (result.symm.trans verified) (by decide)
  unfold signatureCached
  apply triple_bind (triple_charge fun d known => ⟨known, fun limit => by cases limit⟩)
  intro _
  apply triple_bind (triple_data (Q := fun d' d => Exact c signer d ∧ Exact c signer d')
    fun d known => ⟨known, known⟩)
  intro d'
  apply triple_fact fun _ held => held.2
  intro known
  split
  · rename_i valid
    exact triple_pure fun s held => ⟨held.1, (known i inside).1 valid⟩
  · rename_i invalid
    exact triple_throw fun s held => ⟨held.1, fun _ => refused ((known i inside).2 invalid)⟩
  · apply triple_bind (triple_answer
      (Q := fun r d => Exact c signer d ∧ (r = .limit ∨ r = (c.signerCheck i signer).result))
      (fun d held => ⟨held.1, .inl rfl⟩) fun d held => ⟨held.1, .inr rfl⟩)
    intro r
    apply triple_fact fun _ held => held.2
    intro answered
    split
    · have verified : Verified c signer i := (answered.resolve_left (by decide)).symm
      exact triple_update fun d held =>
        ⟨exact_set held.1 (fun _ => verified) fun given => (nomatch given), verified⟩
    · have result : (c.signerCheck i signer).result = .invalid :=
        (answered.resolve_left (by decide)).symm
      apply triple_bind (Q := fun _ => Data (Exact c signer))
      · exact triple_update fun d held =>
          exact_set held.1 (fun given => (nomatch given)) fun _ => result
      · exact fun _ => triple_throw fun s held => ⟨held, fun _ => refused result⟩
    · rename_i notOk notInvalid
      exact triple_throw fun s held => ⟨held.1, fun given => absurd given (notInvalid ·)⟩
  · exact triple_throw fun s held => ⟨held.1, fun given => (nomatch given)⟩

theorem deltaNext_exact {P : Storage K → Prop} : Keeps P (deltaNext c base i) fun found =>
    (found = true → i ≠ base ∧ ∃ delta, c.records[i]? = some delta ∧ delta.policy = .ok ∧
      delta.has extDelta = true ∧ (c.compatible base i).result = .ok true) ∧
    (found = false → ¬Eligible c signer base i) := by
  unfold deltaNext
  apply keeps_bind keeps_charge
  intro _ _
  apply keeps_bind record_keeps
  intro delta found
  apply keeps_ite
  · intro skipped
    simp only [Bool.or_eq_true, decide_eq_true_eq, ne_eq, Bool.not_eq_true'] at skipped
    refine keeps_pure ⟨fun given => (nomatch given), ?_⟩
    rintro _ ⟨other, delta', ok⟩
    have same : delta' = delta := Option.some.inj (ok.record.symm.trans found)
    subst same
    rcases skipped with (equal | failed) | complete
    · exact other equal
    · exact failed ok.policy
    · exact Bool.false_ne_true (complete.symm.trans ok.isDelta)
  · intro kept
    simp only [Bool.or_eq_true, decide_eq_true_eq, ne_eq, Bool.not_eq_true', not_or, not_not,
      Bool.not_eq_false] at kept
    apply keeps_call
    intro answer given
    constructor
    · rintro rfl
      exact ⟨kept.1.1, delta, found, kept.1.2, kept.2, given⟩
    · rintro rfl ⟨_, delta', ok⟩
      exact absurd (given.symm.trans ok.compatible) (by decide)

section

variable {P : Storage K → Prop} {deltas : List Nat} {a : DeltaChoice}

theorem Chosen.fresh (empty : deltas = []) : Chosen c details (deltas ++ [i]) ⟨some i, false⟩ := by
  subst empty
  refine Ranking.Holds.start rfl ⟨List.mem_cons_self, ?_, fun given => nomatch given⟩
  intro _ j member
  exact .inl (List.mem_singleton.mp member)

theorem deltaRank_keeps_chosen (chosen : Chosen (comparing o c details) details deltas a) :
    Keeps P (deltaRank (comparing o c details) i a)
      (Chosen (comparing o c details) details (deltas ++ [i])) := by
  obtain ⟨current, conflicting⟩ := a
  cases current with
  | none => exact keeps_pure (Chosen.fresh chosen)
  | some x =>
    unfold deltaRank
    apply keeps_bind (keeps_call fun _ given => given)
    intro order given
    obtain ⟨r, info, r', info', _, one, _, two, compared⟩ := compareRecords_ok.mp given
    have sign : order =
        orderSign (numberKey (numberOf details i)) (numberKey (numberOf details x)) := by
      rw [numberOf, numberOf, one, two]
      exact (numberCompare_sign.mp compared).2.2
    apply keeps_ite
    · intro lower
      rw [sign, orderSign_neg] at lower
      exact keeps_pure (Ranking.Holds.lower chosen lower)
    intro notLower
    rw [sign, orderSign_neg] at notLower
    apply keeps_ite
    · intro differ
      rw [sign, ne_eq, orderSign_zero] at differ
      have higher := lt_of_le_of_ne (not_lt.mp notLower) (Ne.symm differ)
      refine keeps_pure (Ranking.Holds.higher chosen higher rfl ?_)
      refine ⟨List.mem_cons_self, ?_, fun given => nomatch given⟩
      exact fun _ j member => .inl (List.mem_singleton.mp member)
    intro same
    rw [sign, ne_eq, not_not, orderSign_zero] at same
    apply keeps_bind (keeps_call fun _ given => given)
    intro equal content
    apply keeps_ite
    · rintro rfl
      refine keeps_pure (Ranking.Holds.same chosen same rfl ?_)
      rintro top _ ⟨member, agree, conflict⟩
      refine ⟨List.mem_append_left _ member, ?_, ?_⟩
      · intro none j member'
        rcases List.mem_append.mp member' with old | new
        · exact agree none j old
        · rw [List.mem_singleton.mp new]
          exact .inr content
      · intro some
        obtain ⟨j, inside, k, inside', apart⟩ := conflict some
        exact ⟨j, List.mem_append_left _ inside, k, List.mem_append_left _ inside', apart⟩
    intro differ
    rw [Bool.not_eq_true] at differ
    subst differ
    apply keeps_bind keeps_charge
    intro _ _
    apply keeps_bind record_keeps
    intro left _
    apply keeps_bind record_keeps
    intro right _
    apply keeps_bind (keeps_lift (Q := fun _ => True) fun _ _ => trivial)
    intro later _
    apply keeps_pure
    refine Ranking.Holds.same chosen same ?_ ?_
    · dsimp only
      split
      · exact same
      · rfl
    · rintro top _ ⟨member, _, _⟩
      refine ⟨?_, fun given => (nomatch given), fun _ => ?_⟩
      · dsimp only
        split
        · exact List.mem_append_right _ List.mem_cons_self
        · exact List.mem_append_left _ member
      · exact ⟨i, List.mem_append_right _ List.mem_cons_self, x, List.mem_append_left _ member,
          content⟩

theorem deltaStep_scanned (inside : i < c.records.length)
    (scanned : Scanned (comparing o c details) signer base details i a) :
    Keeps (Exact (comparing o c details) signer) (deltaStep (comparing o c details) signer base i a)
      (Turn.Ends (Scanned (comparing o c details) signer base details (i + 1)) fun _ => False) := by
  obtain ⟨deltas, members, chosen⟩ := scanned
  have skipped (other : ¬Eligible (comparing o c details) signer base i) :
      Scanned (comparing o c details) signer base details (i + 1) a := by
    refine ⟨deltas, ?_, chosen⟩
    intro j
    rw [members, Nat.lt_succ_iff_lt_or_eq]
    constructor
    · exact fun held => ⟨.inl held.1, held.2⟩
    · rintro ⟨before | rfl, eligible⟩
      · exact ⟨before, eligible⟩
      · exact absurd eligible other
  have joined (eligible : Eligible (comparing o c details) signer base i) {a' : DeltaChoice}
      (chosen' : Chosen (comparing o c details) details (deltas ++ [i]) a') :
      Scanned (comparing o c details) signer base details (i + 1) a' := by
    refine ⟨deltas ++ [i], ?_, chosen'⟩
    intro j
    rw [List.mem_append, members, List.mem_singleton, Nat.lt_succ_iff_lt_or_eq]
    constructor
    · rintro (held | rfl)
      · exact ⟨.inl held.1, held.2⟩
      · exact ⟨.inr rfl, eligible⟩
    · rintro ⟨before | rfl, eligible⟩
      · exact .inl ⟨before, eligible⟩
      · exact .inr rfl
  unfold deltaStep
  apply keeps_bind (@deltaNext_exact _ _ _ signer _ _ _)
  intro found next
  apply keeps_ite
  swap
  · intro none
    exact keeps_next (skipped (next.2 (Bool.not_eq_true _ ▸ none)))
  intro some
  obtain ⟨other, delta, record, policy, isDelta, compatible⟩ := next.1 some
  apply keeps_bind record_keeps
  intro delta' again
  have same : delta' = delta := Option.some.inj (again.symm.trans record)
  subst same
  apply keeps_bind (keeps_lift fun _ given => given)
  intro freshness fresh
  apply keeps_ite
  · intro old
    refine keeps_next (skipped ?_)
    rintro ⟨_, delta, ok⟩
    have same : delta = delta' := Option.some.inj (ok.record.symm.trans record)
    subst same
    exact old (Except.ok.inj (fresh.symm.trans ok.current))
  intro current
  rw [ne_eq, not_not] at current
  subst current
  have checks : Keeps (Exact (comparing o c details) signer)
      (trial (signatureCached (comparing o c details) signer i)) fun outcome =>
        (outcome = .ok () → Verified (comparing o c details) signer i) ∧
        (outcome = .error .invalid → ¬Verified (comparing o c details) signer i) := by
    apply Triple.mono (triple_trial (G := fun _ => Data (Exact (comparing o c details) signer))
      (@signatureCached_triple _ _ (comparing o c details) signer _ inside))
    · exact fun _ before => before
    · intro outcome s ended
      cases outcome with
      | ok u => exact ⟨ended.1, fun _ => ended.2, fun given => nomatch given⟩
      | error e =>
        exact ⟨ended.1, fun given => (nomatch given), fun given =>
          ended.2 (Except.error.inj given)⟩
    · exact fun _ _ failed => failed
  apply keeps_bind checks
  intro outcome checked
  split
  · refine keeps_next (skipped ?_)
    rintro ⟨_, delta, ok⟩
    exact checked.2 rfl ok.verified
  · exact keeps_throw
  · have eligible : Eligible (comparing o c details) signer base i :=
      ⟨other, delta', record, policy, isDelta, compatible, fresh, checked.1 rfl⟩
    apply keeps_bind (deltaRank_keeps_chosen chosen)
    exact fun a' chosen' => keeps_next (joined eligible chosen')

end

/-- What readers and checks promise: the numbers are natural, hashing tells contents apart, and
    nothing but the scan itself answers END. -/
structure Promised (o : Outside) (c : Primitives N K) (details : List Details) : Prop where
  numbers : ∀ (i : Nat) (r : Record) (info : Details), c.records[i]? = some r →
    details[i]? = some info → r.has extNumber = true → Natural info.number
  bases : ∀ (i : Nat) (r : Record) (info : Details), c.records[i]? = some r →
    details[i]? = some info → r.has extDelta = true → Natural info.baseNumber
  digests : DigestsDiffer o.hashes details
  names : ∀ left right, (o.nameEqual left right).result ≠ .error .end
  signatures : ∀ i signer, (c.signerCheck i signer).result ≠ .end
  policies : ∀ r ∈ c.records, r.policy ≠ .end

structure DeltaSelected (c : Primitives N K) (details : List Details) (signer : Bytes)
    (base delta : Nat) (conflict : Bool) : Prop where
  eligible : Eligible c signer base delta
  highest : ∀ i, Eligible c signer base i → value (numberOf details i) ≤ value (numberOf details delta)
  conflicts : conflict = true ↔ ∃ i j, Eligible c signer base i ∧ Eligible c signer base j ∧
    value (numberOf details i) = value (numberOf details delta) ∧
    value (numberOf details j) = value (numberOf details delta) ∧
    (c.contentEqual i j).result = .ok false
  content : conflict = false → ∀ i, Eligible c signer base i →
    value (numberOf details i) = value (numberOf details delta) →
    i = delta ∨ (c.contentEqual i delta).result = .ok true

variable {delta : Nat} {conflict : Bool}

theorem compatible_of_eligible (eligible : Eligible (comparing o c details) signer base i) :
    ∃ r info r' info', c.records[base]? = some r ∧ details[base]? = some info ∧
      c.records[i]? = some r' ∧ details[i]? = some info' ∧ Compatible o r info r' info' := by
  obtain ⟨_, _, ok⟩ := eligible
  obtain ⟨r, info, r', info', one, two, three, four, given⟩ := compareRecords_ok.mp ok.compatible
  exact ⟨r, info, r', info', one, two, three, four, deltaCompatible_ok given⟩

theorem Promised.natural (promised : Promised o c details)
    (eligible : Eligible (comparing o c details) signer base i) : Natural (numberOf details i) := by
  obtain ⟨_, _, r', info', _, _, record, found, compatible⟩ := compatible_of_eligible eligible
  rw [numberOf, found]
  exact promised.numbers i r' info' record found compatible.numbered.2

theorem numberKey_inj (natural : Natural left) (natural' : Natural right) :
    numberKey left = numberKey right ↔ value left = value right := by
  have less := numberKey_lt natural natural'
  have greater := numberKey_lt natural' natural
  constructor
  · intro same
    have notLess := mt less.mpr (same ▸ lt_irrefl _)
    have notGreater := mt greater.mpr (same ▸ lt_irrefl _)
    omega
  · intro same
    apply le_antisymm
    · exact not_lt.mp fun lower => absurd (greater.mp lower) (by omega)
    · exact not_lt.mp fun lower => absurd (less.mp lower) (by omega)

theorem Scanned.selected (promised : Promised o c details)
    (scanned : Scanned (comparing o c details) signer base details c.records.length
      ⟨some delta, conflict⟩) :
    DeltaSelected (comparing o c details) details signer base delta conflict := by
  obtain ⟨deltas, members, highest, member, agree, apart⟩ := scanned
  have within (i : Nat) (eligible : Eligible (comparing o c details) signer base i) : i ∈ deltas := by
    have inside : i < c.records.length := by
      obtain ⟨_, r, ok⟩ := eligible
      exact (List.getElem?_eq_some_iff.mp ok.record).1
    exact (members i).mpr ⟨inside, eligible⟩
  have eligible := ((members delta).mp (Ranking.mem_rank.mp member).1).2
  have natural := promised.natural eligible
  have key (i : Nat) (eligible' : Eligible (comparing o c details) signer base i) :
      numberKey (numberOf details i) = numberKey (numberOf details delta) ↔
        value (numberOf details i) = value (numberOf details delta) :=
    numberKey_inj (promised.natural eligible') natural
  have content (none : conflict = false) (i : Nat)
      (eligible' : Eligible (comparing o c details) signer base i)
      (same : value (numberOf details i) = value (numberOf details delta)) :
      i = delta ∨ ((comparing o c details).contentEqual i delta).result = .ok true :=
    agree none i (Ranking.mem_rank.mpr ⟨within i eligible', (key i eligible').mpr same⟩)
  refine ⟨eligible, ?_, ?_, content⟩
  · intro i eligible'
    have bound := highest i (within i eligible')
    exact not_lt.mp fun less => absurd bound
      (not_le.mpr ((numberKey_lt natural (promised.natural eligible')).mpr less))
  · constructor
    · intro some
      obtain ⟨i, inside, j, inside', differ⟩ := apart some
      obtain ⟨known, same⟩ := Ranking.mem_rank.mp inside
      obtain ⟨known', same'⟩ := Ranking.mem_rank.mp inside'
      have left := ((members i).mp known).2
      have right := ((members j).mp known').2
      exact ⟨i, j, left, right, (key i left).mp same, (key j right).mp same', differ⟩
    · rintro ⟨i, j, left, right, same, same', differ⟩
      by_contra flag
      rw [Bool.not_eq_true] at flag
      obtain ⟨_, info, _, info', _, one, _, two, differ⟩ := compareRecords_ok.mp differ
      obtain ⟨_, _, _, middle, _, _, _, three, _⟩ := compatible_of_eligible eligible
      have found {k : Nat} {info : Details} (at_ : details[k]? = some info)
          (equal : k = delta ∨ ((comparing o c details).contentEqual k delta).result = .ok true) :
          Found o.hashes info middle true := by
        rcases equal with rfl | equal
        · rw [at_] at three
          rw [← Option.some.inj three]
          exact Found.refl _ _
        · obtain ⟨_, left, _, right, _, one, _, two, equal⟩ := compareRecords_ok.mp equal
          rw [at_] at one
          rw [three] at two
          rw [Option.some.inj one, Option.some.inj two]
          exact contentEqual_found equal
      exact contentEqual_middle promised.digests (List.mem_of_getElem? one)
        (List.mem_of_getElem? two) (found one (content flag i left same))
        (found two (content flag j right same')) (contentEqual_found differ)

end TinyCrypto.Crl
