import TinyCrypto.Crl.Comparisons
import TinyCrypto.Library.Chains
import TinyCrypto.X509.NameEquality

/-! # The scope table

`tc_x509_crl_scopes_index` keeps bucket heads, chain links and the first record of each scope in one
array. Only first records are chained. A record finds its scope in the bucket of its distribution
point, so the table says of every two records whether their scopes are equal.
-/

namespace TinyCrypto.Crl

open Library Library.Program Library.Metered

/-- `TC_X509_revocation_scope`, where `SIZE_MAX` is `none`. -/
structure Slot where
  representative : Option Nat
  next : Option Nat
  head : Option Nat
  deriving DecidableEq

abbrev IndexProgram := Metered Result (List Slot)

def headOf (slots : List Slot) (b : Nat) : Option Nat := slots[b]?.bind Slot.head

def linkOf (slots : List Slot) (i : Nat) : Option Nat := slots[i]?.bind Slot.next

def representativeOf (slots : List Slot) (i : Nat) : Option Nat := slots[i]?.bind Slot.representative

/-- `tc_x509_crl_bytes_hash`. -/
def bytesHash (bytes : Bytes) : UInt32 :=
  bytes.foldl (fun hash b => (hash ^^^ b.toUInt32) * 16777619) 2166136261

def scopeBucket (count : Nat) (record : Record) (info : Details) : Nat :=
  ((bytesHash info.distributionEncoded ^^^ if record.has extDistribution then 1 else 0) *
    16777619).toNat % count

section

variable {N K : Type} (c : Primitives N K) (details : List Details)

/-- The chain loop of `tc_x509_crl_scopes_index`. Every pass charges work, so passes are bounded by
    the work left. -/
def scopeScan (i : Nat) : Nat → Option Nat → IndexProgram (Option Nat)
  | _, none => return none
  | 0, some _ => throw .limit
  | passes + 1, some cursor => do
    charge .limit 1
    if ← call .limit (c.scopeEqual i cursor) then return some cursor
    else
      let slots ← data
      scopeScan i passes (linkOf slots cursor)

/-- Record `i` is the first of its scope. -/
def pushScope (i bucket : Nat) (slots : List Slot) : List Slot :=
  (slots.modify i fun slot => { slot with representative := some i, next := headOf slots bucket }).modify
    bucket fun slot => { slot with head := some i }

/-- One pass of `tc_x509_crl_scopes_index`. -/
def indexRecord (i : Nat) : IndexProgram (Turn Unit Unit) := do
  update fun slots => slots.modify i fun slot => { slot with representative := none, next := none }
  match c.records[i]?, details[i]? with
  | some record, some info =>
    if record.policy ≠ .ok then return .next ()
    else
      charge .limit info.distributionEncoded.length
      let bucket := scopeBucket c.records.length record info
      let s ← state
      match ← scopeScan c i (s.work + 1) (headOf s.data bucket) with
      | some cursor =>
        update fun slots => slots.modify i fun slot => { slot with representative := some cursor }
        return .next ()
      | none =>
        update (pushScope i bucket)
        return .next ()
  | _, _ => throw .argument

/-- `tc_x509_crl_scopes_index`. -/
def scopesIndex : IndexProgram Unit := do
  let count := c.records.length
  if (← data).length < count then throw .limit
  else
    charge .limit count
    update fun slots => slots.mapIdx fun i slot => if i < count then { slot with head := none } else slot
    let _ ← forRange (fun i _ => indexRecord c details i) 0 count ()
    return ()

def Usable (i : Nat) : Prop :=
  ∃ record info, c.records[i]? = some record ∧ details[i]? = some info ∧ record.policy = .ok

/-- `tc_x509_crl_scope_equal` holds of two records. -/
def SameScope (i j : Nat) : Prop := (c.scopeEqual i j).result = .ok true

/-- The bucket of record `i`. -/
def bucketOf (i : Nat) : Nat := match c.records[i]?, details[i]? with
  | some record, some info => scopeBucket c.records.length record info
  | _, _ => 0

structure ScopesDecided : Prop where
  decided : ∀ i j, Usable c details i → Usable c details j → ∃ b, (c.scopeEqual i j).result = .ok b
  refl : ∀ i, Usable c details i → SameScope c i i
  symm : ∀ i j, Usable c details i → Usable c details j → SameScope c i j → SameScope c j i
  trans : ∀ i j k, Usable c details i → Usable c details j → Usable c details k →
    SameScope c i j → SameScope c j k → SameScope c i k
  bucket : ∀ i j, SameScope c i j → bucketOf c details i = bucketOf c details j

/-- The first record with the scope of `i`. -/
structure FirstOfScope (i k : Nat) : Prop where
  usable : Usable c details k
  le : k ≤ i
  same : SameScope c k i
  first : ∀ m, m < k → Usable c details m → ¬SameScope c m i

def bucketHead (slots : List Slot) (b : Nat) : Option Nat :=
  if b < c.records.length then headOf slots b else none

/-- What the table says of the records before `i`. -/
structure IndexedUpTo (i : Nat) (slots : List Slot) : Prop where
  room : c.records.length ≤ slots.length
  skipped : ∀ j, j < i → ¬Usable c details j → representativeOf slots j = none
  chosen : ∀ j, j < i → Usable c details j →
    ∃ k, representativeOf slots j = some k ∧ FirstOfScope c details j k
  buckets : Buckets (bucketHead c slots) (linkOf slots) (bucketOf c details)
    fun j => j < i ∧ representativeOf slots j = some j

end

section

variable {N K : Type} {c : Primitives N K} {details : List Details} {i j k : Nat} {slots : List Slot}

theorem FirstOfScope.unique {k' : Nat} (one : FirstOfScope c details i k)
    (two : FirstOfScope c details i k') : k = k' := by
  rcases Nat.lt_trichotomy k k' with less | same | greater
  · exact absurd one.same (two.first k less one.usable)
  · exact same
  · exact absurd two.same (one.first k' greater two.usable)

theorem FirstOfScope.same_iff (decided : ScopesDecided c details) {k' : Nat}
    (usable : Usable c details i) (usable' : Usable c details j) (one : FirstOfScope c details i k)
    (two : FirstOfScope c details j k') : k = k' ↔ SameScope c i j := by
  constructor
  · rintro rfl
    exact decided.trans i k j usable one.usable usable'
      (decided.symm k i one.usable usable one.same) two.same
  · intro same
    have at_ : SameScope c k j := decided.trans k i j one.usable usable usable' one.same same
    rcases Nat.lt_trichotomy k k' with less | equal | greater
    · exact absurd at_ (two.first k less one.usable)
    · exact equal
    · have back : SameScope c k' i := decided.trans k' j i two.usable usable' usable two.same
        (decided.symm i j usable usable' same)
      exact absurd back (one.first k' greater two.usable)

theorem FirstOfScope.self (decided : ScopesDecided c details) (usable : Usable c details i)
    (one : FirstOfScope c details i k) : FirstOfScope c details k k where
  usable := one.usable
  le := le_rfl
  same := decided.refl k one.usable
  first m less known same := one.first m less known
    (decided.trans m k i known one.usable usable same one.same)

theorem modify_bind (field : Slot → Option Nat) (f : Slot → Slot) (i b : Nat) :
    (slots.modify i f)[b]?.bind field =
      if i = b then slots[b]?.bind fun slot => field (f slot) else slots[b]?.bind field := by
  rw [List.getElem?_modify]
  cases slots[b]? with
  | none => split <;> rfl
  | some slot => split <;> rfl

variable {field : Slot → Option Nat} {f : Slot → Slot}

theorem modify_keeps (keeps : ∀ slot, field (f slot) = field slot) (i b : Nat) :
    (slots.modify i f)[b]?.bind field = slots[b]?.bind field := by
  rw [modify_bind]
  split
  · exact congrArg _ (funext keeps)
  · rfl

theorem modify_other {b : Nat} (other : b ≠ i) :
    (slots.modify i f)[b]?.bind field = slots[b]?.bind field := by
  rw [modify_bind, if_neg other.symm]

theorem modify_here (inside : i < slots.length) :
    (slots.modify i f)[i]?.bind field = field (f slots[i]) := by
  rw [modify_bind, if_pos rfl, List.getElem?_eq_getElem inside]
  rfl

theorem IndexedUpTo.frame {slots' : List Slot} (indexed : IndexedUpTo c details i slots)
    (length : slots'.length = slots.length) (heads : ∀ b, headOf slots' b = headOf slots b)
    (links : ∀ j, j < i → linkOf slots' j = linkOf slots j)
    (reps : ∀ j, j < i → representativeOf slots' j = representativeOf slots j) :
    IndexedUpTo c details i slots' where
  room := length ▸ indexed.room
  skipped j less unusable := by
    rw [reps j less]
    exact indexed.skipped j less unusable
  chosen j less usable := by
    rw [reps j less]
    exact indexed.chosen j less usable
  buckets := by
    refine indexed.buckets.frame (fun b => ?_) (fun j known => links j known.1) (fun j => ?_)
      fun _ _ => rfl
    · rw [bucketHead, bucketHead, heads]
    · exact and_congr_right fun less => by rw [reps j less]

theorem IndexedUpTo.settle (indexed : IndexedUpTo c details i slots)
    (other : representativeOf slots i ≠ some i)
    (skipped : ¬Usable c details i → representativeOf slots i = none)
    (chosen : Usable c details i → ∃ k, representativeOf slots i = some k ∧
      FirstOfScope c details i k) : IndexedUpTo c details (i + 1) slots where
  room := indexed.room
  skipped j less unusable := by
    rcases Nat.lt_succ_iff_lt_or_eq.mp less with before | rfl
    · exact indexed.skipped j before unusable
    · exact skipped unusable
  chosen j less usable := by
    rcases Nat.lt_succ_iff_lt_or_eq.mp less with before | rfl
    · exact indexed.chosen j before usable
    · exact chosen usable
  buckets := by
    refine indexed.buckets.frame (fun _ => rfl) (fun _ _ => rfl) (fun j => ?_) fun _ _ => rfl
    constructor
    · rintro ⟨less, self⟩
      rcases Nat.lt_succ_iff_lt_or_eq.mp less with before | rfl
      · exact ⟨before, self⟩
      · exact absurd self other
    · exact fun known => ⟨Nat.lt_succ_of_lt known.1, known.2⟩

theorem push_head (i : Nat) {b : Nat} (inside : b < slots.length) :
    headOf (pushScope i b slots) b = some i := by
  refine modify_here ?_
  rwa [List.length_modify]

theorem push_heads (i : Nat) {b b' : Nat} (other : b' ≠ b) :
    headOf (pushScope i b slots) b' = headOf slots b' := by
  refine (modify_other other).trans (modify_keeps ?_ i b')
  exact fun _ => rfl

theorem push_link (b : Nat) (inside : i < slots.length) :
    linkOf (pushScope i b slots) i = headOf slots b := by
  refine (modify_keeps ?_ b i).trans (modify_here inside)
  exact fun _ => rfl

theorem push_links (b : Nat) (other : j ≠ i) : linkOf (pushScope i b slots) j = linkOf slots j := by
  refine (modify_keeps ?_ b j).trans (modify_other other)
  exact fun _ => rfl

theorem push_representative (b : Nat) (inside : i < slots.length) :
    representativeOf (pushScope i b slots) i = some i := by
  refine (modify_keeps ?_ b i).trans (modify_here inside)
  exact fun _ => rfl

theorem push_representatives (b : Nat) (other : j ≠ i) :
    representativeOf (pushScope i b slots) j = representativeOf slots j := by
  refine (modify_keeps ?_ b j).trans (modify_other other)
  exact fun _ => rfl

theorem IndexedUpTo.push (indexed : IndexedUpTo c details i slots) (inside : i < slots.length)
    (bucket : bucketOf c details i < c.records.length) (first : FirstOfScope c details i i) :
    IndexedUpTo c details (i + 1) (pushScope i (bucketOf c details i) slots) := by
  have length : (pushScope i (bucketOf c details i) slots).length = slots.length := by
    simp [pushScope]
  have here : bucketHead c (pushScope i (bucketOf c details i) slots) (bucketOf c details i) = some i := by
    rw [bucketHead, if_pos bucket]
    exact push_head i (Nat.lt_of_lt_of_le bucket indexed.room)
  have heads (b : Nat) (other : b ≠ bucketOf c details i) :
      bucketHead c (pushScope i (bucketOf c details i) slots) b = bucketHead c slots b := by
    rw [bucketHead, bucketHead, push_heads i other]
  have link : linkOf (pushScope i (bucketOf c details i) slots) i =
      bucketHead c slots (bucketOf c details i) := by
    rw [bucketHead, if_pos bucket]
    exact push_link _ inside
  have self := push_representative (bucketOf c details i) inside
  have reps (j : Nat) (less : j < i) := @push_representatives i j slots (bucketOf c details i)
    (Nat.ne_of_lt less)
  refine ⟨length ▸ indexed.room, fun j less unusable => ?_, fun j less usable => ?_, ?_⟩
  · rcases Nat.lt_succ_iff_lt_or_eq.mp less with before | rfl
    · rw [reps j before]
      exact indexed.skipped j before unusable
    · exact absurd first.usable unusable
  · rcases Nat.lt_succ_iff_lt_or_eq.mp less with before | rfl
    · rw [reps j before]
      exact indexed.chosen j before usable
    · exact ⟨j, self, first⟩
  · refine indexed.buckets.push (fun j known => known.1) here heads link
      (fun j known => push_links _ (Nat.ne_of_lt known.1)) fun j => ?_
    constructor
    · rintro ⟨less, known⟩
      rcases Nat.lt_succ_iff_lt_or_eq.mp less with before | rfl
      · exact .inl ⟨before, (reps j before).symm.trans known⟩
      · exact .inr rfl
    · rintro (⟨before, known⟩ | rfl)
      · exact ⟨Nat.lt_succ_of_lt before, (reps j before).trans known⟩
      · exact ⟨Nat.lt_succ_self j, self⟩

theorem scopeScan_gives {passes : Nat} {cursor found : Option Nat} {positions : List Nat}
    {s s' : Budgeted (List Slot)} (chain : Chain (linkOf s.data) cursor positions)
    (given : Gives (scopeScan c i passes cursor) s found s') :
    s'.data = s.data ∧ (∀ k, found = some k → k ∈ positions ∧ SameScope c i k) ∧
      (found = none → ∀ k ∈ positions, ¬SameScope c i k) := by
  induction passes generalizing cursor positions s with
  | zero =>
    cases chain with
    | nil =>
      simp only [scopeScan, gives_pure] at given
      obtain ⟨rfl, rfl⟩ := given
      exact ⟨rfl, by simp, by simp⟩
    | cons rest => exact absurd given gives_throw
  | succ passes ih =>
    cases chain with
    | nil =>
      simp only [scopeScan, gives_pure] at given
      obtain ⟨rfl, rfl⟩ := given
      exact ⟨rfl, by simp, by simp⟩
    | @cons k rest chain =>
      simp only [scopeScan, gives_bind, gives_charge, gives_call] at given
      obtain ⟨_, _, ⟨-, rfl⟩, same, middle, ⟨-, compared, rfl⟩, given⟩ := given
      cases same with
      | true =>
        simp only [if_true, gives_pure] at given
        obtain ⟨rfl, rfl⟩ := given
        refine ⟨rfl, fun k' equal => ?_, by simp⟩
        obtain rfl := Option.some.inj equal
        exact ⟨List.mem_cons_self, compared⟩
      | false =>
        simp only [Bool.false_eq_true, if_false, gives_bind, gives_data] at given
        obtain ⟨_, _, ⟨rfl, rfl⟩, given⟩ := given
        obtain ⟨kept, hit, miss⟩ := @ih _ rest
          (Budgeted.mk (s.work - 1 - (c.scopeEqual i k).cost) s.data) chain given
        refine ⟨kept, fun k' equal => ?_, fun none k' member => ?_⟩
        · obtain ⟨member, same⟩ := hit k' equal
          exact ⟨List.mem_cons_of_mem _ member, same⟩
        · rcases List.mem_cons.mp member with rfl | later
          · rw [SameScope, compared]
            simp
          · exact miss none k' later

theorem IndexedUpTo.found (decided : ScopesDecided c details) (indexed : IndexedUpTo c details i slots)
    (usable : Usable c details i) (less : k < i) (self : representativeOf slots k = some k)
    (same : SameScope c i k) : FirstOfScope c details i k := by
  have usable' : Usable c details k := by
    by_contra unusable
    rw [indexed.skipped k less unusable] at self
    cases self
  obtain ⟨k', chosen, first⟩ := indexed.chosen k less usable'
  obtain rfl : k' = k := Option.some.inj (chosen.symm.trans self)
  refine ⟨usable', Nat.le_of_lt less, decided.symm i k' usable usable' same, ?_⟩
  intro m before known same'
  exact first.first m before known (decided.trans m i k' known usable usable' same' same)

theorem IndexedUpTo.missed (decided : ScopesDecided c details) (indexed : IndexedUpTo c details i slots)
    (usable : Usable c details i) (none : ∀ k, k < i → representativeOf slots k = some k →
      bucketOf c details k = bucketOf c details i → ¬SameScope c i k) : FirstOfScope c details i i := by
  refine ⟨usable, le_rfl, decided.refl i usable, ?_⟩
  intro m before known same
  obtain ⟨k, chosen, first⟩ := indexed.chosen m before known
  have through : SameScope c k i := decided.trans k m i first.usable known usable first.same same
  have less : k < i := Nat.lt_of_le_of_lt first.le before
  have self : representativeOf slots k = some k := by
    obtain ⟨k', chosen', first'⟩ := indexed.chosen k less first.usable
    rw [chosen', first'.unique (first.self decided known)]
  exact none k less self (decided.bucket k i through) (decided.symm k i first.usable usable through)

theorem bucket_inside (usable : Usable c details i) : bucketOf c details i < c.records.length := by
  obtain ⟨record, info, found, found', -⟩ := usable
  have inside : i < c.records.length := by
    by_contra outside
    rw [List.getElem?_eq_none (Nat.le_of_not_lt outside)] at found
    cases found
  unfold bucketOf
  rw [found, found']
  exact Nat.mod_lt _ (Nat.zero_lt_of_lt inside)

theorem indexRecord_gives (decided : ScopesDecided c details) (inside : i < c.records.length)
    {turn : Turn Unit Unit} {s s' : Budgeted (List Slot)} (indexed : IndexedUpTo c details i s.data)
    (given : Gives (indexRecord c details i) s turn s') :
    turn = .next () ∧ IndexedUpTo c details (i + 1) s'.data := by
  have within : i < s.data.length := Nat.lt_of_lt_of_le inside indexed.room
  generalize clear : (fun slot : Slot => { slot with representative := none, next := none }) = f
  have heads (b : Nat) : headOf (s.data.modify i f) b = headOf s.data b := by
    refine modify_keeps ?_ i b
    subst clear
    exact fun _ => rfl
  have fresh : representativeOf (s.data.modify i f) i = none := by
    subst clear
    exact modify_here within
  have cleared : IndexedUpTo c details i (s.data.modify i f) :=
    indexed.frame (List.length_modify ..) heads (fun j less => modify_other (Nat.ne_of_lt less))
      fun j less => modify_other (Nat.ne_of_lt less)
  simp only [indexRecord, clear, gives_bind, gives_update] at given
  obtain ⟨_, _, rfl, given⟩ := given
  split at given
  · rename_i record info found found'
    split at given
    · rename_i skipped
      obtain ⟨rfl, rfl⟩ := gives_pure.mp given
      have unusable : ¬Usable c details i := by
        rintro ⟨record', _, again, _, ok⟩
        rw [found] at again
        cases again
        exact skipped ok
      exact ⟨rfl, cleared.settle (by simp [fresh]) (fun _ => fresh) fun usable =>
        absurd usable unusable⟩
    · rename_i policy
      have usable : Usable c details i := ⟨record, info, found, found', not_not.mp policy⟩
      have key : scopeBucket c.records.length record info = bucketOf c details i := by
        unfold bucketOf
        rw [found, found']
      simp only [gives_bind, gives_charge, gives_state, key] at given
      obtain ⟨_, _, ⟨-, rfl⟩, _, _, ⟨rfl, rfl⟩, outcome, middle, scanned, given⟩ := given
      obtain ⟨positions, chain, -, members⟩ := cleared.buckets.chain (bucketOf c details i)
      rw [bucketHead, if_pos (bucket_inside usable)] at chain
      obtain ⟨kept, hit, miss⟩ := scopeScan_gives chain scanned
      dsimp only at kept
      cases outcome with
      | some k =>
        simp only [gives_bind, gives_update, gives_pure] at given
        obtain ⟨_, _, rfl, rfl, rfl⟩ := given
        obtain ⟨member, same⟩ := hit k rfl
        obtain ⟨⟨less, self⟩, -⟩ := (members k).mp member
        have first := cleared.found decided usable less self same
        rw [kept]
        refine ⟨rfl, ?_⟩
        have written : representativeOf ((s.data.modify i f).modify i fun slot =>
            { slot with representative := some k }) i = some k :=
          modify_here (by rwa [List.length_modify])
        refine (cleared.frame (List.length_modify ..) (fun b => ?_)
          (fun j less => modify_other (Nat.ne_of_lt less))
          fun j less => modify_other (Nat.ne_of_lt less)).settle ?_ ?_ ?_
        · refine modify_keeps ?_ i b
          exact fun _ => rfl
        · rw [written]
          exact fun equal => Nat.ne_of_lt less (Option.some.inj equal)
        · exact fun unusable => absurd usable unusable
        · exact fun _ => ⟨k, written, first⟩
      | none =>
        simp only [gives_bind, gives_update, gives_pure] at given
        obtain ⟨_, _, rfl, rfl, rfl⟩ := given
        rw [kept]
        refine ⟨rfl, cleared.push (by rwa [List.length_modify]) (bucket_inside usable) ?_⟩
        refine cleared.missed decided usable fun k less self key => ?_
        exact miss rfl k ((members k).mpr ⟨⟨less, self⟩, key⟩)
  · exact absurd given gives_throw

theorem scopesIndex_gives (decided : ScopesDecided c details) {s s' : Budgeted (List Slot)} {u : Unit}
    (given : Gives (scopesIndex c details) s u s') :
    IndexedUpTo c details c.records.length s'.data := by
  simp only [scopesIndex, gives_bind, gives_data] at given
  obtain ⟨_, _, ⟨rfl, rfl⟩, given⟩ := given
  split at given
  · exact absurd given gives_throw
  · rename_i room
    simp only [gives_bind, gives_charge, gives_update] at given
    obtain ⟨_, _, ⟨-, rfl⟩, _, _, rfl, turn, _, looped, given⟩ := given
    obtain ⟨-, rfl⟩ := gives_pure.mp given
    have start : IndexedUpTo c details 0 (s.data.mapIdx fun i slot =>
        if i < c.records.length then { slot with head := none } else slot) := by
      refine ⟨?_, by simp, by simp, Buckets.empty (fun b => ?_) fun j known => absurd known.1 (Nat.not_lt_zero j)⟩
      · rw [List.length_mapIdx]
        exact Nat.le_of_not_lt room
      · unfold bucketHead headOf
        split
        · rename_i used
          rw [List.getElem?_mapIdx]
          cases s.data[b]? <;> simp [used]
        · rfl
    have ended := gives_forRange (fun i _ s => IndexedUpTo c details i s.data) (fun _ _ => False)
      looped (Nat.zero_add _) start
      (fun i _ s _ s' inside indexed pass => (indexRecord_gives decided inside indexed pass).2)
      fun i _ s _ s' inside indexed pass => by simpa using (indexRecord_gives decided inside indexed pass).1
    cases turn with
    | next _ => exact ended
    | leave _ => exact ended.elim

end

def ComparesNames (sizeT sizeMax : Nat) (t : Unicode.Tables) (limits : Tlv.Limits)
    (workspace : X509.NameWorkspace) (o : Outside) : Prop :=
  ∀ left right same, (o.nameEqual left right).result = .ok same → ∃ s s' : Budgeted Unit,
    Gives (X509.nameEqual sizeT sizeMax t limits workspace left right) s same s'

def NamesDetermined {N K : Type} (o : Outside) (c : Primitives N K) (details : List Details) : Prop :=
  ∀ i j info info', Usable c details i → Usable c details j → details[i]? = some info →
    details[j]? = some info' → ∃ same, (o.nameEqual info.issuer info'.issuer).result = .ok same

section

variable {N K : Type} {c : Primitives N K} {details : List Details} {i j k : Nat} {o : Outside}
  {sizeT sizeMax : Nat} {t : Unicode.Tables} {limits : Tlv.Limits}
  {workspace : X509.NameWorkspace}

theorem sameScope_iff : SameScope (comparing o c details) i j ↔
    ∃ record info record' info', c.records[i]? = some record ∧ details[i]? = some info ∧
      c.records[j]? = some record' ∧ details[j]? = some info' ∧
      record.has extDistribution = record'.has extDistribution ∧
      info.distributionEncoded = info'.distributionEncoded ∧
      (o.nameEqual info.issuer info'.issuer).result = .ok true := by
  rw [SameScope, comparing, compareRecords_ok]
  simp only [scopeEqual_result]
  constructor
  · rintro ⟨record, info, record', info', one, two, three, four, same⟩
    split at same
    · rename_i equal
      exact ⟨record, info, record', info', one, two, three, four, equal.1, equal.2, same⟩
    · cases same
  · rintro ⟨record, info, record', info', one, two, three, four, presence, encoding, same⟩
    exact ⟨record, info, record', info', one, two, three, four, by rwa [if_pos ⟨presence, encoding⟩]⟩

theorem comparing_decided (correct : t.Correct)
    (names : ComparesNames sizeT sizeMax t limits workspace o)
    (determined : NamesDetermined o c details) : ScopesDecided (comparing o c details) details := by
  refine ⟨?_, ?_, ?_, ?_, ?_⟩
  · rintro i j ⟨record, info, one, two, ok⟩ ⟨record', info', three, four, ok'⟩
    obtain ⟨same, answer⟩ := determined i j info info' ⟨record, info, one, two, ok⟩
      ⟨record', info', three, four, ok'⟩ two four
    simp only [comparing, compareRecords_ok, scopeEqual_result]
    by_cases equal : record.has extDistribution = record'.has extDistribution ∧
        info.distributionEncoded = info'.distributionEncoded
    · exact ⟨same, record, info, record', info', one, two, three, four, by rwa [if_pos equal]⟩
    · exact ⟨false, record, info, record', info', one, two, three, four, by rw [if_neg equal]⟩
  · rintro i ⟨record, info, one, two, ok⟩
    have usable : Usable c details i := ⟨record, info, one, two, ok⟩
    obtain ⟨same, answer⟩ := determined i i info info usable usable two two
    obtain ⟨s, s', given⟩ := names _ _ _ answer
    rw [X509.nameEqual_refl correct given] at answer
    exact sameScope_iff.mpr ⟨record, info, record, info, one, two, one, two, rfl, rfl, answer⟩
  · intro i j usable usable' same
    obtain ⟨record, info, record', info', one, two, three, four, presence, encoding, answer⟩ :=
      sameScope_iff.mp same
    obtain ⟨back, answer'⟩ := determined j i info' info usable' usable four two
    obtain ⟨s, s', given⟩ := names _ _ _ answer
    obtain ⟨s₁, s₁', given'⟩ := names _ _ _ answer'
    rw [← X509.nameEqual_symm correct given given'] at answer'
    exact sameScope_iff.mpr ⟨record', info', record, info, three, four, one, two, presence.symm,
      encoding.symm, answer'⟩
  · intro i j k usable _ usable'' same same'
    obtain ⟨record, info, record', info', one, two, three, four, presence, encoding, answer⟩ :=
      sameScope_iff.mp same
    obtain ⟨_, _, record'', info'', three', four', five, six, presence', encoding', answer'⟩ :=
      sameScope_iff.mp same'
    obtain rfl := Option.some.inj (three.symm.trans three')
    obtain rfl := Option.some.inj (four.symm.trans four')
    obtain ⟨through, answer''⟩ := determined i k info info'' usable usable'' two six
    obtain ⟨s, s', given⟩ := names _ _ _ answer
    obtain ⟨s₁, s₁', given'⟩ := names _ _ _ answer'
    obtain ⟨s₂, s₂', given''⟩ := names _ _ _ answer''
    rw [X509.nameEqual_trans correct given given' given''] at answer''
    exact sameScope_iff.mpr ⟨record, info, record'', info'', one, two, five, six,
      presence.trans presence', encoding.trans encoding', answer''⟩
  · intro i j same
    obtain ⟨record, info, record', info', one, two, three, four, presence, encoding, -⟩ :=
      sameScope_iff.mp same
    unfold bucketOf
    simp only [comparing, one, two, three, four, scopeBucket, presence, encoding]

end

end TinyCrypto.Crl
