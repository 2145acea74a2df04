import TinyCrypto.Library.Pairing
import TinyCrypto.Unicode.Preparation
import TinyCrypto.X509.NameRead

/-! # Comparing names

`x509_name.c` for the public entry points, which compare two DER names without a tree. The
scratch buffers are read only where they were written before, so each preparation starts
with a new one.
-/

namespace TinyCrypto.X509

open Tlv Cms Library Library.Program Library.Metered

/-- The capacities of `TC_X509_name_workspace`. -/
structure NameWorkspace where
  scalarCapacity : Nat
  attributeCapacity : Nat
  deriving DecidableEq

/-- `matching_rule`. -/
def matchingRule (oid : Bytes) : Nat := match attributeSyntax oid with
  | .directory | .printable | .country => 1
  | .domain | .email => 2
  | .unknown => 0

/-- `tc_ascii_fold`. -/
def asciiFold (b : UInt8) : Nat := if 0x41 ≤ b.toNat ∧ b.toNat ≤ 0x5a then b.toNat + 0x20 else b.toNat

def foldIa5 : Bytes → Except Result (List Nat)
  | [] => .ok []
  | b :: rest =>
    if b.toNat > 127 then .error .invalid
    else
      match foldIa5 rest with
      | .ok folded => .ok (asciiFold b :: folded)
      | .error e => .error e

/-- What `left_preparation` holds. -/
inductive LeftPreparation where
  | fresh
  | prepared (key : List Nat)
  | exact
  deriving DecidableEq

section

variable {D : Type} (sizeT sizeMax : Nat) (t : Unicode.Tables) (limits : Limits)
  (workspace : NameWorkspace)

/-- `tc_x509_name_next_attribute`, and nothing at the end. -/
def nextAttribute (reader : Reader) : Metered Result D (Option (NameAttribute × Reader)) := do
  if reader.rest = [] then return none
  else
    charge .limit 1
    let element ← lift (read sizeT limits reader.rest)
    charge .limit element.encoded.length
    match attributeNext sizeT sizeMax limits reader with
    | .ok found => return some found
    | .error .end => return none
    | .error e => throw e

/-- `prepare` for a value with a matching rule, after it is read. -/
def prepareElement (rule : Nat) (value : Element) : Metered Result D (List Nat) :=
  if value.header.tag.length ≠ 1 then throw .unsupported
  else if value.header.constructed then throw .invalid
  else
    let tag := Element.tagByte value
    if rule = 1 then
      if tag ≠ 0x0c && tag ≠ 0x13 && tag ≠ 0x1c && tag ≠ 0x1e then throw .unsupported
      else Unicode.prepare t tag value.value (List.replicate workspace.scalarCapacity 0)
    else if tag ≠ 0x16 then throw .invalid
    else if value.value.length > workspace.scalarCapacity then throw .limit
    else do
      charge .limit value.value.length
      lift (foldIa5 value.value)

/-- `prepare`. -/
def prepareValue (a : NameAttribute) : Metered Result D (List Nat) :=
  let rule := matchingRule a.oid
  if rule = 0 then throw .unsupported
  else do
    let value ← lift (read sizeT ⟨sizeMax, sizeMax, 1, 1⟩ a.value)
    prepareElement t workspace rule value

def prepareLeft (first : NameAttribute) (left : LeftPreparation) :
    Metered Result D LeftPreparation := do
  if left ≠ .fresh then return left
  else
    match ← trial (prepareValue sizeT sizeMax t workspace first) with
    | .ok key => return .prepared key
    | .error e => if e = .unsupported then return .exact else throw e

def compareExact (first second : NameAttribute) : Metered Result D Comparison := do
  charge .limit first.value.length
  return if first.value = second.value then .matching else .undetermined

/-- `attribute_compare`, with the preparation that it leaves. -/
def attributeCompare (first second : NameAttribute) (left : LeftPreparation) :
    Metered Result D (Comparison × LeftPreparation) := do
  let left ← prepareLeft sizeT sizeMax t workspace first left
  match left with
  | .prepared key =>
    match ← trial (prepareValue sizeT sizeMax t workspace second) with
    | .ok key' =>
      charge .limit key.length
      return (if key = key' then .matching else .mismatch, left)
    | .error e =>
      if e = .unsupported then return (← compareExact first second, left) else throw e
  | _ => return (← compareExact first second, left)

def countLoop : (passes : Nat) → Reader → (count : Nat) → Metered Result D Nat
  | 0, _, count => pure count
  | passes + 1, reader, count => do
    match ← nextAttribute sizeT sizeMax limits reader with
    | none => return count
    | some (_, reader) =>
      if count = workspace.attributeCapacity then throw .limit
      else countLoop passes reader (count + 1)

/-- The loop over the right candidates of a left attribute: the marks when one matches, and
    whether one is undetermined. -/
def scanLoop (first : NameAttribute) : (passes : Nat) → Reader → (index : Nat) →
    (marks : List Bool) → LeftPreparation → (undetermined : Bool) →
    Metered Result D (Option (List Bool) × Bool)
  | 0, _, _, _, _, undetermined => pure (none, undetermined)
  | passes + 1, reader, index, marks, left, undetermined => do
    match ← nextAttribute sizeT sizeMax limits reader with
    | none => return (none, undetermined)
    | some (second, reader) =>
      if !marks.getD index true && first.oid = second.oid then
        let (pair, left) ← attributeCompare sizeT sizeMax t workspace first second left
        if pair = .matching then return (some (marks.set index true), undetermined)
        else
          scanLoop first passes reader (index + 1) marks left
            (undetermined || pair = .undetermined)
      else scanLoop first passes reader (index + 1) marks left undetermined

def rdnOutcome (seen count : Nat) (undetermined : Bool) : Comparison :=
  if seen ≠ count then .mismatch else if undetermined then .undetermined else .matching

def leftLoop (right : Bytes) (count : Nat) : (passes : Nat) → Reader → (seen : Nat) →
    (marks : List Bool) → (undetermined : Bool) → Metered Result D Comparison
  | 0, _, seen, _, undetermined => pure (rdnOutcome seen count undetermined)
  | passes + 1, reader, seen, marks, undetermined => do
    match ← nextAttribute sizeT sizeMax limits reader with
    | none => return rdnOutcome seen count undetermined
    | some (first, reader) =>
      if seen + 1 > count then return .mismatch
      else
        let b ← lift (readerInit limits right)
        match ← scanLoop sizeT sizeMax t limits workspace first right.length b 0 marks .fresh
            false with
        | (some marks, _) => leftLoop right count passes reader (seen + 1) marks undetermined
        | (none, true) => leftLoop right count passes reader (seen + 1) marks true
        | (none, false) => return .mismatch

/-- `rdn_compare`. -/
def rdnCompare (left right : Bytes) : Metered Result D Comparison := do
  let b ← lift (readerInit limits right)
  let count ← countLoop sizeT sizeMax limits workspace right.length b 0
  let a ← lift (readerInit limits left)
  leftLoop sizeT sizeMax t limits workspace right count left.length a 0
    (List.replicate count false) false

/-- `open_name`: `tc_x509_name_validate`. -/
def openName (input : Bytes) : Metered Result D (Limits × Reader) := do
  charge .limit input.length
  charge .limit input.length
  let opened ← lift (nameInit sizeT limits input)
  lift (validateLoop sizeT sizeMax opened.1 opened.2.rest.length opened.2)
  return opened

def nameOutcome (subtree ended undetermined : Bool) : Metered Result D Bool :=
  if !subtree && !ended then pure false
  else if undetermined then throw .unsupported
  else pure true

/-- The loop of `match` over the RDNs of both names. -/
def nameLoop (subtree : Bool) (la lb : Limits) : (passes : Nat) → (a b : Reader) →
    (undetermined : Bool) → Metered Result D Bool
  | 0, a, _, undetermined => nameOutcome subtree (a.rest = []) undetermined
  | passes + 1, a, b, undetermined =>
    match rdnNext sizeT sizeMax lb b with
    | .error .end => nameOutcome subtree (a.rest = []) undetermined
    | .error e => throw e
    | .ok (rdnB, b) =>
      match rdnNext sizeT sizeMax la a with
      | .error .end => pure false
      | .error e => throw e
      | .ok (rdnA, a) => do
        match ← rdnCompare sizeT sizeMax t limits workspace rdnA rdnB with
        | .mismatch => return false
        | .matching => nameLoop subtree la lb passes a b undetermined
        | .undetermined => nameLoop subtree la lb passes a b true

/-- `match`, after its argument checks. -/
def nameMatch (subtree : Bool) (left right : Bytes) : Metered Result D Bool := do
  let (la, a) ← openName sizeT sizeMax limits left
  let (lb, b) ← openName sizeT sizeMax limits right
  nameLoop sizeT sizeMax t limits workspace subtree la lb b.rest.length a b false

/-- `TC_X509_name_equal`. -/
def nameEqual (left right : Bytes) : Metered Result D Bool :=
  nameMatch sizeT sizeMax t limits workspace false left right

/-- `TC_X509_name_within`. -/
def nameWithin (name subtree : Bytes) : Metered Result D Bool :=
  nameMatch sizeT sizeMax t limits workspace true name subtree

end

inductive PreparesTo (sizeT sizeMax : Nat) (t : Unicode.Tables) (a : NameAttribute) :
    List Nat → Prop where
  | directory : matchingRule a.oid = 1 → read sizeT ⟨sizeMax, sizeMax, 1, 1⟩ a.value = .ok value →
      value.header.tag.length = 1 → value.header.constructed = false →
      Element.tagByte value ∈ [0x0c, 0x13, 0x1c, 0x1e] →
      Unicode.StringScalars (Element.tagByte value) value.value points →
      Unicode.StringPreparation t points key → PreparesTo sizeT sizeMax t a key
  | ia5 : matchingRule a.oid = 2 → read sizeT ⟨sizeMax, sizeMax, 1, 1⟩ a.value = .ok value →
      value.header.tag.length = 1 → value.header.constructed = false →
      Element.tagByte value = 0x16 → foldIa5 value.value = .ok key →
      PreparesTo sizeT sizeMax t a key

/-- Equal types, and values equal after preparation, or identical where the value is not
    prepared. -/
def AttributesEqual (sizeT sizeMax : Nat) (t : Unicode.Tables) (a b : NameAttribute) : Prop :=
  a.oid = b.oid ∧ ((∃ key, PreparesTo sizeT sizeMax t a key ∧ PreparesTo sizeT sizeMax t b key) ∨
      (¬∃ key, PreparesTo sizeT sizeMax t a key) ∧ a.value = b.value)

variable {sizeT sizeMax : Nat} {t : Unicode.Tables} {D : Type} {a b : NameAttribute}
  {s s' : Budgeted D} {limits : Limits} {workspace : NameWorkspace}

theorem stringScalars_unique {tag : Nat} {input : Bytes} {points points' : List Nat}
    (first : Unicode.StringScalars tag input points)
    (second : Unicode.StringScalars tag input points') : points = points' := by
  induction first generalizing points' with
  | done ended =>
    cases second with
    | done => rfl
    | more next _ =>
      rw [ended] at next
      cases next
  | more next _ ih =>
    cases second with
    | done ended =>
      rw [ended] at next
      cases next
    | more next' rest =>
      rw [next] at next'
      cases next'
      rw [ih rest]

theorem PreparesTo.unique {key key' : List Nat} (correct : t.Correct)
    (first : PreparesTo sizeT sizeMax t a key)
    (second : PreparesTo sizeT sizeMax t a key') : key = key' := by
  cases first with
  | directory rule found _ _ _ scalars form =>
    cases second with
    | directory _ found' _ _ _ scalars' form' =>
      cases found.symm.trans found'
      rw [stringScalars_unique scalars scalars'] at form
      rw [((Unicode.stringPreparation_iff correct).mp form).2.2,
        ((Unicode.stringPreparation_iff correct).mp form').2.2]
    | ia5 rule' => omega
  | ia5 rule found _ _ _ folded =>
    cases second with
    | directory rule' => omega
    | ia5 _ found' _ _ _ folded' =>
      cases found.symm.trans found'
      exact Except.ok.inj (folded.symm.trans folded')

variable {key : List Nat}

theorem PreparesTo.of_value (types : a.oid = b.oid) (values : a.value = b.value)
    (prepares : PreparesTo sizeT sizeMax t a key) : PreparesTo sizeT sizeMax t b key := by
  cases prepares with
  | directory rule found single primitive tag scalars form =>
    exact .directory (types ▸ rule) (values ▸ found) single primitive tag scalars form
  | ia5 rule found single primitive tag folded =>
    exact .ia5 (types ▸ rule) (values ▸ found) single primitive tag folded

theorem matchingRule_cases (oid : Bytes) :
    matchingRule oid = 0 ∨ matchingRule oid = 1 ∨ matchingRule oid = 2 := by
  rw [matchingRule]
  cases attributeSyntax oid <;> simp

theorem prepareElement_gives {value : Element} (correct : t.Correct)
    (known : matchingRule a.oid ≠ 0)
    (found : read sizeT ⟨sizeMax, sizeMax, 1, 1⟩ a.value = .ok value)
    (given : Gives (prepareElement t workspace (matchingRule a.oid) value) s key s') :
    PreparesTo sizeT sizeMax t a key := by
  unfold prepareElement at given
  split at given
  · exact absurd given gives_throw
  rename_i single
  split at given
  · exact absurd given gives_throw
  rename_i primitive
  rw [Bool.not_eq_true] at primitive
  dsimp only at given
  split at given
  · rename_i rule
    split at given
    · exact absurd given gives_throw
    · rename_i tag
      obtain ⟨points, scalars, form⟩ := Unicode.prepare_gives correct given
      refine .directory rule found (not_not.mp single) primitive ?_ scalars form
      simp only [Bool.and_eq_true, decide_eq_true_eq, List.mem_cons, List.not_mem_nil, or_false]
        at tag ⊢
      omega
  · rename_i other
    have rule : matchingRule a.oid = 2 := by
      rcases matchingRule_cases a.oid with none_rule | first | second
      · exact absurd none_rule known
      · exact absurd first other
      · exact second
    split at given
    · exact absurd given gives_throw
    · rename_i tag
      split at given
      · exact absurd given gives_throw
      · simp only [gives_bind, gives_charge, gives_lift] at given
        obtain ⟨_, _, _, folded, _⟩ := given
        exact .ia5 rule found (not_not.mp single) primitive (not_not.mp tag) folded

theorem prepareValue_gives (correct : t.Correct)
    (given : Gives (prepareValue sizeT sizeMax t workspace a) s key s') :
    PreparesTo sizeT sizeMax t a key := by
  unfold prepareValue at given
  dsimp only at given
  split at given
  · exact absurd given gives_throw
  · rename_i known
    simp only [gives_bind, gives_lift] at given
    obtain ⟨value, _, ⟨found, _⟩, given⟩ := given
    exact prepareElement_gives correct known found given

theorem foldIa5_supported (value : Bytes) : foldIa5 value ≠ .error .unsupported := by
  induction value with
  | nil => nofun
  | cons b rest ih =>
    rw [foldIa5]
    split
    · nofun
    · split
      · nofun
      · rename_i e inner
        rw [inner] at ih
        exact ih

theorem prepareElement_supported {rule : Nat} {value : Element}
    (single : value.header.tag.length = 1)
    (supported : rule = 1 → Element.tagByte value ∈ [0x0c, 0x13, 0x1c, 0x1e]) :
    Excludes .unsupported
      (prepareElement t workspace rule value : Metered Result D (List Nat)) := by
  rw [prepareElement, if_neg (not_not.mpr single)]
  split
  · exact .of_throw (by decide)
  · dsimp only
    split
    · rename_i first
      have tag := supported first
      rw [if_neg (by simp only [List.mem_cons, List.not_mem_nil, or_false] at tag; simp; omega)]
      exact Unicode.prepare_supported _ _ _
    · split
      · exact .of_throw (by decide)
      · split
        · exact .of_throw (by decide)
        · exact (Unicode.limit_supported _).bind fun _ => .of_lift (foldIa5_supported _)

theorem prepareValue_supported (prepares : PreparesTo sizeT sizeMax t a key) : Excludes .unsupported
      (prepareValue sizeT sizeMax t workspace a : Metered Result D (List Nat)) := by
  have ruled : matchingRule a.oid ≠ 0 := by
    cases prepares with
    | directory rule | ia5 rule => omega
  simp only [prepareValue, if_neg ruled]
  cases prepares with
  | directory rule found single _ tag _ _ =>
    rw [found]
    exact prepareElement_supported single fun _ => tag
  | ia5 rule found single _ tag _ =>
    rw [found]
    exact prepareElement_supported single fun first => by omega

open Classical in
noncomputable def keyOf (sizeT sizeMax : Nat) (t : Unicode.Tables) (a : NameAttribute) :
    Option (List Nat) :=
  if prepares : ∃ key, PreparesTo sizeT sizeMax t a key then some prepares.choose else none

noncomputable def classOf (sizeT sizeMax : Nat) (t : Unicode.Tables) (a : NameAttribute) :
    Bytes × (List Nat ⊕ Bytes) :=
  (a.oid, (keyOf sizeT sizeMax t a).elim (.inr a.value) .inl)

noncomputable def pairOf (sizeT sizeMax : Nat) (t : Unicode.Tables) (a b : NameAttribute) :
    Comparison :=
  if a.oid ≠ b.oid then .mismatch
  else
    match keyOf sizeT sizeMax t a, keyOf sizeT sizeMax t b with
    | some key, some key' => if key = key' then .matching else .mismatch
    | _, _ => if a.value = b.value then .matching else .undetermined

theorem keyOf_iff (correct : t.Correct) :
    keyOf sizeT sizeMax t a = some key ↔ PreparesTo sizeT sizeMax t a key := by
  rw [keyOf]
  split
  · rename_i prepares
    rw [Option.some.injEq]
    constructor
    · rintro rfl
      exact prepares.choose_spec
    · exact fun given => prepares.choose_spec.unique correct given
  · rename_i missing
    exact ⟨nofun, fun given => absurd ⟨key, given⟩ missing⟩

theorem keyOf_none : keyOf sizeT sizeMax t a = none ↔ ¬∃ key, PreparesTo sizeT sizeMax t a key := by
  rw [keyOf]
  split
  · rename_i prepares
    exact ⟨nofun, fun missing => absurd prepares missing⟩
  · rename_i missing
    exact ⟨fun _ => missing, fun _ => rfl⟩

theorem keyOf_congr (correct : t.Correct) (types : a.oid = b.oid) (values : a.value = b.value) :
    keyOf sizeT sizeMax t a = keyOf sizeT sizeMax t b := by
  cases outcome : keyOf sizeT sizeMax t a with
  | some key =>
    exact ((keyOf_iff correct).mpr (((keyOf_iff correct).mp outcome).of_value types values)).symm
  | none =>
    rw [keyOf_none] at outcome
    symm
    rw [keyOf_none]
    rintro ⟨key, prepares⟩
    exact outcome ⟨key, prepares.of_value types.symm values.symm⟩

theorem pairOf_matching (correct : t.Correct) : pairOf sizeT sizeMax t a b = .matching ↔
    classOf sizeT sizeMax t a = classOf sizeT sizeMax t b := by
  rw [pairOf, classOf, classOf, Prod.mk.injEq]
  by_cases types : a.oid = b.oid
  · simp only [types, ne_eq, not_true_eq_false, if_false, true_and]
    cases left : keyOf sizeT sizeMax t a with
    | some key =>
      cases right : keyOf sizeT sizeMax t b with
      | some key' => simp
      | none =>
        have other : a.value ≠ b.value := by
          intro values
          rw [keyOf_congr correct types values, right] at left
          cases left
        simp [other]
    | none =>
      cases right : keyOf sizeT sizeMax t b with
      | some key' =>
        have other : a.value ≠ b.value := by
          intro values
          rw [keyOf_congr correct types values, right] at left
          cases left
        simp [other]
      | none => simp
  · simp [types]

theorem pairOf_equivalence (correct : t.Correct) :
    Equivalence (Pairing.Same (pairOf sizeT sizeMax t)) := by
  have same : ∀ a b, Pairing.Same (pairOf sizeT sizeMax t) a b ↔
      classOf sizeT sizeMax t a = classOf sizeT sizeMax t b :=
    fun _ _ => pairOf_matching correct
  refine ⟨fun a => (same a a).mpr rfl, fun first => ?_, fun first second => ?_⟩
  · exact (same _ _).mpr ((same _ _).mp first).symm
  · exact (same _ _).mpr (((same _ _).mp first).trans ((same _ _).mp second))

theorem pairOf_equal (correct : t.Correct) : pairOf sizeT sizeMax t a b = .matching ↔
    AttributesEqual sizeT sizeMax t a b := by
  rw [pairOf_matching correct, classOf, classOf, Prod.mk.injEq, AttributesEqual, ← keyOf_none]
  refine and_congr_right fun types => ?_
  cases left : keyOf sizeT sizeMax t a with
  | some key =>
    have prepares := (keyOf_iff correct).mp left
    constructor
    · intro same
      cases right : keyOf sizeT sizeMax t b with
      | some key' =>
        rw [right] at same
        cases same
        exact .inl ⟨key, prepares, (keyOf_iff correct).mp right⟩
      | none =>
        rw [right] at same
        cases same
    · rintro (⟨key', first, second⟩ | ⟨missing, _⟩)
      · rw [(keyOf_iff correct).mpr second, prepares.unique correct first]
        rfl
      · cases missing
  | none =>
    constructor
    · intro same
      cases right : keyOf sizeT sizeMax t b with
      | some key' =>
        rw [right] at same
        cases same
      | none =>
        rw [right] at same
        exact .inr ⟨rfl, Sum.inr.inj same⟩
    · rintro (⟨key', first, _⟩ | ⟨_, values⟩)
      · rw [(keyOf_iff correct).mpr first] at left
        cases left
      · rw [← keyOf_congr correct types values, left, values]

end TinyCrypto.X509
