import TinyCrypto.Crl.Records
import TinyCrypto.Library.Ranking

/-! # Comparing two CRLs

`x509_crl_evidence.c` and `x509_crl.c`: the order of CRL numbers, equal scopes, compatible deltas
and equal contents. Name comparison and hashing are given. A comparison has a price, which an
early exit keeps low.
-/

namespace TinyCrypto.Crl

open Library

section

variable {E A B : Type}

def andThen (p : Priced (Except E A)) (f : A → Priced (Except E B)) : Priced (Except E B) :=
  match p.result with
  | .error e => ⟨p.cost, .error e⟩
  | .ok a => ⟨p.cost + (f a).cost, (f a).result⟩

def free (r : Except E A) : Priced (Except E A) := ⟨0, r⟩

theorem andThen_ok {p : Priced (Except E A)} {f : A → Priced (Except E B)} {b : B} :
    (andThen p f).result = .ok b ↔ ∃ a, p.result = .ok a ∧ (f a).result = .ok b := by
  unfold andThen
  split
  · rename_i e failed
    simp [failed]
  · rename_i a given
    simp [given]

end

/-- `tc_pki_compare`. -/
def spanOrder : Bytes → Bytes → Int
  | [], [] => 0
  | [], _ :: _ => -1
  | _ :: _, [] => 1
  | a :: left, b :: right =>
    if a < b then -1 else if b < a then 1 else spanOrder left right

/-- `tc_pki_span_compare`. -/
def spanCompare (left right : Bytes) : Priced (Except Result Int) :=
  ⟨min left.length right.length + 1, .ok (spanOrder left right)⟩

def withoutZero (number : Bytes) : Bytes := match number with
  | 0 :: b :: rest => b :: rest
  | _ => number

/-- `tc_x509_crl_number_compare`. -/
def numberCompare (left right : Bytes) : Priced (Except Result Int) :=
  if left = [] || right = [] then free (.error .argument)
  else
    andThen ⟨1, .ok ()⟩ fun _ =>
      let left := withoutZero left
      let right := withoutZero right
      if left.length ≠ right.length then
        free (.ok (if left.length < right.length then -1 else 1))
      else spanCompare left right

/-- `TC_X509_authority_key_identifier`. -/
structure Authority where
  hasKeyIdentifier : Bool
  keyIdentifier : Bytes
  issuer : Bytes
  serial : Bytes
  deriving DecidableEq

/-- The digest of `TC_X509_crl_prepared`, beside its hash algorithm. -/
structure Prepared where
  hash : Nat
  digest : Bytes
  deriving DecidableEq

/-- The parts of `TC_X509_crl` and `TC_X509_crl_extensions` that comparisons read. -/
structure Details where
  issuer : Bytes
  number : Bytes
  baseNumber : Bytes
  distributionEncoded : Bytes
  authority : Authority
  tbs : Bytes
  prepared : Option Prepared
  deriving DecidableEq

/-- `tc_hash_info_get`, `tc_hash_available` and `tc_hash_digest_parts`. -/
structure Hashes where
  digestLength : Nat → Option Nat
  available : Nat → Bool
  digest : Nat → Bytes → Option Bytes

structure Outside where
  /-- `TC_X509_name_equal`. -/
  nameEqual : Bytes → Bytes → Priced (Except Result Bool)
  hashes : Hashes

section

variable (o : Outside)

def extAuthority : Nat := 4

/-- `tc_x509_crl_scope_equal`, of records with their details. -/
def scopeEqual (left : Record) (leftInfo : Details) (right : Record) (rightInfo : Details) :
    Priced (Except Result Bool) :=
  if left.has extDistribution ≠ right.has extDistribution then free (.ok false)
  else
    andThen (spanCompare leftInfo.distributionEncoded rightInfo.distributionEncoded) fun order =>
      if order ≠ 0 then free (.ok false) else o.nameEqual leftInfo.issuer rightInfo.issuer

def whenEqual (left right : Bytes) (rest : Priced (Except Result Bool)) :
    Priced (Except Result Bool) :=
  andThen (spanCompare left right) fun order => if order ≠ 0 then free (.ok false) else rest

/-- `tc_x509_crl_delta_compatible`. -/
def deltaCompatible (base : Record) (baseInfo : Details) (delta : Record) (deltaInfo : Details) :
    Priced (Except Result Bool) :=
  let policies (r : Result) (rest : Priced (Except Result Bool)) :=
    if r ≠ .ok then free (.error r) else rest
  policies (extensionPolicy base) <| policies (extensionPolicy delta) <|
    if base.has extDelta || !base.has extNumber || !(delta.has extNumber && delta.has extDelta) ||
        base.has extDistribution ≠ delta.has extDistribution ||
        base.has extAuthority ≠ delta.has extAuthority then free (.ok false)
    else
      andThen (numberCompare baseInfo.number deltaInfo.baseNumber) fun order =>
        if order < 0 then free (.ok false)
        else
          andThen (numberCompare baseInfo.number deltaInfo.number) fun order =>
            if order ≥ 0 then free (.ok false)
            else
              andThen (scopeEqual o base baseInfo delta deltaInfo) fun equal =>
                let left := baseInfo.authority
                let right := deltaInfo.authority
                if !equal then free (.ok false)
                else if left.hasKeyIdentifier ≠ right.hasKeyIdentifier then free (.ok false)
                else
                  whenEqual left.keyIdentifier right.keyIdentifier <|
                    whenEqual left.issuer right.issuer <|
                      whenEqual left.serial right.serial <| free (.ok true)

def preparedOk (h : Hashes) (prepared : Prepared) : Except Result Unit :=
  match h.digestLength prepared.hash with
  | none => .error .unsupported
  | some length =>
    if prepared.digest = [] || prepared.digest.length ≠ length then .error .argument else .ok ()

def preparedEqual (prepared : Prepared) (tbs : Bytes) : Priced (Except Result Bool) :=
  andThen (free (preparedOk o.hashes prepared)) fun _ =>
    if !o.hashes.available prepared.hash then free (.error .unsupported)
    else
      andThen ⟨tbs.length, .ok ()⟩ fun _ =>
        match o.hashes.digest prepared.hash tbs with
        | none => free (.error .argument)
        | some digest => whenEqual prepared.digest digest <| free (.ok true)

/-- `tc_x509_crl_content_equal`. -/
def contentEqual (left right : Details) : Priced (Except Result Bool) :=
  match left.prepared, right.prepared with
  | none, none => whenEqual left.tbs right.tbs <| free (.ok true)
  | some prepared, none => preparedEqual o prepared right.tbs
  | none, some prepared => preparedEqual o prepared left.tbs
  | some first, some second =>
    andThen (free (preparedOk o.hashes first)) fun _ =>
      if second.hash ≠ first.hash then free (.error .unsupported)
      else
        andThen (free (preparedOk o.hashes second)) fun _ =>
          whenEqual first.digest second.digest <| free (.ok true)

def compareRecords {N K A : Type} (c : Primitives N K) (details : List Details)
    (compare : Record → Details → Record → Details → Priced (Except Result A)) (i j : Nat) :
    Priced (Except Result A) :=
  match c.records[i]?, details[i]?, c.records[j]?, details[j]? with
  | some left, some leftInfo, some right, some rightInfo => compare left leftInfo right rightInfo
  | _, _, _, _ => free (.error .argument)

theorem compareRecords_ok {N K A : Type} {c : Primitives N K} {details : List Details} {i j : Nat}
    {a : A} {compare : Record → Details → Record → Details → Priced (Except Result A)} :
    (compareRecords c details compare i j).result = .ok a ↔
      ∃ r info r' info', c.records[i]? = some r ∧ details[i]? = some info ∧
        c.records[j]? = some r' ∧ details[j]? = some info' ∧
          (compare r info r' info').result = .ok a := by
  unfold compareRecords
  split
  · rename_i r info r' info' one two three four
    simp [one, two, three, four]
  · rename_i missing
    constructor
    · intro given
      cases given
    · rintro ⟨r, info, r', info', one, two, three, four, _⟩
      exact absurd four (missing r info r' info' one two three)

def comparing {N K : Type} (c : Primitives N K) (details : List Details) : Primitives N K :=
  { c with
    scopeEqual := compareRecords c details (scopeEqual o)
    compatible := compareRecords c details (deltaCompatible o)
    numberCompare := compareRecords c details fun _ left _ right =>
      numberCompare left.number right.number
    contentEqual := compareRecords c details fun _ left _ right => contentEqual o left right }

end

def numberKey (number : Bytes) : ℕ ×ₗ List ℕ :=
  toLex ((withoutZero number).length, (withoutZero number).map UInt8.toNat)

theorem spanOrder_sign (left right : Bytes) :
    spanOrder left right = orderSign (left.map UInt8.toNat) (right.map UInt8.toNat) := by
  induction left generalizing right with
  | nil =>
    cases right with
    | nil => decide
    | cons b right => exact (orderSign_of_lt (List.nil_lt_cons _ _)).symm
  | cons a left ih =>
    cases right with
    | nil => exact (orderSign_of_gt (List.nil_lt_cons _ _)).symm
    | cons b right =>
      unfold spanOrder
      simp only [List.map_cons, UInt8.lt_iff_toNat_lt]
      rcases Nat.lt_trichotomy a.toNat b.toNat with less | same | greater
      · rw [if_pos less, orderSign_of_lt (List.cons_lt_cons_iff.mpr (.inl less))]
      · rw [if_neg (by omega), if_neg (by omega), ih, same]
        apply orderSign_congr <;> simp
      · rw [if_neg (by omega), if_pos greater,
          orderSign_of_gt (List.cons_lt_cons_iff.mpr (.inl greater))]

theorem spanOrder_zero {left right : Bytes} : spanOrder left right = 0 ↔ left = right := by
  rw [spanOrder_sign, orderSign_zero]
  exact (List.map_injective_iff.mpr fun _ _ => UInt8.toNat_inj.mp).eq_iff

theorem numberKey_sign (left right : Bytes) : orderSign (numberKey left) (numberKey right) =
      if (withoutZero left).length ≠ (withoutZero right).length then
        if (withoutZero left).length < (withoutZero right).length then -1 else 1
      else spanOrder (withoutZero left) (withoutZero right) := by
  rcases Nat.lt_trichotomy (withoutZero left).length (withoutZero right).length with
    less | same | greater
  · rw [if_pos less.ne, if_pos less]
    exact orderSign_of_lt (Prod.Lex.toLex_lt_toLex.mpr (.inl less))
  · rw [if_neg (not_not.mpr same), spanOrder_sign]
    apply orderSign_congr <;> simp [numberKey, Prod.Lex.toLex_lt_toLex, same]
  · rw [if_pos greater.ne', if_neg greater.not_gt]
    exact orderSign_of_gt (Prod.Lex.toLex_lt_toLex.mpr (.inl greater))

theorem numberCompare_sign {left right : Bytes} {order : Int} :
    (numberCompare left right).result = .ok order ↔
      left ≠ [] ∧ right ≠ [] ∧ order = orderSign (numberKey left) (numberKey right) := by
  unfold numberCompare
  split
  · rename_i empty
    simp only [Bool.or_eq_true, decide_eq_true_eq] at empty
    constructor
    · intro given
      cases given
    · rintro ⟨some, some', _⟩
      exact absurd empty (by simp [some, some'])
  · rename_i both
    simp only [Bool.or_eq_true, decide_eq_true_eq, not_or] at both
    have answers : (andThen ⟨1, .ok ()⟩ fun _ =>
        if (withoutZero left).length ≠ (withoutZero right).length then
          free (.ok (if (withoutZero left).length < (withoutZero right).length then -1 else 1))
        else spanCompare (withoutZero left) (withoutZero right)).result =
          (.ok (orderSign (numberKey left) (numberKey right)) : Except Result Int) := by
      rw [numberKey_sign, andThen_ok]
      refine ⟨(), rfl, ?_⟩
      split <;> rfl
    dsimp only at answers ⊢
    rw [answers, Except.ok.injEq, eq_comm]
    simp only [both.1, both.2, ne_eq, not_false_eq_true, true_and]

theorem scopeEqual_result (o : Outside) (left : Record) (leftInfo : Details) (right : Record)
    (rightInfo : Details) : (scopeEqual o left leftInfo right rightInfo).result =
      if left.has extDistribution = right.has extDistribution ∧
        leftInfo.distributionEncoded = rightInfo.distributionEncoded then
        (o.nameEqual leftInfo.issuer rightInfo.issuer).result else .ok false := by
  unfold scopeEqual
  split
  · rename_i presence
    rw [if_neg (fun both => presence both.1)]
    rfl
  · rename_i presence
    unfold andThen spanCompare
    dsimp only
    by_cases same : leftInfo.distributionEncoded = rightInfo.distributionEncoded
    · rw [if_neg (not_not.mpr (spanOrder_zero.mpr same)), if_pos ⟨not_not.mp presence, same⟩]
    · rw [if_pos (fun zero => same (spanOrder_zero.mp zero)), if_neg (fun both => same both.2)]
      rfl

end TinyCrypto.Crl
