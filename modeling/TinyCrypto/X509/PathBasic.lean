import Mathlib.Order.Interval.Finset.Nat
import TinyCrypto.X509.PathInput

/-! # The basic certificate pass

`tc_x509_path_basic` walks the path once. It keeps a running minimum of the
path lengths seen so far, lowered by one at each intermediate that is not
self-issued, and a second counter for the anchor's limit.
-/

namespace TinyCrypto.X509

open Library Library.Program Library.Metered

/-- `tc_pki_signature_error`. -/
def signatureError : Result → Result
  | .limit => .limit
  | .unsupported => .unsupported
  | .invalid | .more => .invalid
  | _ => .error

/-- `tc_pki_signature_status`, for results other than VALID. -/
def signatureStatus : Result → Result
  | .invalid => .invalid
  | .unsupported => .unsupported
  | .limit => .limit
  | _ => .argument

section

variable (p : Primitives) (input : PathInput)

/-- `TC_X509_issuer_check`. -/
def issuerCheck (certificate : Certificate) (issuer : TrustAnchor) : PathProgram Result := do
  match input.signatures with
  | none => return .unsupported
  | some verify =>
    match ← answer (.error .limit) (p.nameEqual certificate.issuer issuer.name) with
    | .error e => return signatureError e
    | .ok false => return .invalid
    | .ok true => answer .limit (verify certificate issuer.publicKey)

/-- One comparison of entry `i` with an earlier entry. -/
def distinctFrom (i j : Nat) : PathProgram (Turn Unit Bool) := do
  charge .limit 1
  if (pathEncoded input i).length = (pathEncoded input j).length then
    charge .limit (pathEncoded input i).length
    if pathEncoded input i = pathEncoded input j then return .leave false
    else return .next ()
  else return .next ()

/-- The first loop of `tc_x509_path_basic` at entry `i`: `total` bytes so far. -/
def distinctEntry (i total : Nat) : PathProgram (Turn Nat Bool) := do
  let length := (pathEncoded input i).length
  if length = 0 then throw .argument
  else if length > input.maxInput - total then throw .limit
  else
    charge .limit length
    match ← forRange (fun j _ => distinctFrom input i j) 0 i () with
    | .next _ => return .next (total + length)
    | .leave accepted => return .leave accepted

def mayIssue (extensions : Summary) : Bool :=
  extensions.present .basicConstraints && extensions.basic.ca &&
    !(extensions.present .keyUsage && extensions.keyUsage &&& keyUsageCertSign = 0)

structure Link where
  issuer : TrustAnchor
  remaining : Nat
  anchorRemaining : Nat

/-- Lower the counters at an intermediate that is not self-issued; `none` is an
    exhausted counter. -/
def countIntermediate (link : Link) : Option Link := if link.remaining = 0 then none
  else if input.anchorPathLen.isSome then
    if link.anchorRemaining = 0 then none
    else some { link with remaining := link.remaining - 1,
                          anchorRemaining := link.anchorRemaining - 1 }
  else some { link with remaining := link.remaining - 1 }

def capRemaining (extensions : Summary) (link : Link) : Link :=
  match extensions.basic.pathLength with
  | none => link
  | some length =>
    if length < link.remaining then { link with remaining := length } else link

/-- What an intermediate does to the counters; `none` rejects the path. -/
def intermediate (extensions : Summary) (link : Link) : Option Link := if mayIssue extensions then
    (if extensions.selfIssued then some link else countIntermediate input link).map
      (capRemaining extensions)
  else none

/-- The part of `tc_x509_path_basic` for entries other than the last. -/
def basicIntermediate (i : Nat) (certificate : Certificate) (link : Link) :
    PathProgram (Turn Link Bool) := do
  if i + 1 < input.count then
    let extensions ← pathSummaryOf p input i certificate
    match intermediate input extensions link with
    | none => return .leave false
    | some link =>
      return .next { link with issuer := ⟨certificate.subject, certificate.publicKey⟩ }
  else return .next { link with issuer := ⟨certificate.subject, certificate.publicKey⟩ }

/-- The second loop of `tc_x509_path_basic` at entry `i`. -/
def basicEntry (i : Nat) (link : Link) : PathProgram (Turn Link Bool) := do
  let certificate ← pathCertificate p input i
  charge .limit 1
  let valid ← lift (timeWindow input.at_ input.clockSkewSeconds certificate.notBefore
    certificate.notAfter)
  if !valid then return .leave false
  else
    match ← issuerCheck p input certificate link.issuer with
    | .ok => basicIntermediate p input i certificate link
    | .invalid => return .leave false
    | failure => throw (signatureStatus failure)

/-- `tc_x509_path_basic`. -/
def pathBasic : PathProgram Bool := do
  if input.count = 0 then throw .argument
  else if input.count > input.maxCertificates then throw .limit
  else
    match ← forRange (distinctEntry input) 0 input.count 0 with
    | .leave accepted => return accepted
    | .next _ =>
      let start : Link := ⟨input.anchor, input.count - 1, input.anchorPathLen.getD 0⟩
      match ← forRange (basicEntry p input) 0 input.count start with
      | .leave accepted => return accepted
      | .next _ => return true

/-- Who issues entry `index`: the anchor, or the entry before it. -/
def issuerAt : Nat → Except Result TrustAnchor
  | 0 => .ok input.anchor
  | index + 1 => (certificateAt p input index).map fun c => ⟨c.subject, c.publicKey⟩

def IssuedBy (certificate : Certificate) (issuer : TrustAnchor) : Prop :=
  (p.nameEqual certificate.issuer issuer.name).result = .ok true ∧
    ∃ verify, input.signatures = some verify ∧ (verify certificate issuer.publicKey).result = .ok

/-- Subject and issuer of entry `index` are equal names. -/
def selfIssued (index : Nat) : Bool := match certificateAt p input index with
  | .ok certificate =>
    match (p.nameEqual certificate.subject certificate.issuer).result with
    | .ok equal => equal
    | .error _ => false
  | .error _ => false

/-- How many entries from `first` up to `stop` are not self-issued. -/
def notSelfIssued (first stop : Nat) : Nat :=
  ((Finset.Ico first stop).filter fun index => selfIssued p input index = false).card

/-- An intermediate's own part: basicConstraints with CA set, keyCertSign when
    keyUsage is present, and a path length that bounds the intermediates after
    it that are not self-issued. -/
structure IntermediateHolds (index : Nat) (extensions : Summary) : Prop where
  constrained : extensions.present .basicConstraints = true
  ca : extensions.basic.ca = true
  certSign : extensions.present .keyUsage = true → extensions.keyUsage &&& keyUsageCertSign ≠ 0
  pathLength : ∀ length, extensions.basic.pathLength = some length →
    notSelfIssued p input (index + 1) (input.count - 1) ≤ length

structure BasicHolds : Prop where
  distinct : input.encodings.Nodup
  inWindow : ∀ index < input.count, ∃ certificate, certificateAt p input index = .ok certificate ∧
      InWindow input.at_ input.clockSkewSeconds certificate.notBefore certificate.notAfter
  issued : ∀ index < input.count, ∃ certificate issuer,
    certificateAt p input index = .ok certificate ∧ issuerAt p input index = .ok issuer ∧
      IssuedBy p input certificate issuer
  intermediates : ∀ index, index + 1 < input.count → ∃ extensions,
    summaryAt p input index = .ok extensions ∧ IntermediateHolds p input index extensions
  anchorLength : ∀ length, input.anchorPathLen = some length →
    notSelfIssued p input 0 (input.count - 1) ≤ length

end

variable {p : Primitives} {input : PathInput}
variable {s s' : Budgeted Summaries}

theorem distinctFrom_gives {i j : Nat} {turn : Turn Unit Bool}
    (given : Gives (distinctFrom input i j) s turn s') : s'.data = s.data ∧
      turn.Ends (fun _ => pathEncoded input i ≠ pathEncoded input j)
        (fun accepted => accepted = false ∧ pathEncoded input i = pathEncoded input j) := by
  simp only [distinctFrom, gives_bind, gives_charge] at given
  obtain ⟨_, _, ⟨_, rfl⟩, given⟩ := given
  split at given
  · simp only [gives_bind, gives_charge] at given
    obtain ⟨_, _, ⟨_, rfl⟩, given⟩ := given
    split at given
    · rename_i same
      obtain ⟨rfl, rfl⟩ := gives_pure.mp given
      exact ⟨rfl, rfl, same⟩
    · rename_i differ
      obtain ⟨rfl, rfl⟩ := gives_pure.mp given
      exact ⟨rfl, differ⟩
  · rename_i lengths
    obtain ⟨rfl, rfl⟩ := gives_pure.mp given
    refine ⟨rfl, ?_⟩
    intro same
    exact lengths (by rw [same])

def DistinctBelow (input : PathInput) (stop : Nat) : Prop :=
  ∀ i j, j < i → i < stop → pathEncoded input i ≠ pathEncoded input j

theorem nodup_iff_distinctBelow : input.encodings.Nodup ↔ DistinctBelow input input.count := by
  rw [List.nodup_iff_getElem?_ne_getElem?]
  unfold DistinctBelow pathEncoded PathInput.count
  constructor
  · intro nodup i j below inside same
    apply nodup j i below inside
    rw [List.getElem?_eq_getElem (by omega), List.getElem?_eq_getElem inside]
    simpa [List.getD_eq_getElem?_getD, List.getElem?_eq_getElem (show j < input.encodings.length by omega),
      List.getElem?_eq_getElem inside] using same.symm
  · intro distinct j i below inside same
    apply distinct i j below inside
    rw [List.getD_eq_getElem?_getD, List.getD_eq_getElem?_getD, same]

theorem distinctEntry_gives {i total : Nat} {turn : Turn Nat Bool} (before : DistinctBelow input i)
    (given : Gives (distinctEntry input i total) s turn s') : s'.data = s.data ∧
      turn.Ends (fun _ => DistinctBelow input (i + 1))
        (fun accepted => accepted = false ∧ ¬ DistinctBelow input (i + 1)) := by
  simp only [distinctEntry] at given
  split at given
  · exact absurd given gives_throw
  split at given
  · exact absurd given gives_throw
  simp only [gives_bind, gives_charge] at given
  obtain ⟨_, _, ⟨_, rfl⟩, inner, middle, compared, given⟩ := given
  have looped : inner.Ends
      (fun _ => middle.data = s.data ∧ ∀ k < i, pathEncoded input i ≠ pathEncoded input k)
      (fun accepted => middle.data = s.data ∧ accepted = false ∧ ¬ DistinctBelow input (i + 1)) := by
    refine gives_forRange
      (fun j _ t => t.data = s.data ∧ ∀ k < j, pathEncoded input i ≠ pathEncoded input k)
      (fun accepted t => t.data = s.data ∧ accepted = false ∧ ¬ DistinctBelow input (i + 1))
      compared (Nat.zero_add i) ⟨rfl, by intro k below; omega⟩ ?_ ?_
    · intro j _ t _ t' _ kept here
      obtain ⟨same, differ⟩ := distinctFrom_gives here
      refine ⟨same.trans kept.1, ?_⟩
      intro k below
      rcases Nat.lt_succ_iff_lt_or_eq.mp below with below | rfl
      · exact kept.2 k below
      · exact differ
    · intro j _ t accepted t' inside kept here
      obtain ⟨same, rejected, equal⟩ := distinctFrom_gives here
      refine ⟨same.trans kept.1, rejected, ?_⟩
      intro distinct
      exact distinct i j inside (Nat.lt_succ_self i) equal
  cases inner with
  | next _ =>
    obtain ⟨rfl, rfl⟩ := gives_pure.mp given
    refine ⟨looped.1, ?_⟩
    intro a b below inside
    rcases Nat.lt_succ_iff_lt_or_eq.mp inside with inside | rfl
    · exact before a b below inside
    · exact looped.2 b below
  | leave accepted =>
    obtain ⟨rfl, rfl⟩ := gives_pure.mp given
    exact looped

theorem notSelfIssued_self (first : Nat) : notSelfIssued p input first first = 0 := by
  simp [notSelfIssued]

theorem notSelfIssued_succ {first stop : Nat} (ordered : first ≤ stop) :
    notSelfIssued p input first (stop + 1) =
      notSelfIssued p input first stop + if selfIssued p input stop then 0 else 1 := by
  unfold notSelfIssued
  rw [Nat.Ico_succ_right_eq_insert_Ico ordered, Finset.filter_insert]
  cases selfIssued p input stop with
  | true => simp
  | false => simp

theorem notSelfIssued_mono {first stop stop' : Nat} (ordered : stop ≤ stop') :
    notSelfIssued p input first stop ≤ notSelfIssued p input first stop' := by
  apply Finset.card_le_card
  apply Finset.filter_subset_filter
  exact Finset.Ico_subset_Ico_right ordered

theorem notSelfIssued_le (stop : Nat) : notSelfIssued p input 0 stop ≤ stop := by
  calc notSelfIssued p input 0 stop ≤ (Finset.Ico 0 stop).card := Finset.card_filter_le _ _
    _ = stop := by simp

/-- `k` more intermediates fit all path lengths below `stop`. -/
def Room (p : Primitives) (input : PathInput) (stop k : Nat) : Prop :=
  k + notSelfIssued p input 0 stop ≤ input.count - 1 ∧
    ∀ j < stop, ∀ extensions length, summaryAt p input j = .ok extensions →
      extensions.basic.pathLength = some length → k + notSelfIssued p input (j + 1) stop ≤ length

variable {extensions : Summary}

theorem room_succ {stop k : Nat} (summarized : summaryAt p input stop = .ok extensions) :
    Room p input (stop + 1) k ↔ Room p input stop (k + if selfIssued p input stop then 0 else 1) ∧
        ∀ length, extensions.basic.pathLength = some length → k ≤ length := by
  unfold Room
  rw [notSelfIssued_succ (Nat.zero_le stop)]
  constructor
  · rintro ⟨whole, each⟩
    refine ⟨⟨by omega, ?_⟩, ?_⟩
    · intro j below other length found bounded
      have := each j (by omega) other length found bounded
      rw [notSelfIssued_succ (by omega)] at this
      omega
    · intro length bounded
      have := each stop (by omega) extensions length summarized bounded
      rwa [notSelfIssued_self, Nat.add_zero] at this
  · rintro ⟨⟨whole, each⟩, own⟩
    refine ⟨by omega, ?_⟩
    intro j below other length found bounded
    rcases Nat.lt_succ_iff_lt_or_eq.mp below with below | rfl
    · have := each j below other length found bounded
      rw [notSelfIssued_succ (by omega)]
      omega
    · rw [summarized] at found
      cases found
      rw [notSelfIssued_self, Nat.add_zero]
      exact own length bounded

variable {stop : Nat}

theorem BasicHolds.room (holds : BasicHolds p input) (inside : stop < input.count) :
    Room p input stop 0 := by
  refine ⟨?_, ?_⟩
  · have : notSelfIssued p input 0 stop ≤ stop := notSelfIssued_le stop
    omega
  · intro j below extensions length found bounded
    obtain ⟨other, summarized, own⟩ := holds.intermediates j (by omega)
    rw [summarized] at found
    cases found
    calc 0 + notSelfIssued p input (j + 1) stop
        = notSelfIssued p input (j + 1) stop := Nat.zero_add _
      _ ≤ notSelfIssued p input (j + 1) (input.count - 1) := notSelfIssued_mono (by omega)
      _ ≤ length := own.pathLength length bounded

theorem summaryAt_selfIssued {index : Nat} (inside : index + 1 < input.count)
    (summarized : summaryAt p input index = .ok extensions) :
    extensions.selfIssued = selfIssued p input index := by
  unfold selfIssued
  cases hView : certificateAt p input index with
  | error e => simp [summaryAt, hView, bind, Except.bind] at summarized
  | ok certificate =>
    simp only [summaryAt, hView, summaryOf, bind, Except.bind] at summarized
    cases hFilled : (p.summarize certificate).result with
    | error e => simp [hFilled] at summarized
    | ok filled =>
      simp only [hFilled, inside, if_true] at summarized
      cases hSelf : (p.nameEqual certificate.subject certificate.issuer).result with
      | error e => simp [hSelf] at summarized
      | ok equal =>
        simp only [hSelf, pure, Except.pure, Except.ok.injEq] at summarized
        simp [← summarized, hSelf]

/-- An intermediate below `stop` may issue certificates. -/
def IssuersBelow (p : Primitives) (input : PathInput) (stop : Nat) : Prop :=
  ∀ j < stop, ∃ extensions, summaryAt p input j = .ok extensions ∧ mayIssue extensions = true

/-- The counters after the intermediates below `stop`. -/
structure Counted (p : Primitives) (input : PathInput) (stop : Nat) (link : Link) : Prop where
  issuers : IssuersBelow p input stop
  remaining : ∀ k, k ≤ link.remaining ↔ Room p input stop k
  anchorRemaining : ∀ length, input.anchorPathLen = some length →
    link.anchorRemaining + notSelfIssued p input 0 stop = length

variable {link : Link}

theorem capRemaining_le {k : Nat} : k ≤ (capRemaining extensions link).remaining ↔
      k ≤ link.remaining ∧ ∀ length, extensions.basic.pathLength = some length → k ≤ length := by
  unfold capRemaining
  cases extensions.basic.pathLength with
  | none => simp
  | some length =>
    simp only [Option.some.injEq, forall_eq']
    split
    · simp only
      omega
    · omega

@[simp] theorem capRemaining_anchorRemaining (extensions : Summary) (link : Link) :
    (capRemaining extensions link).anchorRemaining = link.anchorRemaining := by
  unfold capRemaining
  split
  · rfl
  · split <;> rfl

theorem countIntermediate_some {link link' : Link}
    (counted : countIntermediate input link = some link') : link.remaining = link'.remaining + 1 ∧
      ∀ length, input.anchorPathLen = some length →
        link.anchorRemaining = link'.anchorRemaining + 1 := by
  unfold countIntermediate at counted
  grind

theorem countIntermediate_none (exhausted : countIntermediate input link = none) :
    link.remaining = 0 ∨ (∃ length, input.anchorPathLen = some length) ∧ link.anchorRemaining = 0 := by
  unfold countIntermediate at exhausted
  simp only [← Option.isSome_iff_exists]
  grind

theorem mayIssue_iff : mayIssue extensions = true ↔ extensions.present .basicConstraints = true ∧
      extensions.basic.ca = true ∧
      (extensions.present .keyUsage = true → extensions.keyUsage &&& keyUsageCertSign ≠ 0) := by
  cases hUsage : extensions.present .keyUsage <;> simp [mayIssue, hUsage, and_assoc]

theorem Counted.intermediate_some {link link' : Link} (counted : Counted p input stop link)
    (inside : stop + 1 < input.count) (summarized : summaryAt p input stop = .ok extensions)
    (passed : intermediate input extensions link = some link') :
    Counted p input (stop + 1) link' := by
  unfold intermediate at passed
  split at passed
  · rename_i issues
    obtain ⟨middle, here, rfl⟩ := Option.map_eq_some_iff.mp passed
    rw [summaryAt_selfIssued inside summarized] at here
    refine ⟨?_, ?_, ?_⟩
    · intro j below
      rcases Nat.lt_succ_iff_lt_or_eq.mp below with below | rfl
      · exact counted.issuers j below
      · exact ⟨extensions, summarized, issues⟩
    · intro k
      rw [capRemaining_le, room_succ summarized, ← counted.remaining]
      cases hSelf : selfIssued p input stop with
      | true =>
        simp only [hSelf, if_true, Option.some.injEq] at here
        simp [here]
      | false =>
        simp only [hSelf, Bool.false_eq_true, if_false] at here
        simp [(countIntermediate_some here).1]
    · intro length limited
      have before := counted.anchorRemaining length limited
      rw [notSelfIssued_succ (Nat.zero_le stop), capRemaining_anchorRemaining]
      cases hSelf : selfIssued p input stop with
      | true =>
        simp only [hSelf, if_true, Option.some.injEq] at here
        simp only [if_true, ← here]
        omega
      | false =>
        simp only [hSelf, Bool.false_eq_true, if_false] at here
        have lowered := (countIntermediate_some here).2 length limited
        simp only [Bool.false_eq_true, if_false]
        omega
  · cases passed

theorem Counted.intermediate_none (counted : Counted p input stop link)
    (inside : stop + 1 < input.count) (summarized : summaryAt p input stop = .ok extensions)
    (rejected : intermediate input extensions link = none) : ¬ BasicHolds p input := by
  intro holds
  obtain ⟨other, found, own⟩ := holds.intermediates stop inside
  rw [summarized] at found
  cases found
  have issues : mayIssue extensions = true :=
    mayIssue_iff.mpr ⟨own.constrained, own.ca, own.certSign⟩
  have room := (room_succ summarized).mp (holds.room inside)
  simp only [intermediate, issues, if_true, Option.map_eq_none_iff] at rejected
  rw [summaryAt_selfIssued inside summarized] at rejected
  cases hSelf : selfIssued p input stop with
  | true => simp [hSelf] at rejected
  | false =>
    simp only [hSelf, Bool.false_eq_true, if_false] at rejected room
    have one : 1 ≤ link.remaining := (counted.remaining 1).mpr (by simpa using room.1)
    rcases countIntermediate_none rejected with none | ⟨⟨length, limited⟩, none⟩
    · omega
    · have before := counted.anchorRemaining length limited
      have whole := holds.anchorLength length limited
      have step : notSelfIssued p input 0 (stop + 1) = notSelfIssued p input 0 stop + 1 := by
        rw [notSelfIssued_succ (Nat.zero_le stop), hSelf]
        rfl
      have rest : notSelfIssued p input 0 (stop + 1) ≤ notSelfIssued p input 0 (input.count - 1) :=
        notSelfIssued_mono (by omega)
      omega

variable {certificate : Certificate}

theorem issuerCheck_gives {issuer : TrustAnchor} {result : Result}
    (given : Gives (issuerCheck p input certificate issuer) s result s') :
    s'.data = s.data ∧ (result = .ok → IssuedBy p input certificate issuer) ∧
      (result = .invalid → ¬ IssuedBy p input certificate issuer) := by
  unfold issuerCheck at given
  cases hProvider : input.signatures with
  | none =>
    simp only [hProvider, gives_pure] at given
    obtain ⟨rfl, rfl⟩ := given
    simp
  | some verify =>
    simp only [hProvider, gives_bind] at given
    obtain ⟨equal, middle, compared, given⟩ := given
    obtain ⟨compared, kept⟩ := gives_answer compared
    unfold IssuedBy
    simp only [hProvider, Option.some.injEq, exists_eq_left']
    cases equal with
    | error e =>
      obtain ⟨rfl, rfl⟩ := gives_pure.mp given
      refine ⟨kept, ?_, ?_⟩
      · intro valid
        unfold signatureError at valid
        split at valid <;> cases valid
      · rintro invalid ⟨same, -⟩
        rcases compared with limit | result
        · cases limit
          simp [signatureError] at invalid
        · rw [same] at result
          cases result
    | ok equal =>
      have same : (p.nameEqual certificate.issuer issuer.name).result = .ok equal := by
        rcases compared with limit | result
        · cases limit
        · exact result.symm
      cases equal with
      | false =>
        obtain ⟨rfl, rfl⟩ := gives_pure.mp given
        simp [same, kept]
      | true =>
        obtain ⟨verified, kept'⟩ := gives_answer given
        refine ⟨kept'.trans kept, ?_, ?_⟩
        · rintro rfl
          rcases verified with limit | verified
          · cases limit
          · exact ⟨same, verified.symm⟩
        · rintro rfl ⟨-, valid⟩
          rcases verified with limit | verified
          · cases limit
          · rw [valid] at verified
            cases verified

/-- The second loop before entry `i`. -/
structure BasicBelow (p : Primitives) (input : PathInput) (i : Nat) (link : Link)
    (summaries : Summaries) : Prop where
  sound : SummariesSound p input summaries
  inWindow : ∀ index < i, ∃ certificate, certificateAt p input index = .ok certificate ∧
    InWindow input.at_ input.clockSkewSeconds certificate.notBefore certificate.notAfter
  issued : ∀ index < i, ∃ certificate issuer, certificateAt p input index = .ok certificate ∧
    issuerAt p input index = .ok issuer ∧ IssuedBy p input certificate issuer
  issuer : issuerAt p input i = .ok link.issuer
  counted : Counted p input (min i (input.count - 1)) link

theorem BasicBelow.start {summaries : Summaries} (sound : SummariesSound p input summaries) :
    BasicBelow p input 0 ⟨input.anchor, input.count - 1, input.anchorPathLen.getD 0⟩ summaries := by
  refine ⟨sound, by simp, by simp, rfl, ?_⟩
  rw [Nat.zero_min]
  refine ⟨by simp [IssuersBelow], ?_, ?_⟩
  · intro k
    simp [Room, notSelfIssued_self]
  · intro length limited
    simp [limited, notSelfIssued_self]

theorem BasicBelow.next {i : Nat} {link link' : Link} {summaries summaries' : Summaries}
    (below : BasicBelow p input i link summaries) (sound : SummariesSound p input summaries')
    (view : certificateAt p input i = .ok certificate)
    (inWindow : InWindow input.at_ input.clockSkewSeconds certificate.notBefore certificate.notAfter)
    (issued : IssuedBy p input certificate link.issuer)
    (issuer : link'.issuer = ⟨certificate.subject, certificate.publicKey⟩)
    (counted : Counted p input (min (i + 1) (input.count - 1)) link') :
    BasicBelow p input (i + 1) link' summaries' := by
  refine ⟨sound, ?_, ?_, ?_, counted⟩
  · intro index inside
    rcases Nat.lt_succ_iff_lt_or_eq.mp inside with inside | rfl
    · exact below.inWindow index inside
    · exact ⟨certificate, view, inWindow⟩
  · intro index inside
    rcases Nat.lt_succ_iff_lt_or_eq.mp inside with inside | rfl
    · exact below.issued index inside
    · exact ⟨certificate, link.issuer, view, below.issuer, issued⟩
  · simp [issuerAt, view, issuer, Except.map]

theorem Counted.of_counters {link link' : Link} (counted : Counted p input stop link)
    (remaining : link'.remaining = link.remaining)
    (anchorRemaining : link'.anchorRemaining = link.anchorRemaining) :
    Counted p input stop link' := by
  refine ⟨counted.issuers, ?_, ?_⟩
  · rw [remaining]
    exact counted.remaining
  · rw [anchorRemaining]
    exact counted.anchorRemaining

theorem basicIntermediate_gives {i : Nat} {turn : Turn Link Bool} (inside : i < input.count)
    (counted : Counted p input (min i (input.count - 1)) link)
    (sound : SummariesSound p input s.data) (view : certificateAt p input i = .ok certificate)
    (given : Gives (basicIntermediate p input i certificate link) s turn s') :
    SummariesSound p input s'.data ∧ turn.Ends
        (fun link' => link'.issuer = ⟨certificate.subject, certificate.publicKey⟩ ∧
          Counted p input (min (i + 1) (input.count - 1)) link')
        (fun accepted => accepted = false ∧ ¬ BasicHolds p input) := by
  unfold basicIntermediate at given
  split at given
  · rename_i more
    rw [Nat.min_eq_left (by omega)] at counted
    simp only [gives_bind] at given
    obtain ⟨extensions, middle, read, given⟩ := given
    obtain ⟨summarized, sound'⟩ := pathSummaryOf_gives sound view read
    cases hStep : intermediate input extensions link with
    | none =>
      simp only [hStep, gives_pure] at given
      obtain ⟨rfl, rfl⟩ := given
      exact ⟨sound', rfl, counted.intermediate_none more summarized hStep⟩
    | some link' =>
      simp only [hStep, gives_pure] at given
      obtain ⟨rfl, rfl⟩ := given
      refine ⟨sound', rfl, ?_⟩
      rw [Nat.min_eq_left (by omega)]
      exact (counted.intermediate_some more summarized hStep).of_counters rfl rfl
  · rename_i last
    obtain ⟨rfl, rfl⟩ := gives_pure.mp given
    refine ⟨sound, rfl, ?_⟩
    have same : min (i + 1) (input.count - 1) = min i (input.count - 1) := by omega
    rw [same]
    exact counted.of_counters rfl rfl

theorem basicEntry_gives {i : Nat} {turn : Turn Link Bool} (inside : i < input.count)
    (below : BasicBelow p input i link s.data) (given : Gives (basicEntry p input i link) s turn s') :
    turn.Ends (fun link' => BasicBelow p input (i + 1) link' s'.data)
      (fun accepted => SummariesSound p input s'.data ∧ accepted = false ∧
        ¬ BasicHolds p input) := by
  simp only [basicEntry, gives_bind, gives_charge, gives_lift] at given
  obtain ⟨certificate, read, viewed, _, _, ⟨_, rfl⟩, valid, _, ⟨window, rfl⟩, given⟩ := given
  obtain ⟨view, kept⟩ := pathCertificate_gives viewed
  have sound : SummariesSound p input read.data := by
    rw [kept]
    exact below.sound
  have inWindow := timeWindow_eq_ok window
  cases valid with
  | false =>
    simp only [Bool.not_false, if_true, gives_pure] at given
    obtain ⟨rfl, rfl⟩ := given
    refine ⟨sound, rfl, ?_⟩
    intro holds
    obtain ⟨other, found, within⟩ := holds.inWindow i inside
    rw [view] at found
    cases found
    exact absurd (inWindow.mpr within) (by decide)
  | true =>
    simp only [Bool.not_true, Bool.false_eq_true, if_false, gives_bind] at given
    obtain ⟨result, checked, check, given⟩ := given
    obtain ⟨kept', accepts, rejects⟩ := issuerCheck_gives check
    have sound' : SummariesSound p input checked.data := by
      rw [kept']
      exact sound
    split at given
    · obtain ⟨sound'', ends⟩ := basicIntermediate_gives inside below.counted sound' view given
      cases turn with
      | next link' =>
        exact below.next sound'' view (inWindow.mp rfl) (accepts rfl) ends.1 ends.2
      | leave accepted => exact ⟨sound'', ends⟩
    · obtain ⟨rfl, rfl⟩ := gives_pure.mp given
      refine ⟨sound', rfl, ?_⟩
      intro holds
      obtain ⟨other, issuer, found, issuedFrom, issued⟩ := holds.issued i inside
      rw [view] at found
      cases found
      rw [below.issuer] at issuedFrom
      cases issuedFrom
      exact rejects rfl issued
    · exact absurd given gives_throw

theorem BasicBelow.holds {summaries : Summaries}
    (below : BasicBelow p input input.count link summaries) (distinct : input.encodings.Nodup) :
    BasicHolds p input := by
  have counted := below.counted
  rw [Nat.min_eq_right (Nat.sub_le _ _)] at counted
  refine ⟨distinct, below.inWindow, below.issued, ?_, ?_⟩
  · intro index more
    obtain ⟨extensions, summarized, issues⟩ := counted.issuers index (by omega)
    obtain ⟨constrained, ca, certSign⟩ := mayIssue_iff.mp issues
    refine ⟨extensions, summarized, constrained, ca, certSign, ?_⟩
    intro length bounded
    have room := ((counted.remaining 0).mp (Nat.zero_le _)).2 index (by omega) extensions length
      summarized bounded
    rwa [Nat.zero_add] at room
  · intro length limited
    have := counted.anchorRemaining length limited
    omega

/-- A completed basic pass accepts exactly the paths of the closed form, and
    leaves the summaries sound for the next pass. -/
theorem pathBasic_gives {accepted : Bool} (sound : SummariesSound p input s.data)
    (given : Gives (pathBasic p input) s accepted s') :
    SummariesSound p input s'.data ∧ (accepted = true ↔ BasicHolds p input) := by
  unfold pathBasic at given
  split at given
  · exact absurd given gives_throw
  split at given
  · exact absurd given gives_throw
  simp only [gives_bind] at given
  obtain ⟨first, compared, distinct, given⟩ := given
  have looped : first.Ends
      (fun _ => compared.data = s.data ∧ DistinctBelow input input.count)
      (fun accepted => compared.data = s.data ∧ accepted = false ∧
        ¬ DistinctBelow input input.count) := by
    refine gives_forRange (fun i _ t => t.data = s.data ∧ DistinctBelow input i)
      (fun accepted t => t.data = s.data ∧ accepted = false ∧ ¬ DistinctBelow input input.count)
      distinct (Nat.zero_add _) ⟨rfl, by intro i j _ none; omega⟩ ?_ ?_
    · intro i total t total' t' _ kept here
      obtain ⟨same, distinct⟩ := distinctEntry_gives kept.2 here
      exact ⟨same.trans kept.1, distinct⟩
    · intro i total t accepted t' inside kept here
      obtain ⟨same, rejected, repeated⟩ := distinctEntry_gives kept.2 here
      refine ⟨same.trans kept.1, rejected, ?_⟩
      intro distinct
      exact repeated fun a b below under => distinct a b below (by omega)
  cases first with
  | leave rejected =>
    obtain ⟨rfl, rfl⟩ := gives_pure.mp given
    obtain ⟨kept, rejected, repeated⟩ := looped
    refine ⟨by rwa [kept], ?_⟩
    rw [rejected]
    simp only [Bool.false_eq_true, false_iff]
    intro holds
    exact repeated (nodup_iff_distinctBelow.mp holds.distinct)
  | next total =>
    obtain ⟨kept, distinct⟩ := looped
    simp only [gives_bind] at given
    obtain ⟨second, walked, walk, given⟩ := given
    have ends : second.Ends
        (fun link => BasicBelow p input input.count link walked.data)
        (fun accepted => SummariesSound p input walked.data ∧ accepted = false ∧
          ¬ BasicHolds p input) := by
      refine gives_forRange (fun i link t => BasicBelow p input i link t.data)
        (fun accepted t => SummariesSound p input t.data ∧ accepted = false ∧ ¬ BasicHolds p input)
        walk (Nat.zero_add _) (BasicBelow.start (by rwa [kept])) ?_ ?_
      · intro i link t link' t' inside below here
        exact basicEntry_gives inside below here
      · intro i link t accepted t' inside below here
        exact basicEntry_gives inside below here
    cases second with
    | leave rejected =>
      obtain ⟨rfl, rfl⟩ := gives_pure.mp given
      obtain ⟨sound', rejected, broken⟩ := ends
      simp [rejected, broken, sound']
    | next link =>
      obtain ⟨rfl, rfl⟩ := gives_pure.mp given
      have holds := BasicBelow.holds ends (nodup_iff_distinctBelow.mpr distinct)
      exact ⟨BasicBelow.sound ends, by simp [holds]⟩

end TinyCrypto.X509
