import TinyCrypto.Library.Metered
import TinyCrypto.X509.Certificate

/-! # Path entries and their extension summaries

`x509_path.c` validates one path in several passes over the same entries. A
pass gets the parsed view of an entry, reading it from DER when no views were
given, and the summary of its extensions, which is filled on first use. The
parsers, the name comparison and the signature provider are fixed functions
with a fixed price; pointer and overlap checks are the caller's contract.
-/

namespace TinyCrypto.X509

open Library Library.Program Library.Metered

/-- `TC_X509_general_subtree`, without its base name. -/
structure Subtree where
  minimum : Nat
  maximum : Option Nat

/-- A full read of one GeneralSubtrees list under an element limit: its
    subtrees, the status that ended the read and the elements it counted. -/
structure SubtreeReading where
  opened : Result
  subtrees : List Subtree
  ended : Result
  elements : Nat

/-- The functions the path passes call on a certificate, with limits and scratch fixed. -/
structure Callees where
  /-- `TC_X509_name_equal`. -/
  nameEqual : Bytes → Bytes → Priced (Except Result Bool)
  /-- `tc_x509_extensions_summarize`. -/
  summarize : Certificate → Priced (Except Result Summary)
  /-- `TC_X509_name_constraints_read`. -/
  nameConstraintsRead : Bytes → Except Result NameConstraints
  /-- `TC_X509_general_subtrees_init` and `TC_X509_general_subtree_next`. -/
  generalSubtrees : (maxElements : Nat) → Bytes → SubtreeReading
  /-- `max_elements` of the limits. -/
  maxElements : Nat
  /-- `tc_x509_certificate_names_check_san`. -/
  namesCheck : Certificate → (san : Bytes) → NameConstraints → Priced (Except Result Bool)

structure Primitives extends Callees where
  /-- `TC_X509_read`. -/
  read : Bytes → Except Result Certificate

/-- `TC_X509_signature_verify` under one provider. -/
abbrev SignatureVerify := Certificate → PublicKey → Priced Result

inductive PathSource where
  | certificates (views : List Certificate)
  | encoded (spans : List Bytes)

/-- `tc_x509_path_input`, anchor-issued certificate first. -/
structure PathInput where
  source : PathSource
  maxCertificates : Nat
  maxInput : Nat
  anchor : TrustAnchor
  at_ : Time
  signatures : Option SignatureVerify
  anchorPathLen : Option Nat
  clockSkewSeconds : Nat

def PathInput.encodings (input : PathInput) : List Bytes := match input.source with
  | .certificates views => views.map Certificate.encoded
  | .encoded spans => spans

/-- `count`. -/
def PathInput.count (input : PathInput) : Nat := input.encodings.length

/-- `path_encoded`. -/
def pathEncoded (input : PathInput) (index : Nat) : Bytes := input.encodings.getD index []

/-- The summaries filled so far; `none` is a summary that is not `ready`. -/
abbrev Summaries := Nat → Option Summary

abbrev PathProgram := Metered Result Summaries

section

variable (p : Primitives) (input : PathInput)

/-- The view of entry `index`, however it is obtained. -/
def certificateAt (index : Nat) : Except Result Certificate := match input.source with
  | .certificates views => (views[index]?).elim (.error .argument) .ok
  | .encoded _ => p.read (pathEncoded input index)

/-- `tc_x509_path_certificate`. -/
def pathCertificate (index : Nat) : PathProgram Certificate := do
  match input.source with
  | .certificates _ => lift (certificateAt p input index)
  | .encoded _ =>
    charge .limit (pathEncoded input index).length
    lift (certificateAt p input index)

/-- The summary of entry `index`. Only an intermediate is asked whether it is
    self-issued. -/
def summaryOf (index : Nat) (certificate : Certificate) : Except Result Summary := do
  let filled ← (p.summarize certificate).result
  if index + 1 < input.count then
    let selfIssued ← (p.nameEqual certificate.subject certificate.issuer).result
    return { filled with selfIssued := selfIssued }
  else
    return { filled with selfIssued := false }

/-- The summary of entry `index` of the path. -/
def summaryAt (index : Nat) : Except Result Summary := do
  let certificate ← certificateAt p input index
  summaryOf p input index certificate

/-- Whether entry `index` counts as self-issued: path length, name constraints
    and policy counters treat a self-issued intermediate specially. -/
def pathSelfIssued (index : Nat) (certificate : Certificate) : PathProgram Bool :=
  if index + 1 < input.count then
    call .limit (p.nameEqual certificate.subject certificate.issuer)
  else pure false

/-- `path_summary_of`. -/
def pathSummaryOf (index : Nat) (certificate : Certificate) : PathProgram Summary := do
  match (← data) index with
  | some summary => return summary
  | none =>
    let filled ← call .limit (p.summarize certificate)
    let selfIssued ← pathSelfIssued p input index certificate
    let summary := { filled with selfIssued := selfIssued }
    update fun summaries => Function.update summaries index (some summary)
    return summary

/-- `tc_x509_path_summary`. -/
def pathSummary (index : Nat) : PathProgram Summary := do
  match (← data) index with
  | some summary => return summary
  | none => pathSummaryOf p input index (← pathCertificate p input index)

def SummariesSound (summaries : Summaries) : Prop :=
  ∀ index summary, summaries index = some summary → summaryAt p input index = .ok summary

end

variable {p : Primitives} {input : PathInput} {index : Nat}
variable {s s' : Budgeted Summaries}

theorem pathCertificate_gives {certificate : Certificate}
    (given : Gives (pathCertificate p input index) s certificate s') :
    certificateAt p input index = .ok certificate ∧ s'.data = s.data := by
  unfold pathCertificate at given
  cases hSource : input.source with
  | certificates views =>
    simp only [hSource, gives_lift] at given
    exact ⟨given.1, by rw [given.2]⟩
  | encoded spans =>
    simp only [hSource, gives_bind, gives_charge, gives_lift] at given
    obtain ⟨_, _, ⟨_, rfl⟩, found, rfl⟩ := given
    exact ⟨found, rfl⟩

theorem pathSummaryOf_gives {certificate : Certificate} {summary : Summary}
    (sound : SummariesSound p input s.data) (view : certificateAt p input index = .ok certificate)
    (given : Gives (pathSummaryOf p input index certificate) s summary s') :
    summaryAt p input index = .ok summary ∧ SummariesSound p input s'.data := by
  simp only [pathSummaryOf, gives_bind, gives_data] at given
  obtain ⟨_, _, ⟨rfl, rfl⟩, given⟩ := given
  cases hReady : s.data index with
  | some ready =>
    simp only [hReady, gives_pure] at given
    obtain ⟨rfl, rfl⟩ := given
    exact ⟨sound index ready hReady, sound⟩
  | none =>
    simp only [hReady, gives_bind, gives_call, gives_update, gives_pure] at given
    obtain ⟨filled, _, ⟨_, hFilled, rfl⟩, selfIssued, afterSelf, hSelf, _, _, rfl, rfl, rfl⟩ :=
      given
    have summarized : summaryAt p input index = .ok { filled with selfIssued := selfIssued } ∧
        afterSelf.data = s.data := by
      simp only [summaryAt, view, summaryOf, hFilled, bind, Except.bind]
      unfold pathSelfIssued at hSelf
      split at hSelf
      · simp only [gives_call] at hSelf
        obtain ⟨_, hSelf, rfl⟩ := hSelf
        simp [pure, Except.pure, *]
      · obtain ⟨rfl, rfl⟩ := gives_pure.mp hSelf
        simp [pure, Except.pure, *]
    refine ⟨summarized.1, ?_⟩
    intro other summary found
    by_cases same : other = index
    · subst same
      simp only [Function.update_self, Option.some.injEq] at found
      rw [← found]
      exact summarized.1
    · simp only [Function.update_of_ne same, summarized.2] at found
      exact sound other summary found

theorem pathSummary_gives {summary : Summary} (sound : SummariesSound p input s.data)
    (given : Gives (pathSummary p input index) s summary s') :
    summaryAt p input index = .ok summary ∧ SummariesSound p input s'.data := by
  simp only [pathSummary, gives_bind, gives_data] at given
  obtain ⟨_, _, ⟨rfl, rfl⟩, given⟩ := given
  cases hReady : s.data index with
  | some ready =>
    simp only [hReady, gives_pure] at given
    obtain ⟨rfl, rfl⟩ := given
    exact ⟨sound index ready hReady, sound⟩
  | none =>
    simp only [hReady, gives_bind] at given
    obtain ⟨certificate, middle, read, given⟩ := given
    obtain ⟨view, kept⟩ := pathCertificate_gives read
    exact pathSummaryOf_gives (by rwa [kept]) view given

end TinyCrypto.X509
