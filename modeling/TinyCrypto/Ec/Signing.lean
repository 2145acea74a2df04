import TinyCrypto.Hash.Hmac
import TinyCrypto.X509.Certificate

/-! # ECDSA signing

`ec.c`: the checks of both signing functions, the generator of RFC 6979 and the loop over nonces.
What one nonce gives is a parameter. The build has `TC_HMAC_CORE_ENABLED`.
-/

namespace TinyCrypto.Ec

open X509 (Curve)

structure Input where
  address : Nat
  bytes : Bytes
  deriving DecidableEq

def Input.span (input : Input) : Span := ⟨input.address, input.bytes.length⟩

/-- The spans of a signing call. `signature.length` is the capacity. -/
structure Request where
  curve : Curve
  privateKey : Input
  publicKey : Input
  digest : Input
  signature : Span
  workspace : Span
  deriving DecidableEq

inductive Attempt where
  | again
  | fault
  | signed (signature : Bytes)
  deriving DecidableEq

/-- `TC_ECDSA_sign_options`. -/
structure SignOptions where
  hash : Option Hash.Algorithm
  candidateAttempts : Nat
  deriving DecidableEq

structure Build where
  p192 : Bool
  p256 : Bool
  p384 : Bool
  signVerify : Bool
  pointerMax : Nat
  hashes : Hash.Algorithm → Option Hash.Info
  /-- `scalar_valid`. -/
  scalarValid : Request → Bool
  /-- `tc_rfc6979_digest_octets`. -/
  digestOctets : (bytes : Nat) → (digest : Bytes) → Bytes
  attempt : Request → (nonce : Bytes) → Attempt

variable (b : Build)

/-- `TC_EC_coordinate_bytes`. -/
def Build.coordinateBytes : Curve → Nat
  | .p192 => if b.p192 then 24 else 0
  | .p256 => if b.p256 then 32 else 0
  | .p384 => if b.p384 then 48 else 0
  | _ => 0

/-- `TC_EC_MAX_BYTES`. -/
def Build.maxBytes : Nat := if b.p384 then 48 else 32

/-- `TC_EC_operation_work` of `TC_EC_OPERATION_SIGN`. -/
def Build.signWork (curve : Curve) : Nat :=
  let bits := b.coordinateBytes curve * 8
  if bits = 0 then 0 else 3 * bits + 1 + if b.signVerify then 4 * bits + 1 else 0

/-- `tc_internal_writes_disjoint` without inputs. -/
def writesDisjoint (pointerMax : Nat) : List Span → Bool
  | [] => true
  | span :: rest =>
    span.valid pointerMax && rest.all span.disjoint && writesDisjoint pointerMax rest

/-- `sign_storage_valid`. A NULL execution is an empty span. -/
def storageValid (r : Request) (execution : Span) : Bool :=
  r.workspace.address ≠ 0 && r.privateKey.address ≠ 0 && r.publicKey.address ≠ 0 &&
    r.digest.address ≠ 0 && r.digest.bytes ≠ [] && r.signature.address ≠ 0 &&
    writesDisjoint b.pointerMax
      [execution, r.workspace, r.signature, r.digest.span, r.privateKey.span] &&
    r.publicKey.span.disjoint r.signature && r.publicKey.span.disjoint r.workspace &&
    r.publicKey.span.disjoint execution

/-- What a call may change: `random` is the state of its random source. -/
structure Storage (ρ : Type) where
  workspace : Bytes
  signature : Bytes
  work : Nat
  random : ρ
  deriving DecidableEq

variable {ρ : Type}

/-- The loop over nonces, of at most `left` more. -/
def attempts (r : Request) (fill : ρ → Nat → ρ × Option Bytes) :
    (left : Nat) → Storage ρ → Result × Storage ρ
  | 0, s => (.limit, s)
  | left + 1, s =>
    if s.work < b.signWork r.curve then (.limit, s)
    else
      let (random, nonce) := fill s.random (b.coordinateBytes r.curve)
      let s := { s with work := s.work - b.signWork r.curve, random }
      match nonce with
      | none => (.error, s)
      | some nonce =>
        match b.attempt r nonce with
        | .again => attempts r fill left s
        | .fault => (.error, s)
        | .signed signature =>
          (.ok, { s with signature := signature ++ s.signature.drop signature.length })

def keysFit (r : Request) : Bool := r.privateKey.bytes.length = b.coordinateBytes r.curve &&
    r.publicKey.bytes.length = 1 + 2 * b.coordinateBytes r.curve

/-- The checks and the arithmetic of `TC_ECDSA_sign_digest_external_random`, after the one of the
    storage. -/
def signStored (r : Request) (fill : ρ → Nat → ρ × Option Bytes) (randomAttempts : Nat)
    (s : Storage ρ) : Result × Storage ρ :=
  if b.coordinateBytes r.curve = 0 || b.coordinateBytes r.curve > b.maxBytes then (.unsupported, s)
  else if !keysFit b r then (.invalid, s)
  else if r.signature.length < 2 * b.coordinateBytes r.curve || randomAttempts = 0 ||
      s.work < b.signWork r.curve then (.limit, s)
  else
    let (result, s) := if b.scalarValid r then attempts b r fill randomAttempts s else (.invalid, s)
    (result, { s with workspace := List.replicate s.workspace.length 0 })

/-- `TC_ECDSA_sign_digest_external_random`. -/
def signExternal (r : Request) (execution : Span) (fill : Option (ρ → Nat → ρ × Option Bytes))
    (randomAttempts : Nat) (s : Storage ρ) : Result × Storage ρ :=
  match fill with
  | none => (.argument, s)
  | some fill =>
    if execution.address = 0 || !storageValid b r execution then (.argument, s)
    else signStored b r fill randomAttempts s

/-- `tc_rfc6979`. -/
structure Generator where
  key : Bytes
  value : Bytes
  generated : Bool
  deriving DecidableEq

namespace Generator

variable (info : Hash.Info)

/-- `tc_rfc6979_next`. -/
def next (g : Generator) : Option Generator :=
  (info.hmacParts g.key [g.value]).map fun value => { g with value }

/-- `tc_rfc6979_reseed`, with the private key and the reduced digest or without both. -/
def reseed (g : Generator) (separator : UInt8) (seed : List Bytes) : Option Generator :=
  (info.hmacParts g.key ([g.value, [separator]] ++ seed)).bind fun key => next info { g with key }

/-- The loop of `tc_rfc6979_fill`: every pass writes a byte. -/
def draw : (passes length : Nat) → Generator → Generator × Option Bytes
  | 0, _, g => (g, some [])
  | passes + 1, length, g =>
    if length = 0 then (g, some [])
    else
      match next info g with
      | none => (g, none)
      | some g =>
        let taken := g.value.take length
        let (g, rest) := draw passes (length - taken.length) g
        (g, rest.map (taken ++ ·))

/-- `tc_rfc6979_fill`. -/
def fill (g : Generator) (length : Nat) : Generator × Option Bytes :=
  match if g.generated then reseed info g 0 [] else some g with
  | none => (g, none)
  | some g =>
    let (g, drawn) := draw info length length g
    ({ g with generated := g.generated || drawn.isSome }, drawn)

/-- `tc_rfc6979_init`, without the wipe of the workspace. -/
def start (r : Request) : Option Generator :=
  let reduced := b.digestOctets (b.coordinateBytes r.curve) r.digest.bytes
  let g : Generator :=
    ⟨List.replicate r.digest.bytes.length 0, List.replicate r.digest.bytes.length 1, false⟩
  (reseed info g 0 [r.privateKey.bytes, reduced]).bind fun g =>
    reseed info g 1 [r.privateKey.bytes, reduced]

end Generator

/-- `tc_hash_core_lookup`. -/
def Build.lookup (hash : Option Hash.Algorithm) : Option Hash.Info := hash.bind b.hashes

/-- `TC_ECDSA_sign_digest`. `tc_rfc6979_init` leaves the workspace wiped. The execution of the inner
    call is a local object, apart from all storage of the caller. -/
def signDigest (r : Request) (options : Option SignOptions) (work : Span) (s : Storage Unit) :
    Result × Storage Unit :=
  match options with
  | none => (.argument, s)
  | some options =>
    if work.address = 0 || !storageValid b r ⟨0, 0⟩ then (.argument, s)
    else if b.coordinateBytes r.curve = 0 then (.unsupported, s)
    else
      match b.lookup options.hash with
      | none => (.unsupported, s)
      | some info =>
        if info.digestBytes ≠ r.digest.bytes.length then (.argument, s)
        else if options.candidateAttempts = 0 then (.limit, s)
        else
          let s := { s with workspace := List.replicate s.workspace.length 0 }
          match Generator.start b info r with
          | none => (.error, s)
          | some g =>
            let (result, out) := signStored b r (Generator.fill info) options.candidateAttempts
              ⟨s.workspace, s.signature, s.work, g⟩
            (result, ⟨out.workspace, out.signature, out.work, ()⟩)

/-- The first problem of a call, from whether its arguments and its curve and hash are in order. -/
def firstProblem (r : Request) (arguments supported : Bool) (randomAttempts work : Nat) :
    Option Result :=
  if !arguments then some .argument
  else if !supported then some .unsupported
  else if !keysFit b r then some .invalid
  else if r.signature.length < 2 * b.coordinateBytes r.curve || randomAttempts = 0 ||
      work < b.signWork r.curve then some .limit
  else none

/-- A call reports its first problem, and one other than UNSUPPORTED changes nothing. -/
def Meets (problem : Option Result) (before : Storage ρ) (call : Result × Storage ρ) : Prop :=
  ∀ p, problem = some p → call.1 = p ∧ (p ≠ .unsupported → call.2 = before)

def externalProblem (r : Request) (execution : Span) (filled : Bool) (randomAttempts work : Nat) :
    Option Result :=
  firstProblem b r (filled && execution.address ≠ 0 && storageValid b r execution)
    (b.coordinateBytes r.curve ≠ 0) randomAttempts work

def digestFits (r : Request) (hash : Option Hash.Algorithm) : Bool :=
  (b.lookup hash).all (·.digestBytes = r.digest.bytes.length)

/-- The problem of a call with RFC 6979. Its work budget is apart from the other storage. -/
def deterministicProblem (r : Request) (options : Option SignOptions) (workSpan : Span)
    (work : Nat) : Option Result :=
  match options with
  | none => some .argument
  | some options =>
    firstProblem b r
      (workSpan.address ≠ 0 && storageValid b r ⟨0, 0⟩ && storageValid b r workSpan &&
        digestFits b r options.hash)
      (b.coordinateBytes r.curve ≠ 0 && (b.lookup options.hash).isSome)
      options.candidateAttempts work

/-- Where the deterministic function keeps to the order. Past the checks of the storage, a digest of
    a wrong length is seen only on a supported curve, an overlap of the work budget never, and the
    key lengths, the capacity and the work only after the workspace was used. -/
def KeepsOrder (r : Request) (options : Option SignOptions) (workSpan : Span) (work : Nat) : Prop :=
  ∀ chosen, options = some chosen → workSpan.address ≠ 0 → storageValid b r ⟨0, 0⟩ = true →
    (b.coordinateBytes r.curve ≠ 0 ∧ digestFits b r chosen.hash = false) ∨
      (storageValid b r workSpan = true ∧ digestFits b r chosen.hash = true ∧
        (b.coordinateBytes r.curve ≠ 0 → (b.lookup chosen.hash).isSome →
          keysFit b r = true ∧ (chosen.candidateAttempts ≠ 0 →
            2 * b.coordinateBytes r.curve ≤ r.signature.length ∧ b.signWork r.curve ≤ work)))

variable {b} {r : Request}

theorem coordinateBytes_le (curve : Curve) : b.coordinateBytes curve ≤ b.maxBytes := by
  unfold Build.maxBytes
  cases curve with
  | p192 | p256 | p384 => simp only [Build.coordinateBytes]; grind
  | _ => exact Nat.zero_le _

theorem signStored_meets (fill : ρ → Nat → ρ × Option Bytes) (randomAttempts : Nat)
    (s : Storage ρ) :
    Meets (firstProblem b r true (b.coordinateBytes r.curve ≠ 0) randomAttempts s.work) s
      (signStored b r fill randomAttempts s) := by
  have small := @coordinateBytes_le b r.curve
  intro p problem
  simp only [firstProblem, Bool.not_true, Bool.false_eq_true, if_false] at problem
  split at problem
  · rename_i unsupported
    cases problem
    rw [signStored, if_pos (by simp_all)]
    exact ⟨rfl, nofun⟩
  rename_i supported
  have known : ¬ (decide (b.coordinateBytes r.curve = 0) ||
      decide (b.coordinateBytes r.curve > b.maxBytes)) = true := by
    simp only [Bool.or_eq_true, decide_eq_true_eq]
    simp only [Bool.not_eq_true', decide_eq_false_iff_not, not_not] at supported
    omega
  rw [signStored, if_neg known]
  split at problem
  · rename_i keys
    cases problem
    rw [if_pos keys]
    exact ⟨rfl, fun _ => rfl⟩
  rename_i keys
  rw [if_neg keys]
  split at problem
  · rename_i short
    cases problem
    rw [if_pos short]
    exact ⟨rfl, fun _ => rfl⟩
  · cases problem

theorem signExternal_meets (execution : Span) (fill : Option (ρ → Nat → ρ × Option Bytes))
    (randomAttempts : Nat) (s : Storage ρ) :
    Meets (externalProblem b r execution fill.isSome randomAttempts s.work) s
      (signExternal b r execution fill randomAttempts s) := by
  cases fill with
  | none =>
    intro p problem
    cases problem
    exact ⟨rfl, fun _ => rfl⟩
  | some fill =>
    rw [signExternal]
    split
    · rename_i invalid
      intro p problem
      have arguments : (decide (execution.address ≠ 0) && storageValid b r execution) = false := by
        simpa [imp_iff_not_or] using invalid
      simp only [externalProblem, Option.isSome_some, Bool.true_and, arguments] at problem
      cases problem
      exact ⟨rfl, fun _ => rfl⟩
    · rename_i valid
      have arguments : (decide (execution.address ≠ 0) && storageValid b r execution) = true := by
        simpa using valid
      simp only [externalProblem, Option.isSome_some, Bool.true_and, arguments]
      exact signStored_meets fill randomAttempts s

theorem attempts_workspace (fill : ρ → Nat → ρ × Option Bytes) (left : Nat) (s : Storage ρ) :
    (attempts b r fill left s).2.workspace = s.workspace := by
  induction left generalizing s with
  | zero => rfl
  | succ left ih =>
    rw [attempts]
    split
    · rfl
    · dsimp only
      split
      · rfl
      · split
        · exact ih _
        · rfl
        · rfl

theorem signStored_workspace (fill : ρ → Nat → ρ × Option Bytes) (randomAttempts : Nat)
    (s : Storage ρ) : (signStored b r fill randomAttempts s).2.workspace = s.workspace ∨
      (signStored b r fill randomAttempts s).2.workspace = List.replicate s.workspace.length 0 := by
  rw [signStored]
  split
  · exact .inl rfl
  split
  · exact .inl rfl
  split
  · exact .inl rfl
  · refine .inr ?_
    dsimp only
    split
    · rw [attempts_workspace]
    · rfl

theorem signDigest_wipes {chosen : SignOptions} {workSpan : Span} {s : Storage Unit}
    {info : Hash.Info} (present : workSpan.address ≠ 0) (valid : storageValid b r ⟨0, 0⟩ = true)
    (supported : b.coordinateBytes r.curve ≠ 0) (known : b.lookup chosen.hash = some info)
    (fits : info.digestBytes = r.digest.bytes.length) (some : chosen.candidateAttempts ≠ 0) :
    (signDigest b r (.some chosen) workSpan s).2.workspace = List.replicate s.workspace.length 0 := by
  rw [signDigest, if_neg (by simp [present, valid]), if_neg supported]
  simp only [known, fits, ne_eq, not_true, if_false, some]
  split
  · rfl
  · rename_i g _
    have inner := @signStored_workspace b _ r (Generator.fill info) chosen.candidateAttempts
      ⟨List.replicate s.workspace.length 0, s.signature, s.work, g⟩
    simpa using inner

theorem meets_unchanged {problem : Option Result} {s : Storage ρ} {result : Result} :
    Meets problem s (result, s) ↔ problem.all (result = ·) = true := by
  cases problem <;> simp [Meets]

theorem deterministic_late {chosen : SignOptions} {workSpan : Span} {work : Nat} {info : Hash.Info}
    (present : workSpan.address ≠ 0) (valid : storageValid b r ⟨0, 0⟩ = true)
    (supported : b.coordinateBytes r.curve ≠ 0) (known : b.lookup chosen.hash = some info)
    (fits : info.digestBytes = r.digest.bytes.length) (some : chosen.candidateAttempts ≠ 0) :
    (∀ workspace signature : Bytes, Meets (deterministicProblem b r (.some chosen) workSpan work)
        ⟨workspace, signature, work, ()⟩
        (signDigest b r (.some chosen) workSpan ⟨workspace, signature, work, ()⟩)) ↔
      deterministicProblem b r (.some chosen) workSpan work = none := by
  constructor
  · intro meets
    cases problem : deterministicProblem b r (.some chosen) workSpan work with
    | none => rfl
    | some p =>
      have changes : p ≠ .unsupported := by
        rintro rfl
        simp [deterministicProblem, firstProblem, present, valid, supported, known] at problem
        grind
      have kept := (meets [1] [] p problem).2 changes
      have wiped := signDigest_wipes present valid supported known fits some
        (s := ⟨[1], [], work, ()⟩)
      rw [kept] at wiped
      cases wiped
  · intro problem workspace signature p same
    rw [problem] at same
    cases same

theorem deterministic_iff (options : Option SignOptions) (workSpan : Span) (work : Nat) :
    (∀ workspace signature : Bytes,
      Meets (deterministicProblem b r options workSpan work) ⟨workspace, signature, work, ()⟩
        (signDigest b r options workSpan ⟨workspace, signature, work, ()⟩)) ↔
      KeepsOrder b r options workSpan work := by
  cases options with
  | none => simp [signDigest, deterministicProblem, KeepsOrder, Meets]
  | some chosen =>
    by_cases arguments : workSpan.address ≠ 0 ∧ storageValid b r ⟨0, 0⟩ = true
    · obtain ⟨present, valid⟩ := arguments
      by_cases supported : b.coordinateBytes r.curve = 0
      · cases apart : storageValid b r workSpan <;> cases fits : digestFits b r chosen.hash <;>
          simp [signDigest, meets_unchanged, deterministicProblem, firstProblem, KeepsOrder,
            present, valid, supported, apart, fits]
      cases known : b.lookup chosen.hash with
      | none =>
        cases apart : storageValid b r workSpan <;>
          simp [signDigest, meets_unchanged, deterministicProblem, firstProblem, KeepsOrder,
            present, valid, supported, known, digestFits, apart]
      | some info =>
        by_cases fits : info.digestBytes = r.digest.bytes.length
        · by_cases none : chosen.candidateAttempts = 0
          · cases apart : storageValid b r workSpan <;> cases keys : keysFit b r <;>
              simp [signDigest, meets_unchanged, deterministicProblem, firstProblem, KeepsOrder,
                present, valid, supported, known, digestFits, fits, none, apart, keys]
          · rw [deterministic_late present valid supported known fits none]
            cases apart : storageValid b r workSpan <;> cases keys : keysFit b r <;>
              simp [deterministicProblem, firstProblem, KeepsOrder, present, valid, supported,
                known, digestFits, fits, none, apart, keys]
        · simp [signDigest, meets_unchanged, deterministicProblem, firstProblem, KeepsOrder, present,
            valid, supported, known, digestFits, fits]
    · refine iff_of_true (fun workspace signature p problem => ?_) fun _ is present valid => ?_
      · have refused : (decide (workSpan.address ≠ 0) && storageValid b r ⟨0, 0⟩) = false := by
          simpa using arguments
        simp only [deterministicProblem, refused, Bool.false_and] at problem
        cases problem
        rw [signDigest, if_pos (by simpa [imp_iff_not_or] using arguments)]
        exact ⟨rfl, fun _ => rfl⟩
      · exact absurd ⟨present, valid⟩ arguments

/-- The function with external randomness keeps to the documented order, and so does the
    deterministic one exactly under `KeepsOrder`. -/
theorem sign_preflight (b : Build) (r : Request) :
    (∀ {ρ : Type} (execution : Span) (fill : Option (ρ → Nat → ρ × Option Bytes))
      (randomAttempts : Nat) (s : Storage ρ),
      Meets (externalProblem b r execution fill.isSome randomAttempts s.work) s
        (signExternal b r execution fill randomAttempts s)) ∧
    ∀ (options : Option SignOptions) (workSpan : Span) (work : Nat), (∀ workspace signature : Bytes,
        Meets (deterministicProblem b r options workSpan work) ⟨workspace, signature, work, ()⟩
          (signDigest b r options workSpan ⟨workspace, signature, work, ()⟩)) ↔
        KeepsOrder b r options workSpan work :=
  ⟨signExternal_meets, deterministic_iff⟩

/-- A key of one byte and no candidates: LIMIT comes before INVALID. -/
theorem deterministic_order_broken :
    ¬ ∀ b r options workSpan s, Meets (deterministicProblem b r options workSpan s.work) s
      (signDigest b r options workSpan s) := by
  intro meets
  have call := meets
    ⟨false, true, false, true, 2 ^ 32 - 1, fun _ => some ⟨64, 8, 32, false, 2 ^ 61 - 1, [],
      fun _ _ => [], fun _ => List.replicate 32 0, by decide, fun _ => List.length_replicate⟩,
      fun _ => true, fun _ digest => digest, fun _ _ => .again⟩
    ⟨.p256, ⟨1, [7]⟩, ⟨100, List.replicate 65 4⟩, ⟨200, List.replicate 32 0⟩, ⟨300, 64⟩, ⟨400, 9⟩⟩
    (some ⟨some .sha256, 0⟩) ⟨500, 4⟩ ⟨[], [], 10000, ()⟩ .invalid (by decide +kernel)
  exact absurd call.1 (by decide +kernel)

end TinyCrypto.Ec
