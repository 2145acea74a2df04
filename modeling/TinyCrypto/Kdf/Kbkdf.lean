import TinyCrypto.Kdf.Prf
import TinyCrypto.Library.Expansion

/-! # Key derivation from a pseudorandom function

`tc_kdf_derive` of `kdf.c` and its callers, compared with the three modes of SP 800-108r1. The
output is disjoint from the inputs.
-/

namespace TinyCrypto.Kdf

open Library
open Library.ByteCounter (value ofValue value_ofValue ofValue_length ofValue_eq_map)

/-- `TC_KDF_MODE_COUNTER`, `TC_KDF_MODE_FEEDBACK` and `TC_KDF_MODE_PIPELINE`. -/
inductive Mode where
  | counter
  | feedback
  | pipeline
  deriving DecidableEq

/-- `struct TC_KBKDF_params`. -/
structure Params where
  counterBits : UInt8
  counterLocation : UInt8
  useCounter : UInt8
  deriving DecidableEq

/-- `TC_KBKDF_CTR_BEFORE_ITER`, `TC_KBKDF_CTR_AFTER_ITER` and `TC_KBKDF_CTR_AFTER_FIXED`. -/
def ctrBeforeIter : UInt8 := 1

def ctrAfterIter : UInt8 := 2

def ctrAfterFixed : UInt8 := 3

/-- `tc_kdf_counter_bits_ok`. -/
def counterBitsOk (bits : UInt8) : Bool := bits = 8 || bits = 16 || bits = 24 || bits = 32

/-- The width `r` of a counter in bits, and its position among the segments. -/
structure Counter where
  r : Nat
  slot : Nat
  deriving DecidableEq

/-- `ctr_len`. -/
def Counter.length (counter : Counter) : Nat := counter.r / 8

/-- What `params` asks for: TC_ERROR, no counter, or a counter. -/
def readParams (mode : Mode) (params : Params) : Option (Option Counter) :=
  if mode = .counter || params.useCounter ≠ 0 then
    let r := params.counterBits
    if !counterBitsOk r then none
    else if mode = .counter then some (some ⟨r.toNat, 1⟩)
    else if params.counterLocation = ctrBeforeIter then some (some ⟨r.toNat, 0⟩)
    else if params.counterLocation = ctrAfterIter then some (some ⟨r.toNat, 1⟩)
    else if params.counterLocation = ctrAfterFixed then some (some ⟨r.toNat, 2⟩)
    else none
  else some none

/-- The bytes of `ctr`. -/
def counterBytes (length : Nat) (i : UInt32) : Bytes :=
  (List.range length).map fun k => (i >>> (8 * (length - 1 - k)).toUInt32).toUInt8

def blockSegments (mode : Mode) (counter : Option Counter) (i : UInt32) (in1 chain in2 : Bytes) :
    List Bytes :=
  (List.range 3).flatMap fun slot =>
    (match counter with
      | some counter => if slot = counter.slot then [counterBytes counter.length i] else []
      | none => []) ++
    if slot = 0 then [if mode = .counter then in1 else chain]
    else if slot = 1 then [in2]
    else []

structure DeriveState where
  i : UInt32
  chain : Bytes
  deriving DecidableEq

def firstChain (mode : Mode) (in1 in2 : Bytes) : Bytes := match mode with
  | .counter => []
  | .feedback => in1
  | .pipeline => in2

/-- One pass of the loop of `tc_kdf_derive`. -/
def derivePass (prf : Prf) (mode : Mode) (counter : Option Counter) (in1 in2 : Bytes)
    (initialized : prf.Context) (s : DeriveState) : Option (Bytes × DeriveState) :=
  (if mode = .pipeline then prf.run initialized [s.chain] else some s.chain).bind fun chain =>
    (prf.run initialized (blockSegments mode counter s.i in1 chain in2)).map fun block =>
      (block, ⟨s.i + 1, if mode = .feedback then block else chain⟩)

/-- Whether `reps` blocks do not fit the counter or the loop index. -/
def tooMany (counter : Option Counter) (reps : Nat) : Bool := reps > 2 ^ 32 - 1 ||
    match counter with
    | some counter => counter.r < 32 && reps > 2 ^ counter.r - 1
    | none => false

/-- `tc_kdf_derive`. None is TC_ERROR. -/
def derive (prf : Prf) (mode : Mode) (key : Bytes) (params : Params) (in1 in2 : Bytes)
    (outLen : Nat) : Option Bytes :=
  if key.length = 0 || !prf.keyOk key.length || outLen = 0 then none
  else
    match readParams mode params with
    | none => none
    | some counter =>
      let h := prf.outLen
      let reps := outLen / h + if outLen % h ≠ 0 then 1 else 0
      if tooMany counter reps then none
      else
        (prf.macInit key).bind fun initialized =>
          (Expansion.fill h (derivePass prf mode counter in1 in2 initialized) outLen
            ⟨1, firstChain mode in1 in2⟩ outLen).map Prod.fst

/-- `TC_KBKDF_*_counter`. -/
def kbkdfCounter (prf : Prf) (key : Bytes) (params : Params) (before after : Bytes)
    (outLen : Nat) : Option Bytes :=
  derive prf .counter key params before after outLen

/-- `TC_KBKDF_*_feedback`. -/
def kbkdfFeedback (prf : Prf) (key : Bytes) (params : Params) (iv fixed : Bytes)
    (outLen : Nat) : Option Bytes :=
  derive prf .feedback key params iv fixed outLen

/-- `TC_KBKDF_*_pipeline`. -/
def kbkdfPipeline (prf : Prf) (key : Bytes) (params : Params) (fixed : Bytes)
    (outLen : Nat) : Option Bytes :=
  derive prf .pipeline key params [] fixed outLen

/-- `TC_KBKDF_FIXED_INPUT_LEN`. -/
def fixedInputLen (labelLen contextLen : Nat) : Nat := labelLen + 1 + contextLen + 4

/-- `TC_KBKDF_fixed_input` where `SIZE_MAX` is `sizeMax`. None is TC_ERROR. -/
def fixedInput (sizeMax : Nat) (label context : Bytes) (outLen capacity : Nat) : Option Bytes :=
  if outLen = 0 || outLen > 0x1FFFFFFF then none
  else if label.length > sizeMax - 5 || context.length > sizeMax - 5 - label.length then none
  else if capacity < fixedInputLen label.length context.length then none
  else if label.length ≠ 0 && label.contains 0 then none
  else some (label ++ [(0x00 : UInt8)] ++ context ++ ofValue 4 (outLen.toUInt32 <<< 3).toNat)

namespace Sp108

inductive Placement where
  | beforeIter
  | afterIter
  | afterFixed
  deriving DecidableEq

/-- The input of a block: the iteration variable and the fixed input around an optional
    counter. -/
def place (counter : Option (Nat × Placement)) (i : Nat) (iter fixed : Bytes) : Bytes :=
  match counter with
  | none => iter ++ fixed
  | some (r, .beforeIter) => ofValue (r / 8) i ++ iter ++ fixed
  | some (r, .afterIter) => iter ++ ofValue (r / 8) i ++ fixed
  | some (r, .afterFixed) => iter ++ fixed ++ ofValue (r / 8) i

inductive Inputs where
  | counter (r : Nat) (before after : Bytes)
  | feedback (counter : Option (Nat × Placement)) (iv fixed : Bytes)
  | pipeline (counter : Option (Nat × Placement)) (fixed : Bytes)
  deriving DecidableEq

section

variable (f : Bytes → Bytes)

/-- `K(i)` of the feedback mode, where `K(0)` is the IV. -/
def feedbackBlock (counter : Option (Nat × Placement)) (iv fixed : Bytes) : (i : Nat) → Bytes
  | 0 => iv
  | i + 1 => f (place counter (i + 1) (feedbackBlock counter iv fixed i) fixed)

/-- `A(i)` of the double-pipeline mode, where `A(0)` is the fixed input. -/
def pipelineChain (fixed : Bytes) : (i : Nat) → Bytes
  | 0 => fixed
  | i + 1 => f (pipelineChain fixed i)

/-- The messages of the pseudorandom function for block `i + 1`; the last one gives the
    block. -/
def Inputs.messages : Inputs → (i : Nat) → List Bytes
  | .counter r before after, i => [before ++ ofValue (r / 8) (i + 1) ++ after]
  | .feedback ctr iv fixed, i => [place ctr (i + 1) (feedbackBlock f ctr iv fixed i) fixed]
  | .pipeline ctr fixed, i =>
    [pipelineChain f fixed i, place ctr (i + 1) (pipelineChain f fixed (i + 1)) fixed]

/-- Block `i + 1` of the output. -/
def Inputs.block (inputs : Inputs) (i : Nat) : Bytes := f ((inputs.messages f i).getLastD [])

end

def Inputs.counterBits : Inputs → Option Nat
  | .counter r _ _ => some r
  | .feedback ctr _ _ => ctr.map Prod.fst
  | .pipeline ctr _ => ctr.map Prod.fst

/-- The derivations of `wanted` bytes that can be numbered and whose messages are not too
    long. -/
structure Admits (prf : Prf) (f : Bytes → Bytes) (key : Bytes) (inputs : Inputs)
    (wanted : Nat) : Prop where
  keys : prf.Keys key
  filled : 0 < wanted
  index : Expansion.count prf.outLen wanted < 2 ^ 32
  width : ∀ r, inputs.counterBits = some r → Expansion.count prf.outLen wanted < 2 ^ r
  fits : ∀ i, i < Expansion.count prf.outLen wanted →
    ∀ message, message ∈ inputs.messages f i → prf.Fits message.length

/-- The output of `wanted` bytes. -/
def output (prf : Prf) (f : Bytes → Bytes) (inputs : Inputs) (wanted : Nat) : Bytes :=
  Expansion.output prf.outLen (inputs.block f) 0 wanted

end Sp108

open Sp108 (Inputs Placement)

/-- The placement that `counter_location` names. -/
def placement (location : UInt8) : Option Placement :=
  if location = ctrBeforeIter then some .beforeIter
  else if location = ctrAfterIter then some .afterIter
  else if location = ctrAfterFixed then some .afterFixed
  else none

def optionalCounter (params : Params) : Option (Option (Nat × Placement)) :=
  if params.useCounter = 0 then some none
  else if counterBitsOk params.counterBits then
    (placement params.counterLocation).map fun place => some (params.counterBits.toNat, place)
  else none

def inputsOf (mode : Mode) (params : Params) (in1 in2 : Bytes) : Option Inputs := match mode with
  | .counter =>
    if counterBitsOk params.counterBits then
      some (.counter params.counterBits.toNat in1 in2)
    else none
  | .feedback => (optionalCounter params).map fun counter => .feedback counter in1 in2
  | .pipeline => (optionalCounter params).map fun counter => .pipeline counter in2

def Counter.place (counter : Counter) : Nat × Placement := (counter.r,
    if counter.slot = 0 then .beforeIter else if counter.slot = 1 then .afterIter else .afterFixed)

def loopInputs (mode : Mode) (counter : Option Counter) (in1 in2 : Bytes) : Inputs :=
  match mode with
  | .counter => .counter (counter.elim 0 Counter.r) in1 in2
  | .feedback => .feedback (counter.map Counter.place) in1 in2
  | .pipeline => .pipeline (counter.map Counter.place) in2

/-- What `tc_kdf_derive` knows of a counter that it read. -/
structure Counted (mode : Mode) (counter : Option Counter) : Prop where
  width : ∀ c, counter = some c → c.r = 8 ∨ c.r = 16 ∨ c.r = 24 ∨ c.r = 32
  slot : ∀ c, counter = some c → c.slot ≤ 2
  always : mode = .counter → ∃ r, counter = some ⟨r, 1⟩

theorem counterBitsOk_iff (bits : UInt8) : counterBitsOk bits = true ↔
      bits.toNat = 8 ∨ bits.toNat = 16 ∨ bits.toNat = 24 ∨ bits.toNat = 32 := by
  simp only [counterBitsOk, Bool.or_eq_true, decide_eq_true_eq, ← UInt8.toNat_inj, or_assoc]
  rfl

variable {mode : Mode}

theorem Counted.of_slot (optional : mode ≠ .counter) {bits : UInt8} {slot : Nat}
    (ok : counterBitsOk bits = true) (small : slot ≤ 2) :
    Counted mode (some ⟨bits.toNat, slot⟩) where
  width := by
    rintro c ⟨⟩
    exact (counterBitsOk_iff bits).mp ok
  slot := by
    rintro c ⟨⟩
    exact small
  always := fun same => absurd same optional

theorem readParams_optional (optional : mode ≠ .counter) (params : Params) :
    (readParams mode params = none ∧ optionalCounter params = none) ∨
      ∃ counter, readParams mode params = some counter ∧ Counted mode counter ∧
        optionalCounter params = some (counter.map Counter.place) := by
  by_cases unused : params.useCounter = 0
  · refine .inr ⟨none, ?_, ⟨?_, ?_, ?_⟩, ?_⟩
    · simp [readParams, optional, unused]
    · rintro c ⟨⟩
    · rintro c ⟨⟩
    · exact fun same => absurd same optional
    · rw [optionalCounter, if_pos unused]
      rfl
  · by_cases ok : counterBitsOk params.counterBits = true
    · by_cases before : params.counterLocation = ctrBeforeIter
      · refine .inr ⟨some ⟨params.counterBits.toNat, 0⟩, ?_, .of_slot optional ok (by omega), ?_⟩
        · simp [readParams, optional, unused, ok, before]
        · simp [optionalCounter, unused, ok, placement, before, Counter.place]
      · by_cases after : params.counterLocation = ctrAfterIter
        · refine .inr ⟨some ⟨params.counterBits.toNat, 1⟩, ?_, .of_slot optional ok (by omega), ?_⟩
          · simp [readParams, optional, unused, ok, after, ctrAfterIter, ctrBeforeIter]
          · simp [optionalCounter, unused, ok, placement, after, Counter.place, ctrAfterIter,
              ctrBeforeIter]
        · by_cases last : params.counterLocation = ctrAfterFixed
          · refine .inr ⟨some ⟨params.counterBits.toNat, 2⟩, ?_, .of_slot optional ok (by omega), ?_⟩
            · simp [readParams, optional, unused, ok, last, ctrAfterIter, ctrBeforeIter,
                ctrAfterFixed]
            · simp [optionalCounter, unused, ok, placement, last, Counter.place, ctrAfterIter,
                ctrBeforeIter, ctrAfterFixed]
          · refine .inl ⟨?_, ?_⟩
            · simp [readParams, optional, unused, ok, before, after, last]
            · simp [optionalCounter, unused, ok, placement, before, after, last]
    · refine .inl ⟨?_, ?_⟩
      · simp [readParams, optional, unused, ok]
      · simp [optionalCounter, unused, ok]

theorem readParams_eq (mode : Mode) (params : Params) (in1 in2 : Bytes) :
    (readParams mode params = none ∧ inputsOf mode params in1 in2 = none) ∨
      ∃ counter, readParams mode params = some counter ∧ Counted mode counter ∧
        inputsOf mode params in1 in2 = some (loopInputs mode counter in1 in2) := by
  have widths := counterBitsOk_iff params.counterBits
  cases mode with
  | counter =>
    by_cases ok : counterBitsOk params.counterBits = true
    · refine .inr ⟨some ⟨params.counterBits.toNat, 1⟩, ?_, ⟨?_, ?_, ?_⟩, ?_⟩
      · simp [readParams, ok]
      · rintro c ⟨⟩
        exact widths.mp ok
      · rintro c ⟨⟩
        exact Nat.le_succ 1
      · exact fun _ => ⟨_, rfl⟩
      · simp [inputsOf, ok, loopInputs]
    · exact .inl ⟨by simp [readParams, ok], by simp [inputsOf, ok]⟩
  | feedback =>
    rw [inputsOf]
    rcases @readParams_optional .feedback (by decide) params with
      ⟨refused, none⟩ | ⟨counter, read, counted, same⟩
    · exact .inl ⟨refused, by rw [none, Option.map_none]⟩
    · exact .inr ⟨counter, read, counted, by rw [same, Option.map_some, loopInputs]⟩
  | pipeline =>
    rw [inputsOf]
    rcases @readParams_optional .pipeline (by decide) params with
      ⟨refused, none⟩ | ⟨counter, read, counted, same⟩
    · exact .inl ⟨refused, by rw [none, Option.map_none]⟩
    · exact .inr ⟨counter, read, counted, by rw [same, Option.map_some, loopInputs]⟩

theorem shift_byte (i : UInt32) {k : Nat} (small : k < 4) :
    (i >>> (8 * k).toUInt32).toUInt8 = UInt8.ofNat (i.toNat / 256 ^ k) := by
  have shift : (8 * k).toUInt32.toNat % 32 = 8 * k := by
    rw [Nat.toUInt32, UInt32.toNat_ofNat']
    omega
  rw [← UInt8.toNat_inj, UInt32.toNat_toUInt8, UInt32.toNat_shiftRight, shift,
    Nat.shiftRight_eq_div_pow, UInt8.toNat_ofNat', Nat.pow_mul]

theorem counterBytes_eq {length : Nat} (short : length ≤ 4) (i : UInt32) :
    counterBytes length i = ofValue length i.toNat := by
  rw [counterBytes, ofValue_eq_map]
  refine List.map_congr_left fun k inside => ?_
  have := List.mem_range.mp inside
  exact shift_byte i (by omega)

theorem counterBytes_ofNat {length : Nat} (short : length ≤ 4) (i : Nat) :
    counterBytes length (UInt32.ofNat i) = ofValue length i := by
  have divides : 256 ^ length ∣ 2 ^ 32 := pow_dvd_pow 256 short
  rw [counterBytes_eq short, UInt32.toNat_ofNat']
  apply Library.ByteCounter.value_injective
  · rw [ofValue_length, ofValue_length]
  · rw [value_ofValue, value_ofValue, Nat.mod_mod_of_dvd _ divides]

theorem Counted.short {counter : Counter} (counted : Counted mode (some counter)) :
    counter.length ≤ 4 := by
  have := counted.width counter rfl
  rw [Counter.length]
  omega

theorem segments_counter {r i : Nat} (counted : Counted .counter (some ⟨r, 1⟩))
    (in1 chain in2 : Bytes) :
    (blockSegments .counter (some ⟨r, 1⟩) (UInt32.ofNat i) in1 chain in2).flatten =
      in1 ++ ofValue (r / 8) i ++ in2 := by
  have bytes : counterBytes (r / 8) (UInt32.ofNat i) = ofValue (r / 8) i :=
    counterBytes_ofNat counted.short i
  simp [blockSegments, List.range_succ, Counter.length, bytes]

theorem segments_optional {counter : Option Counter} (counted : Counted mode counter)
    (optional : mode ≠ .counter) (i : Nat) (in1 chain in2 : Bytes) :
    (blockSegments mode counter (UInt32.ofNat i) in1 chain in2).flatten =
      Sp108.place (counter.map Counter.place) i chain in2 := by
  cases counter with
  | none => simp [blockSegments, List.range_succ, optional, Sp108.place]
  | some counter =>
    obtain ⟨r, slot⟩ := counter
    have bytes : counterBytes (r / 8) (UInt32.ofNat i) = ofValue (r / 8) i :=
      counterBytes_ofNat counted.short i
    have small : slot ≤ 2 := counted.slot _ rfl
    rcases show slot = 0 ∨ slot = 1 ∨ slot = 2 by omega with rfl | rfl | rfl
    all_goals
      simp [blockSegments, List.range_succ, optional, Sp108.place, Counter.place,
        Counter.length, bytes]

/-- The chaining value before block `i + 1`. -/
def chainAt (f : Bytes → Bytes) : Inputs → (i : Nat) → Bytes
  | .counter _ _ _, _ => []
  | .feedback ctr iv fixed, i => Sp108.feedbackBlock f ctr iv fixed i
  | .pipeline _ fixed, i => Sp108.pipelineChain f fixed i

/-- The state of the loop before block `i + 1`. -/
def AtBlock (f : Bytes → Bytes) (inputs : Inputs) (i : Nat) (s : DeriveState) : Prop :=
  s.i = UInt32.ofNat (i + 1) ∧ s.chain = chainAt f inputs i

theorem atBlock_first (f : Bytes → Bytes) (mode : Mode) (counter : Option Counter)
    (in1 in2 : Bytes) :
    AtBlock f (loopInputs mode counter in1 in2) 0 ⟨1, firstChain mode in1 in2⟩ := by
  cases mode with
  | counter => exact ⟨rfl, rfl⟩
  | feedback => exact ⟨rfl, rfl⟩
  | pipeline => exact ⟨rfl, rfl⟩

theorem next_index (i : Nat) : UInt32.ofNat i + 1 = UInt32.ofNat (i + 1) := by
  rw [UInt32.ofNat_add]
  rfl

section

variable {prf : Prf} {key : Bytes} {ctx : prf.Context} {f : Bytes → Bytes}

def Runs (prf : Prf) (ctx : prf.Context) (f : Bytes → Bytes) : Prop := ∀ segments : List Bytes,
    (prf.Fits segments.flatten.length ∧ prf.run ctx segments = some (f segments.flatten)) ∨
      (¬ prf.Fits segments.flatten.length ∧ prf.run ctx segments = none)

theorem Prf.Holds.runs (holds : prf.Holds key ctx [])
    (tags : ∀ message, prf.Tag key message (f message)) : Runs prf ctx f := by
  intro segments
  rcases holds.run segments with ⟨fits, tag, output, right⟩ | refused
  · rw [output, right.unique (tags _)]
    exact .inl ⟨fits, rfl⟩
  · exact .inr refused

variable {mode : Mode}

theorem derivePass_plain (plain : mode ≠ .pipeline) (counter : Option Counter) (in1 in2 : Bytes)
    (s : DeriveState) : derivePass prf mode counter in1 in2 ctx s =
      (prf.run ctx (blockSegments mode counter s.i in1 s.chain in2)).map fun block =>
        (block, ⟨s.i + 1, if mode = .feedback then block else s.chain⟩) := by
  rw [derivePass, if_neg plain]
  rfl

theorem derivePass_pipeline (counter : Option Counter) (in1 in2 : Bytes) (s : DeriveState) :
    derivePass prf .pipeline counter in1 in2 ctx s = (prf.run ctx [s.chain]).bind fun chain =>
        (prf.run ctx (blockSegments .pipeline counter s.i in1 chain in2)).map fun block =>
          (block, ⟨s.i + 1, chain⟩) := by
  rfl

variable {counter : Option Counter}

theorem derivePass_eq (runs : Runs prf ctx f) (counted : Counted mode counter) (in1 in2 : Bytes)
    {i : Nat} {s : DeriveState} (start : AtBlock f (loopInputs mode counter in1 in2) i s) :
    ((∀ message, message ∈ (loopInputs mode counter in1 in2).messages f i →
        prf.Fits message.length) ∧ ∃ after, derivePass prf mode counter in1 in2 ctx s =
          some ((loopInputs mode counter in1 in2).block f i, after) ∧
        AtBlock f (loopInputs mode counter in1 in2) (i + 1) after) ∨
    (¬ (∀ message, message ∈ (loopInputs mode counter in1 in2).messages f i →
        prf.Fits message.length) ∧ derivePass prf mode counter in1 in2 ctx s = none) := by
  obtain ⟨index, chain⟩ := start
  have later := next_index (i + 1)
  cases mode with
  | counter =>
    obtain ⟨r, rfl⟩ := counted.always rfl
    have block := runs (blockSegments .counter (some ⟨r, 1⟩) (UInt32.ofNat (i + 1)) in1 s.chain in2)
    rw [segments_counter counted] at block
    simp only [loopInputs, Option.elim, Inputs.messages, List.forall_mem_singleton,
      Inputs.block, List.getLastD_cons, List.getLastD_nil] at chain ⊢
    rw [derivePass_plain (by decide), index]
    rcases block with ⟨fits, output⟩ | ⟨long, refused⟩
    · rw [output, later]
      exact .inl ⟨fits, _, rfl, rfl, chain⟩
    · rw [refused]
      exact .inr ⟨long, rfl⟩
  | feedback =>
    have block := runs (blockSegments .feedback counter (UInt32.ofNat (i + 1)) in1 s.chain in2)
    rw [segments_optional counted (by decide)] at block
    simp only [loopInputs, chainAt] at chain
    rw [chain] at block
    simp only [loopInputs, Inputs.messages, List.forall_mem_singleton, Inputs.block,
      List.getLastD_cons, List.getLastD_nil]
    rw [derivePass_plain (by decide), index, chain]
    rcases block with ⟨fits, output⟩ | ⟨long, refused⟩
    · rw [output, later]
      exact .inl ⟨fits, _, rfl, rfl, rfl⟩
    · rw [refused]
      exact .inr ⟨long, rfl⟩
  | pipeline =>
    have first := runs [s.chain]
    simp only [loopInputs, chainAt] at chain
    rw [List.flatten_singleton, chain] at first
    have block := runs (blockSegments .pipeline counter (UInt32.ofNat (i + 1)) in1
      (Sp108.pipelineChain f in2 (i + 1)) in2)
    rw [segments_optional counted (by decide)] at block
    simp only [loopInputs, Inputs.messages, List.forall_mem_cons, List.not_mem_nil,
      false_implies, implies_true, and_true, Inputs.block, List.getLastD_cons, List.getLastD_nil]
    rw [derivePass_pipeline, index, chain]
    rcases first with ⟨fits, output⟩ | ⟨long, refused⟩
    · have next : f (Sp108.pipelineChain f in2 i) = Sp108.pipelineChain f in2 (i + 1) := rfl
      rw [output, Option.bind_some, next, later]
      rcases block with ⟨fits', output'⟩ | ⟨long, refused⟩
      · rw [output']
        exact .inl ⟨⟨fits, fits'⟩, _, rfl, rfl, rfl⟩
      · rw [refused]
        exact .inr ⟨fun both => long both.2, rfl⟩
    · rw [refused]
      exact .inr ⟨fun both => long both.1, rfl⟩

theorem Inputs.block_length (tags : ∀ message, prf.Tag key message (f message)) (inputs : Inputs)
    (i : Nat) : (inputs.block f i).length = prf.outLen := (tags _).length

theorem loopInputs_bits (counted : Counted mode counter) (in1 in2 : Bytes) :
    (loopInputs mode counter in1 in2).counterBits = counter.map Counter.r := by
  cases mode with
  | counter =>
    obtain ⟨r, rfl⟩ := counted.always rfl
    rfl
  | feedback => exact Option.map_map ..
  | pipeline => exact Option.map_map ..

theorem tooMany_iff (counted : Counted mode counter) (in1 in2 : Bytes) (reps : Nat) :
    tooMany counter reps = false ↔ reps < 2 ^ 32 ∧
        ∀ r, (loopInputs mode counter in1 in2).counterBits = some r → reps < 2 ^ r := by
  rw [loopInputs_bits counted]
  unfold tooMany
  cases counter with
  | none =>
    simp only [Bool.or_false, decide_eq_false_iff_not, Option.map_none, reduceCtorEq,
      false_implies, implies_true, and_true]
    omega
  | some counter =>
    have widths := counted.width counter rfl
    simp only [Bool.or_eq_false_iff, Bool.and_eq_false_iff, decide_eq_false_iff_not,
      Option.map_some, Option.some.injEq, forall_eq']
    rcases widths with width | width | width | width
    all_goals
      rw [width]
      omega

def Derives (prf : Prf) (f : Bytes → Bytes) (key : Bytes) (inputs : Option Inputs) (wanted : Nat)
    (result : Option Bytes) : Prop :=
  match inputs with
  | none => result = none
  | some inputs =>
    (Sp108.Admits prf f key inputs wanted ∧ result = some (Sp108.output prf f inputs wanted)) ∨
      (¬ Sp108.Admits prf f key inputs wanted ∧ result = none)

theorem Derives.refused {inputs : Option Inputs} {wanted : Nat} {result : Option Bytes}
    (no : ∀ inputs, ¬ Sp108.Admits prf f key inputs wanted) (none : result = .none) :
    Derives prf f key inputs wanted result := by
  cases inputs with
  | none => exact none
  | some inputs => exact .inr ⟨no inputs, none⟩

/-- `tc_kdf_derive` gives the blocks of its mode, exactly where they can be numbered. -/
theorem derive_eq (tags : ∀ message, prf.Tag key message (f message)) (mode : Mode)
    (params : Params) (in1 in2 : Bytes) (wanted : Nat) :
    Derives prf f key (inputsOf mode params in1 in2) wanted
      (derive prf mode key params in1 in2 wanted) := by
  have pos := prf.outLen_pos
  rcases Nat.eq_zero_or_pos wanted with rfl | more
  · refine .refused (fun inputs admits => absurd admits.filled (Nat.lt_irrefl 0)) ?_
    simp [derive]
  rcases prf.macInit_eq key with ⟨keys, filled, ok, ctx, started, holds⟩ | ⟨bad, failed⟩
  · have entry : ¬ (decide (key.length = 0) || !prf.keyOk key.length || decide (wanted = 0)) = true := by
      simp [filled, ok, Nat.pos_iff_ne_zero.mp more]
    unfold derive
    rw [if_neg entry]
    rcases readParams_eq mode params in1 in2 with ⟨refused, none⟩ | ⟨counter, read, counted, same⟩
    · rw [refused, none]
      rfl
    · have numbered := tooMany_iff counted in1 in2 (Expansion.count prf.outLen wanted)
      rw [read, same]
      simp only [Derives, ← Expansion.count_eq pos]
      split
      · rename_i many
        refine .inr ⟨fun admits => ?_, rfl⟩
        rw [numbered.mpr ⟨admits.index, admits.width⟩] at many
        cases many
      · rename_i few
        obtain ⟨index, width⟩ := numbered.mp (Bool.eq_false_iff.mpr few)
        rw [started, Option.bind_some]
        have step := fun i s => @derivePass_eq _ _ _ _ _ (holds.runs tags) counted in1 in2 i s
        rcases Expansion.fill_eq pos (Inputs.block_length tags _) _ _ step
          (Nat.le_refl wanted) (atBlock_first f mode counter in1 in2) with ⟨fits, after, filled, _⟩ | ⟨long, failed⟩
        · left
          rw [filled]
          refine ⟨⟨keys, more, index, width, ?_⟩, rfl⟩
          simpa only [Nat.zero_add] using fits
        · right
          rw [failed]
          refine ⟨fun admits => long ?_, rfl⟩
          simpa only [Nat.zero_add] using admits.fits
  · refine .refused (fun inputs admits => bad admits.keys) ?_
    unfold derive
    rcases failed with empty | refused | none
    · simp [empty]
    · simp [refused]
    · split
      · rfl
      · split
        · rfl
        · simp only [none, Option.bind_none, ite_self]

end

variable {params : Params} {in1 in2 : Bytes} {inputs : Inputs}

theorem inputsOf_bits (given : inputsOf mode params in1 in2 = some inputs) {r : Nat}
    (width : inputs.counterBits = some r) : r = 8 ∨ r = 16 ∨ r = 24 ∨ r = 32 := by
  rcases readParams_eq mode params in1 in2 with ⟨_, none⟩ | ⟨counter, _, counted, same⟩
  · rw [none] at given
    cases given
  · rw [same, Option.some.injEq] at given
    rw [← given, loopInputs_bits counted, Option.map_eq_some_iff] at width
    obtain ⟨c, found, rfl⟩ := width
    exact counted.width c found

theorem Sp108.Admits.counts {prf : Prf} {f : Bytes → Bytes} {key : Bytes} {wanted : Nat}
    (admits : Sp108.Admits prf f key inputs wanted)
    (given : inputsOf mode params in1 in2 = some inputs) {r : Nat}
    (width : inputs.counterBits = some r) {i : Nat} (inside : i < Expansion.count prf.outLen wanted) :
    value (ofValue (r / 8) (i + 1)) = i + 1 := by
  have few := admits.width r width
  have bits : 256 ^ (r / 8) = 2 ^ r := by
    rcases inputsOf_bits given width with rfl | rfl | rfl | rfl <;> rfl
  rw [value_ofValue, bits, Nat.mod_eq_of_lt (by omega)]

theorem Sp108.Admits.shorter {prf : Prf} {f : Bytes → Bytes} {key : Bytes} {few many : Nat}
    (admits : Sp108.Admits prf f key inputs many) (filled : 0 < few) (le : few ≤ many) :
    Sp108.Admits prf f key inputs few := by
  have less := @Expansion.count_mono prf.outLen few many le
  exact
    { keys := admits.keys
      filled
      index := Nat.lt_of_le_of_lt less admits.index
      width := fun r width => Nat.lt_of_le_of_lt less (admits.width r width)
      fits := fun i inside => admits.fits i (Nat.lt_of_lt_of_le inside less) }

theorem derive_prefix {prf : Prf} {key : Bytes} {few many : Nat} {out : Bytes}
    (longer : derive prf mode key params in1 in2 many = some out) (more : 0 < few) (le : few ≤ many) :
    derive prf mode key params in1 in2 few = some (out.take few) := by
  obtain ⟨f, tags⟩ := prf.exists_function key
  have long := derive_eq tags mode params in1 in2 many
  have short := derive_eq tags mode params in1 in2 few
  rw [longer] at long
  cases given : inputsOf mode params in1 in2 with
  | none =>
    rw [given] at long
    cases long
  | some inputs =>
    rw [given] at long short
    rcases long with ⟨admits, output⟩ | ⟨_, none⟩
    · rcases short with ⟨_, result⟩ | ⟨refused, _⟩
      · rw [Option.some.injEq] at output
        rw [result, output, Sp108.output, Sp108.output,
          Expansion.output_take prf.outLen_pos (Inputs.block_length tags inputs) 0 le]
      · exact absurd (admits.shorter more le) refused
    · cases none

theorem fixedInput_eq (sizeMax : Nat) (label context : Bytes) (outLen capacity : Nat) :
    fixedInput sizeMax label context outLen capacity =
      if 0 < outLen ∧ outLen < 2 ^ 29 ∧ label.length + context.length ≤ sizeMax - 5 ∧
          label.length + context.length + 5 ≤ capacity ∧ 0 ∉ label then
        some (label ++ [0] ++ context ++ ofValue 4 (8 * outLen)) else none := by
  by_cases small : 0 < outLen ∧ outLen < 2 ^ 29
  · have bits : (outLen.toUInt32 <<< 3).toNat = 8 * outLen := by
      rw [UInt32.toNat_shiftLeft, Nat.toUInt32, UInt32.toNat_ofNat', Nat.shiftLeft_eq]
      simp only [UInt32.reduceToNat, Nat.reduceMod, Nat.reducePow]
      omega
    rw [fixedInput, bits, fixedInputLen]
    grind
  · rw [fixedInput, if_pos, if_neg]
    · exact fun all => small ⟨all.1, all.2.1⟩
    · simp only [Bool.or_eq_true, decide_eq_true_eq]
      omega

end TinyCrypto.Kdf
