import TinyCrypto.Kdf.Kbkdf

/-! # Key derivation from HMAC

`hkdf.c`, compared with RFC 5869, and the output laws of both derivations. The output is disjoint
from the inputs.
-/

namespace TinyCrypto.Kdf

open Library
open Library.ByteCounter (value ofValue)
open Hash (Core HmacContext Resumption Info)

/-- `hkdf_output_length_ok`. -/
def outputLengthOk (hashLen outputLen : Nat) : Bool := outputLen ≠ 0 && outputLen ≤ 255 * hashLen

/-- The loop variables of `hkdf_expand`. Before the first block no byte of `previous` is
    read. -/
structure ExpandState where
  counter : UInt8
  previous : Bytes
  contexts : Resumption
  deriving DecidableEq

section

variable (core : Info)

/-- `hkdf_extract`. None is TC_ERROR. -/
def hkdfExtract (salt : Bytes) (ikm : List Bytes) : Option Bytes := core.hmacParts salt ikm

/-- One pass of the loop of `hkdf_expand`. -/
def expandPass (info : Bytes) (s : ExpandState) : Option (Bytes × ExpandState) :=
  let resumed := core.hmacResumeParts s.contexts [s.previous, info, [s.counter]]
  resumed.1.map fun previous => (previous, ⟨s.counter + 1, previous, resumed.2⟩)

/-- `hkdf_expand`. -/
def hkdfExpand (prk info : Bytes) (outputLen : Nat) : Option Bytes :=
  (core.hmacInit prk).bind fun keyed =>
    (Expansion.fill core.digestBytes (expandPass core info) outputLen
      ⟨1, [], ⟨keyed, core.hmacWiped⟩⟩ outputLen).map Prod.fst

/-- `TC_HKDF_SHA*_expand`. -/
def hkdfExpandCall (prk info : Bytes) (outputLen : Nat) : Option Bytes :=
  if prk.length < core.digestBytes || !outputLengthOk core.digestBytes outputLen then none
  else hkdfExpand core prk info outputLen

/-- `TC_HKDF_SHA*_derive`. -/
def hkdfDerive (salt : Bytes) (ikm : List Bytes) (info : Bytes) (outputLen : Nat) : Option Bytes :=
  if !outputLengthOk core.digestBytes outputLen then none
  else (hkdfExtract core salt ikm).bind fun prk => hkdfExpand core prk info outputLen

end

namespace Rfc5869

variable (core : Info)

def extract (salt ikm : Bytes) : Bytes :=
  core.hmac (if salt = [] then List.replicate core.digestBytes 0 else salt) ikm

/-- `T(i)`. -/
def t (prk info : Bytes) : (i : Nat) → Bytes
  | 0 => []
  | i + 1 => core.hmac prk (t prk info i ++ info ++ [UInt8.ofNat (i + 1)])

/-- The first `wanted` bytes of `T(1)`, `T(2)` and so on. -/
def okm (prk info : Bytes) (wanted : Nat) : Bytes :=
  Expansion.output core.digestBytes (fun i => t core prk info (i + 1)) 0 wanted

def Fits (prk info : Bytes) (wanted : Nat) : Prop := prk.length ≤ core.maxMessageBytes ∧
    ∀ i, i < Expansion.count core.digestBytes wanted →
      core.blockBytes + (t core prk info i ++ info ++ [UInt8.ofNat (i + 1)]).length ≤
        core.maxMessageBytes

end Rfc5869

variable {core : Info}

theorem hmac_zeros (hmacs : core.Hmacs) (message : Bytes) :
    core.hmac (List.replicate core.digestBytes 0) message = core.hmac [] message := by
  have shorter := hmacs.shorter
  have block : core.k0 (List.replicate core.digestBytes 0) = core.k0 [] := by
    have short : ¬ core.digestBytes > core.blockBytes := by omega
    simp only [Info.k0, List.length_replicate, List.length_nil, short, if_false, Nat.not_lt_zero,
      gt_iff_lt, List.nil_append, List.replicate_append_replicate, Nat.sub_zero]
    rw [Nat.add_sub_cancel' (by omega)]
  simp only [Info.hmac, Info.keyed, block]

theorem extract_eq (hmacs : core.Hmacs) (salt ikm : Bytes) :
    Rfc5869.extract core salt ikm = core.hmac salt ikm := by
  rw [Rfc5869.extract]
  split
  · rename_i empty
    rw [empty, hmac_zeros hmacs]
  · rfl

theorem hmac_length (key message : Bytes) : (core.hmac key message).length = core.digestBytes := by
  rw [Info.hmac, ← Hash.digest_eq_standard, Info.digest_length]

/-- The loop before block `i + 1`. -/
structure BeforeBlock (prk info : Bytes) (ctx : HmacContext) (i : Nat) (s : ExpandState) :
    Prop where
  counter : s.counter = UInt8.ofNat (i + 1)
  previous : s.previous = Rfc5869.t core prk info i
  keyed : s.contexts.keyed = ctx

theorem next_counter (i : Nat) : UInt8.ofNat i + 1 = UInt8.ofNat (i + 1) := by
  rw [UInt8.ofNat_add]
  rfl

theorem expandPass_eq (hmacs : core.Hmacs) {prk info : Bytes} {ctx : HmacContext}
    (keyed : core.Keyed ctx prk []) {i : Nat} {s : ExpandState}
    (start : @BeforeBlock core prk info ctx i s) :
    (core.blockBytes + (Rfc5869.t core prk info i ++ info ++ [UInt8.ofNat (i + 1)]).length ≤
        core.maxMessageBytes ∧
      ∃ after, expandPass core info s = some (Rfc5869.t core prk info (i + 1), after) ∧
        @BeforeBlock core prk info ctx (i + 1) after) ∨
    (¬ core.blockBytes + (Rfc5869.t core prk info i ++ info ++ [UInt8.ofNat (i + 1)]).length ≤
        core.maxMessageBytes ∧ expandPass core info s = none) := by
  have tag := keyed.resume hmacs s.contexts start.keyed [s.previous, info, [s.counter]]
  have parts : [s.previous, info, [s.counter]].flatten =
      Rfc5869.t core prk info i ++ info ++ [UInt8.ofNat (i + 1)] := by
    rw [start.previous, start.counter]
    simp
  rw [parts, Info.limitedHmac] at tag
  by_cases fits : core.blockBytes +
      (Rfc5869.t core prk info i ++ info ++ [UInt8.ofNat (i + 1)]).length ≤ core.maxMessageBytes
  · rw [if_pos fits] at tag
    have counter : s.counter + 1 = UInt8.ofNat (i + 1 + 1) := by
      rw [start.counter, next_counter]
    refine .inl ⟨fits, ⟨s.counter + 1, Rfc5869.t core prk info (i + 1),
      (core.hmacResumeParts s.contexts [s.previous, info, [s.counter]]).2⟩, ?_, counter, rfl,
      start.keyed⟩
    simp only [expandPass, tag, Option.map_some]
    rfl
  · rw [if_neg fits] at tag
    refine .inr ⟨fits, ?_⟩
    simp only [expandPass, tag, Option.map_none]

/-- `hkdf_expand` gives the blocks of the standard, exactly where their messages fit. -/
theorem hkdfExpand_eq (hmacs : core.Hmacs) (pos : 0 < core.digestBytes) (prk info : Bytes)
    (wanted : Nat) : (Rfc5869.Fits core prk info wanted ∧
        hkdfExpand core prk info wanted = some (Rfc5869.okm core prk info wanted)) ∨
      (¬ Rfc5869.Fits core prk info wanted ∧ hkdfExpand core prk info wanted = none) := by
  rw [hkdfExpand]
  rcases Hash.hmacInit_eq hmacs prk with ⟨long, refused⟩ | ⟨ctx, fits, started, keyed⟩
  · refine .inr ⟨fun all => absurd all.1 (Nat.not_le.mpr long), ?_⟩
    rw [refused, Option.bind_none]
  · have step := fun i s => @expandPass_eq _ hmacs _ info _ keyed i s
    have first : @BeforeBlock core prk info ctx 0 ⟨1, [], ⟨ctx, core.hmacWiped⟩⟩ := ⟨rfl, rfl, rfl⟩
    have sizes : ∀ i, (Rfc5869.t core prk info (i + 1)).length = core.digestBytes :=
      fun i => hmac_length _ _
    rw [started, Option.bind_some]
    rcases Expansion.fill_eq pos sizes _ _ step (Nat.le_refl wanted) first with
      ⟨all, after, filled, _⟩ | ⟨long, failed⟩
    · simp only [Nat.zero_add] at all
      rw [filled]
      exact .inl ⟨⟨fits, all⟩, rfl⟩
    · simp only [Nat.zero_add] at long
      rw [failed]
      exact .inr ⟨fun both => long both.2, rfl⟩

instance (prk info : Bytes) (wanted : Nat) : Decidable (Rfc5869.Fits core prk info wanted) :=
  inferInstanceAs (Decidable (_ ∧ _))

theorem hkdfExpandCall_eq (hmacs : core.Hmacs) (pos : 0 < core.digestBytes)
    (prk info : Bytes) (wanted : Nat) : hkdfExpandCall core prk info wanted =
      if core.digestBytes ≤ prk.length ∧ (0 < wanted ∧ wanted ≤ 255 * core.digestBytes) ∧
          Rfc5869.Fits core prk info wanted then some (Rfc5869.okm core prk info wanted)
      else none := by
  have expanded := hkdfExpand_eq hmacs pos prk info wanted
  rw [hkdfExpandCall, outputLengthOk]
  grind

theorem hkdfExtract_eq (hmacs : core.Hmacs) (salt : Bytes) (ikm : List Bytes) :
    hkdfExtract core salt ikm = if salt.length ≤ core.maxMessageBytes ∧
          core.blockBytes + ikm.flatten.length ≤ core.maxMessageBytes then
        some (Rfc5869.extract core salt ikm.flatten) else none := by
  rw [hkdfExtract, Hash.hmacParts_eq hmacs, Info.limitedHmac, extract_eq hmacs]
  grind

theorem hkdfDerive_eq (hmacs : core.Hmacs) (pos : 0 < core.digestBytes) (salt : Bytes)
    (ikm : List Bytes) (info : Bytes) (wanted : Nat) : hkdfDerive core salt ikm info wanted =
      if (0 < wanted ∧ wanted ≤ 255 * core.digestBytes) ∧ (salt.length ≤ core.maxMessageBytes ∧
            core.blockBytes + ikm.flatten.length ≤ core.maxMessageBytes) ∧
          Rfc5869.Fits core (Rfc5869.extract core salt ikm.flatten) info wanted then
        some (Rfc5869.okm core (Rfc5869.extract core salt ikm.flatten) info wanted) else none := by
  have expanded := hkdfExpand_eq hmacs pos (Rfc5869.extract core salt ikm.flatten) info wanted
  rw [hkdfDerive, outputLengthOk, hkdfExtract_eq hmacs]
  grind

theorem counter_octet (pos : 0 < core.digestBytes) {wanted i : Nat}
    (short : wanted ≤ 255 * core.digestBytes)
    (inside : i < Expansion.count core.digestBytes wanted) :
    (UInt8.ofNat (i + 1)).toNat = i + 1 := by
  have few := (Expansion.count_le_iff pos).mpr short
  rw [UInt8.toNat_ofNat']
  exact Nat.mod_eq_of_lt (by omega)

variable {few many : Nat}

theorem okm_take (pos : 0 < core.digestBytes) (prk info : Bytes) (le : few ≤ many) :
    Rfc5869.okm core prk info few = (Rfc5869.okm core prk info many).take few := by
  have sizes : ∀ i, (Rfc5869.t core prk info (i + 1)).length = core.digestBytes :=
    fun i => hmac_length _ _
  exact Expansion.output_take pos sizes 0 le

theorem Rfc5869.Fits.shorter {prk info : Bytes}
    (fits : Rfc5869.Fits core prk info many) (le : few ≤ many) : Rfc5869.Fits core prk info few :=
  ⟨fits.1, fun i inside => fits.2 i (Nat.lt_of_lt_of_le inside (Expansion.count_mono le))⟩

theorem hkdfExpandCall_prefix (hmacs : core.Hmacs) (pos : 0 < core.digestBytes)
    {prk info out : Bytes}
    (longer : hkdfExpandCall core prk info many = some out) (more : 0 < few) (le : few ≤ many) :
    hkdfExpandCall core prk info few = some (out.take few) := by
  rw [hkdfExpandCall_eq hmacs pos] at longer ⊢
  split at longer
  · rename_i admitted
    obtain ⟨size, range, fits⟩ := admitted
    cases longer
    rw [if_pos ⟨size, ⟨more, by omega⟩, fits.shorter le⟩, okm_take pos prk info le]
  · cases longer

theorem hkdfDerive_prefix (hmacs : core.Hmacs) (pos : 0 < core.digestBytes) {salt : Bytes}
    {ikm : List Bytes} {info out : Bytes}
    (longer : hkdfDerive core salt ikm info many = some out) (more : 0 < few) (le : few ≤ many) :
    hkdfDerive core salt ikm info few = some (out.take few) := by
  rw [hkdfDerive_eq hmacs pos] at longer ⊢
  split at longer
  · rename_i admitted
    obtain ⟨range, sizes, fits⟩ := admitted
    cases longer
    rw [if_pos ⟨⟨more, by omega⟩, sizes, fits.shorter le⟩, okm_take pos _ info le]
  · cases longer

/-- Each derivation gives the block sequence of its standard cut to the requested length, is a
    prefix of every longer one, and numbers its blocks without repetition. -/
theorem kdf_output_laws : (∀ (prf : Prf) (key : Bytes), ∃ f : Bytes → Bytes,
      (∀ message, prf.Tag key message (f message)) ∧
      ∀ (mode : Mode) (params : Params) (in1 in2 : Bytes) (wanted : Nat),
        Derives prf f key (inputsOf mode params in1 in2) wanted
          (derive prf mode key params in1 in2 wanted) ∧
        (∀ inputs r, inputsOf mode params in1 in2 = some inputs →
          Sp108.Admits prf f key inputs wanted → inputs.counterBits = some r →
          ∀ i, i < Expansion.count prf.outLen wanted → value (ofValue (r / 8) (i + 1)) = i + 1) ∧
        ∀ few out, derive prf mode key params in1 in2 wanted = some out → 0 < few →
          few ≤ wanted → derive prf mode key params in1 in2 few = some (out.take few)) ∧
    (∀ (sizeMax : Nat) (label context : Bytes) (wanted capacity : Nat),
      fixedInput sizeMax label context wanted capacity =
        if 0 < wanted ∧ wanted < 2 ^ 29 ∧ label.length + context.length ≤ sizeMax - 5 ∧
            label.length + context.length + 5 ≤ capacity ∧ 0 ∉ label then
          some (label ++ [0] ++ context ++ ofValue 4 (8 * wanted)) else none) ∧
    ∀ (hash : Core) (compression : Core.Compression hash) (salt : Bytes) (ikm : List Bytes)
      (prk info : Bytes) (wanted : Nat), let core := hash.info compression
      (hkdfExtract core salt ikm = if salt.length ≤ core.maxMessageBytes ∧
            core.blockBytes + ikm.flatten.length ≤ core.maxMessageBytes then
          some (Rfc5869.extract core salt ikm.flatten)
        else none) ∧
      (hkdfExpandCall core prk info wanted =
        if core.digestBytes ≤ prk.length ∧ (0 < wanted ∧ wanted ≤ 255 * core.digestBytes) ∧
            Rfc5869.Fits core prk info wanted then
          some (Rfc5869.okm core prk info wanted)
        else none) ∧
      (hkdfDerive core salt ikm info wanted = if (0 < wanted ∧ wanted ≤ 255 * core.digestBytes) ∧
            (salt.length ≤ core.maxMessageBytes ∧
              core.blockBytes + ikm.flatten.length ≤ core.maxMessageBytes) ∧
            Rfc5869.Fits core (Rfc5869.extract core salt ikm.flatten) info wanted then
          some (Rfc5869.okm core (Rfc5869.extract core salt ikm.flatten) info wanted)
        else none) ∧
      (wanted ≤ 255 * core.digestBytes → ∀ i, i < Expansion.count core.digestBytes wanted →
        (UInt8.ofNat (i + 1)).toNat = i + 1) ∧
      ∀ few out, 0 < few → few ≤ wanted → (hkdfExpandCall core prk info wanted = some out →
          hkdfExpandCall core prk info few = some (out.take few)) ∧
        (hkdfDerive core salt ikm info wanted = some out →
          hkdfDerive core salt ikm info few = some (out.take few)) := by
  refine ⟨?_, fixedInput_eq, ?_⟩
  · intro prf key
    obtain ⟨f, tags⟩ := prf.exists_function key
    refine ⟨f, tags, fun mode params in1 in2 wanted => ⟨?_, ?_, ?_⟩⟩
    · exact derive_eq tags mode params in1 in2 wanted
    · intro inputs r given admits width i inside
      exact admits.counts given width inside
    · intro few out longer more le
      exact derive_prefix longer more le
  · intro hash compression salt ikm prk info wanted core
    have hmacs : core.Hmacs := hash.hmacs compression
    have pos : 0 < core.digestBytes := hash.digestBytes_pos
    refine ⟨hkdfExtract_eq hmacs salt ikm, hkdfExpandCall_eq hmacs pos prk info wanted,
      hkdfDerive_eq hmacs pos salt ikm info wanted, ?_, ?_⟩
    · intro short i inside
      exact counter_octet pos short inside
    · intro few out more le
      exact ⟨fun longer => hkdfExpandCall_prefix hmacs pos longer more le,
        fun longer => hkdfDerive_prefix hmacs pos longer more le⟩

end TinyCrypto.Kdf
