import TinyCrypto.Library.ByteCounter
import TinyCrypto.Tlv.Grammar

/-! # The header writer

`tlv_write.c`. A length of up to three octets is written as DER has it, so that the reader takes
back what was written. `headerParse` is `tc_tlv_header_read`, with the number of length octets
and the bound on a value as its parameters.
-/

namespace TinyCrypto.Tlv

open Library.ByteCounter

/-- `long_form_octets`. -/
def longFormOctets (length : Nat) : Nat :=
  if length = 0 then 0 else longFormOctets (length / 256) + 1
termination_by length
decreasing_by omega

/-- `tc_tlv_header_size`. -/
def headerSize (tagLength length : Nat) : Nat := if tagLength = 0 || tagLength > tagBytes then 0
  else if length ≤ 0x7f then tagLength + 1
  else if longFormOctets length ≤ 3 then tagLength + 1 + longFormOctets length
  else 0

/-- The length field that `tc_tlv_header_write` writes. -/
def lengthField (length : Nat) : Bytes := if length ≤ 0x7f then [UInt8.ofNat length]
  else
    UInt8.ofNat (0x80 ||| longFormOctets length) ::
      ((List.range (longFormOctets length)).map fun i => UInt8.ofNat (length >>> (8 * i))).reverse

/-- `tc_tlv_header_write`. -/
def headerWrite (tag : Bytes) (length : Nat) : Bytes := tag ++ lengthField length

variable {profile : Profile} {sizeT length : Nat} {constructed : Bool}

theorem longFormOctets_eq (length : Nat) : longFormOctets length = (Nat.digits 256 length).length := by
  induction length using Nat.strongRecOn with
  | ind length ih =>
    rw [longFormOctets]
    split
    · rename_i zero
      simp [zero]
    · rename_i nonzero
      have less : length / 256 < length := by omega
      rw [ih _ less, Nat.digits_def' (b := 256) (by decide) (Nat.pos_of_ne_zero nonzero)]
      rfl

theorem longFormOctets_le {count : Nat} : longFormOctets length ≤ count ↔ length < 256 ^ count := by
  rw [longFormOctets_eq, Nat.digits_length_le_iff (by decide)]

theorem digits_value (octets : Bytes) : digits 256 0 octets = value octets := by
  induction octets using List.reverseRecOn with
  | nil => rfl
  | append_singleton octets b ih =>
    rw [value_append_singleton, ← ih, digits, List.foldl_append]
    exact congrArg _ (Nat.mod_eq_of_lt b.toNat_lt)

theorem longFormOctets_value {octets : Bytes} (leading : octets.head? ≠ some 0) :
    longFormOctets (value octets) = octets.length := by
  refine Nat.le_antisymm (longFormOctets_le.mpr (value_lt octets)) ?_
  cases octets with
  | nil => exact Nat.zero_le _
  | cons b rest =>
    refine Nat.lt_of_not_le fun fewer => ?_
    have bound := longFormOctets_le.mp fewer
    have nonzero : 0 < b.toNat := by
      refine Nat.pos_of_ne_zero fun zero => leading (congrArg some ?_)
      exact UInt8.toNat_inj.mp zero
    rw [value_cons] at bound
    have least := Nat.le_mul_of_pos_left (256 ^ rest.length) nonzero
    omega

theorem lengthField_long (long : ¬ length ≤ 0x7f) :
    lengthField length = UInt8.ofNat (0x80 ||| longFormOctets length) ::
      ofValue (longFormOctets length) length := by
  rw [lengthField, if_neg long]
  congr 1
  rw [← List.reverse_inj, List.reverse_reverse, ofValue_reverse]
  refine List.map_congr_left fun i _ => ?_
  rw [Nat.shiftRight_eq_div_pow, Nat.pow_mul]

theorem first_octet {count : Nat} (few : count < 128) :
    (UInt8.ofNat (0x80 ||| count)).toNat = 128 + count := by
  have sum : 2 ^ 7 * 1 + count = 2 ^ 7 * 1 ||| count := Nat.two_pow_add_eq_or_of_lt few 1
  rw [show (0x80 : Nat) = 2 ^ 7 * 1 from rfl, ← sum, UInt8.toNat_ofNat']
  omega

theorem digits_ofValue (length : Nat) :
    digits 256 0 (ofValue (longFormOctets length) length) = length := by
  rw [digits_value, value_ofValue]
  exact Nat.mod_eq_of_lt (longFormOctets_le.mp (Nat.le_refl _))

theorem lengthField_valid (small : length ≤ 0xFFFFFF) (room : longFormOctets length ≤ sizeT) :
    ValidLength profile constructed sizeT (lengthField length) (some length) := by
  by_cases short : length ≤ 0x7f
  · have low : (UInt8.ofNat length).toNat = length := by
      rw [UInt8.toNat_ofNat']
      omega
    rw [lengthField, if_pos short]
    have valid := @ValidLength.short profile constructed sizeT (UInt8.ofNat length) (by omega)
    rwa [low] at valid
  · have three : longFormOctets length ≤ 3 := longFormOctets_le.mpr (by omega)
    have pos : ¬ longFormOctets length ≤ 0 := fun none => by
      have := longFormOctets_le.mp none
      omega
    have first := first_octet (show longFormOctets length < 128 by omega)
    have exact := digits_ofValue length
    have size := ofValue_length (longFormOctets length) length
    rw [lengthField_long short]
    have valid := @ValidLength.long profile constructed sizeT
      (UInt8.ofNat (0x80 ||| longFormOctets length)) (ofValue (longFormOctets length) length)
      (by omega) (fun reserved => by rw [reserved] at first; simp at first; omega) (by omega)
      (fun _ => by omega) (by omega) (by omega)
      (fun _ => ⟨fun zero => ?_, by omega⟩)
    · rwa [exact] at valid
    · have shorter : longFormOctets length ≤ longFormOctets length - 1 := by
        rw [longFormOctets_le]
        obtain ⟨rest, parts⟩ := List.head?_eq_some_iff.mp zero
        have tail := value_lt rest
        rw [parts, digits_value, value_cons] at exact
        rw [parts, List.length_cons] at size
        rw [show longFormOctets length - 1 = rest.length by omega]
        simp at exact
        omega
      omega

theorem lengthField_unique {field : Bytes}
    (valid : ValidLength .der constructed sizeT field (some length)) :
    field = lengthField length := by
  cases valid with
  | @short b low => rw [lengthField, if_pos (by omega), UInt8.ofNat_toNat]
  | @long b octets form reserved size iso room word minimal =>
    obtain ⟨leading, least⟩ := minimal rfl
    rw [digits_value] at least ⊢
    have count := longFormOctets_value leading
    rw [lengthField_long (by omega), count]
    have below := b.toNat_lt
    have first := first_octet (show octets.length < 128 by omega)
    congr 1
    · apply UInt8.toNat_inj.mp
      omega
    · refine value_injective (ofValue_length _ _).symm ?_
      rw [value_ofValue, Nat.mod_eq_of_lt (value_lt octets)]

def Admits (profile : Profile) (tag : Bytes) : Prop := ∃ sizeT maxValue bytes h,
    headerParse sizeT profile maxValue bytes = .ok h ∧ h.tag = tag

variable {tag : Bytes}

theorem Admits.valid (admits : Admits profile tag) : ∃ number, ValidTag profile tag number := by
  obtain ⟨_, _, _, h, read, rfl⟩ := admits
  obtain ⟨_, _, _, valid⟩ := headerParse_ok read
  exact ⟨h.number, valid.tag⟩

theorem ValidTag.number_unique {profile' : Profile} {number number' : Nat}
    (valid : ValidTag profile tag number) (valid' : ValidTag profile' tag number') :
    number = number' := by
  cases valid with
  | low nonzero short universal =>
    cases valid' with
    | low => rfl
    | high long => exact absurd long short
  | high long =>
    cases valid' with
    | low nonzero short universal => exact absurd long short
    | high => rfl

theorem ValidTag.der {number : Nat} (valid : ValidTag profile tag number) :
    ValidTag .der tag number := by
  cases valid with
  | low nonzero short universal => exact .low nonzero short universal
  | high long iso shape minimal needed word size =>
    exact .high long (by simp [Profile.iso]) shape minimal needed word
      (Nat.le_trans size (tagLimit_pos profile).2)

def headerOf (tag : Bytes) (number length : Nat) : ProfileHeader where
  length
  number
  tag
  headerLength := headerSize tag.length length
  tagClass := (tag.headD 0).toNat / 64
  constructed := (tag.headD 0).toNat / 32 % 2 = 1
  indefinite := false

theorem headerWrite_length {number : Nat} (valid : ValidTag profile tag number)
    (small : length ≤ 0xFFFFFF) :
    (headerWrite tag length).length = headerSize tag.length length := by
  have size := valid.size
  have limit := (tagLimit_pos profile).2
  have three : longFormOctets length ≤ 3 := longFormOctets_le.mpr (by omega)
  have inside : ¬ (decide (tag.length = 0) || decide (tag.length > tagBytes)) = true := by
    simp only [Bool.or_eq_true, decide_eq_true_eq]
    omega
  rw [headerSize, if_neg inside, headerWrite, List.length_append]
  by_cases short : length ≤ 0x7f
  · rw [if_pos short, lengthField, if_pos short]
    rfl
  · rw [if_neg short, if_pos three, lengthField_long short, List.length_cons,
      ofValue_length]
    omega

theorem headerWrite_valid {number maxValue : Nat} (valid : ValidTag profile tag number)
    (small : length ≤ 0xFFFFFF) (room : longFormOctets length ≤ sizeT)
    (bound : length ≤ maxValue) :
    ValidHeader sizeT profile maxValue (headerWrite tag length) (headerOf tag number length) where
  fields := ⟨lengthField length, some length, rfl, lengthField_valid small room, rfl, rfl⟩
  tag := valid
  tagClass := rfl
  constructed := rfl
  headerLength := (headerWrite_length valid small).symm
  value := bound

theorem ValidHeader.written {maxValue : Nat} {head : Bytes} {h : ProfileHeader}
    (valid : ValidHeader sizeT .der maxValue head h) : head = headerWrite h.tag h.length := by
  obtain ⟨field, stated, rfl, length, same, -⟩ := valid.fields
  cases stated with
  | none =>
    cases length with
    | indefinite ber => cases ber
  | some stated =>
    rw [lengthField_unique length, same]
    rfl

/-- For every tag that the reader accepts, and every length that can be written, the writer fills
    the size that was asked for, and every profile that takes the tag reads the header back, DER
    among them. A DER header is one string of bytes for its tag and its length. -/
theorem header_codec :
    (∀ {sizeT profile maxValue bytes h}, headerParse sizeT profile maxValue bytes = .ok h →
      ∀ {length}, length ≤ 0xFFFFFF →
        (headerWrite h.tag length).length = headerSize h.tag.length length ∧ Admits .der h.tag ∧
        ∀ profile', Admits profile' h.tag → ∀ octets bound, longFormOctets length ≤ octets →
          length ≤ bound → ∀ rest,
            headerParse octets profile' bound (headerWrite h.tag length ++ rest) =
              .ok { length, number := h.number, tag := h.tag,
                    headerLength := headerSize h.tag.length length, tagClass := h.tagClass,
                    constructed := h.constructed, indefinite := false }) ∧
    ∀ {octets octets' bound bound' first second h h'}, headerParse octets .der bound first = .ok h →
      headerParse octets' .der bound' second = .ok h' → h.tag = h'.tag → h.length = h'.length →
        first.take h.headerLength = second.take h'.headerLength := by
  constructor
  · intro sizeT profile maxValue bytes h read length small
    obtain ⟨_, _, _, valid⟩ := headerParse_ok read
    refine ⟨headerWrite_length valid.tag small, ?_, ?_⟩
    · have taken := headerParse_valid
        (headerWrite_valid valid.tag.der small (Nat.le_refl _) (Nat.le_refl _)) []
      exact ⟨_, _, _, _, taken, rfl⟩
    · intro profile' admits octets bound room within rest
      obtain ⟨number, tag⟩ := admits.valid
      obtain rfl := tag.number_unique valid.tag
      rw [headerParse_valid (headerWrite_valid tag small room within) rest, valid.tagClass,
        valid.constructed]
      rfl
  · intro octets octets' bound bound' first second h h' read read' tag length
    obtain ⟨head, tail, rfl, valid⟩ := headerParse_ok read
    obtain ⟨head', tail', rfl, valid'⟩ := headerParse_ok read'
    rw [valid.headerLength, valid'.headerLength, List.take_left, List.take_left, valid.written,
      valid'.written, tag, length]

theorem header_codec_long : (headerWrite [0x5f, 0x2d] 0x1234).length = headerSize 2 0x1234 ∧
      headerParse 8 .iso7816 0xffff (headerWrite [0x5f, 0x2d] 0x1234 ++ [0xaa]) =
        .ok ⟨⟨0x1234, 0x2d, [0x5f, 0x2d], headerSize 2 0x1234, 1, false⟩, false⟩ ∧
      ([0x04, 0x01, 0xaa] : Bytes).take 2 = ([0x04, 0x01, 0xbb] : Bytes).take 2 := by
  have read : headerParse 8 .iso7816 9 [0x5f, 0x2d, 0x00] =
      .ok ⟨⟨0, 0x2d, [0x5f, 0x2d], 3, 1, false⟩, false⟩ := rfl
  obtain ⟨size, -, reads⟩ := header_codec.1 read (show 0x1234 ≤ 0xFFFFFF by decide)
  refine ⟨size, reads .iso7816 ⟨_, _, _, _, read, rfl⟩ 8 0xffff ?_ (by decide) [0xaa], ?_⟩
  · exact longFormOctets_le.mpr (by decide)
  · have first : headerParse 8 .der 9 [0x04, 0x01, 0xaa] =
        .ok ⟨⟨1, 4, [0x04], 2, 0, false⟩, false⟩ := rfl
    have second : headerParse 8 .der 9 [0x04, 0x01, 0xbb] =
        .ok ⟨⟨1, 4, [0x04], 2, 0, false⟩, false⟩ := rfl
    exact header_codec.2 first second rfl rfl

end TinyCrypto.Tlv
