import TinyCrypto.Tlv.Stream

/-! # The grammar of headers

A header is a tag field and a length field (X.690 8.1.2, 8.1.3 and 10.1, ISO/IEC
7816-4 6.3). `headerParse` reads exactly the valid headers, and asks for more on
every part of one.
-/

namespace TinyCrypto.Tlv

inductive Octets : Bytes → Prop
  | last {b : UInt8} (low : b.toNat < 128) : Octets [b]
  | more {b : UInt8} {rest : Bytes} (high : 128 ≤ b.toNat) (later : Octets rest) :
      Octets (b :: rest)

def digits (base : Nat) (number : Nat) (octets : Bytes) : Nat :=
  octets.foldl (fun number b => number * base + b.toNat % base) number

inductive ValidTag (profile : Profile) : Bytes → Nat → Prop
  | low {first : UInt8} (nonzero : first ≠ 0) (short : first.toNat % 32 ≠ 31)
      (universal : ¬ (first.toNat / 64 = 0 ∧ first.toNat % 32 = 0)) :
      ValidTag profile [first] (first.toNat % 32)
  | high {first : UInt8} {octets : Bytes} (long : first.toNat % 32 = 31)
      (iso : ¬ (profile.iso = true ∧ first = 0xff)) (shape : Octets octets)
      (minimal : (octets.headD 0).toNat % 128 ≠ 0) (needed : 31 ≤ digits 128 0 octets)
      (word : digits 128 0 octets < 2 ^ 32) (size : 1 + octets.length ≤ profile.tagLimit) :
      ValidTag profile (first :: octets) (digits 128 0 octets)

/-- A valid length field and the length it states, or none when it is indefinite.
    DER lengths are minimal. -/
inductive ValidLength (profile : Profile) (constructed : Bool) (sizeT : Nat) :
    Bytes → Option Nat → Prop
  | short {b : UInt8} (low : b.toNat < 128) :
      ValidLength profile constructed sizeT [b] (some b.toNat)
  | indefinite (ber : profile = .ber) (inner : constructed = true) :
      ValidLength profile constructed sizeT [0x80] none
  | long {b : UInt8} {octets : Bytes} (form : 128 < b.toNat) (reserved : b ≠ 0xff)
      (size : octets.length = b.toNat % 128) (iso : profile.iso = true → octets.length ≤ 4)
      (room : octets.length ≤ sizeT) (word : digits 256 0 octets < 2 ^ 64)
      (minimal : profile = .der → octets.head? ≠ some 0 ∧ 128 ≤ digits 256 0 octets) :
      ValidLength profile constructed sizeT (b :: octets) (some (digits 256 0 octets))

structure ValidHeader (sizeT : Nat) (profile : Profile) (maxValue : Nat) (bytes : Bytes)
    (h : ProfileHeader) : Prop where
  fields : ∃ lengthField stated, bytes = h.tag ++ lengthField ∧
    ValidLength profile h.constructed sizeT lengthField stated ∧
    h.length = stated.getD 0 ∧ h.indefinite = decide (stated = none)
  tag : ValidTag profile h.tag h.number
  tagClass : h.tagClass = (h.tag.headD 0).toNat / 64
  constructed : h.constructed = decide ((h.tag.headD 0).toNat / 32 % 2 = 1)
  headerLength : h.headerLength = bytes.length
  value : h.length ≤ maxValue

variable {profile : Profile} {sizeT maxValue : Nat}

theorem digits_cons (base number : Nat) (b : UInt8) (rest : Bytes) :
    digits base number (b :: rest) = digits base (number * base + b.toNat % base) rest := rfl

theorem digits_ge {base : Nat} (pos : 0 < base) (number : Nat) (octets : Bytes) :
    number ≤ digits base number octets := by
  induction octets generalizing number with
  | nil => exact Nat.le_refl _
  | cons b rest ih =>
    rw [digits_cons]
    have here : number ≤ number * base := Nat.le_mul_of_pos_right _ pos
    exact Nat.le_trans (Nat.le_trans here (Nat.le_add_right _ _)) (ih _)

variable {octets : Bytes}

theorem tagOctets_valid (shape : Octets octets) (limit p number : Nat) (tail : Bytes)
    (begun : 0 < p) (minimal : p = 1 → (octets.headD 0).toNat % 128 ≠ 0)
    (needed : 31 ≤ digits 128 number octets) (word : digits 128 number octets < 2 ^ 32)
    (size : p + octets.length ≤ limit) : tagOctets limit p number (octets ++ tail) =
      .ok (p + octets.length, digits 128 number octets) := by
  induction shape generalizing p number with
  | @last b low =>
    rw [digits_cons] at needed word ⊢
    change 31 ≤ number * 128 + b.toNat % 128 at needed
    change number * 128 + b.toNat % 128 < 2 ^ 32 at word
    simp only [List.length_singleton] at size ⊢
    simp only [List.cons_append, List.nil_append, tagOctets]
    rw [if_neg (by omega), if_neg (by simpa using minimal), if_neg (by omega), if_pos low,
      if_neg (by omega)]
    rfl
  | @more b rest high later ih =>
    rw [digits_cons] at needed word ⊢
    have grows := digits_ge (show 0 < 128 by omega) (number * 128 + b.toNat % 128) rest
    simp only [List.length_cons] at size ⊢
    simp only [List.cons_append, tagOctets]
    rw [if_neg (by omega), if_neg (by simpa using minimal), if_neg (by omega),
      if_neg (by omega), ih (p + 1) _ (by omega) (by omega) needed word (by omega)]
    congr 2
    omega

theorem tagOctets_part (shape : Octets octets) (limit p number count : Nat) (begun : 0 < p)
    (minimal : p = 1 → (octets.headD 0).toNat % 128 ≠ 0) (word : digits 128 number octets < 2 ^ 32)
    (size : p + octets.length ≤ limit) (part : count < octets.length) :
    tagOctets limit p number (octets.take count) = .error .more := by
  induction shape generalizing p number count with
  | last low =>
    simp only [List.length_singleton, Nat.lt_one_iff] at part
    rw [part]
    rfl
  | @more b rest high later ih =>
    cases count with
    | zero => rfl
    | succ count =>
      rw [digits_cons] at word
      have grows := digits_ge (show 0 < 128 by omega) (number * 128 + b.toNat % 128) rest
      simp only [List.length_cons] at size part
      simp only [List.take_succ_cons, tagOctets]
      rw [if_neg (by omega), if_neg (by simpa using minimal), if_neg (by omega),
        if_neg (by omega), ih (p + 1) _ count (by omega) (by omega) word (by omega) (by omega)]

variable {bytes : Bytes}

theorem tagOctets_ok {limit p number : Nat} {taken value : Nat}
    (read : tagOctets limit p number bytes = .ok (taken, value)) (begun : 0 < p) (size : p ≤ limit) :
    ∃ octets tail, bytes = octets ++ tail ∧ Octets octets ∧ taken = p + octets.length ∧
      value = digits 128 number octets ∧ 31 ≤ value ∧ value < 2 ^ 32 ∧ taken ≤ limit ∧
      (p = 1 → (octets.headD 0).toNat % 128 ≠ 0) := by
  induction bytes generalizing p number with
  | nil => cases read
  | cons b rest ih =>
    simp only [tagOctets] at read
    split at read
    · cases read
    split at read
    · cases read
    rename_i minimal
    split at read
    · cases read
    have minimal' : p = 1 → b.toNat % 128 ≠ 0 := by simpa using minimal
    split at read
    · rename_i low
      split at read
      · cases read
      cases read
      exact ⟨[b], rest, rfl, .last low, rfl, rfl, by omega, by omega, by omega, minimal'⟩
    · rename_i high
      obtain ⟨octets, tail, rfl, shape, taken', value', needed, word, within, -⟩ :=
        ih read (by omega) (by omega)
      refine ⟨b :: octets, tail, rfl, .more (by omega) shape, ?_, value', needed, word, within,
        minimal'⟩
      rw [taken', List.length_cons]
      omega

theorem tagLimit_pos (profile : Profile) : 1 ≤ profile.tagLimit ∧ profile.tagLimit ≤ tagBytes := by
  unfold Profile.tagLimit
  split <;> simp [tagBytes]

variable {number : Nat}

theorem ValidTag.first {tag : Bytes} (valid : ValidTag profile tag number) :
    ∃ first rest, tag = first :: rest ∧ first ≠ 0 ∧ ¬ (profile.iso = true ∧ first = 0xff) := by
  cases valid with
  | @low first nonzero short universal =>
    refine ⟨first, [], rfl, nonzero, ?_⟩
    rintro ⟨-, rfl⟩
    exact short (by decide)
  | @high first octets long iso shape minimal needed word size =>
    refine ⟨first, octets, rfl, ?_, iso⟩
    rintro rfl
    exact absurd long (by decide)

theorem ValidTag.size {tag : Bytes} (valid : ValidTag profile tag number) :
    0 < tag.length ∧ tag.length ≤ tagBytes := by
  have limit := tagLimit_pos profile
  cases valid with
  | low nonzero short universal => exact ⟨by simp, by simp [tagBytes]⟩
  | high long iso shape minimal needed word size =>
    rw [List.length_cons]
    omega

variable {rest : Bytes}

theorem ValidTag.start {first : UInt8} (valid : ValidTag profile (first :: rest) number) :
    ¬ (decide (first = 0) || (profile.iso && decide (first = 0xff))) = true := by
  obtain ⟨_, _, same, nonzero, iso⟩ := valid.first
  obtain ⟨rfl, rfl⟩ := List.cons.inj same
  simpa [nonzero] using iso

theorem profileTag_valid {first : UInt8} (valid : ValidTag profile (first :: rest) number)
    (tail : Bytes) : profileTag profile first (rest ++ tail) = .ok (1 + rest.length, number) := by
  rw [profileTag, if_neg valid.start]
  cases valid with
  | low nonzero short universal =>
    rw [if_neg short, if_neg (by simpa using universal)]
    rfl
  | high long iso shape minimal needed word size =>
    rw [if_pos long]
    exact tagOctets_valid shape _ 1 0 tail (by decide) (fun _ => minimal) needed word size

theorem profileTag_part {first : UInt8} {number count : Nat}
    (valid : ValidTag profile (first :: rest) number) (part : count < rest.length) :
    profileTag profile first (rest.take count) = .error .more := by
  rw [profileTag, if_neg valid.start]
  cases valid with
  | low nonzero short universal => simp at part
  | high long iso shape minimal needed word size =>
    rw [if_pos long]
    exact tagOctets_part shape _ 1 0 count (by decide) (fun _ => minimal) word size part

theorem profileTag_ok {first : UInt8} {taken number : Nat}
    (read : profileTag profile first rest = .ok (taken, number)) :
    ∃ more tail, rest = more ++ tail ∧ taken = 1 + more.length ∧
      ValidTag profile (first :: more) number := by
  unfold profileTag at read
  split at read
  · cases read
  rename_i start
  simp only [Bool.or_eq_true, decide_eq_true_eq, Bool.and_eq_true, not_or] at start
  split at read
  · rename_i long
    obtain ⟨octets, tail, rfl, shape, rfl, rfl, needed, word, within, minimal⟩ :=
      tagOctets_ok read (by decide) (tagLimit_pos profile).1
    exact ⟨octets, tail, rfl, rfl, .high long start.2 shape (minimal rfl) needed word within⟩
  rename_i short
  split at read
  · cases read
  · rename_i universal
    cases read
    exact ⟨[], rest, rfl, rfl, .low start.1 short (by simpa using universal)⟩

theorem lengthOctets_digits (number : Nat) (octets : Bytes) (word : digits 256 number octets < 2 ^ 64) :
    lengthOctets number octets = .ok (digits 256 number octets) := by
  induction octets generalizing number with
  | nil => rfl
  | cons b rest ih =>
    rw [digits_cons] at word ⊢
    have byte : b.toNat % 256 = b.toNat := Nat.mod_eq_of_lt b.toNat_lt
    have grows := digits_ge (show 0 < 256 by omega) (number * 256 + b.toNat % 256) rest
    rw [byte] at word grows ⊢
    rw [lengthOctets, if_neg (by omega), ih _ word]

theorem lengthOctets_ok {number value : Nat} (read : lengthOctets number octets = .ok value)
    (word : number < 2 ^ 64) : value = digits 256 number octets ∧ value < 2 ^ 64 := by
  induction octets generalizing number with
  | nil =>
    cases read
    exact ⟨rfl, word⟩
  | cons b rest ih =>
    rw [lengthOctets] at read
    split at read
    · cases read
    have byte : b.toNat % 256 = b.toNat := Nat.mod_eq_of_lt b.toNat_lt
    rw [digits_cons, byte]
    exact ih read (by omega)

variable {constructed : Bool}

variable {stated : Option Nat} {field : Bytes}

theorem ValidLength.size (valid : ValidLength profile constructed sizeT field stated) :
    0 < field.length ∧ field.length ≤ 1 + sizeT := by
  cases valid with
  | short low => exact ⟨by simp, by simp⟩
  | indefinite ber inner => exact ⟨by simp, by simp⟩
  | long form reserved size iso room word minimal =>
    rw [List.length_cons]
    omega

theorem long_form {b : UInt8} (form : 128 < b.toNat) : b ≠ 0x80 := by
  rintro rfl
  exact absurd form (by decide)

theorem profileLength_valid (valid : ValidLength profile constructed sizeT field stated)
    (tail : Bytes) :
    profileLength profile constructed sizeT (field ++ tail) = .ok (field.length, stated) := by
  cases valid with
  | @short b low =>
    have plain : b ≠ 0xff ∧ b ≠ 0x80 := by
      constructor
      · rintro rfl
        exact absurd low (by decide)
      · rintro rfl
        exact absurd low (by decide)
    simp only [List.cons_append, List.nil_append, profileLength]
    rw [if_neg plain.1, if_neg plain.2, if_pos low]
    rfl
  | indefinite ber inner =>
    simp [profileLength, ber, inner]
  | @long b octets form reserved size iso room word minimal =>
    have first : profile = .der → ¬ (octets ++ tail).head? = some 0 := by
      intro der
      obtain ⟨nonzero, -⟩ := minimal der
      cases octets with
      | nil =>
        have low := b.toNat_lt
        have reserved' : b.toNat ≠ 255 := fun same => reserved (UInt8.toNat_inj.mp same)
        simp only [List.length_nil] at size
        omega
      | cons c rest => exact nonzero
    have iso' : ¬ (profile.iso && decide (b.toNat % 128 > 4)) = true := by
      simp only [Bool.and_eq_true, decide_eq_true_eq, not_and]
      intro iso''
      have := iso iso''
      omega
    simp only [List.cons_append, profileLength]
    rw [if_neg reserved, if_neg (long_form form), if_neg (by omega), if_neg iso',
      if_neg (by omega), if_neg (by rw [List.length_append]; omega),
      if_neg (by simpa using first), ← size, List.take_left, lengthOctets_digits 0 octets word]
    have least : ¬ (decide (profile = .der) && decide (digits 256 0 octets < 128)) = true := by
      simp only [Bool.and_eq_true, decide_eq_true_eq, not_and]
      intro der
      have := (minimal der).2
      omega
    simp only [if_neg least]
    rfl

theorem profileLength_part {count : Nat}
    (valid : ValidLength profile constructed sizeT field stated) (part : count < field.length) :
    profileLength profile constructed sizeT (field.take count) = .error .more := by
  cases count with
  | zero => rfl
  | succ count =>
    cases valid with
    | short low => simp at part
    | indefinite ber inner => simp at part
    | @long b octets form reserved size iso room word minimal =>
      rw [List.length_cons] at part
      have iso' : ¬ (profile.iso && decide (b.toNat % 128 > 4)) = true := by
        simp only [Bool.and_eq_true, decide_eq_true_eq, not_and]
        intro iso''
        have := iso iso''
        omega
      simp only [List.take_succ_cons, profileLength]
      rw [if_neg reserved, if_neg (long_form form), if_neg (by omega), if_neg iso',
        if_neg (by omega), if_pos (by rw [List.length_take]; omega)]

theorem profileLength_ok {taken : Nat}
    (read : profileLength profile constructed sizeT bytes = .ok (taken, stated)) :
    ∃ field tail, bytes = field ++ tail ∧ taken = field.length ∧
      ValidLength profile constructed sizeT field stated := by
  cases bytes with
  | nil => cases read
  | cons b rest =>
    simp only [profileLength] at read
    split at read
    · cases read
    rename_i reserved
    split at read
    · rename_i zero
      split at read
      · cases read
      rename_i allowed
      simp only [Bool.or_eq_true, decide_eq_true_eq, Bool.not_eq_true', not_or, not_not,
        Bool.not_eq_false] at allowed
      cases read
      exact ⟨[b], rest, rfl, rfl, zero ▸ .indefinite allowed.1 allowed.2⟩
    rename_i definite
    split at read
    · rename_i low
      cases read
      exact ⟨[b], rest, rfl, rfl, .short low⟩
    rename_i high
    split at read
    · cases read
    rename_i iso
    split at read
    · cases read
    rename_i room
    split at read
    · cases read
    rename_i enough
    split at read
    · cases read
    rename_i nonzero
    split at read
    · cases read
    rename_i value summed
    split at read
    · cases read
    rename_i least
    cases read
    obtain ⟨rfl, word⟩ := lengthOctets_ok summed (by decide)
    have size : (rest.take (b.toNat % 128)).length = b.toNat % 128 := by
      rw [List.length_take]
      omega
    have form : 128 < b.toNat := by
      have different : b.toNat ≠ 128 := fun same => definite (UInt8.toNat_inj.mp same)
      omega
    refine ⟨b :: rest.take (b.toNat % 128), rest.drop (b.toNat % 128), by simp, by simp [size],
      .long form reserved size ?_ (by omega) word ?_⟩
    · intro iso'
      simp only [iso', Bool.true_and, decide_eq_true_eq, Nat.not_lt] at iso
      omega
    · intro der
      simp only [der, decide_true, Bool.true_and, decide_eq_true_eq, Nat.not_lt] at nonzero least
      refine ⟨?_, least⟩
      rw [List.head?_take, if_neg (by
        have low := b.toNat_lt
        have reserved' : b.toNat ≠ 255 := fun same => reserved (UInt8.toNat_inj.mp same)
        omega)]
      exact nonzero

variable {h : ProfileHeader}

section

variable (valid : ValidHeader sizeT profile maxValue bytes h)

include valid

theorem ValidHeader.size : 0 < bytes.length ∧ bytes.length ≤ tagBytes + 1 + sizeT := by
  obtain ⟨field, stated, rfl, length, -, -⟩ := valid.fields
  have tag := valid.tag.size
  have field' := length.size
  rw [List.length_append]
  omega

theorem ValidHeader.first :
    ∃ first rest, bytes = first :: rest ∧ first ≠ 0 ∧ ¬ (profile.iso = true ∧ first = 0xff) := by
  obtain ⟨field, stated, rfl, -, -, -⟩ := valid.fields
  obtain ⟨first, rest, same, nonzero, iso⟩ := valid.tag.first
  exact ⟨first, rest ++ field, by rw [same]; rfl, nonzero, iso⟩

theorem headerParse_valid (tail : Bytes) :
    headerParse sizeT profile maxValue (bytes ++ tail) = .ok h := by
  obtain ⟨field, stated, rfl, length, size, indefinite⟩ := valid.fields
  obtain ⟨first, rest, tag, nonzero, iso⟩ := valid.tag.first
  have read := valid.tag
  rw [tag] at read
  have dropped : (first :: rest ++ field ++ tail).drop (1 + rest.length) = field ++ tail := by
    rw [List.append_assoc, Nat.add_comm, List.cons_append, List.drop_succ_cons, List.drop_left]
  have taken : (first :: rest ++ field ++ tail).take (1 + rest.length) = first :: rest := by
    rw [List.append_assoc, Nat.add_comm, List.cons_append, List.take_succ_cons, List.take_left]
  have form : h.constructed = decide (first.toNat / 32 % 2 = 1) := by
    rw [valid.constructed, tag]
    rfl
  rw [form] at length
  have tagged := profileTag_valid read (field ++ tail)
  have stated' := profileLength_valid length tail
  rw [tag]
  have parts : first :: rest ++ field ++ tail = first :: (rest ++ (field ++ tail)) := by simp
  rw [parts] at dropped taken ⊢
  simp only [headerParse, tagged, dropped, stated', taken]
  rw [if_neg (by have := valid.value; omega)]
  have headerLength := valid.headerLength
  have tagClass := valid.tagClass
  rw [tag] at headerLength tagClass
  obtain ⟨⟨_, _, _, _, _, _⟩, _⟩ := h
  simp only at *
  subst size indefinite form tag headerLength tagClass
  simp
  omega

theorem headerParse_part {count : Nat} (part : count < bytes.length) :
    headerParse sizeT profile maxValue (bytes.take count) = .error .more := by
  obtain ⟨field, stated, rfl, length, -, -⟩ := valid.fields
  obtain ⟨first, rest, tag, nonzero, iso⟩ := valid.tag.first
  have read := valid.tag
  have form : h.constructed = decide (first.toNat / 32 % 2 = 1) := by
    rw [valid.constructed, tag]
    rfl
  rw [form] at length
  rw [tag] at read part ⊢
  cases count with
  | zero => rfl
  | succ count =>
    simp only [List.cons_append, List.take_succ_cons, headerParse]
    by_cases inside : count < rest.length
    · rw [List.take_append_of_le_length (by omega), profileTag_part read inside]
    · have cut : (rest ++ field).take count = rest ++ field.take (count - rest.length) := by
        rw [List.take_append, List.take_of_length_le (by omega)]
      have dropped : (first :: (rest ++ field.take (count - rest.length))).drop (1 + rest.length) =
          field.take (count - rest.length) := by
        rw [Nat.add_comm, List.drop_succ_cons, List.drop_left]
      simp only [cut, profileTag_valid read, dropped]
      simp only [List.cons_append, List.length_cons, List.length_append] at part
      rw [profileLength_part length (by omega)]

end

theorem headerParse_ok (read : headerParse sizeT profile maxValue bytes = .ok h) :
    ∃ head tail, bytes = head ++ tail ∧ ValidHeader sizeT profile maxValue head h := by
  cases bytes with
  | nil => cases read
  | cons first rest =>
    simp only [headerParse] at read
    split at read
    · cases read
    rename_i taken number tagged
    obtain ⟨more, tail, rfl, rfl, tag⟩ := profileTag_ok tagged
    have dropped : (first :: (more ++ tail)).drop (1 + more.length) = tail := by
      rw [Nat.add_comm, List.drop_succ_cons, List.drop_left]
    have kept : (first :: (more ++ tail)).take (1 + more.length) = first :: more := by
      rw [Nat.add_comm, List.take_succ_cons, List.take_left]
    rw [dropped, kept] at read
    split at read
    · cases read
    rename_i octets stated length
    obtain ⟨field, tail', rfl, rfl, valid⟩ := profileLength_ok length
    split at read
    · cases read
    rename_i within
    cases read
    refine ⟨first :: more ++ field, tail', by simp, ⟨field, stated, rfl, valid, rfl, rfl⟩, tag,
      rfl, rfl, ?_, Nat.not_lt.mp within⟩
    simp
    omega

inductive Tree where
  | primitive (h : ProfileHeader) (head value : Bytes)
  | constructed (h : ProfileHeader) (head : Bytes) (children : List Tree)

def endOctets (h : ProfileHeader) : Bytes := if h.indefinite then [0, 0] else []

mutual

def Tree.encode : Tree → Bytes
  | .primitive _ head value => head ++ value
  | .constructed h head children => head ++ encodeAll children ++ endOctets h

def encodeAll : List Tree → Bytes
  | [] => []
  | t :: rest => t.encode ++ encodeAll rest

end

mutual

def Tree.count : Tree → Nat
  | .primitive _ _ _ => 1
  | .constructed _ _ children => 1 + countAll children

def countAll : List Tree → Nat
  | [] => 0
  | t :: rest => t.count + countAll rest

end

mutual

def Tree.height : Tree → Nat
  | .primitive _ _ _ => 0
  | .constructed _ _ children => 1 + heightAll children

def heightAll : List Tree → Nat
  | [] => 0
  | t :: rest => max t.height (heightAll rest)

end

section

variable (sizeT : Nat) (profile : Profile) (maxValue : Nat)

mutual

/-- A valid header, and the value that it announces: for a definite constructed
    object, exactly its children; for an indefinite one, its children up to the
    end-of-contents octets. -/
def Tree.WellFormed : Tree → Prop
  | .primitive h head value =>
    ValidHeader sizeT profile maxValue head h ∧ h.constructed = false ∧ value.length = h.length
  | .constructed h head children =>
    ValidHeader sizeT profile maxValue head h ∧ h.constructed = true ∧
      (h.indefinite = false → (encodeAll children).length = h.length) ∧
      (h.indefinite = true → (encodeAll children).length ≤ maxValue) ∧
      AllWellFormed children

def AllWellFormed : List Tree → Prop
  | [] => True
  | t :: rest => t.WellFormed ∧ AllWellFormed rest

end

end

mutual

/-- The traversal of an object at an offset and a depth: BEGIN, the children and
    CLOSE. -/
def Tree.events (offset depth : Nat) : Tree → List Event
  | .primitive h head value =>
    [⟨.begin, offset, depth, some h, head⟩,
      ⟨.close, offset + head.length + value.length, depth, none, []⟩]
  | .constructed h head children =>
    ⟨.begin, offset, depth, some h, head⟩ ::
      (eventsAll (offset + head.length) (depth + 1) children ++
        [⟨.close, offset + head.length + (encodeAll children).length, depth, none, endOctets h⟩])

def eventsAll (offset depth : Nat) : List Tree → List Event
  | [] => []
  | t :: rest => t.events offset depth ++ eventsAll (offset + t.encode.length) depth rest

end

inductive Item where
  | object (t : Tree)
  | pad (b : UInt8)

def Item.encode : Item → Bytes
  | .object t => t.encode
  | .pad b => [b]

def Item.count : Item → Nat
  | .object t => t.count
  | .pad _ => 0

def Item.height : Item → Nat
  | .object t => t.height
  | .pad _ => 0

def Item.WellFormed (sizeT : Nat) (profile : Profile) (maxValue : Nat) : Item → Prop
  | .object t => t.WellFormed sizeT profile maxValue
  | .pad b => padding profile b = true

def encodeItems (items : List Item) : Bytes := items.flatMap Item.encode

def countItems (items : List Item) : Nat := (items.map Item.count).sum

def eventsItems : (offset : Nat) → List Item → List Event
  | _, [] => []
  | offset, .object t :: rest => t.events offset 0 ++ eventsItems (offset + t.encode.length) rest
  | offset, .pad _ :: rest => eventsItems (offset + 1) rest

structure Parses (sizeT : Nat) (profile : Profile) (limits : Limits) (capacity : Nat)
    (input : Bytes) (items : List Item) : Prop where
  encoded : encodeItems items = input
  wellFormed : ∀ item ∈ items, item.WellFormed sizeT profile limits.maxValue
  elements : countItems items ≤ limits.maxElements
  depth : ∀ item ∈ items, item.height ≤ limits.maxDepth ∧ item.height ≤ capacity
  size : input.length ≤ limits.maxInput

theorem encodeAll_append (first second : List Tree) :
    encodeAll (first ++ second) = encodeAll first ++ encodeAll second := by
  induction first with
  | nil => rfl
  | cons t rest ih => simp only [List.cons_append, encodeAll, ih, List.append_assoc]

theorem countAll_append (first second : List Tree) :
    countAll (first ++ second) = countAll first + countAll second := by
  induction first with
  | nil => simp [countAll]
  | cons t rest ih => simp only [List.cons_append, countAll, ih, Nat.add_assoc]

theorem heightAll_append (first second : List Tree) :
    heightAll (first ++ second) = max (heightAll first) (heightAll second) := by
  induction first with
  | nil => simp [heightAll]
  | cons t rest ih => simp only [List.cons_append, heightAll, ih, Nat.max_assoc]

theorem allWellFormed_append {sizeT maxValue : Nat} {profile : Profile} {first second : List Tree} :
    AllWellFormed sizeT profile maxValue (first ++ second) ↔
      AllWellFormed sizeT profile maxValue first ∧ AllWellFormed sizeT profile maxValue second := by
  induction first with
  | nil => simp [AllWellFormed]
  | cons t rest ih => simp only [List.cons_append, AllWellFormed, ih, and_assoc]

end TinyCrypto.Tlv
