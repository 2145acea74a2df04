import TinyCrypto.Tlv.WalkComplete

/-! # Wider profiles and limits -/

namespace TinyCrypto.Tlv

variable {sizeT maxValue maxValue' : Nat} {profile profile' : Profile}

/-- The profiles that `profile'` takes the objects of. -/
def Profile.Covers (profile' profile : Profile) : Prop :=
  profile = profile' ∨ profile = .der ∧ profile' = .ber

theorem ValidTag.widen {tag : Bytes} {number : Nat} (covers : profile'.Covers profile)
    (valid : ValidTag profile tag number) : ValidTag profile' tag number := by
  rcases covers with rfl | ⟨rfl, rfl⟩
  · exact valid
  cases valid with
  | low nonzero short universal => exact .low nonzero short universal
  | high long _ shape minimal needed word size =>
    exact .high long (by simp [Profile.iso]) shape minimal needed word size

theorem ValidLength.widen {constructed : Bool} {field : Bytes} {stated : Option Nat}
    (covers : profile'.Covers profile)
    (valid : ValidLength profile constructed sizeT field stated) :
    ValidLength profile' constructed sizeT field stated := by
  rcases covers with rfl | ⟨rfl, rfl⟩
  · exact valid
  cases valid with
  | short low => exact .short low
  | indefinite ber _ => cases ber
  | long form reserved size _ room word _ =>
    exact .long form reserved size (by simp [Profile.iso]) room word (by simp)

theorem ValidHeader.widen {bytes : Bytes} {h : ProfileHeader} (covers : profile'.Covers profile)
    (large : maxValue ≤ maxValue') (valid : ValidHeader sizeT profile maxValue bytes h) :
    ValidHeader sizeT profile' maxValue' bytes h := by
  obtain ⟨field, stated, whole, length, rest⟩ := valid.fields
  exact { valid with
    fields := ⟨field, stated, whole, length.widen covers, rest⟩
    tag := valid.tag.widen covers
    value := Nat.le_trans valid.value large }

mutual

theorem Tree.WellFormed.widen (covers : profile'.Covers profile) (large : maxValue ≤ maxValue') :
    (t : Tree) → t.WellFormed sizeT profile maxValue → t.WellFormed sizeT profile' maxValue'
  | .primitive _ _ _, ⟨head, rest⟩ => ⟨head.widen covers large, rest⟩
  | .constructed _ _ children, ⟨head, constructed, definite, indefinite, inner⟩ =>
    ⟨head.widen covers large, constructed, definite,
      fun open_ => Nat.le_trans (indefinite open_) large, allWellFormed_widen covers large children inner⟩

theorem allWellFormed_widen (covers : profile'.Covers profile) (large : maxValue ≤ maxValue') :
    (trees : List Tree) → AllWellFormed sizeT profile maxValue trees →
      AllWellFormed sizeT profile' maxValue' trees
  | [], _ => trivial
  | t :: rest, ⟨first, others⟩ =>
    ⟨Tree.WellFormed.widen covers large t first, allWellFormed_widen covers large rest others⟩

end

theorem padding_widen {b : UInt8} (covers : profile'.Covers profile)
    (padded : padding profile b = true) : padding profile' b = true := by
  rcases covers with rfl | ⟨rfl, rfl⟩
  · exact padded
  · cases padded

/-- Limits and frames that are as wide. -/
structure Wider (limits limits' : Limits) (capacity capacity' : Nat) : Prop where
  input : limits.maxInput ≤ limits'.maxInput
  value : limits.maxValue ≤ limits'.maxValue
  depth : limits.maxDepth ≤ limits'.maxDepth
  elements : limits.maxElements ≤ limits'.maxElements
  frames : capacity ≤ capacity'

/-- What a walk accepts it accepts with the same events under wider limits, and a DER walk
    under BER. -/
theorem walk_widens {ber ber' : Bool} {limits limits' : Limits} {capacity capacity' : Nat}
    {input : Bytes} (covers : profile'.Covers profile) (configured : config ber' profile' = .ok)
    (wider : Wider limits limits' capacity capacity')
    (accepted : (walk ber sizeT profile limits capacity input).1 = .ok) :
    (walk ber' sizeT profile' limits' capacity' input).1 = .ok ∧
      framing (walk ber' sizeT profile' limits' capacity' input).2 =
        framing (walk ber sizeT profile limits capacity input).2 := by
  obtain ⟨-, items, parses⟩ := (walk_ok_iff _ _ _ _ _ _).mp accepted
  have parses' : Parses sizeT profile' limits' capacity' input items := by
    refine ⟨parses.encoded, fun item listed => ?_, Nat.le_trans parses.elements wider.elements,
      fun item listed => ?_, Nat.le_trans parses.size wider.input⟩
    · have valid := parses.wellFormed item listed
      cases item with
      | object t => exact Tree.WellFormed.widen covers wider.value t valid
      | pad b => exact padding_widen covers valid
    · obtain ⟨depth, frames⟩ := parses.depth item listed
      exact ⟨Nat.le_trans depth wider.depth, Nat.le_trans frames wider.frames⟩
  have accepted' := (walk_ok_iff _ _ _ _ _ _).mpr ⟨configured, items, parses'⟩
  exact ⟨accepted', (walk_framing accepted' parses').trans (walk_framing accepted parses).symm⟩

/-- A SEQUENCE of two objects. -/
theorem walk_widens_sequence : (walk true 8 .ber ⟨9, 9, 9, 9⟩ 9 [0x30, 4, 2, 0, 5, 0]).1 = .ok ∧
      framing (walk true 8 .ber ⟨9, 9, 9, 9⟩ 9 [0x30, 4, 2, 0, 5, 0]).2 =
        framing (walk false 8 .der ⟨6, 4, 1, 3⟩ 1 [0x30, 4, 2, 0, 5, 0]).2 :=
  walk_widens (.inr ⟨rfl, rfl⟩) rfl ⟨by decide, by decide, by decide, by decide, by decide⟩
    (by decide)

end TinyCrypto.Tlv
