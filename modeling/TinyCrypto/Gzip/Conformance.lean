import TinyCrypto.Gzip.InflateStream

/-! # Conformance

The streams of RFC 1951 stand for one byte string, and the decoder accepts those whose
dynamic headers declare at most 30 distance codes.
-/

namespace TinyCrypto.Gzip

open Library Library.Program
open Library.BitString (ofBytes ofBytes_length ofBytes_injective)
open Library.CanonicalCode (IsCode.determined)

variable {bits rest rest' : List Bool}

variable {number' length' times second : Nat} {codes given all all' : List Nat}

theorem Number.unique {width number : Nat} (first : Number width bits number rest)
    (second : Number width bits number' rest') : number' = number ∧ rest' = rest := by
  obtain ⟨word, length, rfl, rfl⟩ := first
  obtain ⟨word', length', same, rfl⟩ := second
  obtain ⟨rfl, rfl⟩ := List.append_inj same (by rw [length, length'])
  exact ⟨rfl, rfl⟩

theorem Symbol.unique {lengths : List Nat} {symbol symbol' : Nat}
    (first : Symbol lengths bits symbol rest) (second : Symbol lengths bits symbol' rest') :
    symbol' = symbol ∧ rest' = rest := by
  obtain ⟨word, isCode, rfl⟩ := first
  obtain ⟨word', isCode', same⟩ := second
  exact isCode'.determined isCode same.symm

theorem Extended.unique {bases extras : List Nat} {index number : Nat}
    (first : Extended bases extras index bits number rest)
    (second : Extended bases extras index bits number' rest') :
    number' = number ∧ rest' = rest := by
  obtain ⟨base, width, extra, found, found', read, rfl⟩ := first
  obtain ⟨extra', read', rfl⟩ := (extended_iff found found').mp second
  obtain ⟨rfl, rfl⟩ := read.unique read'
  exact ⟨rfl, rfl⟩

variable {literals distances : List Nat}

theorem BackReference.unique {length distance distance' : Nat}
    (first : BackReference literals distances bits length distance rest)
    (second : BackReference literals distances bits length' distance' rest') :
    length' = length ∧ distance' = distance ∧ rest' = rest := by
  obtain ⟨symbol, lengthRead, symbol', distanceRead⟩ := first
  obtain ⟨again, lengthAgain, again', distanceAgain⟩ := second
  obtain ⟨index, rfl⟩ := symbol.unique again
  obtain rfl := Nat.add_left_cancel index
  obtain ⟨rfl, rfl⟩ := lengthRead.unique lengthAgain
  obtain ⟨rfl, rfl⟩ := symbol'.unique again'
  obtain ⟨rfl, rfl⟩ := distanceRead.unique distanceAgain
  exact ⟨rfl, rfl, rfl⟩

variable {out final final' : Bytes}

theorem Tokens.unique (first : Tokens literals distances out bits final rest)
    (second : Tokens literals distances out bits final' rest') : final' = final ∧ rest' = rest := by
  induction first with
  | endOfBlock read =>
    cases second with
    | endOfBlock again => exact ⟨rfl, (read.unique again).2⟩
    | literal byte again _ =>
      have := (read.unique again).1
      have := byte.toNat_lt
      omega
    | copy reference _ _ =>
      obtain ⟨again, _, _, _⟩ := reference
      have := (read.unique again).1
      omega
  | literal byte read _ ih =>
    have small := byte.toNat_lt
    cases second with
    | endOfBlock again =>
      have := (read.unique again).1
      omega
    | literal byte' again tokens =>
      obtain ⟨same, rfl⟩ := read.unique again
      obtain rfl := UInt8.toNat_inj.mp same
      exact ih tokens
    | copy reference _ _ =>
      obtain ⟨again, _, _, _⟩ := reference
      have := (read.unique again).1
      omega
  | copy reference _ _ ih =>
    cases second with
    | endOfBlock again =>
      obtain ⟨read, _, _, _⟩ := reference
      have := (read.unique again).1
      omega
    | literal byte again _ =>
      obtain ⟨read, _, _, _⟩ := reference
      have := (read.unique again).1
      have := byte.toNat_lt
      omega
    | copy reference' _ tokens =>
      obtain ⟨rfl, rfl, rfl⟩ := reference.unique reference'
      exact ih tokens

theorem Numbers.unique {width : Nat} {numbers numbers' : List Nat}
    (first : Numbers width bits numbers rest) (second : Numbers width bits numbers' rest')
    (length : numbers'.length = numbers.length) : numbers' = numbers ∧ rest' = rest := by
  induction first generalizing numbers' with
  | nil =>
    cases second with
    | nil => exact ⟨rfl, rfl⟩
    | cons _ _ => cases length
  | cons read _ ih =>
    cases second with
    | nil => cases length
    | cons again others =>
      obtain ⟨rfl, rfl⟩ := read.unique again
      obtain ⟨rfl, rfl⟩ := ih others (Nat.succ_inj.mp length)
      exact ⟨rfl, rfl⟩

theorem LengthCode.unique {times' length : Nat}
    (first : LengthCode codes given bits times length rest)
    (second : LengthCode codes given bits times' length' rest') :
    times' = times ∧ length' = length ∧ rest' = rest := by
  cases first with
  | single read small =>
    cases second with
    | single again _ =>
      obtain ⟨rfl, rfl⟩ := read.unique again
      exact ⟨rfl, rfl, rfl⟩
    | previous again _ _ | zeros again _ | manyZeros again _ =>
      have := (read.unique again).1
      omega
  | previous read last extra =>
    cases second with
    | single again _ | zeros again _ | manyZeros again _ =>
      have := (read.unique again).1
      omega
    | previous again last' extra' =>
      obtain ⟨_, rfl⟩ := read.unique again
      obtain ⟨rfl, rfl⟩ := extra.unique extra'
      rw [last, Option.some_inj] at last'
      exact ⟨rfl, last'.symm, rfl⟩
  | zeros read extra =>
    cases second with
    | single again _ | previous again _ _ | manyZeros again _ =>
      have := (read.unique again).1
      omega
    | zeros again extra' =>
      obtain ⟨_, rfl⟩ := read.unique again
      obtain ⟨rfl, rfl⟩ := extra.unique extra'
      exact ⟨rfl, rfl, rfl⟩
  | manyZeros read extra =>
    cases second with
    | single again _ | previous again _ _ | zeros again _ =>
      have := (read.unique again).1
      omega
    | manyZeros again extra' =>
      obtain ⟨_, rfl⟩ := read.unique again
      obtain ⟨rfl, rfl⟩ := extra.unique extra'
      exact ⟨rfl, rfl, rfl⟩

theorem LengthCode.times_pos {length : Nat} (read : LengthCode codes given bits times length rest) :
    0 < times := by
  cases read with
  | single _ _ => exact Nat.one_pos
  | previous _ _ _ | zeros _ _ | manyZeros _ _ => omega

theorem CodeLengths.unique {total : Nat} (first : CodeLengths codes total given bits all rest)
    (second : CodeLengths codes total given bits all' rest') : all' = all ∧ rest' = rest := by
  induction first with
  | done full =>
    cases second with
    | done _ => exact ⟨rfl, rfl⟩
    | more read fits _ =>
      have := read.times_pos
      omega
  | more read fits _ ih =>
    cases second with
    | done full =>
      have := read.times_pos
      omega
    | more again _ others =>
      obtain ⟨rfl, rfl, rfl⟩ := read.unique again
      exact ih others

variable {limit : Nat}

theorem LengthSequence.unique {first first' second' : Nat}
    (one : LengthSequence limit bits first second all rest)
    (other : LengthSequence limit bits first' second' all' rest') :
    first' = first ∧ second' = second ∧ all' = all ∧ rest' = rest := by
  obtain ⟨literalRead, distanceRead, codeRead, _, _, numbers, count, _, lengths⟩ := one
  obtain ⟨literalAgain, distanceAgain, codeAgain, _, _, numbers', count', _, lengths'⟩ := other
  obtain ⟨rfl, rfl⟩ := literalRead.unique literalAgain
  obtain ⟨rfl, rfl⟩ := distanceRead.unique distanceAgain
  obtain ⟨rfl, rfl⟩ := codeRead.unique codeAgain
  obtain ⟨rfl, rfl⟩ := numbers.unique numbers' (count'.trans count.symm)
  obtain ⟨rfl, rfl⟩ := lengths.unique lengths'
  exact ⟨rfl, rfl, rfl, rfl⟩

theorem Header.unique {literals literals' distances distances' : List Nat}
    (one : Header limit bits literals distances rest)
    (other : Header limit bits literals' distances' rest') :
    literals' = literals ∧ distances' = distances ∧ rest' = rest := by
  obtain ⟨sequence, _, _⟩ := one
  obtain ⟨sequence', _, _⟩ := other
  obtain ⟨rfl, rfl, rfl, rfl⟩ := sequence.unique sequence'
  exact ⟨rfl, rfl, rfl⟩

theorem Block.unique (first : Block limit out bits final rest)
    (second : Block limit out bits final' rest') : final' = final ∧ rest' = rest := by
  cases first with
  | stored type length complement size =>
    cases second with
    | stored type' length' complement' size' =>
      obtain ⟨_, rfl⟩ := type.unique type'
      obtain ⟨rfl, rfl⟩ := length.unique length'
      obtain ⟨data, rfl⟩ := List.append_inj (complement.unique complement').2 (by
        rw [ofBytes_length, ofBytes_length, size, size'])
      exact ⟨by rw [ofBytes_injective data], rfl⟩
    | fixed type' _ | dynamic type' _ _ =>
      have := (type.unique type').1
      omega
  | fixed type tokens =>
    cases second with
    | stored type' _ _ _ | dynamic type' _ _ =>
      have := (type.unique type').1
      omega
    | fixed type' tokens' =>
      obtain ⟨_, rfl⟩ := type.unique type'
      exact tokens.unique tokens'
  | dynamic type header tokens =>
    cases second with
    | stored type' _ _ _ | fixed type' _ =>
      have := (type.unique type').1
      omega
    | dynamic type' header' tokens' =>
      obtain ⟨_, rfl⟩ := type.unique type'
      obtain ⟨rfl, rfl, rfl⟩ := header.unique header'
      exact tokens.unique tokens'

theorem Stream.unique (first : Stream limit out bits final rest)
    (second : Stream limit out bits final' rest') : final' = final ∧ rest' = rest := by
  induction first with
  | final mark block =>
    cases second with
    | final mark' block' =>
      obtain ⟨_, rfl⟩ := mark.unique mark'
      exact block.unique block'
    | more mark' _ _ =>
      have := (mark.unique mark').1
      omega
  | more mark block _ ih =>
    cases second with
    | final mark' _ =>
      have := (mark.unique mark').1
      omega
    | more mark' block' others =>
      obtain ⟨_, rfl⟩ := mark.unique mark'
      obtain ⟨rfl, rfl⟩ := block.unique block'
      exact ih others

variable {limit' : Nat}

theorem LengthSequence.mono (le : limit ≤ limit') {first : Nat}
    (sequence : LengthSequence limit bits first second all rest) :
    LengthSequence limit' bits first second all rest := by
  obtain ⟨h₁, h₂, h₃, few, fewer, numbers, count, codes, lengths⟩ := sequence
  exact .mk h₁ h₂ h₃ few (fewer.trans le) numbers count codes lengths

theorem LengthSequence.second_le {first : Nat}
    (sequence : LengthSequence limit bits first second all rest) : second ≤ limit := by
  obtain ⟨_, _, _, _, fewer, _, _, _, _⟩ := sequence
  exact fewer

theorem Header.mono (le : limit ≤ limit') (header : Header limit bits literals distances rest) :
    Header limit' bits literals distances rest := by
  obtain ⟨sequence, permitted, permitted'⟩ := header
  exact .mk (sequence.mono le) permitted permitted'

theorem Block.mono (le : limit ≤ limit') {out final : Bytes}
    (block : Block limit out bits final rest) : Block limit' out bits final rest := by
  cases block with
  | stored type length complement size => exact .stored type length complement size
  | fixed type tokens => exact .fixed type tokens
  | dynamic type header tokens => exact .dynamic type (header.mono le) tokens

theorem Stream.mono (le : limit ≤ limit') {out final : Bytes}
    (stream : Stream limit out bits final rest) : Stream limit' out bits final rest := by
  induction stream with
  | final mark block => exact .final mark (block.mono le)
  | more mark block _ ih => exact .more mark (block.mono le) ih

/-- A decoder before the first bit after `skipped`, with the output `before`. -/
def Inflating.start (skipped before : Bytes) (work : Nat) (tables : Workspace) : Inflating :=
  ⟨skipped.length, 0, work, before, tables⟩

theorem start_at (skipped before data : Bytes) (work : Nat) (tables : Workspace) :
    At (skipped ++ data) (.start skipped before work tables) (ofBytes data) := by
  refine ⟨Nat.zero_lt_succ 7, ?_, ?_⟩
  · rw [Inflating.position, Inflating.start, List.length_append]
    dsimp only
    omega
  · rw [Inflating.position, Inflating.start, Nat.add_zero, BitString.ofBytes_drop, List.drop_left]

/-- An accepted member has exactly one reading and it is the output, and what has a reading with
    30 distance codes is accepted once capacity and work are enough. -/
theorem decode_conforms (data : Bytes) : (∀ skipped before capacity work tables s',
      Gives (decode (skipped ++ data) capacity) (.start skipped before work tables) () s' →
        ∃ out rest, (Stream 30 [] (ofBytes data) out rest ∧ Stream 32 [] (ofBytes data) out rest) ∧
          (∀ out' rest', Stream 32 [] (ofBytes data) out' rest' → out' = out ∧ rest' = rest) ∧
          s'.output = before ++ out ∧ s'.bit = 0 ∧
          8 * s'.offset + (skipToByte rest).length = 8 * (skipped.length + data.length)) ∧
    ∀ out rest, Stream 30 [] (ofBytes data) out rest →
      ∃ needed, ∀ skipped before capacity work tables,
        before.length + out.length ≤ capacity → needed ≤ work →
          ∃ s', Gives (decode (skipped ++ data) capacity) (.start skipped before work tables) () s' ∧
            s'.output = before ++ out ∧ s'.bit = 0 ∧
            8 * s'.offset + (skipToByte rest).length = 8 * (skipped.length + data.length) := by
  have place : ∀ {skipped rest : _} {s : Inflating}, At (skipped ++ data) s (skipToByte rest) →
      s.bit = 0 ∧ 8 * s.offset + (skipToByte rest).length = 8 * (skipped.length + data.length) := by
    intro skipped rest s cursor
    have aligned := cursor.aligned (skipToByte_length rest)
    have whole := cursor.length_eq
    rw [Inflating.position, aligned, Nat.add_zero, List.length_append] at whole
    exact ⟨aligned, whole⟩
  constructor
  · intro skipped before capacity work tables s' run
    obtain ⟨_, out, rest, stream, wrote⟩ :=
      decode_wrote (start_at skipped before data work tables) run
    have wide := stream.mono (show 30 ≤ 32 by decide)
    exact ⟨out, rest, ⟨stream, wide⟩, fun out' rest' other => wide.unique other, wrote.output,
      place wrote.cursor⟩
  · intro out rest stream
    obtain ⟨needed, accepts⟩ := decode_enough stream
    refine ⟨needed, fun skipped before capacity work tables room enough => ?_⟩
    obtain ⟨s', run, wrote⟩ := accepts capacity _ (start_at skipped before data work tables) room
      enough
    exact ⟨s', run, wrote.output, place wrote.cursor⟩

/-- A dynamic block with one literal code, 31 distance codes without length, and no data. -/
def wideHeader : Bytes := [5, 222, 129, 0, 0, 0, 0, 0, 144, 255, 107, 41, 0]

def wideBits (skip : Nat) : List Bool := (ofBytes wideHeader).drop skip

theorem wide_number {skip width number : Nat} (fits : skip + width ≤ 104)
    (equal : BitString.value ((wideBits skip).take width) = number) :
    Number width (wideBits skip) number (wideBits (skip + width)) := by
  have length : (wideBits skip).length = 104 - skip := by
    rw [wideBits, List.length_drop, ofBytes_length]
    rfl
  refine ⟨(wideBits skip).take width, List.length_take_of_le (by omega), ?_, equal.symm⟩
  rw [wideBits, wideBits, ← List.drop_drop, List.take_append_drop]

theorem wide_symbol {lengths : List Nat} {skip width symbol : Nat}
    (isCode : CanonicalCode.IsCode lengths symbol ((wideBits skip).take width)) :
    Symbol lengths (wideBits skip) symbol (wideBits (skip + width)) := by
  refine ⟨(wideBits skip).take width, isCode, ?_⟩
  rw [wideBits, wideBits, ← List.drop_drop, List.take_append_drop]

theorem wide_numbers (count skip : Nat) (fits : skip + 3 * count ≤ 104) : Numbers 3 (wideBits skip)
      ((List.range count).map fun i => BitString.value ((wideBits (skip + 3 * i)).take 3))
      (wideBits (skip + 3 * count)) := by
  induction count generalizing skip with
  | zero => exact .nil
  | succ count ih =>
    have next := ih (skip + 3) (by omega)
    rw [List.range_succ_eq_map, List.map_cons, List.map_map]
    refine .cons (wide_number (by omega) rfl) ?_
    convert next using 2
    · funext i
      rw [Function.comp_apply, Nat.succ_eq_add_one, Nat.mul_add, Nat.add_assoc, Nat.add_comm 3]
    · omega

def wideCodes : List Nat := [0, 1, 0, 0, 0, 0, 0, 0, 0, 0, 0, 0, 0, 0, 0, 0, 0, 0, 1]

theorem wide_codes : orderedLengths
    ((List.range 18).map fun i => BitString.value ((wideBits (17 + 3 * i)).take 3)) = wideCodes := by
  decide

def wideLengths : List Nat :=
  [] ++ List.replicate 138 0 ++ List.replicate 118 0 ++ List.replicate 1 1 ++ List.replicate 31 0

theorem wide_sequence : LengthSequence 32 (wideBits 3) 257 31 wideLengths (wideBits 96) := by
  have zeros := @wide_symbol wideCodes 71 1 18 (by decide)
  have zeros' := @wide_symbol wideCodes 79 1 18 (by decide)
  have single := @wide_symbol wideCodes 87 1 1 (by decide)
  have zeros'' := @wide_symbol wideCodes 88 1 18 (by decide)
  refine .mk (wide_number (by decide) (by decide) : Number 5 _ 0 (wideBits 8))
    (wide_number (by decide) (by decide) : Number 5 _ 30 (wideBits 13))
    (wide_number (by decide) (by decide) : Number 4 _ 14 (wideBits 17))
    (by decide) (by decide) (wide_numbers 18 17 (by decide)) rfl ?_ ?_
  · rw [wide_codes]
    exact ⟨by decide, .inl (by decide)⟩
  · rw [wide_codes]
    refine .more (.manyZeros zeros (wide_number (by decide) (by decide) :
      Number 7 _ 127 (wideBits 79))) (by decide) ?_
    refine .more (.manyZeros zeros' (wide_number (by decide) (by decide) :
      Number 7 _ 107 (wideBits 87))) (by decide +kernel) ?_
    refine .more (.single single (by decide +kernel)) (by decide +kernel) ?_
    refine .more (.manyZeros zeros'' (wide_number (by decide) (by decide) :
      Number 7 _ 20 (wideBits 96))) (by decide +kernel) ?_
    exact .done (by decide +kernel)

theorem wide_stream : Stream 32 [] (ofBytes wideHeader) [] (wideBits 97) := by
  have header : Header 32 (wideBits 3) (wideLengths.take 257) (wideLengths.drop 257)
      (wideBits 96) := by
    refine .mk wide_sequence ⟨by decide +kernel, .inr (.inl ⟨by decide +kernel, by decide⟩)⟩
      ⟨by decide, .inr (.inr ⟨rfl, by decide⟩)⟩
  have ends := @wide_symbol (wideLengths.take 257) 96 1 256 (by decide +kernel)
  exact .final (wide_number (by decide) (by decide) : Number 1 (wideBits 0) 1 (wideBits 1))
    (.dynamic (wide_number (by decide) (by decide) : Number 2 _ 2 (wideBits 3)) header
      (.endOfBlock ends))

theorem wide_header_refused : Stream 32 [] (ofBytes wideHeader) [] (wideBits 97) ∧
    ∀ skipped before capacity work tables s',
      ¬ Gives (decode (skipped ++ wideHeader) capacity) (.start skipped before work tables) () s' := by
  refine ⟨wide_stream, fun skipped before capacity work tables s' run => ?_⟩
  obtain ⟨_, out, rest, stream, _⟩ :=
    decode_wrote (start_at skipped before wideHeader work tables) run
  have mark : Number 1 (wideBits 0) 1 (wideBits 1) := wide_number (by decide) (by decide)
  have type : Number 2 (wideBits 1) 2 (wideBits 3) := wide_number (by decide) (by decide)
  have block : ∃ out rest, Block 30 [] (wideBits 1) out rest := by
    cases stream with
    | final mark' block =>
      obtain ⟨_, rfl⟩ := mark.unique mark'
      exact ⟨_, _, block⟩
    | more mark' _ _ =>
      have := (mark.unique mark').1
      omega
  obtain ⟨_, _, block⟩ := block
  cases block with
  | stored type' _ _ _ | fixed type' _ =>
    have := (type.unique type').1
    omega
  | dynamic type' header _ =>
    obtain ⟨_, rfl⟩ := type.unique type'
    obtain ⟨sequence, _, _⟩ := header
    rename_i first second all
    have few := sequence.second_le
    obtain ⟨_, rfl, _, _⟩ := (sequence.mono (show 30 ≤ 32 by decide)).unique wide_sequence
    omega

end TinyCrypto.Gzip
