import TinyCrypto.Common.Bytes
import TinyCrypto.Library.CanonicalCode

/-! # DEFLATE streams

RFC 1951 as relations between a bit string, what it decodes to, and the bits after it.
The bit string ends on a byte boundary. Dynamic headers declare at most `limit` distance
codes: 32 in section 3.2.7, of which 30 occur.
-/

namespace TinyCrypto.Gzip

open Library
open Library.BitString (value ofBytes)
open Library.CanonicalCode (IsCode kraft)

def Number (width : Nat) (bits : List Bool) (number : Nat) (rest : List Bool) : Prop :=
  ∃ word, word.length = width ∧ bits = word ++ rest ∧ number = value word

def Symbol (lengths : List Nat) (bits : List Bool) (symbol : Nat) (rest : List Bool) : Prop :=
  ∃ word, IsCode lengths symbol word ∧ bits = word ++ rest

inductive Alphabet where
  | codeLengths
  | literals
  | distances
  deriving DecidableEq

def Permitted (alphabet : Alphabet) (lengths : List Nat) : Prop :=
  (∀ length ∈ lengths, length ≤ 15) ∧ (kraft lengths 15 = 2 ^ 15 ∨
      (alphabet ≠ .codeLengths ∧ lengths.filter (· ≠ 0) = [1]) ∨
      (alphabet = .distances ∧ ∀ length ∈ lengths, length = 0))

def lengthBases : List Nat :=
  [3, 4, 5, 6, 7, 8, 9, 10, 11, 13, 15, 17, 19, 23, 27, 31, 35, 43, 51, 59, 67, 83, 99, 115, 131,
    163, 195, 227, 258]

def lengthExtras : List Nat :=
  [0, 0, 0, 0, 0, 0, 0, 0, 1, 1, 1, 1, 2, 2, 2, 2, 3, 3, 3, 3, 4, 4, 4, 4, 5, 5, 5, 5, 0]

def distanceBases : List Nat :=
  [1, 2, 3, 4, 5, 7, 9, 13, 17, 25, 33, 49, 65, 97, 129, 193, 257, 385, 513, 769, 1025, 1537, 2049,
    3073, 4097, 6145, 8193, 12289, 16385, 24577]

def distanceExtras : List Nat :=
  [0, 0, 0, 0, 1, 1, 2, 2, 3, 3, 4, 4, 5, 5, 6, 6, 7, 7, 8, 8, 9, 9, 10, 10, 11, 11, 12, 12, 13, 13]

def repeated (out : Bytes) (distance length : Nat) : Bytes :=
  (List.range length).map fun i => out.getD (out.length - distance + i % distance) 0

def Extended (bases extras : List Nat) (index : Nat) (bits : List Bool) (number : Nat)
    (rest : List Bool) : Prop :=
  ∃ base width extra, bases[index]? = some base ∧ extras[index]? = some width ∧
    Number width bits extra rest ∧ number = base + extra

inductive BackReference (literals distances : List Nat) :
    List Bool → Nat → Nat → List Bool → Prop where
  | mk : Symbol literals bits (257 + i) afterSymbol →
      Extended lengthBases lengthExtras i afterSymbol length afterLength →
      Symbol distances afterLength j afterSymbol' →
      Extended distanceBases distanceExtras j afterSymbol' distance rest →
      BackReference literals distances bits length distance rest

inductive Tokens (literals distances : List Nat) : Bytes → List Bool → Bytes → List Bool → Prop where
  | endOfBlock : Symbol literals bits 256 rest → Tokens literals distances out bits out rest
  | literal (byte : UInt8) : Symbol literals bits byte.toNat middle →
      Tokens literals distances (out ++ [byte]) middle final rest →
      Tokens literals distances out bits final rest
  | copy : BackReference literals distances bits length distance middle → distance ≤ out.length →
      Tokens literals distances (out ++ repeated out distance length) middle final rest →
      Tokens literals distances out bits final rest

def fixedLiterals : List Nat :=
  List.replicate 144 8 ++ List.replicate 112 9 ++ List.replicate 24 7 ++ List.replicate 8 8

def fixedDistances : List Nat := List.replicate 32 5

inductive Numbers (width : Nat) : List Bool → List Nat → List Bool → Prop where
  | nil : Numbers width bits [] bits
  | cons : Number width bits number middle → Numbers width middle numbers rest →
      Numbers width bits (number :: numbers) rest

/-- One code of the code length alphabet: how often it gives a length, and the length. -/
inductive LengthCode (codes given : List Nat) : List Bool → Nat → Nat → List Bool → Prop where
  | single : Symbol codes bits length rest → length ≤ 15 → LengthCode codes given bits 1 length rest
  | previous : Symbol codes bits 16 middle → given.getLast? = some length →
      Number 2 middle extra rest → LengthCode codes given bits (extra + 3) length rest
  | zeros : Symbol codes bits 17 middle → Number 3 middle extra rest →
      LengthCode codes given bits (extra + 3) 0 rest
  | manyZeros : Symbol codes bits 18 middle → Number 7 middle extra rest →
      LengthCode codes given bits (extra + 11) 0 rest

inductive CodeLengths (codes : List Nat) (total : Nat) :
    List Nat → List Bool → List Nat → List Bool → Prop where
  | done : given.length = total → CodeLengths codes total given bits given bits
  | more : LengthCode codes given bits times length middle → given.length + times ≤ total →
      CodeLengths codes total (given ++ List.replicate times length) middle all rest →
      CodeLengths codes total given bits all rest

def codeLengthOrder : List Nat := [16, 17, 18, 0, 8, 7, 9, 6, 10, 5, 11, 4, 12, 3, 13, 2, 14, 1, 15]

def orderedLengths (given : List Nat) : List Nat :=
  (List.range 19).map fun symbol => given.getD (codeLengthOrder.idxOf symbol) 0

inductive LengthSequence (limit : Nat) : List Bool → Nat → Nat → List Nat → List Bool → Prop where
  | mk : Number 5 bits literalCount afterLiterals → Number 5 afterLiterals distanceCount afterCounts →
      Number 4 afterCounts codeCount beforeCodes → literalCount + 257 ≤ 286 →
      distanceCount + 1 ≤ limit → Numbers 3 beforeCodes given afterCodes →
      given.length = codeCount + 4 → Permitted .codeLengths (orderedLengths given) →
      CodeLengths (orderedLengths given) (literalCount + 257 + (distanceCount + 1)) [] afterCodes all
        rest →
      LengthSequence limit bits (literalCount + 257) (distanceCount + 1) all rest

inductive Header (limit : Nat) : List Bool → List Nat → List Nat → List Bool → Prop where
  | mk : LengthSequence limit bits first second all rest → Permitted .literals (all.take first) →
      Permitted .distances (all.drop first) →
      Header limit bits (all.take first) (all.drop first) rest

def skipToByte (bits : List Bool) : List Bool := bits.drop (bits.length % 8)

inductive Block (limit : Nat) : Bytes → List Bool → Bytes → List Bool → Prop where
  | stored : Number 2 bits 0 afterType → Number 16 (skipToByte afterType) length afterLength →
      Number 16 afterLength (65535 - length) (ofBytes data ++ rest) → data.length = length →
      Block limit out bits (out ++ data) rest
  | fixed : Number 2 bits 1 afterType →
      Tokens fixedLiterals fixedDistances out afterType final rest → Block limit out bits final rest
  | dynamic : Number 2 bits 2 afterType → Header limit afterType literals distances afterHeader →
      Tokens literals distances out afterHeader final rest → Block limit out bits final rest

inductive Stream (limit : Nat) : Bytes → List Bool → Bytes → List Bool → Prop where
  | final : Number 1 bits 1 middle → Block limit out middle all rest → Stream limit out bits all rest
  | more : Number 1 bits 0 middle → Block limit out middle between next →
      Stream limit between next all rest → Stream limit out bits all rest

end TinyCrypto.Gzip
