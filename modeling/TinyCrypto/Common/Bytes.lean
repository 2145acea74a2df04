import Mathlib.Algebra.GroupWithZero.Nat
import Mathlib.Data.List.Basic
import Mathlib.Data.List.GetD

/-! # Byte spans -/

namespace TinyCrypto

/-- `TC_bytes`. A NULL span is an empty one. -/
abbrev Bytes := List UInt8

end TinyCrypto

namespace TinyCrypto

/-- `width` bytes. -/
structure Octets (width : Nat) where
  bytes : Bytes
  size : bytes.length = width
  deriving DecidableEq

namespace Octets

variable {width : Nat}

@[ext] theorem ext {a b : Octets width} (same : a.bytes = b.bytes) : a = b := by
  cases a
  cases b
  simp_all

def zero (width : Nat) : Octets width := ⟨List.replicate width 0, List.length_replicate⟩

def ofBytes (width : Nat) (bytes : Bytes) : Octets width :=
  ⟨(bytes ++ List.replicate width 0).take width, by simp⟩

def xor (a b : Octets width) : Octets width :=
  ⟨List.zipWith (· ^^^ ·) a.bytes b.bytes, by simp [a.size, b.size]⟩

theorem zipWith_xor_xor {a b : Bytes} (enough : a.length ≤ b.length) :
    List.zipWith (· ^^^ ·) (List.zipWith (· ^^^ ·) a b) b = a := by
  induction a generalizing b with
  | nil => rfl
  | cons first rest ih =>
    cases b with
    | nil => cases enough
    | cons head more =>
      rw [List.zipWith_cons_cons, List.zipWith_cons_cons, ih (Nat.le_of_succ_le_succ enough),
        UInt8.xor_assoc, UInt8.xor_self, UInt8.xor_zero]

theorem xor_xor (a b : Octets width) : (a.xor b).xor b = a :=
  ext (zipWith_xor_xor (Nat.le_of_eq (a.size.trans b.size.symm)))

theorem ofBytes_full {bytes : Bytes} (full : bytes.length = width) :
    (ofBytes width bytes).bytes = bytes := by
  simp [ofBytes, ← full]

@[simp] theorem ofBytes_bytes (a : Octets width) : ofBytes width a.bytes = a :=
  ext (ofBytes_full a.size)

end Octets
end TinyCrypto

namespace TinyCrypto

/-- A buffer or an object of the caller. NULL is the address zero. -/
structure Span where
  address : Nat
  length : Nat
  deriving DecidableEq

namespace Span

/-- `tc_internal_span_valid`, with `UINTPTR_MAX` as a parameter. -/
def valid (pointerMax : Nat) (span : Span) : Bool :=
  (span.address ≠ 0 || span.length = 0) && span.length ≤ pointerMax - span.address

/-- `tc_internal_ranges_disjoint`. -/
def disjoint (a b : Span) : Bool := if a.length = 0 || b.length = 0 then true
  else if a.address < b.address then a.length ≤ b.address - a.address
  else b.length ≤ a.address - b.address

def Holds (span : Span) (address : Nat) : Prop :=
  span.address ≤ address ∧ address < span.address + span.length

def Apart (a b : Span) : Prop := ∀ address, ¬ (a.Holds address ∧ b.Holds address)

end Span
end TinyCrypto

/-! # Shared result codes

`common.h` gives one result type to the whole library. The TLV, storage and
canceled card list results are the same type under other names.
-/

namespace TinyCrypto

/-- `TC_result`. -/
inductive Result where
  | error
  | io
  | argument
  | unsupported
  | limit
  | invalid
  | ok
  /-- No more siblings, records or published data. -/
  | «end»
  /-- The input ends inside an object. -/
  | more
  | inProgress
  | cancelled
  | cardStatus
  | refused
  | entropy
  | revoked
  | unavailable
  | stale
  | checksumMismatch
  | sinkError
  | sourceError
  deriving DecidableEq

/-- A result other than OK. -/
abbrev Failure := {result : Result // result ≠ .ok}

end TinyCrypto
