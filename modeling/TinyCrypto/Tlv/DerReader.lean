import TinyCrypto.Tlv.Grammar
import TinyCrypto.Tlv.StreamBytes

/-! # The DER reader

The grammar of headers says what the DER reader reads and how it fails.
-/

namespace TinyCrypto.Tlv

variable {maxOctets maxValue : Nat} {input : Bytes} {e : Result}

theorem headerRead_ok {header : Header} (read : headerRead maxOctets maxValue input = .ok header) :
    ∃ head tail h, input = head ++ tail ∧ ValidHeader maxOctets .der maxValue head h ∧
      header = h.toHeader := by
  obtain ⟨h, parsed, rfl⟩ := headerRead_eq_ok.mp read
  obtain ⟨head, tail, same, valid⟩ := headerParse_ok parsed
  exact ⟨head, tail, h, same, valid, rfl⟩

theorem headerRead_positive {header : Header} (read : headerRead maxOctets maxValue input = .ok header) :
    0 < header.headerLength := by
  obtain ⟨head, tail, h, rfl, valid, rfl⟩ := headerRead_ok read
  have size := valid.size
  rw [valid.headerLength]
  exact size.1

theorem headerRead_error (failed : headerRead maxOctets maxValue input = .error e) : ReadError e := by
  rcases Stream.headerParse_error (headerRead_eq_error.mp failed) with more | limit | invalid
  · exact .inr (.inr more)
  · exact .inl limit
  · exact .inr (.inl invalid)

theorem read_error {sizeT : Nat} {limits : Limits}
    (failed : read sizeT limits input = .error e) : ReadError e := by
  unfold read at failed
  split at failed
  · cases failed
    exact .inl rfl
  split at failed
  · rename_i inner
    cases failed
    exact headerRead_error inner
  · split at failed
    · cases failed
      exact .inr (Or.inr rfl)
    · cases failed

theorem ReadError.ne (failed : ReadError e) : e ≠ .ok ∧ e ≠ .end ∧ e ≠ .unsupported := by
  rcases failed with rfl | rfl | rfl <;> simp

theorem read_failed (sizeT : Nat) (limits : Limits) (input : Bytes) :
    read sizeT limits input ≠ .error .ok :=
  fun failed => (read_error failed).ne.1 rfl

theorem next_error {sizeT : Nat} {limits : Limits} {reader : Reader}
    (failed : next sizeT limits reader = .error e) :
    (e = .end ∧ reader.rest = []) ∨ ReadError e := by
  unfold next at failed
  split at failed
  · rename_i empty
    cases failed
    exact .inl ⟨rfl, empty⟩
  · split at failed
    · cases failed
      exact .inr (Or.inl rfl)
    · split at failed
      · rename_i inner
        cases failed
        exact .inr (read_error inner)
      · cases failed

end TinyCrypto.Tlv
