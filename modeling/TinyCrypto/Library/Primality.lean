import Mathlib.Data.List.Prime
import Mathlib.FieldTheory.Finite.Basic
import Mathlib.NumberTheory.LucasPrimality
import Mathlib.Tactic.NormNum.Prime

/-! # Certificates of primality

Lucas's test, with the powers computed by squaring so that the kernel can run it. The
factors of `p - 1` are given with their own proofs.
-/

namespace Library.Primality

def StrongProbablePrime (p base : Nat) : Prop := ∃ twos odd, p - 1 = 2 ^ twos * odd ∧ odd % 2 = 1 ∧
    ((base : ZMod p) ^ odd = 1 ∨ ∃ i < twos, (base : ZMod p) ^ (2 ^ i * odd) = -1)

theorem unit_or_minus {p : Nat} [Fact p.Prime] (x : ZMod p) (twos : Nat)
    (power : x ^ 2 ^ twos = 1) : x = 1 ∨ ∃ i < twos, x ^ 2 ^ i = -1 := by
  induction twos with
  | zero => exact .inl (by rwa [pow_zero, pow_one] at power)
  | succ twos ih =>
    rw [pow_succ, pow_mul, sq_eq_one_iff] at power
    rcases power with one | minus
    · obtain same | ⟨i, less, minus⟩ := ih one
      · exact .inl same
      · exact .inr ⟨i, Nat.lt_succ_of_lt less, minus⟩
    · exact .inr ⟨twos, Nat.lt_succ_self twos, minus⟩

theorem strongProbablePrime_of_prime {p base : Nat} (prime : p.Prime)
    (proper : ¬p ∣ base) : StrongProbablePrime p base := by
  have field : Fact p.Prime := ⟨prime⟩
  have large := prime.two_le
  obtain ⟨twos, part, odd_part, product⟩ := Nat.exists_eq_two_pow_mul_odd (n := p - 1) (by omega)
  have nonzero : (base : ZMod p) ≠ 0 := by
    rwa [Ne, ZMod.natCast_eq_zero_iff]
  have fermat := ZMod.pow_card_sub_one_eq_one nonzero
  rw [product, Nat.mul_comm, pow_mul] at fermat
  refine ⟨twos, part, product, Nat.odd_iff.mp odd_part, ?_⟩
  obtain one | ⟨i, less, minus⟩ := unit_or_minus _ twos fermat
  · exact .inl one
  · exact .inr ⟨i, less, by rwa [Nat.mul_comm, pow_mul]⟩

/-- `accumulated * base ^ exponent % modulus`, for an exponent of so many bits. -/
def powMod (modulus : Nat) : (bits base exponent accumulated : Nat) → Nat
  | 0, _, _, accumulated => accumulated % modulus
  | bits + 1, base, exponent, accumulated =>
    powMod modulus bits (base * base % modulus) (exponent / 2)
      (if exponent % 2 = 1 then accumulated * base % modulus else accumulated)

theorem powMod_eq {modulus : Nat} (bits base exponent accumulated : Nat)
    (fits : exponent < 2 ^ bits) :
    powMod modulus bits base exponent accumulated = accumulated * base ^ exponent % modulus := by
  induction bits generalizing base exponent accumulated with
  | zero =>
    have zero : exponent = 0 := by
      rw [Nat.pow_zero] at fits
      omega
    rw [powMod, zero, Nat.pow_zero, Nat.mul_one]
  | succ bits ih =>
    have half : exponent / 2 < 2 ^ bits := by
      rw [Nat.pow_succ] at fits
      omega
    have square : (base * base % modulus) ^ (exponent / 2) ≡ base ^ (2 * (exponent / 2))
        [MOD modulus] := by
      rw [Nat.pow_mul, Nat.pow_two]
      exact (Nat.mod_modEq _ _).pow _
    rw [powMod, ih _ _ _ half]
    split
    · rename_i odd
      have whole : exponent = 2 * (exponent / 2) + 1 := by omega
      refine ((Nat.mod_modEq _ _).mul square).trans ?_
      conv_rhs => rw [whole, Nat.pow_succ]
      rw [Nat.mul_assoc, Nat.mul_comm base]
    · rename_i even
      have whole : exponent = 2 * (exponent / 2) := by omega
      conv_rhs => rw [whole]
      exact square.mul_left _

/-- Lucas's test of a base, against the prime factors of `p - 1`. -/
def passes (bits p base : Nat) (factors : List (Nat × Nat)) : Bool :=
  1 < p && p < 2 ^ bits && (factors.map fun factor => factor.1 ^ factor.2).prod = p - 1 &&
    powMod p bits base (p - 1) 1 = 1 &&
    factors.all fun factor => powMod p bits base ((p - 1) / factor.1) 1 ≠ 1

theorem cast_pow_eq_one_iff {p base exponent : Nat} (large : 1 < p) :
    (base : ZMod p) ^ exponent = 1 ↔ base ^ exponent % p = 1 := by
  rw [← Nat.cast_pow, ← Nat.cast_one, ZMod.natCast_eq_natCast_iff', Nat.mod_eq_of_lt large]

theorem prime_of_passes {bits p base : Nat} {factors : List (Nat × Nat)}
    (primes : ∀ factor ∈ factors, factor.1.Prime) (test : passes bits p base factors = true) :
    p.Prime := by
  simp only [passes, Bool.and_eq_true, decide_eq_true_eq, List.all_eq_true] at test
  obtain ⟨⟨⟨⟨large, fits⟩, product⟩, whole⟩, proper⟩ := test
  have power : ∀ exponent ≤ p - 1,
      powMod p bits base exponent 1 = 1 ↔ (base : ZMod p) ^ exponent = 1 := by
    intro exponent le
    rw [powMod_eq _ _ _ _ (by omega), Nat.one_mul, cast_pow_eq_one_iff large]
  refine lucas_primality p base ((power _ le_rfl).mp whole) ?_
  intro q prime divides
  rw [← product] at divides
  obtain ⟨power, member, divides⟩ := (Prime.dvd_prod_iff prime.prime).mp divides
  obtain ⟨factor, listed, rfl⟩ := List.mem_map.mp member
  have same : q = factor.1 :=
    (Nat.prime_dvd_prime_iff_eq prime (primes factor listed)).mp (prime.dvd_of_dvd_pow divides)
  rw [same]
  exact fun one => proper factor listed ((power _ (Nat.div_le_self _ _)).mpr one)

end Library.Primality
