import TinyCrypto.Mp.LimbsPrime
import TinyCrypto.Rsa.Consistent

/-! # Probable primes

`rsa_prime_internal.h`: rounds to random bases, bounded by requests and by work.
-/

namespace TinyCrypto.Rsa

open Library.ByteCounter (value)
open Library.Primality (StrongProbablePrime strongProbablePrime_of_prime)
open Library.Words
open Mp.Limbs

variable {E : Type} {s : Nat}

/-- `TC_RSA_MAX_MODULUS_BYTES`. -/
def maxModulusBytes : Nat := 512

/-- The byte mask of `tc_rsa_mask_candidate_width` before a byte was seen. -/
def widthMask (v : UInt8) : UInt8 :=
  let mask := v ||| v >>> 1
  let mask := mask ||| mask >>> 2
  mask ||| mask >>> 4

/-- The loop of `tc_rsa_mask_candidate_width`. -/
def maskWidth : (seen : Bool) → (sampled candidate : Bytes) → Bytes
  | seen, b :: sampled, v :: candidate =>
    (if seen then b else b &&& widthMask v) :: maskWidth (seen || v ≠ 0) sampled candidate
  | _, sampled, _ => sampled

/-- `tc_rsa_mask_candidate_width`. -/
def maskCandidateWidth (sampled candidate : Bytes) : Bytes :=
  maskWidth false sampled (List.replicate (sampled.length - candidate.length) 0 ++ candidate)

/-- `tc_rsa_witness_sample`: the base, and whether it is in range. -/
def witnessWords (p : List (BitVec (8 * s))) (bytes candidate : Bytes) :
    List (BitVec (8 * s)) × Bool :=
  let base := fromBe s (maskCandidateWidth bytes candidate)
  let belowLast := (subtract base (decrementLow p)).2
  let aboveOne := base.tail.foldl (· ||| ·) (base.getD 0 0 &&& ~~~1)
  (base, belowLast ≠ 0 && aboveOne ≠ 0)

def primeSetupWork (length : Nat) : Nat := 24 * length + 3

def primeRoundWork (length : Nat) : Nat := 24 * length + 1

structure Tried (E : Type) where
  status : Result
  work : Nat
  env : E

/-- The loop of `tc_rsa_probable_prime_magnitude`. -/
def primeAttempts (candidate : Bytes) (length rounds : Nat) (random : Random E)
    (p : List (BitVec (8 * s))) (twos : Nat) (prepared : Prepared s) :
    (attempts completed work : Nat) → E → Tried E
  | 0, _, work, env => ⟨.limit, work, env⟩
  | attempts + 1, completed, work, env =>
    if work < primeRoundWork length + 1 then ⟨.limit, work, env⟩
    else
      let work := work - 1
      match random.fill length env with
      | (none, env) => ⟨.error, work, env⟩
      | (some bytes, env) =>
        let (base, usable) := witnessWords p bytes.1 candidate
        if !usable then
          primeAttempts candidate length rounds random p twos prepared attempts completed work env
        else
          let work := work - primeRoundWork length
          if !millerRabinRound p base twos prepared then ⟨.invalid, work, env⟩
          else if completed + 1 = rounds then ⟨.ok, work, env⟩
          else
            primeAttempts candidate length rounds random p twos prepared attempts
              (completed + 1) work env

/-- `tc_rsa_probable_prime_magnitude`, for words of `s` bytes. -/
def probablePrimeMagnitude (s : Nat) (candidate : Bytes) (length rounds : Nat) (random : Random E)
    (capacity work : Nat) (env : E) : Tried E :=
  if rounds = 0 then ⟨.argument, work, env⟩
  else if length = 0 || length > maxModulusBytes || length % s ≠ 0 || candidate.length = 0 ||
      candidate.length > length || !lastOdd candidate then
    ⟨.invalid, work, env⟩
  else
    let aboveThree := candidate.dropLast.foldl (· ||| ·) (candidate.getLastD 0 &&& ~~~3)
    if aboveThree = 0 then
      ⟨if candidate.getLastD 0 = 3 then .ok else .invalid, work, env⟩
    else
      let n := length / s
      let required := 12 * n + 2
      if capacity < required || random.attempts < rounds ||
          work < primeSetupWork length + primeRoundWork length + 1 then
        ⟨.limit, work, env⟩
      else
        let p : List (BitVec (8 * s)) :=
          fromBe s (List.replicate (length - candidate.length) 0 ++ candidate)
        let (twos, prepared) := millerRabinPrepare p
        primeAttempts candidate length rounds random p twos prepared random.attempts 0
          (work - primeSetupWork length) env

variable {p : List (BitVec (8 * s))}

theorem low_bits_zero (pos : 0 < s) (x : BitVec (8 * s)) : x &&& ~~~1 = 0 ↔ x.toNat ≤ 1 := by
  have word : 1 < 2 ^ (8 * s) := Nat.one_lt_two_pow (by omega)
  have one : (1 : BitVec (8 * s)).toNat = 1 := by
    rw [flag_true, flag_toNat (by omega), Bool.toNat_true]
  constructor
  · intro cleared
    have same : x = x &&& 1 := by
      calc x = x &&& (1 ||| ~~~1) := by simp
        _ = x &&& 1 ||| x &&& ~~~1 := BitVec.and_or_distrib_left
        _ = x &&& 1 := by rw [cleared]; simp
    rw [same, BitVec.toNat_and, one, Nat.and_one_is_mod]
    omega
  · intro small
    have bit : x = flag (8 * s) (decide (x.toNat = 1)) := by
      apply BitVec.eq_of_toNat_eq
      rw [flag_toNat (by omega)]
      rcases Nat.le_one_iff_eq_zero_or_eq_one.mp small with zero | unit
      · simp [zero]
      · simp [unit]
    rw [bit]
    cases decide (x.toNat = 1) with
    | false => simp [flag]
    | true =>
      rw [← flag_true]
      simp

theorem maskWidth_length (seen : Bool) (sampled candidate : Bytes) :
    (maskWidth seen sampled candidate).length = sampled.length := by
  induction sampled generalizing seen candidate with
  | nil => cases candidate <;> rfl
  | cons b sampled ih =>
    cases candidate with
    | nil => rfl
    | cons v candidate => simp [maskWidth, ih]

theorem witnessWords_spec (pos : 0 < s) (candidate : Odd p) {bytes : Bytes}
    (size : bytes.length = s * p.length) (octets : Bytes) :
    (witnessWords p bytes octets).1.length = p.length ∧ ((witnessWords p bytes octets).2 = true ↔
        1 < number (witnessWords p bytes octets).1 ∧
          number (witnessWords p bytes octets).1 < number p - 1) := by
  have whole : (maskCandidateWidth bytes octets).length = s * p.length := by
    rw [maskCandidateWidth, maskWidth_length, size]
  obtain ⟨_, count⟩ := number_fromBe pos whole
  obtain ⟨length, less⟩ := decrementLow_spec candidate.width candidate.odd
  obtain ⟨_, _, borrow⟩ := @subtract_spec (8 * s) candidate.width
    (fromBe s (maskCandidateWidth bytes octets)) (decrementLow p) (count.trans length.symm)
  refine ⟨count, ?_⟩
  have above : (fromBe s (maskCandidateWidth bytes octets)).tail.foldl (· ||| ·)
      ((fromBe s (maskCandidateWidth bytes octets)).getD 0 0 &&& ~~~1) = 0 ↔
        number (fromBe s (maskCandidateWidth bytes octets)) ≤ 1 := by
    generalize fromBe s (maskCandidateWidth bytes octets) = words at count
    cases words with
    | nil => simp
    | cons x rest =>
      have word : 1 < 2 ^ (8 * s) := Nat.one_lt_two_pow (by omega)
      rw [foldl_or_zero, List.getD_cons_zero, low_bits_zero pos, List.tail_cons, number_cons]
      constructor
      · rintro ⟨small, zero⟩
        rw [zero]
        omega
      · intro small
        have zero : number rest = 0 := by
          by_contra more
          have := Nat.le_mul_of_pos_right (2 ^ (8 * s)) (Nat.pos_of_ne_zero more)
          omega
        exact ⟨by omega, zero⟩
  rw [less, Mp.subtract_borrow] at borrow
  simp only [witnessWords, Bool.and_eq_true, decide_eq_true_eq, Ne, borrow, above,
    decide_eq_false_iff_not, Decidable.not_not, Nat.not_le]
  exact And.comm

theorem primeAttempts_prime (pos : 0 < s) (candidate : Odd p) (prime : (number p).Prime)
    {length : Nat} (size : length = s * p.length) (octets : Bytes) (rounds : Nat)
    (random : Random E) (attempts completed work : Nat) (env : E) :
    (primeAttempts octets length rounds random p (millerRabinPrepare p).1 (millerRabinPrepare p).2
      attempts completed work env).status ≠ .invalid := by
  induction attempts generalizing completed work env with
  | zero => exact nofun
  | succ attempts ih =>
    rw [primeAttempts]
    split
    · exact nofun
    · split
      · exact nofun
      · rename_i bytes env' _
        obtain ⟨count, range⟩ := witnessWords_spec pos candidate
          (bytes.2.trans size) octets
        generalize witnessWords p bytes.1 octets = witness at *
        obtain ⟨base, usable⟩ := witness
        cases usable with
        | false => exact ih completed (work - 1) env'
        | true =>
          obtain ⟨large, below⟩ := range.mp rfl
          dsimp only at count large below
          have proper : ¬number p ∣ number base := by
            intro divides
            have := Nat.le_of_dvd (by omega) divides
            omega
          have passes := (millerRabinRound_decides candidate count (by omega)).mpr
            (strongProbablePrime_of_prime prime proper)
          simp only [passes, Bool.not_true, Bool.false_eq_true, if_false]
          split
          · exact nofun
          · exact ih (completed + 1) _ env'

theorem low_three {b : UInt8} (cleared : b &&& ~~~3 = 0) : b.toNat ≤ 3 := by
  have bits : b.toBitVec &&& ~~~3 = 0 := congrArg UInt8.toBitVec cleared
  have same : b.toBitVec = b.toBitVec &&& 3 := by
    calc b.toBitVec = b.toBitVec &&& (3 ||| ~~~3) := BitVec.and_allOnes.symm
      _ = b.toBitVec &&& 3 ||| b.toBitVec &&& ~~~3 := BitVec.and_or_distrib_left
      _ = b.toBitVec &&& 3 := by rw [bits]; simp
  have number : b.toNat = b.toNat &&& 3 := by
    have numbers := congrArg BitVec.toNat same
    rwa [BitVec.toNat_and] at numbers
  rw [number]
  exact Nat.and_le_right

theorem value_small (bytes : Bytes) (nonempty : bytes.length ≠ 0)
    (small : bytes.dropLast.foldl (· ||| ·) (bytes.getLastD 0 &&& ~~~3) = 0) :
    value bytes = (bytes.getLastD 0).toNat ∧ (bytes.getLastD 0).toNat ≤ 3 := by
  have each : ∀ (rest : Bytes) (start : UInt8), rest.foldl (· ||| ·) start = 0 →
      start = 0 ∧ ∀ b ∈ rest, b = 0 := by
    intro rest
    induction rest with
    | nil => exact fun start zero => ⟨zero, nofun⟩
    | cons b rest ih =>
      intro start zero
      obtain ⟨first, others⟩ := ih _ zero
      obtain ⟨start_zero, b_zero⟩ := UInt8.or_eq_zero_iff.mp first
      exact ⟨start_zero, List.forall_mem_cons.mpr ⟨b_zero, others⟩⟩
  obtain ⟨low, zeros⟩ := each _ _ small
  obtain ⟨front, last, rfl⟩ : ∃ front last, bytes = front ++ [last] :=
    ⟨bytes.dropLast, bytes.getLast (List.ne_nil_of_length_pos (by omega)),
      (List.dropLast_append_getLast _).symm⟩
  rw [List.dropLast_concat] at zeros
  rw [List.getLastD_concat] at low ⊢
  rw [Library.ByteCounter.value_append_singleton, Library.ByteCounter.value_eq_zero_iff.mpr zeros]
  exact ⟨by omega, low_three low⟩

/-- What `tc_rsa_probable_prime_magnitude` asks of its width and its candidate. -/
structure FitsWidth (s length : Nat) (candidate : Bytes) : Prop where
  nonzero : length ≠ 0
  small : length ≤ maxModulusBytes
  whole : s ∣ length
  nonempty : candidate.length ≠ 0
  fits : candidate.length ≤ length

theorem probablePrime_prime (pos : 0 < s) {length : Nat} {candidate : Bytes}
    (width : FitsWidth s length candidate) (prime : (value candidate).Prime)
    (odd : value candidate % 2 = 1) (rounds : Nat) (random : Random E) (capacity work : Nat)
    (env : E) : (probablePrimeMagnitude s candidate length rounds random capacity work env).status ≠
      .invalid := by
  rw [probablePrimeMagnitude]
  split
  · exact nofun
  · have shape : (decide (length = 0) || decide (length > maxModulusBytes) ||
        decide (length % s ≠ 0) || decide (candidate.length = 0) ||
        decide (candidate.length > length) || !lastOdd candidate) = false := by
      have last := (lastOdd_iff candidate).mpr odd
      simp [width.nonzero, width.small, Nat.mod_eq_zero_of_dvd width.whole, width.nonempty,
        width.fits, last]
    rw [shape]
    simp only [Bool.false_eq_true, if_false]
    split
    · rename_i small
      obtain ⟨same, le⟩ := value_small candidate width.nonempty small
      have three : candidate.getLastD 0 = 3 := by
        apply UInt8.toNat_inj.mp
        have large := prime.two_le
        have low : (candidate.getLastD 0).toNat = 3 := by omega
        rw [low]
        rfl
      rw [if_pos three]
      exact nofun
    · split
      · exact nofun
      · have size : (List.replicate (length - candidate.length) 0 ++ candidate).length =
            s * (length / s) := by
          rw [List.length_append, List.length_replicate, Nat.mul_div_cancel' width.whole]
          have := width.fits
          omega
        obtain ⟨same, count⟩ := number_fromBe pos size
        rw [value_padding] at same
        rw [← same] at prime odd
        have field : Odd (fromBe s (List.replicate (length - candidate.length) 0 ++ candidate)) :=
          ⟨by omega, odd, prime.one_lt⟩
        exact primeAttempts_prime pos field prime
          (by rw [count, Nat.mul_div_cancel' width.whole]) candidate rounds random _ _ _ env

/-- A round is the strong test, and no odd prime is rejected whatever bases are drawn. -/
theorem miller_rabin_exact (pos : 0 < s) :
    (∀ p base : List (BitVec (8 * s)), base.length = p.length → number p % 2 = 1 → 3 < number p →
        1 < number base → number base < number p - 1 →
        (millerRabinRound p base (millerRabinPrepare p).1 (millerRabinPrepare p).2 = true ↔
          StrongProbablePrime (number p) (number base))) ∧
      ∀ (length : Nat) (candidate : Bytes), FitsWidth s length candidate →
        (value candidate).Prime → value candidate % 2 = 1 →
        ∀ (rounds : Nat) (random : Random E) (capacity work : Nat) (env : E),
          (probablePrimeMagnitude s candidate length rounds random capacity work env).status ≠
            .invalid := by
  constructor
  · intro p base size odd large _ below
    exact millerRabinRound_decides ⟨by omega, odd, by omega⟩ size (by omega)
  · intro length candidate width prime odd rounds random capacity work env
    exact probablePrime_prime pos width prime odd rounds random capacity work env

theorem miller_rabin_exact_byte :
    let p : List (BitVec (8 * 1)) := [1, 1]
    let random : Random Nat := ⟨fun n asked => (some ⟨List.replicate n 2, by simp⟩, asked + 1), 1⟩
    (millerRabinRound p [3, 0] (millerRabinPrepare p).1 (millerRabinPrepare p).2 = true ↔
        StrongProbablePrime 257 3) ∧
      (probablePrimeMagnitude 1 [1, 1] 2 1 random 26 9999 0).status ≠ .invalid :=
  ⟨(@miller_rabin_exact Nat 1 (by decide)).1 [1, 1] [3, 0] rfl (by decide) (by decide) (by decide)
      (by decide),
    (miller_rabin_exact (by decide)).2 2 [1, 1]
      ⟨by decide, by decide, by decide, by decide, by decide⟩
      (by rw [show value [1, 1] = 257 by decide]; norm_num) (by decide) 1 _ 26 9999 0⟩

end TinyCrypto.Rsa
