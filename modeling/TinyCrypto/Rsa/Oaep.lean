import TinyCrypto.Rsa.Padding

/-! # OAEP

EME-OAEP of RFC 8017 section 7.1. The encoder gives that encoding, and the decoder with its search
for the separator accepts nothing else.
-/

namespace TinyCrypto.Rsa

namespace Rfc8017

/-- The encoded message of section 7.1.1 steps 2.b to 2.i, under a hash and a mask function. -/
def oaepEncode (hash : Bytes → Bytes) (mask : Bytes → Nat → Bytes) (hLen k : Nat)
    (label message seed : Bytes) : Bytes :=
  let ps := List.replicate (k - message.length - 2 * hLen - 2) 0
  let db := hash label ++ ps ++ 1 :: message
  let maskedDb := xorBytes db (mask seed (k - hLen - 1))
  let maskedSeed := xorBytes seed (mask maskedDb hLen)
  0 :: maskedSeed ++ maskedDb

def separator : Bytes → Option Nat
  | [] => none
  | b :: rest => if b = 1 then some 1 else if b = 0 then (separator rest).map (· + 1) else none

end Rfc8017

open Rfc8017

theorem separator_padded (zeros : Nat) (message : Bytes) :
    separator (List.replicate zeros 0 ++ 1 :: message) = some (zeros + 1) := by
  induction zeros with
  | zero => rfl
  | succ zeros ih =>
    rw [List.replicate_succ, List.cons_append, separator, ih]
    rfl

theorem separator_some {bytes : Bytes} {place : Nat} (found : separator bytes = some place) :
    ∃ zeros, place = zeros + 1 ∧ bytes = List.replicate zeros 0 ++ 1 :: bytes.drop place := by
  induction bytes generalizing place with
  | nil => cases found
  | cons b rest ih =>
    rw [separator] at found
    by_cases one : b = 1
    · rw [if_pos one, Option.some.injEq] at found
      exact ⟨0, by rw [← found], by simp [one, ← found]⟩
    · rw [if_neg one] at found
      by_cases zero : b = 0
      · rw [if_pos zero] at found
        obtain ⟨before, here, next⟩ := Option.map_eq_some_iff.mp found
        obtain ⟨zeros, last, padded⟩ := ih here
        refine ⟨zeros + 1, by omega, ?_⟩
        rw [← next, List.drop_succ_cons, List.replicate_succ, List.cons_append, ← padded, zero]
      · rw [if_neg zero] at found
        cases found

variable {hs : Hashes}

theorem zeroFlag (byte : UInt8) : (byte.toUInt32 - 1) >>> 31 = if byte = 0 then 1 else 0 := by
  have small := byte.toNat_lt
  by_cases zero : byte = 0
  · rw [zero]
    rfl
  · have pos : byte.toNat ≠ 0 := fun none => zero (UInt8.toNat_inj.mp none)
    rw [if_neg zero, ← UInt32.toNat_inj, UInt32.toNat_shiftRight, UInt32.toNat_sub,
      UInt8.toNat_toUInt32]
    change ((2 ^ 32 - 1 + byte.toNat) % 2 ^ 32) >>> 31 = 0
    rw [Nat.shiftRight_eq_div_pow]
    omega

theorem oneFlag (byte : UInt8) :
    ((byte ^^^ 1).toUInt32 - 1) >>> 31 = if byte = 1 then 1 else 0 := by
  rw [zeroFlag]
  simp only [UInt8.xor_eq_zero_iff]

variable {s : Scan hs} {message seed : Bytes}

theorem Scan.step_done (done : s.searching = 0) (i : Nat) (byte : UInt8) : s.step i byte = s := by
  cases s
  simp_all [Scan.step]

theorem Scan.step_searching (on : s.searching = 1) (i : Nat) (byte : UInt8) : s.step i byte =
      if byte = 1 then { s with start := BitVec.ofNat _ (i + 1), searching := 0 }
      else if byte = 0 then s else { s with difference := s.difference ||| 1 } := by
  have ones : (0 : BitVec hs.sizeBits) - BitVec.ofNat hs.sizeBits 1 = BitVec.allOnes _ := by
    change 0#_ - 1#_ = _
    rw [BitVec.zero_sub, BitVec.neg_one_eq_allOnes]
  rw [Scan.step, oneFlag, zeroFlag, on]
  cases s
  by_cases one : byte = 1
  · simp_all
  · by_cases zero : byte = 0
    · simp_all
    · simp_all

theorem Scan.run_done (done : s.searching = 0) (i : Nat) (bytes : Bytes) : s.run i bytes = s := by
  induction bytes generalizing i with
  | nil => rfl
  | cons byte rest ih => rw [Scan.run, Scan.step_done done, ih]

theorem Scan.run_searching {s : Scan hs} (on : s.searching = 1) (i : Nat) (bytes : Bytes) :
    ((s.run i bytes).difference ||| (s.run i bytes).searching = 0 ↔
        s.difference = 0 ∧ (separator bytes).isSome) ∧
      ∀ place, s.difference = 0 → separator bytes = some place →
        (s.run i bytes).start = BitVec.ofNat _ (i + place) := by
  induction bytes generalizing s i with
  | nil => simp [Scan.run, separator, on]
  | cons byte rest ih =>
    rw [Scan.run, Scan.step_searching on, separator]
    by_cases one : byte = 1
    · simp only [one, if_true]
      rw [Scan.run_done rfl]
      simp
    · simp only [one, if_false]
      by_cases zero : byte = 0
      · obtain ⟨good, place⟩ := ih on (i + 1)
        simp only [zero, if_true, Option.isSome_map]
        refine ⟨good, fun at_place clear found => ?_⟩
        obtain ⟨before, here, next⟩ := Option.map_eq_some_iff.mp found
        rw [place before clear here, ← next]
        congr 1
        omega
      · obtain ⟨good, -⟩ := @ih { s with difference := s.difference ||| 1 } on (i + 1)
        simp only [zero, if_false]
        rw [good]
        simp

structure OaepPaid (hs : Hashes) (options : OaepOptions) (length cost : Nat) where
  charge : Nat
  dbMask : Nat
  seedMask : Nat
  parameters : oaepParameters hs length options.hash options.mgfHash options.label.length =
    .ok charge
  db : mgf1Cost hs options.mgfHash options.hLen
    (length - options.hLen - 1) = .ok dbMask
  seed : mgf1Cost hs options.mgfHash (length - options.hLen - 1)
    options.hLen = .ok seedMask
  total : cost = charge + (dbMask + seedMask)
  available : hs.available options.hash = true
  room : 2 * options.hLen + 2 ≤ length
  small : length < hs.sizeMax
  charged : charge = length + options.label.length + 1

variable {options : OaepOptions} {length cost work : Nat}

theorem oaepParameters_ok {charge : Nat}
    (given : oaepParameters hs length options.hash options.mgfHash options.label.length =
      .ok charge) : hs.available options.hash = true ∧ 2 * options.hLen + 2 ≤ length ∧
      length < hs.sizeMax ∧ charge = length + options.label.length + 1 := by
  unfold oaepParameters at given
  split at given
  · cases given
  · rename_i known
    split at given
    · cases given
    · rename_i room
      split at given
      · cases given
      · rename_i small
        cases given
        simp only [Bool.or_eq_true, Bool.not_eq_true', not_or, Bool.not_eq_false,
          decide_eq_true_eq] at known small
        exact ⟨known.1, by dsimp only [OaepOptions.hLen]; omega, by omega, rfl⟩

theorem oaepCost_ok
    (given : oaepCost hs length options.hash options.mgfHash options.label.length = .ok cost) :
    Nonempty (OaepPaid hs options length cost) := by
  rw [oaepCost] at given
  cases parameters : oaepParameters hs length options.hash options.mgfHash
      options.label.length with
  | error result =>
    rw [parameters] at given
    cases given
  | ok charge =>
    obtain ⟨available, room, small, charged⟩ := oaepParameters_ok parameters
    rw [parameters] at given
    cases db : mgf1Cost hs options.mgfHash options.hLen
        (length - options.hLen - 1) with
    | error result =>
      simp only [db, bind, Except.bind] at given
      cases given
    | ok dbMask =>
      cases seed : mgf1Cost hs options.mgfHash (length - options.hLen - 1)
          options.hLen with
      | error result =>
        simp only [db, seed, bind, Except.bind] at given
        cases given
      | ok seedMask =>
        simp only [db, seed, bind, Except.bind] at given
        split at given
        · cases given
        · cases given
          exact ⟨⟨charge, dbMask, seedMask, parameters, db, seed, rfl, available, room, small,
            charged⟩⟩

theorem OaepPaid.prepares (paid : OaepPaid hs options length cost) (funded : cost ≤ work) :
    oaepPrepare hs length options.hash options.mgfHash options.label work =
      .ok (work - paid.charge) := by
  have total := paid.total
  have enough : ¬ paid.charge > work := by omega
  simp only [oaepPrepare, paid.parameters, bind, Except.bind, if_neg enough]

theorem OaepPaid.hashes (paid : OaepPaid hs options length cost) (funded : cost ≤ work)
    (bounded : work < 2 ^ 32) : hs.digestParts options.hash [options.label] =
      some (hs.standard options.hash options.label) := by
  have total := paid.total
  have charged := paid.charged
  have single : [options.label].flatten = options.label := by simp
  rw [digestParts_short paid.available (by rw [single]; omega), single]

def Hashes.oaep (hs : Hashes) (options : OaepOptions) (length : Nat) (message seed : Bytes) : Bytes :=
  Rfc8017.oaepEncode (hs.standard options.hash) (hs.mask options.mgfHash)
    options.hLen length options.label message seed

def Hashes.oaepDb (hs : Hashes) (options : OaepOptions) (length : Nat) (message : Bytes) : Bytes :=
  hs.standard options.hash options.label ++
    List.replicate (length - message.length - 2 * options.hLen - 2) 0 ++ 1 :: message

def Hashes.oaepMaskedDb (hs : Hashes) (options : OaepOptions) (length : Nat)
    (message seed : Bytes) : Bytes :=
  xorBytes (hs.oaepDb options length message)
    (hs.mask options.mgfHash seed (length - options.hLen - 1))

theorem oaep_eq (message seed : Bytes) : hs.oaep options length message seed =
      0 :: xorBytes seed (hs.mask options.mgfHash
        (hs.oaepMaskedDb options length message seed) options.hLen) ++
        hs.oaepMaskedDb options length message seed := rfl

theorem oaepDb_length {message : Bytes} (fits : message.length + 2 * options.hLen + 2 ≤ length) :
    (hs.oaepDb options length message).length = length - options.hLen - 1 := by
  simp only [Hashes.oaepDb, List.length_append, List.length_cons, List.length_replicate,
    standard_length, OaepOptions.hLen] at fits ⊢
  omega

theorem oaepMaskedDb_length (fits : message.length + 2 * options.hLen + 2 ≤ length) :
    (hs.oaepMaskedDb options length message seed).length = length - options.hLen - 1 := by
  rw [Hashes.oaepMaskedDb, xorBytes_length, mask_length, oaepDb_length fits, Nat.min_self]

theorem oaep_length (sized : seed.length = options.hLen)
    (fits : message.length + 2 * options.hLen + 2 ≤ length) :
    (hs.oaep options length message seed).length = length := by
  rw [oaep_eq, List.cons_append, List.length_cons, List.length_append, xorBytes_length,
    mask_length, oaepMaskedDb_length fits]
  omega

theorem OaepPaid.encodes (paid : OaepPaid hs options length cost) (funded : cost ≤ work)
    (bounded : work < 2 ^ 32) {output : Bytes} (size : output.length = length)
    (sized : seed.length = options.hLen) (fits : message.length + 2 * options.hLen + 2 ≤ length) :
    oaepEncode hs options output message seed work =
      ⟨.ok, hs.oaep options length message seed, work - cost⟩ := by
  have total := paid.total
  have dbLength := @oaepDb_length hs options length message fits
  have short : ¬ message.length >
      length - options.hLen - 1 - options.hLen - 1 := by omega
  have zeros : length - options.hLen - 1 - options.hLen -
      message.length - 1 = length - message.length - 2 * options.hLen - 2 := by omega
  have dbCost : mgf1Cost hs options.mgfHash seed.length
      (hs.oaepDb options length message).length = .ok paid.dbMask := by
    rw [dbLength, sized, paid.db]
  have masked := mgf1Xor_eq dbCost (show _ ≤ work - paid.charge by omega) (by omega)
  rw [dbLength, ← Hashes.oaepMaskedDb] at masked
  have seedCost : mgf1Cost hs options.mgfHash
      (hs.oaepMaskedDb options length message seed).length seed.length = .ok paid.seedMask := by
    rw [oaepMaskedDb_length fits, sized, paid.seed]
  have maskedSeed := mgf1Xor_eq seedCost (show _ ≤ work - paid.charge - paid.dbMask by omega)
    (by omega)
  have left : work - paid.charge - paid.dbMask - paid.seedMask = work - cost := by omega
  rw [Hashes.oaepDb] at masked
  simp only [oaepEncode, size, paid.prepares funded, sized, paid.hashes funded bounded, if_neg short,
    zeros, masked]
  simp only [ne_eq, not_true_eq_false, if_false, maskedSeed, left, oaep_eq, sized]

/-- The seed and the data block of an encoded message, section 7.1.2 steps 3.b to 3.f. -/
def Hashes.oaepSeed (hs : Hashes) (options : OaepOptions) (input : Bytes) : Bytes :=
  let h := options.hLen
  xorBytes ((input.drop 1).take h) (hs.mask options.mgfHash (input.drop (h + 1)) h)

def Hashes.oaepBlock (hs : Hashes) (options : OaepOptions) (input : Bytes) : Bytes :=
  let h := options.hLen
  xorBytes (input.drop (h + 1))
    (hs.mask options.mgfHash (hs.oaepSeed options input) (input.length - h - 1))

/-- The checks of section 7.1.2 step 3.g, with the place of the message. -/
def Hashes.OaepOpens (hs : Hashes) (options : OaepOptions) (input : Bytes) (place : Nat) : Prop :=
  let h := options.hLen
  let db := hs.oaepBlock options input
  input.getD 0 0 = 0 ∧ db.take h = hs.standard options.hash options.label ∧
    separator (db.drop h) = some place

section

variable {input : Bytes} (size : input.length = length)
  (room : 2 * options.hLen + 2 ≤ length)

include size room

theorem oaepSeed_length : (hs.oaepSeed options input).length = options.hLen := by
  simp only [Hashes.oaepSeed, xorBytes_length, mask_length, List.length_take, List.length_drop]
  omega

theorem oaepBlock_length : (hs.oaepBlock options input).length = length - options.hLen - 1 := by
  simp only [Hashes.oaepBlock, xorBytes_length, mask_length, List.length_drop]
  omega

omit room in
theorem OaepPaid.decodes (paid : OaepPaid hs options length cost) (funded : cost ≤ work)
    (bounded : work < 2 ^ 32) : (oaepDecode hs options input work).work = work - cost ∧
      ((∃ place, hs.OaepOpens options input place ∧
          (oaepDecode hs options input work).status = .ok ∧
          (oaepDecode hs options input work).message = some
            ((hs.oaepBlock options input).drop (options.hLen + place))) ∨
        ((∀ place, ¬ hs.OaepOpens options input place) ∧
          (oaepDecode hs options input work).status = .invalid ∧
          (oaepDecode hs options input work).message = none)) := by
  have total := paid.total
  have room := paid.room
  have small := paid.small
  have seedLength := @oaepSeed_length hs options length input size room
  have blockLength := @oaepBlock_length hs options length input size room
  have dbLength : (input.drop (options.hLen + 1)).length = length - options.hLen - 1 := by
    rw [List.length_drop]
    omega
  have partLength : ((input.drop 1).take options.hLen).length = options.hLen := by
    rw [List.length_take, List.length_drop]
    omega
  have seedCost : mgf1Cost hs options.mgfHash (input.drop (options.hLen + 1)).length
      ((input.drop 1).take options.hLen).length = .ok paid.seedMask := by
    rw [dbLength, partLength, paid.seed]
  have seed := mgf1Xor_eq seedCost (show _ ≤ work - paid.charge by omega) (by omega)
  rw [partLength] at seed
  have unmasked : xorBytes ((input.drop 1).take options.hLen) (hs.mask options.mgfHash
      (input.drop (options.hLen + 1)) options.hLen) =
      hs.oaepSeed options input := rfl
  rw [unmasked] at seed
  have dbCost : mgf1Cost hs options.mgfHash (hs.oaepSeed options input).length
      (input.drop (options.hLen + 1)).length = .ok paid.dbMask := by
    rw [dbLength, seedLength, paid.db]
  have db := mgf1Xor_eq dbCost (show _ ≤ work - paid.charge - paid.seedMask by omega) (by omega)
  have opened : xorBytes (input.drop (options.hLen + 1)) (hs.mask options.mgfHash
      (hs.oaepSeed options input) (length - options.hLen - 1)) =
      hs.oaepBlock options input := by
    rw [Hashes.oaepBlock, size]
  rw [dbLength, opened] at db
  have left : work - paid.charge - paid.seedMask - paid.dbMask = work - cost := by omega
  have same : ((hs.oaepBlock options input).take options.hLen).length =
      (hs.standard options.hash options.label).length := by
    rw [standard_length, List.length_take, blockLength]
    exact Nat.min_eq_left (by omega)
  have compared := accumulate_xor (input.getD 0 0).toUInt32 same
  generalize differs : accumulate (input.getD 0 0).toUInt32 (List.zipWith (· ^^^ ·)
    ((hs.oaepBlock options input).take options.hLen)
    (hs.standard options.hash options.label)) = difference at compared
  obtain ⟨good, found⟩ := @Scan.run_searching hs ⟨0, 1, difference⟩ rfl options.hLen
    ((hs.oaepBlock options input).drop options.hLen)
  have first := octet_eq_zero (input.getD 0 0)
  simp only [oaepDecode, size, paid.prepares funded, seed, ne_eq, not_true_eq_false, if_false, db,
    paid.hashes funded bounded, differs, left]
  by_cases accepts : ∃ place, hs.OaepOpens options input place
  · obtain ⟨place, zero, labelled, here⟩ := accepts
    have clear : difference = 0 := compared.mpr ⟨first.mpr zero, labelled⟩
    have ends := good.mpr ⟨clear, by rw [here]; rfl⟩
    obtain ⟨zeros, last, padded⟩ := separator_some here
    have inside := congrArg List.length padded
    simp only [List.length_append, List.length_replicate, List.length_cons, List.length_drop,
      blockLength] at inside
    have starts : (BitVec.ofNat hs.sizeBits (options.hLen + place)).toNat =
        options.hLen + place := by
      rw [BitVec.toNat_ofNat, Nat.mod_eq_of_lt]
      rw [Hashes.sizeMax] at small
      omega
    rw [if_neg (not_not.mpr ends), found place clear here, starts]
    exact ⟨rfl, .inl ⟨place, ⟨zero, labelled, here⟩, rfl, rfl⟩⟩
  · have refused := not_exists.mp accepts
    have bad : ¬ _ = (0 : UInt32) := fun ends => by
      obtain ⟨clear, here⟩ := good.mp ends
      obtain ⟨zero, labelled⟩ := compared.mp clear
      obtain ⟨place, at_place⟩ := Option.isSome_iff_exists.mp here
      exact refused place ⟨first.mp zero, labelled, at_place⟩
    rw [if_pos bad]
    exact ⟨rfl, .inr ⟨refused, rfl, rfl⟩⟩

theorem oaep_fields : input = input.getD 0 0 :: (input.drop 1).take options.hLen ++
    input.drop (options.hLen + 1) := by
  cases input with
  | nil =>
    rw [List.length_nil] at size
    omega
  | cons first rest => simp

omit room in
theorem oaep_unmasks {message seed : Bytes} (sized : seed.length = options.hLen)
    (fits : message.length + 2 * options.hLen + 2 ≤ length)
    (encodes : input = hs.oaep options length message seed) :
    input.getD 0 0 = 0 ∧ hs.oaepSeed options input = seed ∧
      hs.oaepBlock options input = hs.oaepDb options length message := by
  have seedPart : (xorBytes seed (hs.mask options.mgfHash
      (hs.oaepMaskedDb options length message seed) options.hLen)).length =
      options.hLen := by
    rw [xorBytes_length, mask_length, sized, Nat.min_self]
  have fields := encodes.trans (oaep_eq message seed)
  have first : (input.drop 1).take options.hLen = xorBytes seed
      (hs.mask options.mgfHash (hs.oaepMaskedDb options length message seed)
        options.hLen) := by
    rw [fields, List.cons_append, List.drop_succ_cons, List.drop_zero, List.take_left' seedPart]
  have second : input.drop (options.hLen + 1) = hs.oaepMaskedDb options length message seed := by
    rw [fields, List.cons_append, List.drop_succ_cons, List.drop_left' seedPart]
  have opened : hs.oaepSeed options input = seed := by
    rw [Hashes.oaepSeed, first, second, xor_xor]
    rw [sized, mask_length]
  refine ⟨?_, opened, ?_⟩
  · rw [fields]
    rfl
  · rw [Hashes.oaepBlock, second, opened, size, Hashes.oaepMaskedDb, xor_xor]
    rw [oaepDb_length fits, mask_length]

theorem oaep_of_opens {place : Nat} (opens : hs.OaepOpens options input place) :
    ((hs.oaepBlock options input).drop (options.hLen + place)).length +
        2 * options.hLen + 2 ≤ length ∧ input = hs.oaep options length
        ((hs.oaepBlock options input).drop (options.hLen + place)) (hs.oaepSeed options input) := by
  obtain ⟨zero, labelled, here⟩ := opens
  obtain ⟨zeros, last, padded⟩ := separator_some here
  have blockLength := @oaepBlock_length hs options length input size room
  have seedLength := @oaepSeed_length hs options length input size room
  rw [List.drop_drop] at padded
  generalize message_eq : (hs.oaepBlock options input).drop (options.hLen + place) =
    message at padded
  have counted := congrArg List.length padded
  simp only [List.length_append, List.length_replicate, List.length_cons, List.length_drop,
    blockLength] at counted
  have enough : zeros = length - message.length - 2 * options.hLen - 2 := by omega
  have fits : message.length + 2 * options.hLen + 2 ≤ length := by omega
  refine ⟨fits, ?_⟩
  have block : hs.oaepDb options length message = hs.oaepBlock options input := by
    rw [Hashes.oaepDb, ← labelled, ← enough, List.append_assoc, ← padded, List.take_append_drop]
  have dbLength : (input.drop (options.hLen + 1)).length = length - options.hLen - 1 := by
    rw [List.length_drop]
    omega
  have db : hs.oaepMaskedDb options length message (hs.oaepSeed options input) =
      input.drop (options.hLen + 1) := by
    rw [Hashes.oaepMaskedDb, block, Hashes.oaepBlock, size, xor_xor (by rw [mask_length, dbLength])]
  have seed : xorBytes (hs.oaepSeed options input) (hs.mask options.mgfHash
      (input.drop (options.hLen + 1)) options.hLen) =
      (input.drop 1).take options.hLen := by
    rw [Hashes.oaepSeed, xor_xor]
    rw [mask_length, List.length_take]
    omega
  rw [oaep_eq, db, seed, ← zero]
  exact oaep_fields size room

omit room in
theorem oaep_opens {message seed : Bytes} (sized : seed.length = options.hLen)
    (fits : message.length + 2 * options.hLen + 2 ≤ length)
    (encodes : input = hs.oaep options length message seed) :
    ∃ place, hs.OaepOpens options input place ∧
      (hs.oaepBlock options input).drop (options.hLen + place) = message := by
  obtain ⟨zero, -, block⟩ := oaep_unmasks size sized fits encodes
  have label := @standard_length hs options.hash options.label
  have after : (hs.oaepDb options length message).drop options.hLen =
      List.replicate (length - message.length - 2 * options.hLen - 2) 0 ++ 1 :: message := by
    rw [Hashes.oaepDb, List.append_assoc, List.drop_left' label]
  refine ⟨length - message.length - 2 * options.hLen - 2 + 1, ⟨zero, ?_, ?_⟩, ?_⟩
  · rw [block, Hashes.oaepDb, List.append_assoc, List.take_left' label]
  · rw [block, after]
    exact separator_padded _ _
  · rw [block, ← List.drop_drop, after, List.drop_append]
    simp

end

theorem OaepOpens.unique {input : Bytes} {place place' : Nat}
    (first : hs.OaepOpens options input place) (second : hs.OaepOpens options input place') :
    place = place' :=
  Option.some.inj (first.2.2.symm.trans second.2.2)

/-- OAEP with a modulus length and options that can be paid for. Encoding gives the encoding of
    RFC 8017 for exactly the messages and seeds of admitted lengths. Decoding accepts exactly
    these encodings and returns what follows the separator, which is the message. -/
theorem oaep_exact (hs : Hashes) (options : OaepOptions) (length cost : Nat) (work : UInt32)
    (given : oaepCost hs length options.hash options.mgfHash options.label.length = .ok cost)
    (funded : cost ≤ work.toNat) :
    let h := options.hLen
    let Admitted := fun message seed : Bytes =>
      seed.length = h ∧ message.length + 2 * h + 2 ≤ length
    (∀ output message seed : Bytes, output.length = length →
      ((oaepEncode hs options output message seed work.toNat).status = .ok ↔
        Admitted message seed) ∧
      (Admitted message seed → oaepEncode hs options output message seed work.toNat =
        ⟨.ok, hs.oaep options length message seed, work.toNat - cost⟩)) ∧
    ∀ input : Bytes, input.length = length → let decoded := oaepDecode hs options input work.toNat
      (decoded.status = .ok ∨ decoded.status = .invalid) ∧ (decoded.status = .ok ↔
          ∃ message seed, Admitted message seed ∧ input = hs.oaep options length message seed) ∧
        (∀ message, decoded.message = some message ↔
          ∃ seed, Admitted message seed ∧ input = hs.oaep options length message seed) ∧
        ∀ message, decoded.message = some message → ∃ place,
          separator ((hs.oaepBlock options input).drop h) = some place ∧
            message = (hs.oaepBlock options input).drop (h + place) ∧
            message.length = length - h - 1 - (h + place) := by
  intro h Admitted
  have bounded := work.toNat_lt
  obtain ⟨paid⟩ := oaepCost_ok given
  have room := paid.room
  refine ⟨fun output message seed size => ?_, fun input size => ?_⟩
  · have encodes : Admitted message seed → oaepEncode hs options output message seed work.toNat =
          ⟨.ok, hs.oaep options length message seed, work.toNat - cost⟩ :=
      fun ⟨sized, fits⟩ => paid.encodes funded bounded size sized fits
    refine ⟨⟨fun accepted => ?_, fun admitted => by rw [encodes admitted]⟩, encodes⟩
    simp only [oaepEncode, size, paid.prepares funded] at accepted
    split at accepted
    · cases accepted
    · rename_i sized
      split at accepted
      · cases accepted
      · rename_i fits
        exact ⟨not_not.mp sized, by omega⟩
  · intro decoded
    obtain ⟨-, ends⟩ := @OaepPaid.decodes hs options length cost work.toNat input size paid
      funded bounded
    have opening : ∀ message, (∃ place, hs.OaepOpens options input place ∧
        (hs.oaepBlock options input).drop (h + place) = message) ↔
        ∃ seed, Admitted message seed ∧ input = hs.oaep options length message seed := by
      intro message
      constructor
      · rintro ⟨place, opens, rfl⟩
        obtain ⟨fits, same⟩ := oaep_of_opens size room opens
        exact ⟨_, ⟨oaepSeed_length size room, fits⟩, same⟩
      · rintro ⟨seed, ⟨sized, fits⟩, same⟩
        exact oaep_opens size sized fits same
    rcases ends with ⟨place, opens, ok, published⟩ | ⟨refused, invalid, silent⟩
    · have message_iff : ∀ message, decoded.message = some message ↔
          ∃ seed, Admitted message seed ∧ input = hs.oaep options length message seed := by
        intro message
        rw [← opening message, published, Option.some.injEq]
        refine ⟨fun same => ⟨place, opens, same⟩, fun ⟨place', opens', same⟩ => ?_⟩
        rw [OaepOpens.unique opens opens', same]
      have opened := (message_iff _).mp published
      refine ⟨.inl ok, ⟨fun _ => ⟨_, opened⟩, fun _ => ok⟩, message_iff, fun message same => ?_⟩
      rw [published, Option.some.injEq] at same
      refine ⟨place, opens.2.2, same.symm, ?_⟩
      rw [← same, List.length_drop, oaepBlock_length size room]
    · have closed : ∀ message seed, Admitted message seed →
          input ≠ hs.oaep options length message seed := by
        intro message seed admitted same
        obtain ⟨place, opens, -⟩ := (opening message).mpr ⟨seed, admitted, same⟩
        exact refused place opens
      refine ⟨.inr invalid, ?_, fun message => ?_, fun message same => ?_⟩
      · rw [invalid]
        exact iff_of_false (by simp) fun ⟨message, seed, admitted, same⟩ =>
          closed message seed admitted same
      · rw [silent]
        exact iff_of_false (by simp) fun ⟨seed, admitted, same⟩ => closed message seed admitted same
      · rw [silent] at same
        cases same

/-- A message of three bytes under a 1024-bit modulus. -/
theorem oaep_exact_example :
    let options : OaepOptions := ⟨.sha1, .sha1, []⟩
    let input := sampleHashes.oaep options 128 [1, 2, 3] (List.replicate 20 7)
    (oaepDecode sampleHashes options input (600 : UInt32).toNat).message = some [1, 2, 3] := by
  intro options input
  have given : oaepCost sampleHashes 128 .sha1 .sha1 0 = .ok 518 := by
    simp [oaepCost, oaepParameters, mgf1Cost, maskBlocks, sampleHashes, Hashes.sizeMax,
      Hash.Algorithm.digestLength, bind, Except.bind]
  have size : input.length = 128 := oaep_length (by decide) (by decide)
  have opened := (oaep_exact sampleHashes options 128 518 600 given (by decide)).2 input size
  exact (opened.2.2.1 [1, 2, 3]).mpr ⟨List.replicate 20 7, ⟨by decide, by decide⟩, rfl⟩

end TinyCrypto.Rsa
