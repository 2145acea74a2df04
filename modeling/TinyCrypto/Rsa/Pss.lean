import TinyCrypto.Rsa.Padding

/-! # PSS

EMSA-PSS of RFC 8017 section 9.1. The encoder gives that encoding, and the check accumulates
exactly the conditions of the verification.
-/

namespace TinyCrypto.Rsa

namespace Rfc8017

def clearTop (unused : Nat) (bytes : Bytes) : Bytes :=
  bytes.modify 0 fun b => UInt8.ofNat (b.toNat % 2 ^ (8 - unused))

section

variable (hash : Bytes → Bytes) (mask : Bytes → Nat → Bytes) (hLen emLen emBits : Nat)

/-- The hash of section 9.1.1 step 6. -/
def pssHash (mHash salt : Bytes) : Bytes := hash (List.replicate 8 0 ++ mHash ++ salt)

/-- The encoded message of section 9.1.1. -/
def pssEncode (mHash salt : Bytes) : Bytes :=
  let h := pssHash hash mHash salt
  let db := List.replicate (emLen - salt.length - hLen - 2) 0 ++ 1 :: salt
  clearTop (8 * emLen - emBits) (xorBytes db (mask h (emLen - hLen - 1))) ++ h ++ [0xbc]

def pssMaskedDb (em : Bytes) : Bytes := em.take (emLen - hLen - 1)

def pssH (em : Bytes) : Bytes := (em.drop (emLen - hLen - 1)).take hLen

/-- The data block of section 9.1.2 steps 7 to 9. -/
def pssDb (em : Bytes) : Bytes := clearTop (8 * emLen - emBits)
    (xorBytes (pssMaskedDb hLen emLen em) (mask (pssH hLen emLen em) (emLen - hLen - 1)))

/-- An encoded message that section 9.1.2 calls consistent. -/
structure PssConsistent (sLen : Nat) (mHash em : Bytes) : Prop where
  trailer : em.getD (emLen - 1) 0 = 0xbc
  unused : (em.getD 0 0).toNat < 2 ^ (8 - (8 * emLen - emBits))
  salted : ∃ salt, salt.length = sLen ∧ pssDb mask hLen emLen emBits em =
      List.replicate (emLen - hLen - sLen - 2) 0 ++ 1 :: salt ∧
    pssH hLen emLen em = pssHash hash mHash salt

end

end Rfc8017

open Rfc8017 (xorBytes clearTop)

theorem allowed_toNat (bits : Nat) : (allowed bits).toNat = 2 ^ (8 - (8 - bits % 8) % 8) - 1 := by
  have cases_ : ∀ r < 8, ((0xff : UInt8) >>> UInt8.ofNat ((8 - r) % 8)).toNat =
      2 ^ (8 - (8 - r) % 8) - 1 := by decide
  exact cases_ (bits % 8) (Nat.mod_lt _ (by decide))

theorem and_allowed (bits : Nat) (b : UInt8) :
    b &&& allowed bits = UInt8.ofNat (b.toNat % 2 ^ (8 - (8 - bits % 8) % 8)) := by
  apply UInt8.toNat_inj.mp
  rw [UInt8.toNat_and, allowed_toNat, Nat.and_two_pow_sub_one_eq_mod, UInt8.toNat_ofNat']
  exact (Nat.mod_eq_of_lt (Nat.lt_of_le_of_lt (Nat.mod_le _ _) b.toNat_lt)).symm

theorem and_not_allowed (b m : UInt8) : b &&& ~~~m = 0 ↔ b &&& m = b := by
  constructor
  · intro none
    apply UInt8.toBitVec_inj.mp
    have bits := congrArg UInt8.toBitVec none
    ext i small
    have bit := congrArg (fun v : BitVec 8 => v[i]) bits
    simp at bit ⊢
    exact bit
  · intro same
    rw [← same, UInt8.and_assoc, UInt8.and_not_self, UInt8.and_zero]

theorem and_xor_and (a b m : UInt8) : ((a &&& m) ^^^ b) &&& m = (a ^^^ b) &&& m := by
  apply UInt8.toBitVec_inj.mp
  ext i small
  simp only [UInt8.toBitVec_and, UInt8.toBitVec_xor, BitVec.getElem_and, BitVec.getElem_xor]
  grind

theorem unused_iff (bits : Nat) (b : UInt8) :
    b &&& ~~~(allowed bits) = 0 ↔ b.toNat < 2 ^ (8 - (8 - bits % 8) % 8) := by
  rw [and_not_allowed, and_allowed, ← UInt8.toNat_inj, UInt8.toNat_ofNat']
  have small := b.toNat_lt
  have least := Nat.mod_le b.toNat (2 ^ (8 - (8 - bits % 8) % 8))
  have pos : 0 < 2 ^ (8 - (8 - bits % 8) % 8) := Nat.two_pow_pos _
  rw [Nat.mod_eq_of_lt (by omega)]
  constructor
  · intro same
    rw [← same]
    exact Nat.mod_lt _ pos
  · exact Nat.mod_eq_of_lt

theorem unused_bits {length bits : Nat}
    (size : length = bits / 8 + (if bits % 8 ≠ 0 then 1 else 0)) :
    8 * length - bits = (8 - bits % 8) % 8 := by
  split at size <;> omega

theorem clearTop_allowed {length bits : Nat}
    (size : length = bits / 8 + (if bits % 8 ≠ 0 then 1 else 0)) (bytes : Bytes) :
    clearTop (8 * length - bits) bytes = bytes.modify 0 (· &&& allowed bits) := by
  rw [clearTop, unused_bits size]
  congr 1
  funext b
  exact (and_allowed bits b).symm

theorem modify_xor_modify (m : UInt8) (a b : Bytes) :
    (xorBytes (a.modify 0 (· &&& m)) b).modify 0 (· &&& m) = (xorBytes a b).modify 0 (· &&& m) := by
  cases a with
  | nil => rfl
  | cons first rest =>
    cases b with
    | nil => rfl
    | cons head more => simp [xorBytes, and_xor_and]

theorem padded_iff {db : Bytes} {padding sLen : Nat} (size : db.length = padding + 1 + sLen) :
    ((∀ b ∈ db.take padding, b = 0) ∧ db.getD padding 0 = 1) ↔
      db = List.replicate padding 0 ++ 1 :: (db.drop (padding + 1)).take sLen := by
  have whole : (db.drop (padding + 1)).take sLen = db.drop (padding + 1) :=
    List.take_of_length_le (by rw [List.length_drop]; omega)
  rw [whole]
  constructor
  · rintro ⟨zeros, one⟩
    have front : db.take padding = List.replicate padding 0 := by
      apply List.eq_replicate_iff.mpr
      exact ⟨by rw [List.length_take]; omega, zeros⟩
    have inside : padding < db.length := by omega
    rw [List.getD_eq_getElem _ _ inside] at one
    rw [← front, ← one, ← List.drop_eq_getElem_cons inside, List.take_append_drop]
  · intro shape
    have left : (List.replicate padding (0 : UInt8)).length = padding := List.length_replicate
    generalize db.drop (padding + 1) = salt at shape
    rw [shape]
    constructor
    · rw [List.take_left' left]
      exact fun b inside => List.eq_of_mem_replicate inside
    · rw [List.getD_append_right _ _ _ _ (Nat.le_of_eq left), left, Nat.sub_self]
      rfl

variable {hs : Hashes} {options : PssOptions} {length bits cost work : Nat}

structure PssPaid (hs : Hashes) (options : PssOptions) (length bits cost : Nat) where
  charge : Nat
  maskCost : Nat
  parameters : pssParameters hs length bits options.hash options.mgfHash options.saltLength =
    .ok charge
  mask : mgf1Cost hs options.mgfHash options.hLen
    (length - options.hLen - 1) = .ok maskCost
  total : cost = charge + maskCost
  available : hs.available options.hash = true
  shape : length = bits / 8 + (if bits % 8 ≠ 0 then 1 else 0)
  room : options.hLen + options.saltLength + 2 ≤ length
  charged : charge = length + options.saltLength + options.hLen + 9

theorem pssParameters_ok {charge : Nat}
    (given : pssParameters hs length bits options.hash options.mgfHash options.saltLength =
      .ok charge) :
    hs.available options.hash = true ∧ length = bits / 8 + (if bits % 8 ≠ 0 then 1 else 0) ∧
      options.hLen + options.saltLength + 2 ≤ length ∧
      charge = length + options.saltLength + options.hLen + 9 := by
  unfold pssParameters at given
  dsimp only at given
  generalize bits / 8 + (if bits % 8 ≠ 0 then 1 else 0) = bytes at given ⊢
  split at given
  · cases given
  · rename_i known
    split at given
    · cases given
    · rename_i shape
      split at given
      · cases given
      · cases given
        simp only [Bool.or_eq_true, Bool.not_eq_true', not_or, Bool.not_eq_false,
          decide_eq_true_eq, ne_eq, not_not] at known shape
        exact ⟨known.1, shape.1.1.2, by dsimp only [PssOptions.hLen]; omega, rfl⟩

theorem pssCost_ok
    (given : pssCost hs length bits options.hash options.mgfHash options.saltLength = .ok cost) :
    Nonempty (PssPaid hs options length bits cost) := by
  rw [pssCost] at given
  cases parameters : pssParameters hs length bits options.hash options.mgfHash
      options.saltLength with
  | error result =>
    rw [parameters] at given
    cases given
  | ok charge =>
    obtain ⟨available, shape, room, charged⟩ := pssParameters_ok parameters
    rw [parameters] at given
    cases mask : mgf1Cost hs options.mgfHash options.hLen
        (length - options.hLen - 1) with
    | error result =>
      simp only [mask, bind, Except.bind] at given
      cases given
    | ok maskCost =>
      simp only [mask, bind, Except.bind] at given
      split at given
      · cases given
      · cases given
        exact ⟨⟨charge, maskCost, parameters, mask, rfl, available, shape, room, charged⟩⟩

theorem PssPaid.prepares (paid : PssPaid hs options length bits cost) (funded : cost ≤ work)
    (digestLength : Nat) :
    pssPrepare hs length bits options.hash options.mgfHash digestLength options.saltLength work =
      if digestLength = options.hLen then .ok (work - paid.charge) else .error .argument := by
  have total := paid.total
  have enough : ¬ paid.charge > work := by omega
  simp only [pssPrepare, pssPlan, paid.parameters, bind, Except.bind]
  by_cases same : digestLength = options.hLen
  · simp only [same, ne_eq, not_true_eq_false, if_false, if_neg enough, if_true]
  · simp only [same, ne_eq, not_false_eq_true, if_true, if_false]

theorem PssPaid.hashes (paid : PssPaid hs options length bits cost) (funded : cost ≤ work)
    (bounded : work < 2 ^ 32) {digest salt : Bytes} (digested : digest.length = options.hLen)
    (salted : salt.length = options.saltLength) : pssHash hs options.hash digest salt =
      some (Rfc8017.pssHash (hs.standard options.hash) digest salt) := by
  have total := paid.total
  have charged := paid.charged
  have parts : [List.replicate 8 0, digest, salt].flatten =
      List.replicate 8 0 ++ digest ++ salt := by simp
  rw [pssHash, digestParts_short paid.available, parts]
  · rfl
  · simp only [parts, List.length_append, List.length_replicate]
    omega

def Hashes.pss (hs : Hashes) (options : PssOptions) (length bits : Nat) (digest salt : Bytes) :
    Bytes :=
  Rfc8017.pssEncode (hs.standard options.hash) (hs.mask options.mgfHash)
    options.hLen length bits digest salt

theorem PssPaid.encodes (paid : PssPaid hs options length bits cost) (funded : cost ≤ work)
    (bounded : work < 2 ^ 32) {output digest salt : Bytes} (size : output.length = length)
    (digested : digest.length = options.hLen) (salted : salt.length = options.saltLength) :
    pssEncode hs options output bits digest salt work =
      ⟨.ok, hs.pss options length bits digest salt, work - cost⟩ := by
  have total := paid.total
  have room := paid.room
  have zeros : length - options.hLen - 1 - options.saltLength - 1 =
      length - options.saltLength - options.hLen - 2 := by omega
  have dbLength : (List.replicate (length - options.saltLength - options.hLen - 2)
      (0 : UInt8) ++ 1 :: salt).length = length - options.hLen - 1 := by
    simp only [List.length_append, List.length_replicate, List.length_cons]
    omega
  have hLength : (Rfc8017.pssHash (hs.standard options.hash) digest salt).length =
      options.hLen := standard_length _
  have maskCost : mgf1Cost hs options.mgfHash
      (Rfc8017.pssHash (hs.standard options.hash) digest salt).length
      (List.replicate (length - options.saltLength - options.hLen - 2)
        (0 : UInt8) ++ 1 :: salt).length = .ok paid.maskCost := by
    rw [dbLength, hLength, paid.mask]
  have masked := mgf1Xor_eq maskCost (show _ ≤ work - paid.charge by omega) (by omega)
  rw [dbLength] at masked
  have left : work - paid.charge - paid.maskCost = work - cost := by omega
  have prepared := paid.prepares funded digest.length
  rw [if_pos digested] at prepared
  simp only [pssEncode, size, salted, prepared, paid.hashes funded bounded digested salted, zeros,
    masked]
  simp only [ne_eq, not_true_eq_false, if_false, left, ← clearTop_allowed paid.shape]
  rw [Hashes.pss, Rfc8017.pssEncode, salted]

def Hashes.PssConsistent (hs : Hashes) (options : PssOptions) (length bits : Nat)
    (digest message : Bytes) : Prop :=
  Rfc8017.PssConsistent (hs.standard options.hash) (hs.mask options.mgfHash)
    options.hLen length bits options.saltLength digest message

theorem pssDb_length {message : Bytes} (room : options.hLen + options.saltLength + 2 ≤ length)
    (size : message.length = length) :
    (Rfc8017.pssDb (hs.mask options.mgfHash) options.hLen length bits message).length =
      length - options.hLen - 1 := by
  rw [Rfc8017.pssDb, Rfc8017.pssMaskedDb, clearTop, List.length_modify, xorBytes_length,
    List.length_take, mask_length]
  omega

theorem consistent_iff {digest message : Bytes}
    (shape : length = bits / 8 + (if bits % 8 ≠ 0 then 1 else 0))
    (room : options.hLen + options.saltLength + 2 ≤ length) (size : message.length = length) :
    hs.PssConsistent options length bits digest message ↔
      let padding := length - options.hLen - options.saltLength - 2
      let db := Rfc8017.pssDb (hs.mask options.mgfHash) options.hLen length bits message
      message.getD (length - 1) 0 = 0xbc ∧ message.getD 0 0 &&& ~~~(allowed bits) = 0 ∧
        (∀ b ∈ db.take padding, b = 0) ∧ db.getD padding 0 = 1 ∧
        Rfc8017.pssHash (hs.standard options.hash) digest
          ((db.drop (padding + 1)).take options.saltLength) =
          (message.drop (length - options.hLen - 1)).take
            options.hLen := by
  have blockLength := @pssDb_length hs options length bits message room size
  have padded := @padded_iff
    (Rfc8017.pssDb (hs.mask options.mgfHash) options.hLen length bits message)
    (length - options.hLen - options.saltLength - 2) options.saltLength
    (by rw [blockLength]; omega)
  have salted : ∀ salt : Bytes, salt.length = options.saltLength →
      ((List.replicate (length - options.hLen - options.saltLength - 2) 0 ++
        1 :: salt).drop (length - options.hLen - options.saltLength - 2 + 1)).take
          options.saltLength = salt := by
    intro salt sized
    rw [← List.drop_drop, List.drop_left' List.length_replicate, List.drop_succ_cons,
      List.drop_zero, List.take_of_length_le (Nat.le_of_eq sized)]
  constructor
  · rintro ⟨trailer, unused, salt, sized, shaped, hashed⟩
    rw [unused_bits shape, ← unused_iff] at unused
    have same : ((Rfc8017.pssDb (hs.mask options.mgfHash) options.hLen length bits
        message).drop (length - options.hLen - options.saltLength - 2 + 1)).take
          options.saltLength = salt := by
      rw [shaped, salted salt sized]
    obtain ⟨zeros, one⟩ := padded.mpr (by rw [same]; exact shaped)
    refine ⟨trailer, unused, zeros, one, ?_⟩
    rw [same]
    exact hashed.symm
  · rintro ⟨trailer, unused, zeros, one, hashed⟩
    rw [unused_iff, ← unused_bits shape] at unused
    refine ⟨trailer, unused, _, ?_, padded.mp ⟨zeros, one⟩, hashed.symm⟩
    rw [List.length_take, List.length_drop, blockLength]
    omega

theorem PssPaid.checks (paid : PssPaid hs options length bits cost) (funded : cost ≤ work)
    (bounded : work < 2 ^ 32) {message digest : Bytes} (size : message.length = length)
    (digested : digest.length = options.hLen) :
    (hs.PssConsistent options length bits digest message ∧
        (pssCheck hs options message bits digest work).status = .ok) ∨
      (¬ hs.PssConsistent options length bits digest message ∧
        (pssCheck hs options message bits digest work).status = .invalid) := by
  have total := paid.total
  have room := paid.room
  have prepared := paid.prepares funded digest.length
  rw [if_pos digested] at prepared
  have hLength : ((message.drop (length - options.hLen - 1)).take
      options.hLen).length = options.hLen := by
    rw [List.length_take, List.length_drop]
    omega
  have dbLength : (message.take (length - options.hLen - 1)).length =
      length - options.hLen - 1 := by
    rw [List.length_take]
    omega
  have maskCost : mgf1Cost hs options.mgfHash ((message.drop
      (length - options.hLen - 1)).take options.hLen).length
      (message.take (length - options.hLen - 1)).length = .ok paid.maskCost := by
    rw [dbLength, hLength, paid.mask]
  have masked := mgf1Xor_eq maskCost (show _ ≤ work - paid.charge by omega) (by omega)
  rw [dbLength] at masked
  simp only [pssCheck, size, prepared, masked, ne_eq, not_true_eq_false, if_false,
    ← clearTop_allowed paid.shape]
  have opened : clearTop (8 * length - bits) (xorBytes
      (message.take (length - options.hLen - 1)) (hs.mask options.mgfHash
        ((message.drop (length - options.hLen - 1)).take options.hLen)
        (length - options.hLen - 1))) =
      Rfc8017.pssDb (hs.mask options.mgfHash) options.hLen length bits message := rfl
  rw [opened]
  have blockLength := @pssDb_length hs options length bits message room size
  have padding : length - options.hLen - 1 - options.saltLength - 1 =
      length - options.hLen - options.saltLength - 2 := by omega
  have consistent := @consistent_iff hs options length bits digest message paid.shape room size
  rw [padding]
  generalize Rfc8017.pssDb (hs.mask options.mgfHash) options.hLen length bits message =
    db at blockLength consistent
  have salted : ((db.drop (length - options.hLen - options.saltLength - 2 + 1)).take
      options.saltLength).length = options.saltLength := by
    rw [List.length_take, List.length_drop]
    omega
  have same : (Rfc8017.pssHash (hs.standard options.hash) digest ((db.drop
      (length - options.hLen - options.saltLength - 2 + 1)).take
        options.saltLength)).length = ((message.drop (length - options.hLen - 1)).take
      options.hLen).length := by
    rw [hLength]
    exact standard_length _
  simp only [paid.hashes funded bounded digested salted, accumulate_xor _ same,
    UInt32.or_eq_zero_iff, accumulate_eq_zero, octet_eq_zero, UInt8.xor_eq_zero_iff, and_assoc]
  by_cases accepted : hs.PssConsistent options length bits digest message
  · exact .inl ⟨accepted, if_neg (not_not.mpr (consistent.mp accepted))⟩
  · exact .inr ⟨accepted, if_pos (mt consistent.mpr accepted)⟩

theorem one_allowed (bits : Nat) : 1 &&& allowed bits = 1 := by
  have pos : 1 < 2 ^ (8 - (8 - bits % 8) % 8) := Nat.one_lt_two_pow (by omega)
  have one : (1 : UInt8).toNat = 1 := rfl
  rw [and_allowed, one, Nat.mod_eq_of_lt pos]
  rfl

theorem pss_consistent {digest salt : Bytes}
    (shape : length = bits / 8 + (if bits % 8 ≠ 0 then 1 else 0))
    (room : options.hLen + options.saltLength + 2 ≤ length)
    (salted : salt.length = options.saltLength) :
    hs.PssConsistent options length bits digest (hs.pss options length bits digest salt) ∧
      (hs.pss options length bits digest salt).length = length := by
  generalize h_eq : Rfc8017.pssHash (hs.standard options.hash) digest salt = h
  have hLength : h.length = options.hLen := by
    rw [← h_eq]
    exact standard_length _
  generalize mask_eq : hs.mask options.mgfHash h (length - options.hLen - 1) = mask
  have maskLength : mask.length = length - options.hLen - 1 := by
    rw [← mask_eq, mask_length]
  generalize db_eq : List.replicate (length - options.hLen - options.saltLength - 2)
    (0 : UInt8) ++ 1 :: salt = db
  have dbLength : db.length = length - options.hLen - 1 := by
    simp only [← db_eq, List.length_append, List.length_replicate, List.length_cons]
    omega
  have kept : db.modify 0 (· &&& allowed bits) = db := by
    rw [← db_eq]
    cases length - options.hLen - options.saltLength - 2 with
    | zero => simp [one_allowed]
    | succ zeros => simp [List.replicate_succ]
  generalize masked_eq : (xorBytes db mask).modify 0 (· &&& allowed bits) = masked
  have maskedLength : masked.length = length - options.hLen - 1 := by
    rw [← masked_eq, List.length_modify, xorBytes_length, dbLength, maskLength, Nat.min_self]
  have encoded : hs.pss options length bits digest salt = masked ++ (h ++ [0xbc]) := by
    rw [Hashes.pss, Rfc8017.pssEncode, h_eq, mask_eq, clearTop_allowed shape, salted,
      Nat.sub_right_comm _ options.saltLength, db_eq, masked_eq, List.append_assoc]
  have size : (masked ++ (h ++ [0xbc])).length = length := by
    simp only [List.length_append, List.length_singleton, maskedLength, hLength]
    omega
  rw [encoded]
  refine ⟨⟨?_, ?_, salt, salted, ?_, ?_⟩, size⟩
  · have last : length - 1 = (masked ++ h).length := by
      rw [List.length_append, maskedLength, hLength]
      omega
    rw [last, ← List.append_assoc, List.getD_append_right _ _ _ _ (Nat.le_refl _), Nat.sub_self]
    rfl
  · rw [unused_bits shape, ← unused_iff, List.getD_append _ _ _ _ (by omega), ← masked_eq]
    cases xorBytes db mask with
    | nil => simp
    | cons first rest => simp [UInt8.and_assoc]
  · have front : Rfc8017.pssMaskedDb options.hLen length (masked ++ (h ++ [0xbc])) =
        masked := List.take_left' maskedLength
    have middle : Rfc8017.pssH options.hLen length (masked ++ (h ++ [0xbc])) = h := by
      rw [Rfc8017.pssH, List.drop_left' maskedLength, List.take_left' hLength]
    rw [Rfc8017.pssDb, front, middle, mask_eq, clearTop_allowed shape, ← masked_eq,
      modify_xor_modify, xor_xor (by rw [dbLength, maskLength]), kept, ← db_eq]
  · rw [Rfc8017.pssH, List.drop_left' maskedLength, List.take_left' hLength, h_eq]

/-- PSS with a modulus length and options that can be paid for. Encoding gives the encoding of
    RFC 8017, which the check accepts. The check accepts exactly the consistent messages. -/
theorem pss_exact (hs : Hashes) (options : PssOptions) (length bits cost : Nat) (work : UInt32)
    (digest : Bytes)
    (given : pssCost hs length bits options.hash options.mgfHash options.saltLength = .ok cost)
    (funded : cost ≤ work.toNat) (digested : digest.length = options.hLen) :
    (∀ output salt : Bytes, output.length = length → salt.length = options.saltLength →
      let encoded := pssEncode hs options output bits digest salt work.toNat
      encoded = ⟨.ok, hs.pss options length bits digest salt, work.toNat - cost⟩ ∧
        ∀ budget : UInt32, cost ≤ budget.toNat →
          (pssCheck hs options encoded.bytes bits digest budget.toNat).status = .ok) ∧
    ∀ message : Bytes, message.length = length →
      let checked := (pssCheck hs options message bits digest work.toNat).status
      (checked = .ok ∨ checked = .invalid) ∧
        (checked = .ok ↔ hs.PssConsistent options length bits digest message) := by
  obtain ⟨paid⟩ := pssCost_ok given
  refine ⟨fun output salt size salted => ?_, fun message size => ?_⟩
  · have encodes := paid.encodes funded work.toNat_lt size digested salted
    obtain ⟨consistent, encodedLength⟩ :=
      @pss_consistent hs options length bits digest salt paid.shape paid.room salted
    refine ⟨encodes, fun budget affordable => ?_⟩
    rw [encodes]
    rcases paid.checks affordable budget.toNat_lt encodedLength digested with
      ⟨-, ok⟩ | ⟨refused, -⟩
    · exact ok
    · exact absurd consistent refused
  · rcases paid.checks funded work.toNat_lt size digested with ⟨consistent, ok⟩ | ⟨refused, bad⟩
    · exact ⟨.inl ok, iff_of_true ok consistent⟩
    · exact ⟨.inr bad, iff_of_false (by rw [bad]; simp) refused⟩

/-- A digest and a salt of twenty bytes under a 1024-bit modulus. -/
theorem pss_exact_example :
    let options : PssOptions := ⟨.sha1, .sha1, 20⟩
    let digest : Bytes := List.replicate 20 1
    let encoded := pssEncode sampleHashes options (List.replicate 128 0) 1023 digest
      (List.replicate 20 2) (500 : UInt32).toNat
    (pssCheck sampleHashes options encoded.bytes 1023 digest (500 : UInt32).toNat).status = .ok := by
  intro options digest
  have given : pssCost sampleHashes 128 1023 .sha1 .sha1 20 = .ok 434 := by
    simp [pssCost, pssParameters, mgf1Cost, maskBlocks, sampleHashes, Hashes.sizeMax,
      Hash.Algorithm.digestLength, bind, Except.bind]
  have funded : 434 ≤ (500 : UInt32).toNat := by simp
  have exact := pss_exact sampleHashes options 128 1023 434 500 digest given funded rfl
  exact (exact.1 (List.replicate 128 0) (List.replicate 20 2) List.length_replicate
    List.length_replicate).2 500 funded

end TinyCrypto.Rsa
