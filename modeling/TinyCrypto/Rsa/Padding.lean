import TinyCrypto.Hash.Core

/-! # RSA padding

`rsa_padding_internal.h`: MGF1, EMSA-PSS and EME-OAEP in place, with the work that they charge.
Spans are not NULL, and storage is disjoint. The length of a span is a `size_t`.
-/

namespace TinyCrypto.Rsa

open Library.ByteCounter (ofValue)

/-- The hashes of a build, with the width of `size_t`. -/
structure Hashes where
  sizeBits : Nat
  available : Hash.Algorithm → Bool
  compression : (hash : Hash.Algorithm) → Hash.Core.Compression (.sha hash)

namespace Hashes

variable (hs : Hashes)

/-- `SIZE_MAX`. -/
def sizeMax : Nat := 2 ^ hs.sizeBits - 1

def info (hash : Hash.Algorithm) : Hash.Info := Hash.Core.info (.sha hash) (hs.compression hash)

/-- `tc_hash_digest_parts`, or none for TC_ERROR. -/
def digestParts (hash : Hash.Algorithm) (parts : List Bytes) : Option Bytes :=
  if hs.available hash then (hs.info hash).digestParts parts else none

end Hashes

/-- What a call in place leaves: its result, the buffer and the work left. -/
structure Encoded where
  status : Result
  bytes : Bytes
  work : Nat
  deriving DecidableEq

/-- `difference |= byte` over bytes in order. -/
def accumulate (difference : UInt32) (bytes : Bytes) : UInt32 :=
  bytes.foldl (fun difference b => difference ||| b.toUInt32) difference

section

variable (hs : Hashes)

def maskBlocks (hash : Hash.Algorithm) (length : Nat) : Nat :=
  length / hash.digestLength + (if length % hash.digestLength ≠ 0 then 1 else 0)

/-- `tc_rsa_mgf1_cost`. -/
def mgf1Cost (hash : Hash.Algorithm) (seedLength length : Nat) : Except Result Nat :=
  if !hs.available hash then .error .unsupported
  else
    let blocks := maskBlocks hash length
    if blocks = 0 then .ok 0
    else if hs.sizeMax > 2 ^ 32 - 1 && blocks - 1 > 2 ^ 32 - 1 then .error .limit
    else if seedLength > hs.sizeMax - 5 then .error .limit
    else
      let perBlock := seedLength + 5
      if blocks > (hs.sizeMax - length) / perBlock then .error .limit
      else .ok (length + blocks * perBlock)

/-- The loop of `tc_rsa_mgf1_xor` over the bytes that are left. -/
def mgf1Loop (hash : Hash.Algorithm) (seed : Bytes) : (passes i : Nat) → Bytes → Result × Bytes
  | 0, _, output => (.ok, output)
  | passes + 1, i, output =>
    match hs.digestParts hash [seed, ofValue 4 i] with
    | none => (.error, output)
    | some block =>
      let take := min hash.digestLength output.length
      let (status, rest) := mgf1Loop hash seed passes (i + 1) (output.drop take)
      (status, List.zipWith (· ^^^ ·) (output.take take) block ++ rest)

/-- `tc_rsa_mgf1_xor`. -/
def mgf1Xor (hash : Hash.Algorithm) (seed output : Bytes) (work : Nat) : Encoded :=
  match mgf1Cost hs hash seed.length output.length with
  | .error result => ⟨result, output, work⟩
  | .ok cost =>
    if cost = 0 then ⟨.ok, output, work⟩
    else if cost > work then ⟨.limit, output, work⟩
    else
      let (status, bytes) := mgf1Loop hs hash seed (maskBlocks hash output.length) 0 output
      ⟨status, bytes, work - cost⟩

/-- `TC_RSA_pss_options`. -/
structure PssOptions where
  hash : Hash.Algorithm
  mgfHash : Hash.Algorithm
  saltLength : Nat
  deriving DecidableEq

abbrev PssOptions.hLen (options : PssOptions) : Nat := options.hash.digestLength

/-- `tc_rsa_pss_parameters`. -/
def pssParameters (length bits : Nat) (hash mgfHash : Hash.Algorithm) (saltLength : Nat) :
    Except Result Nat :=
  let h := hash.digestLength
  if !hs.available hash || !hs.available mgfHash then .error .unsupported
  else if bits = 0 || length ≠ bits / 8 + (if bits % 8 ≠ 0 then 1 else 0) || length < h + 2 ||
      saltLength > length - h - 2 then .error .invalid
  else if saltLength > hs.sizeMax - h - 9 || length > hs.sizeMax - saltLength - h - 9 then
    .error .limit
  else .ok (length + saltLength + h + 9)

/-- `tc_rsa_pss_cost`. -/
def pssCost (length bits : Nat) (hash mgfHash : Hash.Algorithm) (saltLength : Nat) :
    Except Result Nat := do
  let cost ← pssParameters hs length bits hash mgfHash saltLength
  let maskCost ← mgf1Cost hs mgfHash hash.digestLength (length - hash.digestLength - 1)
  if maskCost > hs.sizeMax - cost then .error .limit else .ok (cost + maskCost)

/-- `tc_rsa_pss_plan`. -/
def pssPlan (length bits : Nat) (hash mgfHash : Hash.Algorithm) (digestLength saltLength : Nat) :
    Except Result Nat :=
  match pssParameters hs length bits hash mgfHash saltLength with
  | .error .unsupported => .error .unsupported
  | result => if digestLength ≠ hash.digestLength then .error .argument else result

/-- `tc_rsa_pss_prepare`: the work that is left. -/
def pssPrepare (length bits : Nat) (hash mgfHash : Hash.Algorithm) (digestLength saltLength : Nat)
    (work : Nat) : Except Result Nat := do
  let cost ← pssPlan hs length bits hash mgfHash digestLength saltLength
  if cost > work then .error .limit else .ok (work - cost)

/-- `tc_rsa_pss_hash`. -/
def pssHash (hash : Hash.Algorithm) (digest salt : Bytes) : Option Bytes :=
  hs.digestParts hash [List.replicate 8 0, digest, salt]

def allowed (bits : Nat) : UInt8 := 0xff >>> UInt8.ofNat ((8 - bits % 8) % 8)

/-- `tc_rsa_pss_encode`. -/
def pssEncode (options : PssOptions) (output : Bytes) (bits : Nat) (digest salt : Bytes)
    (work : Nat) : Encoded :=
  let length := output.length
  match pssPrepare hs length bits options.hash options.mgfHash digest.length salt.length work with
  | .error result => ⟨result, output, work⟩
  | .ok work =>
    let dbLength := length - options.hLen - 1
    let padding := dbLength - salt.length - 1
    match pssHash hs options.hash digest salt with
    | none => ⟨.error, output, work⟩
    | some h =>
      let masked := mgf1Xor hs options.mgfHash h (List.replicate padding 0 ++ 1 :: salt) work
      if masked.status ≠ .ok then
        { masked with bytes := masked.bytes ++ h ++ output.drop (length - 1) }
      else { masked with bytes := masked.bytes.modify 0 (· &&& allowed bits) ++ h ++ [0xbc] }

/-- `tc_rsa_pss_check`. -/
def pssCheck (options : PssOptions) (message : Bytes) (bits : Nat) (digest : Bytes) (work : Nat) :
    Encoded :=
  let length := message.length
  let saltLength := options.saltLength
  match pssPrepare hs length bits options.hash options.mgfHash digest.length saltLength work with
  | .error result => ⟨result, message, work⟩
  | .ok work =>
    let difference := (message.getD (length - 1) 0 ^^^ 0xbc).toUInt32
    let difference := difference ||| (message.getD 0 0 &&& ~~~(allowed bits)).toUInt32
    let dbLength := length - options.hLen - 1
    let tail := message.drop dbLength
    let h := tail.take options.hLen
    let masked := mgf1Xor hs options.mgfHash h (message.take dbLength) work
    if masked.status ≠ .ok then { masked with bytes := masked.bytes ++ tail }
    else
      let db := masked.bytes.modify 0 (· &&& allowed bits)
      let padding := dbLength - saltLength - 1
      let difference := accumulate difference (db.take padding)
      let difference := difference ||| (db.getD padding 0 ^^^ 1).toUInt32
      match pssHash hs options.hash digest ((db.drop (padding + 1)).take saltLength) with
      | none => { masked with status := .error, bytes := db ++ tail }
      | some block =>
        let difference := accumulate difference (List.zipWith (· ^^^ ·) block h)
        { masked with
          status := if difference ≠ 0 then .invalid else .ok
          bytes := db ++ tail }

/-- `TC_RSA_oaep_options`. -/
structure OaepOptions where
  hash : Hash.Algorithm
  mgfHash : Hash.Algorithm
  label : Bytes
  deriving DecidableEq

abbrev OaepOptions.hLen (options : OaepOptions) : Nat := options.hash.digestLength

/-- `tc_rsa_oaep_parameters`. -/
def oaepParameters (length : Nat) (hash mgfHash : Hash.Algorithm) (labelLength : Nat) :
    Except Result Nat :=
  if !hs.available hash || !hs.available mgfHash then .error .unsupported
  else if length < 2 * hash.digestLength + 2 then .error .invalid
  else if length ≥ hs.sizeMax || labelLength > hs.sizeMax - length - 1 then .error .limit
  else .ok (length + labelLength + 1)

/-- `tc_rsa_oaep_cost`. -/
def oaepCost (length : Nat) (hash mgfHash : Hash.Algorithm) (labelLength : Nat) :
    Except Result Nat := do
  let cost ← oaepParameters hs length hash mgfHash labelLength
  let h := hash.digestLength
  let dbLength := length - h - 1
  let dbMask ← mgf1Cost hs mgfHash h dbLength
  let seedMask ← mgf1Cost hs mgfHash dbLength h
  if dbMask > hs.sizeMax - cost || seedMask > hs.sizeMax - cost - dbMask then .error .limit
  else .ok (cost + (dbMask + seedMask))

/-- `tc_rsa_oaep_prepare`: the work that is left. -/
def oaepPrepare (length : Nat) (hash mgfHash : Hash.Algorithm) (label : Bytes) (work : Nat) :
    Except Result Nat := do
  let cost ← oaepParameters hs length hash mgfHash label.length
  if cost > work then .error .limit else .ok (work - cost)

/-- `tc_rsa_oaep_encode`. -/
def oaepEncode (options : OaepOptions) (output message seed : Bytes) (work : Nat) : Encoded :=
  let length := output.length
  match oaepPrepare hs length options.hash options.mgfHash options.label work with
  | .error result => ⟨result, output, work⟩
  | .ok work =>
    let h := options.hLen
    let dbLength := length - h - 1
    if seed.length ≠ h then ⟨.argument, output, work⟩
    else if message.length > dbLength - h - 1 then ⟨.invalid, output, work⟩
    else
      match hs.digestParts options.hash [options.label] with
      | none => ⟨.error, output, work⟩
      | some digest =>
        let padding := dbLength - h - message.length - 1
        let db := digest ++ List.replicate padding 0 ++ 1 :: message
        let masked := mgf1Xor hs options.mgfHash seed db work
        if masked.status ≠ .ok then { masked with bytes := 0 :: seed ++ masked.bytes }
        else
          let maskedSeed := mgf1Xor hs options.mgfHash masked.bytes seed masked.work
          { maskedSeed with bytes := 0 :: maskedSeed.bytes ++ masked.bytes }

structure Scan where
  start : BitVec hs.sizeBits
  searching : UInt32
  difference : UInt32
  deriving DecidableEq

variable {hs} in
def Scan.step (s : Scan hs) (i : Nat) (byte : UInt8) : Scan hs :=
  let zero := (byte.toUInt32 - 1) >>> 31
  let one := ((byte ^^^ 1).toUInt32 - 1) >>> 31
  let take := (0 : BitVec hs.sizeBits) - BitVec.ofNat hs.sizeBits (s.searching &&& one).toNat
  { start := (s.start &&& ~~~take) ||| (BitVec.ofNat hs.sizeBits (i + 1) &&& take)
    searching := s.searching &&& (one ^^^ 1)
    difference := s.difference ||| (s.searching &&& ((zero ||| one) ^^^ 1)) }

variable {hs} in
/-- The search over the bytes from place `i` on. -/
def Scan.run (s : Scan hs) : (i : Nat) → Bytes → Scan hs
  | _, [] => s
  | i, byte :: rest => (s.step i byte).run (i + 1) rest

/-- What `tc_rsa_oaep_decode` leaves, with the message that it publishes. -/
structure Decoded extends Encoded where
  message : Option Bytes
  deriving DecidableEq

/-- `tc_rsa_oaep_decode`. -/
def oaepDecode (options : OaepOptions) (input : Bytes) (work : Nat) : Decoded :=
  let length := input.length
  match oaepPrepare hs length options.hash options.mgfHash options.label work with
  | .error result => ⟨⟨result, input, work⟩, none⟩
  | .ok work =>
    let h := options.hLen
    let first := input.getD 0 0
    let db := input.drop (h + 1)
    let seed := mgf1Xor hs options.mgfHash db ((input.drop 1).take h) work
    if seed.status ≠ .ok then ⟨{ seed with bytes := first :: seed.bytes ++ db }, none⟩
    else
      let db := mgf1Xor hs options.mgfHash seed.bytes db seed.work
      let encoded := { db with bytes := first :: seed.bytes ++ db.bytes }
      if db.status ≠ .ok then ⟨encoded, none⟩
      else
        match hs.digestParts options.hash [options.label] with
        | none => ⟨{ encoded with status := .error }, none⟩
        | some block =>
          let difference :=
            accumulate first.toUInt32 (List.zipWith (· ^^^ ·) (db.bytes.take h) block)
          let scan := @Scan.run hs ⟨0, 1, difference⟩ h (db.bytes.drop h)
          if scan.difference ||| scan.searching ≠ 0 then
            ⟨{ encoded with status := .invalid }, none⟩
          else ⟨{ encoded with status := .ok }, some (db.bytes.drop scan.start.toNat)⟩

end

namespace Rfc8017

/-- MGF1. -/
def mgf1 (hash : Bytes → Bytes) (hLen : Nat) (seed : Bytes) (maskLen : Nat) : Bytes :=
  ((List.range ((maskLen + hLen - 1) / hLen)).flatMap fun counter =>
    hash (seed ++ ofValue 4 counter)).take maskLen

def xorBytes (a b : Bytes) : Bytes := List.zipWith (· ^^^ ·) a b

end Rfc8017

open Rfc8017

@[simp] theorem xorBytes_length (a b : Bytes) : (xorBytes a b).length = min a.length b.length :=
  List.length_zipWith

theorem xor_append (a b c : Bytes) :
    xorBytes a (b ++ c) = xorBytes (a.take b.length) b ++ xorBytes (a.drop b.length) c := by
  induction b generalizing a with
  | nil => simp [xorBytes]
  | cons head rest ih =>
    cases a with
    | nil => simp [xorBytes]
    | cons first more =>
      have step := ih more
      simp only [xorBytes] at step
      simp only [xorBytes, List.cons_append, List.zipWith_cons_cons, List.length_cons,
        List.take_succ_cons, List.drop_succ_cons, step]

theorem xor_take (a b : Bytes) : xorBytes a (b.take a.length) = xorBytes a b := by
  induction a generalizing b with
  | nil => rfl
  | cons first rest ih =>
    cases b with
    | nil => rfl
    | cons head more =>
      have tail := ih more
      simp only [xorBytes] at tail
      simp only [xorBytes, List.length_cons, List.take_succ_cons, List.zipWith_cons_cons, tail]

theorem xor_xor {a b : Bytes} (enough : a.length ≤ b.length) : xorBytes (xorBytes a b) b = a :=
  Octets.zipWith_xor_xor enough

theorem xor_self_zero {a b : Bytes} (same : a.length = b.length) :
    (∀ x ∈ xorBytes a b, x = 0) ↔ a = b := by
  induction a generalizing b with
  | nil =>
    have empty : b = [] := List.length_eq_zero_iff.mp same.symm
    simp [xorBytes, empty]
  | cons first rest ih =>
    cases b with
    | nil => cases same
    | cons head more =>
      have tail := ih (Nat.succ.inj same)
      simp only [xorBytes] at tail
      simp only [xorBytes, List.zipWith_cons_cons, List.forall_mem_cons, tail, List.cons.injEq,
        UInt8.xor_eq_zero_iff]

theorem octet_eq_zero (b : UInt8) : b.toUInt32 = 0 ↔ b = 0 := by
  rw [← UInt32.toNat_inj, UInt8.toNat_toUInt32, ← UInt8.toNat_inj]
  rfl

theorem accumulate_eq_zero (difference : UInt32) (bytes : Bytes) :
    accumulate difference bytes = 0 ↔ difference = 0 ∧ ∀ b ∈ bytes, b = 0 := by
  induction bytes generalizing difference with
  | nil => simp [accumulate]
  | cons b rest ih =>
    have step := ih (difference ||| b.toUInt32)
    simp only [accumulate] at step
    simp only [accumulate, List.foldl_cons, step, UInt32.or_eq_zero_iff, octet_eq_zero,
      List.forall_mem_cons, and_assoc]

theorem accumulate_xor (difference : UInt32) {a b : Bytes} (same : a.length = b.length) :
    accumulate difference (List.zipWith (· ^^^ ·) a b) = 0 ↔ difference = 0 ∧ a = b := by
  rw [accumulate_eq_zero]
  exact and_congr_right fun _ => xor_self_zero same

variable {hs : Hashes} {hash : Hash.Algorithm}

/-- The hash of RFC 8017. -/
def Hashes.standard (hs : Hashes) (hash : Hash.Algorithm) (message : Bytes) : Bytes :=
  (hs.info hash).standardDigest message

theorem standard_length (message : Bytes) :
    (hs.standard hash message).length = hash.digestLength := by
  rw [Hashes.standard, ← Hash.digest_eq_standard, Hash.Info.digest_length]
  rfl

theorem digestLength_pos (hash : Hash.Algorithm) : 0 < hash.digestLength := by
  cases hash <;> decide

theorem info_wide (hs : Hashes) (hash : Hash.Algorithm) :
    2 ^ 32 ≤ (hs.info hash).maxMessageBytes := by
  change 2 ^ 32 ≤ Hash.Core.maxMessageBytes (.sha hash)
  cases hash <;> decide

theorem digestParts_short (available : hs.available hash = true) {parts : List Bytes}
    (short : parts.flatten.length ≤ 2 ^ 32) :
    hs.digestParts hash parts = some (hs.standard hash parts.flatten) := by
  have wide := info_wide hs hash
  rw [Hashes.digestParts, if_pos available, Hash.digestParts_eq (by omega),
    Hash.digest_eq_standard, Hashes.standard]

def Hashes.mask (hs : Hashes) (hash : Hash.Algorithm) : Bytes → Nat → Bytes :=
  mgf1 (hs.standard hash) hash.digestLength

theorem maskBlocks_eq (hash : Hash.Algorithm) (length : Nat) :
    maskBlocks hash length = (length + hash.digestLength - 1) / hash.digestLength := by
  have pos := digestLength_pos hash
  have last : (hash.digestLength - 1) / hash.digestLength = 0 := Nat.div_eq_of_lt (by omega)
  have rest : (hash.digestLength - 1) % hash.digestLength = hash.digestLength - 1 :=
    Nat.mod_eq_of_lt (by omega)
  rw [maskBlocks, Nat.add_sub_assoc pos, Nat.add_div pos, last, rest]
  by_cases full : length % hash.digestLength = 0
  · rw [if_neg (not_not.mpr full), if_neg (by omega)]
  · rw [if_pos full, if_pos (by omega)]

theorem maskBlocks_covers (hash : Hash.Algorithm) (length : Nat) :
    length ≤ maskBlocks hash length * hash.digestLength := by
  have pos := digestLength_pos hash
  have split := Nat.div_add_mod length hash.digestLength
  have small := Nat.mod_lt length pos
  rw [maskBlocks, Nat.add_mul, Nat.mul_comm]
  split <;> omega

def Hashes.blocks (hs : Hashes) (hash : Hash.Algorithm) (seed : Bytes) (i passes : Nat) : Bytes :=
  (List.range passes).flatMap fun k => hs.standard hash (seed ++ ofValue 4 (i + k))

theorem blocks_length (seed : Bytes) (i passes : Nat) :
    (hs.blocks hash seed i passes).length = passes * hash.digestLength := by
  rw [Hashes.blocks, List.length_flatMap]
  simp only [standard_length, List.map_const', List.length_range, List.sum_replicate_nat]

theorem blocks_succ (seed : Bytes) (i passes : Nat) : hs.blocks hash seed i (passes + 1) =
      hs.standard hash (seed ++ ofValue 4 i) ++ hs.blocks hash seed (i + 1) passes := by
  rw [Hashes.blocks, List.range_succ_eq_map, List.flatMap_cons, List.flatMap_map]
  simp only [Hashes.blocks, Nat.add_zero, Nat.succ_eq_add_one, ← Nat.add_assoc,
    Nat.add_right_comm i]

theorem mask_length (seed : Bytes) (length : Nat) : (hs.mask hash seed length).length = length := by
  have blocks := @blocks_length hs hash seed 0 (maskBlocks hash length)
  have covers := maskBlocks_covers hash length
  simp only [Hashes.blocks, Nat.zero_add, maskBlocks_eq] at blocks covers
  rw [Hashes.mask, mgf1, List.length_take, blocks]
  omega

theorem mgf1Loop_eq (available : hs.available hash = true) {seed : Bytes}
    (short : seed.length + 4 ≤ 2 ^ 32) (passes i : Nat) {output : Bytes}
    (enough : output.length ≤ passes * hash.digestLength) :
    mgf1Loop hs hash seed passes i output = (.ok, xorBytes output (hs.blocks hash seed i passes)) := by
  induction passes generalizing i output with
  | zero =>
    have empty : output = [] := List.length_eq_zero_iff.mp (by omega)
    simp [mgf1Loop, empty, xorBytes]
  | succ passes ih =>
    have hashed := @digestParts_short hs hash available [seed, ofValue 4 i] (by simpa using short)
    have left : (output.drop hash.digestLength).length ≤ passes * hash.digestLength := by
      rw [Nat.add_mul] at enough
      rw [List.length_drop]
      omega
    have block : [seed, ofValue 4 i].flatten = seed ++ ofValue 4 i := by simp
    rw [mgf1Loop, hashed, block, blocks_succ, xor_append, standard_length]
    simp only
    rw [← List.take_eq_take_min, ← List.drop_eq_drop_min, ih (i + 1) left]
    rfl

theorem mgf1Cost_ok {seedLength length cost : Nat}
    (given : mgf1Cost hs hash seedLength length = .ok cost) : hs.available hash = true ∧
      cost = if length = 0 then 0 else length + maskBlocks hash length * (seedLength + 5) := by
  have pos := digestLength_pos hash
  have covers := maskBlocks_covers hash length
  unfold mgf1Cost at given
  split at given
  · cases given
  · rename_i known
    have available : hs.available hash = true := by simpa using known
    refine ⟨available, ?_⟩
    dsimp only at given
    split at given
    · rename_i none
      cases given
      rw [none] at covers
      rw [if_pos (by omega)]
    · rename_i some
      have filled : length ≠ 0 := by
        intro empty
        exact some (by rw [maskBlocks, empty]; simp)
      repeat (split at given; · cases given)
      cases given
      rw [if_neg filled]

theorem mgf1Xor_eq {seed output : Bytes} {cost work : Nat}
    (given : mgf1Cost hs hash seed.length output.length = .ok cost) (funded : cost ≤ work)
    (bounded : work < 2 ^ 32) : mgf1Xor hs hash seed output work =
      ⟨.ok, xorBytes output (hs.mask hash seed output.length), work - cost⟩ := by
  have covers := maskBlocks_covers hash output.length
  obtain ⟨available, paid⟩ := mgf1Cost_ok given
  rw [mgf1Xor, given]
  by_cases empty : output.length = 0
  · rw [if_pos empty] at paid
    have none : output = [] := List.length_eq_zero_iff.mp empty
    simp [paid, none, xorBytes]
  · rw [if_neg empty] at paid
    have some : 0 < maskBlocks hash output.length := by
      by_contra zero
      rw [Nat.eq_zero_of_not_pos zero] at covers
      omega
    have more := Nat.le_mul_of_pos_left (seed.length + 5) some
    have looped := @mgf1Loop_eq hs hash available seed (by omega) _ 0 _ covers
    have stream : xorBytes output (hs.blocks hash seed 0 (maskBlocks hash output.length)) =
        xorBytes output (hs.mask hash seed output.length) := by
      rw [Hashes.mask, mgf1, xor_take, Hashes.blocks, maskBlocks_eq]
      simp only [Nat.zero_add]
    simp only [looped, stream]
    rw [if_neg (by omega), if_neg (by omega)]

/-- A build with SHA-1 alone. -/
def sampleHashes : Hashes where
  sizeBits := 64
  available := fun hash => hash = .sha1
  compression
    | .sha1 => Hash.sha1
    | hash => ⟨[], fun state _ => state, fun _ => List.replicate hash.digestLength 0,
        fun _ => List.length_replicate⟩

end TinyCrypto.Rsa
