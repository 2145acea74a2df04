import TinyCrypto.Common.Bytes
import TinyCrypto.Library.Blocks
import TinyCrypto.Library.ByteCounter

/-! # Streaming hashes

`hash_core.c` and `hash_stream_internal.h`: one implementation of buffering,
length counting and padding for every hash, over the compression function of a
descriptor. A message gives the same digest however it is cut.
-/

namespace TinyCrypto.Hash

open Library

/-- `TC_hash_algorithm`, without the unknown one. -/
inductive Algorithm where
  | sha1
  | sha224
  | sha256
  | sha384
  | sha512
  deriving DecidableEq

/-- The digest length of `tc_hash_info_get`. -/
def Algorithm.digestLength : Algorithm → Nat
  | .sha1 => 20
  | .sha224 => 28
  | .sha256 => 32
  | .sha384 => 48
  | .sha512 => 64

/-- `tc_hash_algorithm_info`. The core treats the chaining state as opaque bytes. -/
structure Info where
  blockBytes : Nat
  lengthBytes : Nat
  digestBytes : Nat
  littleEndian : Bool
  maxMessageBytes : Nat
  stateInit : Bytes
  compress : Bytes → Bytes → Bytes
  digestOut : Bytes → Bytes
  room : lengthBytes < blockBytes
  digestSize : ∀ state, (digestOut state).length = digestBytes

/-- A live context. `buffer` holds the `used` bytes of a block that is not full. -/
structure View where
  state : Bytes
  count : Nat
  buffer : Bytes
  deriving DecidableEq

namespace Info

variable (info : Info)

/-- `view_start`. -/
def start : View := ⟨info.stateInit, 0, []⟩

/-- `tc_hash_stream_absorb`. -/
def streamAbsorb (state buffer data : Bytes) : Bytes × Bytes :=
  let (state, buffer, data) :=
    if buffer ≠ [] && data ≠ [] then
      let available := info.blockBytes - buffer.length
      let taken := if data.length < available then data.length else available
      let filled := buffer ++ data.take taken
      if filled.length = info.blockBytes then
        (info.compress state filled, [], data.drop taken)
      else (state, filled, data.drop taken)
    else (state, buffer, data)
  let (state, data) := Blocks.fold info.blockBytes info.compress state data
  (state, if data = [] then buffer else data)

/-- `view_absorb`, or none for TC_ERROR. -/
def absorb (view : View) (data : Bytes) : Option View := if data = [] then some view
  else if view.count > info.maxMessageBytes || data.length > info.maxMessageBytes - view.count then none
  else
    let (state, buffer) := info.streamAbsorb view.state view.buffer data
    some ⟨state, view.count + data.length, buffer⟩

def lengthField (count : Nat) : Bytes :=
  let octets := (List.range info.lengthBytes).map fun i =>
    UInt8.ofNat (if i < 8 then count * 8 % 2 ^ 64 / 2 ^ (8 * i) else count / 2 ^ 61 / 2 ^ (8 * (i - 8)))
  if info.littleEndian then octets else octets.reverse

/-- `tc_hash_stream_finish`. -/
def streamFinish (state : Bytes) (count : Nat) (buffer : Bytes) : Bytes :=
  let offset := info.blockBytes - info.lengthBytes
  let buffer := buffer ++ [0x80]
  let (state, buffer) := if buffer.length > offset then
      (info.compress state (buffer ++ List.replicate (info.blockBytes - buffer.length) 0), [])
    else (state, buffer)
  info.compress state
    (buffer ++ List.replicate (offset - buffer.length) 0 ++ info.lengthField count)

/-- `view_finish`. -/
def finish (view : View) : Bytes :=
  info.digestOut (info.streamFinish view.state view.count view.buffer)

/-- `tc_hash_digest_parts`, or none for TC_ERROR. -/
def digestParts (parts : List Bytes) : Option Bytes :=
  (parts.foldlM info.absorb info.start).map info.finish

def digest (message : Bytes) : Bytes :=
  let (state, buffer) := Blocks.fold info.blockBytes info.compress info.stateInit message
  info.finish ⟨state, message.length, buffer⟩

end Info

section

variable {info : Info}

theorem Info.block_pos : 0 < info.blockBytes := Nat.lt_of_le_of_lt (Nat.zero_le _) info.room

theorem Info.digest_length (message : Bytes) : (info.digest message).length = info.digestBytes :=
  info.digestSize _

theorem streamAbsorb_fold {state buffer data : Bytes} (short : buffer.length < info.blockBytes) :
    info.streamAbsorb state buffer data =
      Blocks.fold info.blockBytes info.compress state (buffer ++ data) := by
  by_cases fresh : buffer = []
  · subst fresh
    rw [Info.streamAbsorb, List.nil_append]
    simp only [ne_eq, not_true_eq_false, decide_false, Bool.false_and, Bool.false_eq_true, if_false]
    refine Prod.ext rfl ?_
    by_cases empty : (Blocks.fold info.blockBytes info.compress state data).2 = []
    · simp [empty]
    · simp [empty]
  · by_cases none : data = []
    · subst none
      rw [Info.streamAbsorb, List.append_nil, Blocks.fold_short short]
      simp [Blocks.fold, Blocks.take]
    · rw [Info.streamAbsorb]
      simp only [ne_eq, fresh, not_false_eq_true, decide_true, none, Bool.and_self, if_true]
      by_cases less : data.length < info.blockBytes - buffer.length
      · have size : (buffer ++ data).length < info.blockBytes := by
          rw [List.length_append]
          omega
        have partly : (buffer ++ data).length ≠ info.blockBytes := by omega
        rw [if_pos less, List.take_length, List.drop_length, if_neg partly, Blocks.fold_short size]
        simp [Blocks.fold, Blocks.take]
      · have taken : (data.take (info.blockBytes - buffer.length)).length =
            info.blockBytes - buffer.length := by
          rw [List.length_take]
          omega
        have full : (buffer ++ data.take (info.blockBytes - buffer.length)).length =
            info.blockBytes := by
          rw [List.length_append, taken]
          omega
        have cut : buffer ++ data = (buffer ++ data.take (info.blockBytes - buffer.length)) ++
            data.drop (info.blockBytes - buffer.length) := by
          rw [List.append_assoc, List.take_append_drop]
        rw [if_neg less, if_pos full, cut, Blocks.fold_append info.block_pos,
          Blocks.fold_full info.block_pos full]
        refine Prod.ext rfl ?_
        simp only [List.nil_append]
        split
        · rename_i empty
          exact empty.symm
        · rfl

/-- The context absorbed `message`. -/
structure Info.Absorbed (info : Info) (view : View) (message : Bytes) : Prop where
  folded : (view.state, view.buffer) =
    Blocks.fold info.blockBytes info.compress info.stateInit message
  counted : view.count = message.length

theorem Info.start_absorbed : info.Absorbed info.start [] := ⟨rfl, rfl⟩

variable {view view' : View} {message data : Bytes}

section

variable (absorbed : info.Absorbed view message)

include absorbed

theorem Info.Absorbed.short : view.buffer.length < info.blockBytes := by
  have rest := @Blocks.fold_rest_length Bytes UInt8 info.blockBytes info.compress info.block_pos
    info.stateInit message
  rw [← absorbed.folded] at rest
  rw [rest]
  exact Nat.mod_lt _ info.block_pos

theorem Info.Absorbed.finish : info.finish view = info.digest message := by
  rw [Info.digest, ← absorbed.folded, ← absorbed.counted]

theorem Info.Absorbed.fits (fits : (message ++ data).length ≤ info.maxMessageBytes) :
    ∃ after, info.absorb view data = some after ∧ info.Absorbed after (message ++ data) := by
  by_cases empty : data = []
  · subst empty
    refine ⟨view, by simp [Info.absorb], ?_⟩
    rwa [List.append_nil]
  · rw [List.length_append, ← absorbed.counted] at fits
    have within : ¬ (view.count > info.maxMessageBytes ∨
        data.length > info.maxMessageBytes - view.count) := by omega
    refine ⟨⟨(info.streamAbsorb view.state view.buffer data).1, view.count + data.length,
      (info.streamAbsorb view.state view.buffer data).2⟩, ?_, ?_, ?_⟩
    · rw [Info.absorb, if_neg empty, if_neg (by simpa using within)]
    · change info.streamAbsorb view.state view.buffer data = _
      rw [streamAbsorb_fold absorbed.short]
      have stream := @Blocks.fold_append Bytes UInt8 info.blockBytes info.compress info.block_pos
        info.stateInit message data
      rw [← absorbed.folded] at stream
      exact stream.symm
    · rw [List.length_append, absorbed.counted]

theorem Info.Absorbed.long (filled : data ≠ [])
    (long : info.maxMessageBytes < (message ++ data).length) : info.absorb view data = none := by
  have some_data : data.length ≠ 0 := by simpa using filled
  rw [List.length_append, ← absorbed.counted] at long
  have beyond : view.count > info.maxMessageBytes ∨
      data.length > info.maxMessageBytes - view.count := by omega
  rw [Info.absorb, if_neg filled, if_pos (by simpa using beyond)]

theorem Info.Absorbed.next {after : View}
    (step : info.absorb view data = some after) : info.Absorbed after (message ++ data) := by
  by_cases empty : data = []
  · subst empty
    simp only [Info.absorb, if_true, Option.some.injEq] at step
    rw [← step, List.append_nil]
    exact absorbed
  · by_cases fits : (message ++ data).length ≤ info.maxMessageBytes
    · obtain ⟨reached, same, ends⟩ := absorbed.fits fits
      rw [step, Option.some.injEq] at same
      rwa [same]
    · rw [absorbed.long empty (by omega)] at step
      cases step

end

variable {parts : List Bytes}

theorem absorbParts_some (absorbed : info.Absorbed view message) {after : View}
    (steps : parts.foldlM info.absorb view = some after) :
    info.Absorbed after (message ++ parts.flatten) := by
  induction parts generalizing view message with
  | nil =>
    simp only [List.foldlM_nil, Option.pure_def, Option.some.injEq] at steps
    simpa [steps] using absorbed
  | cons part rest ih =>
    rw [List.foldlM_cons] at steps
    obtain ⟨middle, step, later⟩ := Option.bind_eq_some_iff.mp steps
    have reached := ih (absorbed.next step) later
    simpa using reached

theorem absorbParts_fits (absorbed : info.Absorbed view message)
    (fits : (message ++ parts.flatten).length ≤ info.maxMessageBytes) :
    ∃ after, parts.foldlM info.absorb view = some after ∧
      info.Absorbed after (message ++ parts.flatten) := by
  induction parts generalizing view message with
  | nil => exact ⟨view, rfl, by simpa using absorbed⟩
  | cons part rest ih =>
    have joined : message ++ (part :: rest).flatten = message ++ part ++ rest.flatten := by simp
    rw [joined] at fits ⊢
    have here : (message ++ part).length ≤ info.maxMessageBytes := by
      rw [List.length_append] at fits
      omega
    obtain ⟨middle, step, reached⟩ := absorbed.fits here
    obtain ⟨after, steps, ends⟩ := ih reached fits
    refine ⟨after, ?_, ends⟩
    rw [List.foldlM_cons, step]
    exact steps

theorem digestParts_eq (fits : parts.flatten.length ≤ info.maxMessageBytes) :
    info.digestParts parts = some (info.digest parts.flatten) := by
  obtain ⟨after, steps, absorbed⟩ := absorbParts_fits info.start_absorbed fits
  rw [Info.digestParts, steps, Option.map_some, absorbed.finish]
  rfl

theorem digestParts_some {digest : Bytes} (given : info.digestParts parts = some digest) :
    digest = info.digest parts.flatten := by
  obtain ⟨after, steps, finished⟩ := Option.map_eq_some_iff.mp given
  have absorbed := absorbParts_some info.start_absorbed steps
  rw [← finished, absorbed.finish]
  rfl

end

inductive Core where
  | md5
  | sha (algorithm : Algorithm)
  deriving DecidableEq

namespace Core

def blockBytes : Core → Nat
  | .md5 | .sha .sha1 | .sha .sha224 | .sha .sha256 => 64
  | .sha .sha384 | .sha .sha512 => 128

def lengthBytes : Core → Nat
  | .md5 | .sha .sha1 | .sha .sha224 | .sha .sha256 => 8
  | .sha .sha384 | .sha .sha512 => 16

def digestBytes : Core → Nat
  | .md5 => 16
  | .sha algorithm => algorithm.digestLength

/-- `SHA_MAX_MESSAGE_BYTES`, `SHA512_MAX_MESSAGE_BYTES` and the limit of MD5. -/
def maxMessageBytes : Core → Nat
  | .sha .sha1 | .sha .sha224 | .sha .sha256 => (2 ^ 64 - 1) / 2 ^ 3
  | .md5 | .sha .sha384 | .sha .sha512 => 2 ^ 64 - 1

structure Compression (hash : Core) where
  stateInit : Bytes
  compress : Bytes → Bytes → Bytes
  digestOut : Bytes → Bytes
  digestSize : ∀ state, (digestOut state).length = hash.digestBytes

/-- The descriptors `tc_md5_info`, `tc_sha1_info`, …. -/
def info (hash : Core) (c : Compression hash) : Info where
  blockBytes := hash.blockBytes
  lengthBytes := hash.lengthBytes
  digestBytes := hash.digestBytes
  littleEndian := hash = .md5
  maxMessageBytes := hash.maxMessageBytes
  stateInit := c.stateInit
  compress := c.compress
  digestOut := c.digestOut
  room := by
    cases hash with
    | md5 => decide
    | sha algorithm => cases algorithm <;> decide
  digestSize := c.digestSize

end Core

structure Context where
  view : View
  active : Bool
  deriving DecidableEq

namespace Info

variable (info : Info)

/-- `tc_hash_core_init`. -/
def coreInit : Context := ⟨info.start, true⟩

/-- `view_is_live`. -/
def viewIsLive (ctx : Context) : Bool := ctx.active && ctx.view.buffer.length < info.blockBytes

/-- `tc_hash_core_update`: whether it returned TC_OK, and the context. -/
def coreUpdate (ctx : Context) (data : Bytes) : Bool × Context :=
  if !info.viewIsLive ctx then (false, ctx)
  else
    match info.absorb ctx.view data with
    | none => (false, ctx)
    | some view => (true, { ctx with view })

/-- `tc_hash_core_final`: the digest, and the wiped context. -/
def coreFinal (ctx : Context) : Option Bytes × Context := if !info.viewIsLive ctx then (none, ctx)
  else (some (info.finish ctx.view), ⟨⟨List.replicate ctx.view.state.length 0, 0, []⟩, false⟩)

def coreUpdates : Context → List Bytes → Context × List Bytes
  | ctx, [] => (ctx, [])
  | ctx, data :: rest =>
    let (accepted, ctx) := info.coreUpdate ctx data
    let (ctx, taken) := coreUpdates ctx rest
    (ctx, if accepted then data :: taken else taken)

def bitLength (message : Bytes) : Bytes :=
  let field := ByteCounter.ofValue info.lengthBytes (8 * message.length)
  if info.littleEndian then field.reverse else field

/-- The zeros that bring `n` bytes, the marker and the length field to whole blocks. -/
def zeros (n : Nat) : Nat :=
  (info.blockBytes - (n + 1 + info.lengthBytes) % info.blockBytes) % info.blockBytes

def padded (message : Bytes) : Bytes :=
  message ++ 0x80 :: List.replicate (info.zeros message.length) 0 ++ info.bitLength message

def standardDigest (message : Bytes) : Bytes := info.digestOut
    ((Blocks.pieces info.blockBytes (info.padded message)).foldl info.compress info.stateInit)

end Info

variable {info : Info}

theorem lengthField_eq (message : Bytes) :
    info.lengthField message.length = info.bitLength message := by
  have octets : ∀ i, UInt8.ofNat
      (if i < 8 then message.length * 8 % 2 ^ 64 / 2 ^ (8 * i)
        else message.length / 2 ^ 61 / 2 ^ (8 * (i - 8))) =
      UInt8.ofNat (8 * message.length / 256 ^ i) := by
    intro i
    have base : (256 : Nat) ^ i = 2 ^ (8 * i) := by rw [Nat.pow_mul]
    rw [base]
    split
    · rename_i low
      have split : (2 : Nat) ^ 64 = 2 ^ (8 * i) * 2 ^ (64 - 8 * i) := by
        rw [← Nat.pow_add]
        congr 1
        omega
      have whole : 2 ^ 8 ∣ 2 ^ (64 - 8 * i) := Nat.pow_dvd_pow 2 (by omega)
      apply UInt8.toNat_inj.mp
      rw [UInt8.toNat_ofNat', UInt8.toNat_ofNat', split, Nat.mod_mul_right_div_self,
        Nat.mod_mod_of_dvd _ whole, Nat.mul_comm]
    · rename_i high
      have split : (2 : Nat) ^ (8 * i) = 8 * (2 ^ 61 * 2 ^ (8 * (i - 8))) := by
        rw [← Nat.pow_add, show (8 : Nat) = 2 ^ 3 by decide, ← Nat.pow_add]
        congr 1
        omega
      rw [split, Nat.mul_div_mul_left _ _ (by decide), Nat.div_div_eq_div_mul]
  have field : (List.range info.lengthBytes).map (fun i => UInt8.ofNat
      (if i < 8 then message.length * 8 % 2 ^ 64 / 2 ^ (8 * i)
        else message.length / 2 ^ 61 / 2 ^ (8 * (i - 8)))) =
      (ByteCounter.ofValue info.lengthBytes (8 * message.length)).reverse := by
    rw [ByteCounter.ofValue_reverse]
    exact List.map_congr_left fun i _ => octets i
  rw [Info.lengthField, Info.bitLength, field]
  cases info.littleEndian <;> simp

theorem bitLength_length (message : Bytes) :
    (info.bitLength message).length = info.lengthBytes := by
  rw [Info.bitLength]
  split <;> simp

theorem streamFinish_fold {state buffer field : Bytes} {n count : Nat}
    (rest : buffer.length = n % info.blockBytes) (width : field.length = info.lengthBytes)
    (same : info.lengthField count = field) : Blocks.fold info.blockBytes info.compress state
        (buffer ++ 0x80 :: List.replicate (info.zeros n) 0 ++ field) =
      (info.streamFinish state count buffer, []) := by
  have room := info.room
  have short : buffer.length < info.blockBytes := by
    rw [rest]
    exact Nat.mod_lt _ info.block_pos
  have part : (n + 1 + info.lengthBytes) % info.blockBytes =
      (buffer.length + 1 + info.lengthBytes) % info.blockBytes := by
    rw [rest, Nat.add_assoc, Nat.add_assoc, Nat.mod_add_mod]
  rw [Info.streamFinish, same]
  simp only [List.length_append, List.length_singleton]
  by_cases full : buffer.length + 1 > info.blockBytes - info.lengthBytes
  · have beyond : (buffer.length + 1 + info.lengthBytes) % info.blockBytes =
        buffer.length + 1 + info.lengthBytes - info.blockBytes := by
      rw [Nat.mod_eq_sub_mod (by omega), Nat.mod_eq_of_lt (by omega)]
    have many : info.zeros n = (info.blockBytes - (buffer.length + 1)) +
        (info.blockBytes - info.lengthBytes) := by
      rw [Info.zeros, part, beyond, Nat.mod_eq_of_lt (by omega)]
      omega
    have cut : buffer ++ 0x80 :: List.replicate (info.zeros n) 0 ++ field =
        (buffer ++ [0x80] ++ List.replicate (info.blockBytes - (buffer.length + 1)) 0) ++
          (List.replicate (info.blockBytes - info.lengthBytes) 0 ++ field) := by
      rw [many, List.replicate_add]
      simp only [List.append_assoc, List.cons_append, List.nil_append]
    have first : (buffer ++ [0x80] ++
        List.replicate (info.blockBytes - (buffer.length + 1)) (0 : UInt8)).length =
        info.blockBytes := by
      simp only [List.length_append, List.length_singleton, List.length_replicate]
      omega
    have second : (List.replicate (info.blockBytes - info.lengthBytes) 0 ++ field).length =
        info.blockBytes := by
      simp only [List.length_append, List.length_replicate, width]
      omega
    rw [cut, Blocks.fold_append info.block_pos, Blocks.fold_full info.block_pos first,
      List.nil_append, Blocks.fold_full info.block_pos second, if_pos full]
    rfl
  · have few : info.zeros n = info.blockBytes - info.lengthBytes - (buffer.length + 1) := by
      rw [Info.zeros, part]
      by_cases full : buffer.length + 1 + info.lengthBytes = info.blockBytes
      · rw [full, Nat.mod_self, Nat.sub_zero, Nat.mod_self]
        omega
      · have below : buffer.length + 1 + info.lengthBytes < info.blockBytes := by omega
        rw [Nat.mod_eq_of_lt below, Nat.mod_eq_of_lt (by omega)]
        omega
    have whole : (buffer ++ 0x80 :: List.replicate (info.zeros n) 0 ++ field).length =
        info.blockBytes := by
      simp only [List.length_append, List.length_cons, List.length_replicate, width]
      omega
    rw [Blocks.fold_full info.block_pos whole, if_neg full, few]
    simp

theorem digest_eq_standard (message : Bytes) :
    info.digest message = info.standardDigest message := by
  have stream := @Blocks.fold_append Bytes UInt8 info.blockBytes info.compress info.block_pos
    info.stateInit message
    (0x80 :: List.replicate (info.zeros message.length) 0 ++ info.bitLength message)
  have rest := @Blocks.fold_rest_length Bytes UInt8 info.blockBytes info.compress info.block_pos
    info.stateInit message
  have ends := @streamFinish_fold info
    (Blocks.fold info.blockBytes info.compress info.stateInit message).1 _ _ message.length
    message.length rest (bitLength_length message) (lengthField_eq message)
  rw [← List.append_assoc, ← List.append_assoc, ends] at stream
  have folded := @Blocks.fold_eq_foldl Bytes UInt8 info.blockBytes info.compress info.block_pos
    info.stateInit (info.padded message)
  rw [Info.padded, stream] at folded
  rw [Info.standardDigest, Info.padded, ← folded]
  rfl

variable {ctx : Context} {message : Bytes}

/-- A live context that absorbed a message within the limit. -/
structure Info.Holds (info : Info) (ctx : Context) (message : Bytes) : Prop where
  active : ctx.active = true
  absorbed : info.Absorbed ctx.view message
  within : message.length ≤ info.maxMessageBytes

theorem Info.Holds.live (holds : info.Holds ctx message) : info.viewIsLive ctx = true := by
  simp [Info.viewIsLive, holds.active, holds.absorbed.short]

theorem Info.Holds.update (holds : info.Holds ctx message) (data : Bytes) :
    ((info.coreUpdate ctx data).1 = true ∧ (message ++ data).length ≤ info.maxMessageBytes ∧
        info.Holds (info.coreUpdate ctx data).2 (message ++ data)) ∨
      (info.coreUpdate ctx data = (false, ctx) ∧
        info.maxMessageBytes < (message ++ data).length) := by
  rw [Info.coreUpdate, holds.live]
  simp only [Bool.not_true, Bool.false_eq_true, if_false]
  by_cases fits : (message ++ data).length ≤ info.maxMessageBytes
  · obtain ⟨view, accepted, absorbed⟩ := holds.absorbed.fits fits
    rw [accepted]
    exact .inl ⟨rfl, fits, holds.active, absorbed, fits⟩
  · have filled : data ≠ [] := by
      rintro rfl
      rw [List.append_nil] at fits
      exact fits holds.within
    rw [holds.absorbed.long filled (by omega)]
    exact .inr ⟨rfl, by omega⟩

theorem Info.Holds.updates (holds : info.Holds ctx message) (chunks : List Bytes) :
    info.Holds (info.coreUpdates ctx chunks).1
        (message ++ (info.coreUpdates ctx chunks).2.flatten) ∧
      ((message ++ chunks.flatten).length ≤ info.maxMessageBytes →
        (info.coreUpdates ctx chunks).2 = chunks) := by
  induction chunks generalizing ctx message with
  | nil => exact ⟨by simpa [Info.coreUpdates] using holds, fun _ => rfl⟩
  | cons data rest ih =>
    simp only [Info.coreUpdates, List.flatten_cons]
    rcases holds.update data with ⟨accepted, -, later⟩ | ⟨refused, long⟩
    · obtain ⟨after, all⟩ := ih later
      rw [accepted]
      simp only [if_true, List.flatten_cons]
      rw [← List.append_assoc]
      refine ⟨after, fun fits => ?_⟩
      rw [← List.append_assoc] at fits
      rw [all fits]
    · obtain ⟨after, -⟩ := ih holds
      rw [refused]
      simp only [Bool.false_eq_true, if_false]
      refine ⟨after, fun fits => ?_⟩
      simp only [List.length_append] at fits long
      omega

theorem Info.coreInit_holds : info.Holds info.coreInit [] :=
  ⟨rfl, info.start_absorbed, Nat.zero_le _⟩

/-- Every hash of the table gives the digest of the padded message, however the
    message is cut; an update beyond the limit is refused and changes nothing. -/
theorem hash_streaming (hash : Core) (c : Core.Compression hash) (chunks : List Bytes) :
    let info := hash.info c
    let ctx := (info.coreUpdates info.coreInit chunks).1
    let taken := (info.coreUpdates info.coreInit chunks).2
    (info.coreFinal ctx).1 = some (info.standardDigest taken.flatten) ∧
      (chunks.flatten.length ≤ hash.maxMessageBytes → taken = chunks) ∧
      (hash ≠ .md5 → 8 * taken.flatten.length < 256 ^ hash.lengthBytes) ∧
      ∀ data : Bytes, ((info.coreUpdate ctx data).1 = false ↔
          hash.maxMessageBytes < taken.flatten.length + data.length) ∧
        ((info.coreUpdate ctx data).1 = false → (info.coreUpdate ctx data).2 = ctx) := by
  intro info ctx taken
  obtain ⟨holds, all⟩ := info.coreInit_holds.updates chunks
  rw [List.nil_append] at holds all
  have limit : info.maxMessageBytes = hash.maxMessageBytes := rfl
  refine ⟨?_, all, ?_, ?_⟩
  · rw [Info.coreFinal, holds.live, ← digest_eq_standard, ← holds.absorbed.finish]
    rfl
  · intro other
    have within : taken.flatten.length ≤ hash.maxMessageBytes := holds.within
    cases hash with
    | md5 => exact absurd rfl other
    | sha algorithm =>
      cases algorithm <;> simp only [Core.maxMessageBytes, Core.lengthBytes] at within ⊢ <;> omega
  · intro data
    rw [← limit, ← List.length_append]
    rcases holds.update data with ⟨accepted, fits, -⟩ | ⟨refused, long⟩
    · rw [accepted]
      exact ⟨iff_of_false (by simp) (Nat.not_lt.mpr fits), fun refused => (nomatch refused)⟩
    · rw [refused]
      exact ⟨iff_of_true rfl long, fun _ => rfl⟩

namespace Sha1

/-- `ROTL32`. -/
def rotl (x n : UInt32) : UInt32 := x <<< n ||| x >>> (32 - n)

/-- A block, or a state, by its big-endian words. -/
def words (bytes : Bytes) : List UInt32 := (List.range (bytes.length / 4)).map fun i =>
  UInt32.ofNat (ByteCounter.value ((bytes.drop (4 * i)).take 4))

def octets (words : List UInt32) : Bytes := words.flatMap fun w => ByteCounter.ofValue 4 w.toNat

/-- Round `t` of `sha1_compress`, on `W` and the five variables. -/
def round : List UInt32 × List UInt32 → Nat → List UInt32 × List UInt32
  | (w, [a, b, c, d, e]), t =>
    let word (i : Nat) := w.getD (i % 16) 0
    let w := if t < 16 then w
      else w.set (t % 16) (rotl (word (t - 3) ^^^ word (t - 8) ^^^ word (t - 14) ^^^ word t) 1)
    let (f, k) :=
      if t < 20 then (d ^^^ (b &&& (c ^^^ d)), 0x5a827999)
      else if t < 40 then (b ^^^ c ^^^ d, 0x6ed9eba1)
      else if t < 60 then (b &&& c ||| d &&& (b ^^^ c), 0x8f1bbcdc)
      else (b ^^^ c ^^^ d, 0xca62c1d6)
    (w, [rotl a 5 + f + e + k + w.getD (t % 16) 0, a, rotl b 30, c, d])
  | rounds, _ => rounds

/-- `sha1_compress`. -/
def compress (state block : Bytes) : Bytes :=
  octets (List.zipWith (· + ·) (words state) ((List.range 80).foldl round (words block, words state)).2)

end Sha1

/-- The functions of `tc_sha1_info`. -/
def sha1 : Core.Compression (.sha .sha1) where
  stateInit := Sha1.octets [0x67452301, 0xefcdab89, 0x98badcfe, 0x10325476, 0xc3d2e1f0]
  compress := Sha1.compress
  digestOut state := (List.range 20).map fun i => state.getD i 0
  digestSize _ := by simp [Core.digestBytes, Algorithm.digestLength]

example : ((Core.sha .sha1).info sha1).digest [0x61, 0x62, 0x63] =
    [0xa9, 0x99, 0x3e, 0x36, 0x47, 0x06, 0x81, 0x6a, 0xba, 0x3e, 0x25, 0x71, 0x78, 0x50, 0xc2, 0x6c, 0x9c,
      0xd0, 0xd8, 0x9d] := by
  decide +kernel

end TinyCrypto.Hash
