import TinyCrypto.Aes.Rounds

/-! # AES CTR

`TC_AES_set_iv` and `TC_AES_CTR_crypt` over the shared core of `block_modes.c`.
`word` is the width of `size_t` in bytes. Checks of pointers and overlaps are left
out.
-/

namespace TinyCrypto.Aes

open Library

/-- A buffer whose capacity is a `size_t`. -/
structure Buffer (word : Nat) where
  data : Bytes
  fits : data.length < 256 ^ word

/-- The fields of `TC_AES_ctx` that CTR reads and writes. `iv` holds the counter. -/
structure CtrContext where
  key : Bytes
  active : Bool
  iv : Block
  ivLoaded : Bool
  ctrStream : Block
  ctrPos : Nat
  ctrExhausted : Bool
  deriving DecidableEq

/-- `tc_internal_counter_blocks_needed`. -/
def counterBlocksNeeded (length blockLength position : Nat) : Nat :=
  let available := if position < blockLength then blockLength - position else 0
  let uncached := if length > available then length - available else 0
  uncached / blockLength + if uncached % blockLength ≠ 0 then 1 else 0

/-- `tc_internal_counter_has_blocks`. The last loop reads at most `word` bytes, so that
    it does not overflow. -/
def counterHasBlocks (word : Nat) (counter : Bytes) (needed : Nat) (exhausted : Bool) : Bool :=
  if exhausted then needed = 0
  else if counter.length > 16 then false
  else
    let remaining := ByteCounter.negate counter
    if counter.all (· = 0) then counter.length ≥ word || needed ≤ 2 ^ (8 * counter.length)
    else
      let firstSizeByte := if counter.length > word then counter.length - word else 0
      if (remaining.take firstSizeByte).any (· ≠ 0) then true
      else
        let blocks :=
          (remaining.drop firstSizeByte).foldl (fun blocks b => blocks * 256 + b.toNat) 0
        blocks ≥ needed

namespace CtrContext

/-- `TC_AES_set_iv`. -/
def setIv (ctx : CtrContext) (iv : Bytes) : Option CtrContext :=
  if iv.length ≠ blockLen || !ctx.active then none
  else
    some
      { ctx with
        iv := Block.ofBytes iv, ivLoaded := true, ctrPos := blockLen, ctrExhausted := false }

/-- `tc_block_ctr_request_ok`. -/
def requestOk (word : Nat) (ctx : CtrContext) (length : Nat) : Bool :=
  if ctx.ctrPos > blockLen then false
  else
    length = 0 ||
      counterHasBlocks word ctx.iv.bytes (counterBlocksNeeded length blockLen ctx.ctrPos)
        ctx.ctrExhausted

/-- What a CTR call leaves: the status, the context, the buffer, and the counter
    blocks it enciphered. -/
structure Called where
  accepted : Bool
  ctx : CtrContext
  buf : Bytes
  counters : List Block

section

variable (aes : Cipher)

def refill (ctx : CtrContext) : CtrContext :=
  { ctx with
    ctrStream := aes ctx.key ctx.iv
    iv := ctx.iv.increment 0
    ctrExhausted := ctx.ctrExhausted || ByteCounter.wraps ctx.iv.bytes
    ctrPos := 0 }

/-- `tc_block_ctr_crypt`: the context, the bytes written and the counters
    enciphered. -/
def ctrCryptLoop (ctx : CtrContext) : Bytes → CtrContext × Bytes × List Block
  | [] => (ctx, [], [])
  | b :: rest =>
    let (ctx, counters) := if ctx.ctrPos = blockLen then (ctx.refill aes, [ctx.iv]) else (ctx, [])
    let written := b ^^^ ctx.ctrStream.bytes.getD ctx.ctrPos 0
    let (ctx, later, more) := ctrCryptLoop { ctx with ctrPos := ctx.ctrPos + 1 } rest
    (ctx, written :: later, counters ++ more)

/-- `TC_AES_CTR_crypt`. -/
def ctrCrypt (word : Nat) (ctx : CtrContext) (buf : Buffer word) : Called :=
  if !ctx.active || !ctx.ivLoaded || !ctx.requestOk word buf.data.length then
    { accepted := false, ctx, buf := buf.data, counters := [] }
  else
    let (ctx, written, counters) := ctx.ctrCryptLoop aes buf.data
    { accepted := true, ctx, buf := written, counters }

def ctrCalls (word : Nat) : CtrContext → List (Buffer word) → List Called
  | _, [] => []
  | ctx, buf :: rest =>
    let called := ctx.ctrCrypt aes word buf
    called :: ctrCalls word called.ctx rest

end

end CtrContext

def spaceLeft (counter : Bytes) (exhausted : Bool) : Nat :=
  if exhausted then 0 else 256 ^ counter.length - ByteCounter.value counter

theorem foldl_value (bytes : Bytes) (n : Nat) :
    bytes.foldl (fun blocks b => blocks * 256 + b.toNat) n =
      n * 256 ^ bytes.length + ByteCounter.value bytes := by
  induction bytes generalizing n with
  | nil => simp [ByteCounter.value]
  | cons b rest ih =>
    rw [List.foldl_cons, ih, ByteCounter.value_cons, List.length_cons, Nat.pow_succ]
    ring

theorem counterHasBlocks_iff {word needed : Nat} {counter : Bytes} {exhausted : Bool}
    (width : counter.length ≤ 16) (fits : needed < 256 ^ word) :
    counterHasBlocks word counter needed exhausted = true ↔
      needed ≤ spaceLeft counter exhausted := by
  rw [counterHasBlocks, spaceLeft]
  cases exhausted with
  | true => simp
  | false =>
    have narrow : ¬ counter.length > 16 := by omega
    simp only [Bool.false_eq_true, if_false, narrow]
    by_cases zero : counter.all (· = 0) = true
    · have empty : ByteCounter.value counter = 0 := by
        rw [ByteCounter.value_eq_zero_iff]
        simpa using zero
      rw [if_pos zero, empty, Nat.sub_zero, Bool.or_eq_true, decide_eq_true_iff,
        decide_eq_true_iff, Nat.pow_mul]
      constructor
      · rintro (wide | room)
        · have := Nat.pow_le_pow_right (show 0 < 256 by decide) wide
          omega
        · exact room
      · exact .inr
    · have nonzero : 0 < ByteCounter.value counter := by
        apply Nat.pos_of_ne_zero
        intro none
        apply zero
        simpa using ByteCounter.value_eq_zero_iff.mp none
      have distance := ByteCounter.value_negate nonzero
      have left : 256 ^ counter.length - ByteCounter.value counter =
          ByteCounter.value (ByteCounter.negate counter) := by omega
      rw [if_neg zero, left]
      generalize first : (if counter.length > word then counter.length - word else 0) = skip
      have parts := ByteCounter.value_append ((ByteCounter.negate counter).take skip)
        ((ByteCounter.negate counter).drop skip)
      rw [List.take_append_drop, List.length_drop, ByteCounter.negate_length] at parts
      by_cases high : ((ByteCounter.negate counter).take skip).any (· ≠ 0) = true
      · have some : 0 < ByteCounter.value ((ByteCounter.negate counter).take skip) := by
          apply Nat.pos_of_ne_zero
          intro none
          obtain ⟨b, member, different⟩ := List.any_eq_true.mp high
          have same := ByteCounter.value_eq_zero_iff.mp none b member
          simp [same] at different
        have wide : word ≤ counter.length - skip := by
          split at first
          · omega
          · subst first
            simp at high
        have top := Nat.pow_le_pow_right (show 0 < 256 by decide) wide
        have more := Nat.mul_le_mul_right (256 ^ (counter.length - skip)) some
        rw [if_pos high]
        simp only [true_iff]
        omega
      · have none : ByteCounter.value ((ByteCounter.negate counter).take skip) = 0 := by
          rw [ByteCounter.value_eq_zero_iff]
          intro b member
          by_contra different
          apply high
          rw [List.any_eq_true]
          exact ⟨b, member, by simpa using different⟩
        rw [if_neg high, foldl_value, decide_eq_true_iff, parts, none]
        simp

def counterSpace : Nat := 256 ^ blockLen

/-- The blocks that `n` bytes take. -/
def blocksFor (n : Nat) : Nat := (n + (blockLen - 1)) / blockLen

def Block.value (b : Block) : Nat := ByteCounter.value b.bytes

/-- The counter `k` blocks after `first`. -/
def counterAfter (first : Block) (k : Nat) : Block := (Block.increment 0)^[k] first

theorem Block.value_increment (b : Block) :
    (b.increment 0).value = (b.value + 1) % counterSpace := by
  have step := ByteCounter.value_increment_mod b.bytes
  rw [b.size] at step
  exact step

theorem Block.value_counterAfter (first : Block) (k : Nat) :
    (counterAfter first k).value = (first.value + k) % counterSpace := by
  induction k with
  | zero =>
    have bound := ByteCounter.value_lt first.bytes
    rw [first.size] at bound
    exact (Nat.mod_eq_of_lt bound).symm
  | succ k ih =>
    rw [counterAfter, Function.iterate_succ_apply', Block.value_increment, ← counterAfter, ih,
      Nat.mod_add_mod, Nat.add_assoc]

theorem Block.value_lt (b : Block) : b.value < counterSpace := by
  have bound := ByteCounter.value_lt b.bytes
  rw [b.size] at bound
  exact bound

theorem blocksFor_zero : blocksFor 0 = 0 := by decide

theorem blocksFor_succ (n : Nat) :
    blocksFor (n + 1) = if n % blockLen = 0 then blocksFor n + 1 else blocksFor n := by
  split <;> simp only [blocksFor, blockLen] at * <;> omega

theorem blocksFor_mono {m n : Nat} (le : m ≤ n) : blocksFor m ≤ blocksFor n := by
  simp only [blocksFor, blockLen]
  omega

namespace CtrContext

variable (aes : Cipher) (word : Nat)

/-- The context after `n` bytes. -/
def stateAt (ctx : CtrContext) (n : Nat) : CtrContext :=
  { ctx with
    iv := counterAfter ctx.iv (blocksFor n)
    ctrStream :=
      if n = 0 then ctx.ctrStream else aes ctx.key (counterAfter ctx.iv (blocksFor n - 1))
    ctrPos := if n % blockLen = 0 then blockLen else n % blockLen
    ctrExhausted := decide (counterSpace ≤ ctx.iv.value + blocksFor n) }

/-- The key byte at position `n`. -/
def keyByte (ctx : CtrContext) : Nat → UInt8 := keystream (aes ctx.key) (Block.increment 0) ctx.iv

/-- The counters that the bytes from `n` to `m` make the code encipher. -/
def countersBetween (ctx : CtrContext) (n m : Nat) : List Block :=
  (List.range' (blocksFor n) (blocksFor m - blocksFor n)).map (counterAfter ctx.iv)

variable {aes word} {ctx : CtrContext}

structure Fresh (ctx : CtrContext) : Prop where
  active : ctx.active = true
  loaded : ctx.ivLoaded = true
  pos : ctx.ctrPos = blockLen
  exhausted : ctx.ctrExhausted = false

theorem setIv_fresh {ctx start : CtrContext} {iv : Bytes} (given : ctx.setIv iv = some start) :
    iv.length = blockLen ∧ Fresh start ∧ start.iv = Block.ofBytes iv ∧ start.key = ctx.key := by
  rw [setIv] at given
  split at given
  · cases given
  · rename_i checks
    simp only [Bool.or_eq_true, Bool.not_eq_true', not_or, Bool.not_eq_false,
      decide_eq_true_eq, not_not] at checks
    cases given
    exact ⟨checks.1, ⟨checks.2, rfl, rfl, rfl⟩, rfl, rfl⟩

theorem Fresh.stateAt_zero (fresh : Fresh ctx) : ctx.stateAt aes 0 = ctx := by
  have room : ¬ counterSpace ≤ ctx.iv.value := by
    have := ctx.iv.value_lt
    omega
  have pos := fresh.pos
  have exhausted := fresh.exhausted
  cases ctx with
  | mk key active iv ivLoaded ctrStream ctrPos ctrExhausted =>
    simp only at pos exhausted room
    subst pos exhausted
    simp [stateAt, blocksFor_zero, counterAfter, room]

variable {n : Nat}

theorem refill_stateAt (start : n % blockLen = 0)
    (room : ctx.iv.value + blocksFor (n + 1) ≤ counterSpace) :
    { (ctx.stateAt aes n).refill aes with ctrPos := 1 } = ctx.stateAt aes (n + 1) := by
  have next : blocksFor (n + 1) = blocksFor n + 1 := by rw [blocksFor_succ, if_pos start]
  have place : (n + 1) % blockLen = 1 := by
    simp only [blockLen] at start ⊢
    omega
  have below : ctx.iv.value + blocksFor n < counterSpace := by omega
  have value : (counterAfter ctx.iv (blocksFor n)).value = ctx.iv.value + blocksFor n := by
    rw [Block.value_counterAfter, Nat.mod_eq_of_lt below]
  have wraps : ByteCounter.wraps (counterAfter ctx.iv (blocksFor n)).bytes =
      decide (counterSpace ≤ ctx.iv.value + blocksFor (n + 1)) := by
    rw [Bool.eq_iff_iff, ByteCounter.wraps_iff, Octets.size, decide_eq_true_iff]
    change (counterAfter ctx.iv (blocksFor n)).value + 1 = counterSpace ↔ _
    omega
  have fresh : decide (counterSpace ≤ ctx.iv.value + blocksFor n) = false := by
    simp only [decide_eq_false_iff_not]
    omega
  have later : (counterAfter ctx.iv (blocksFor n)).increment 0 =
      counterAfter ctx.iv (blocksFor n + 1) := by
    rw [counterAfter, counterAfter, Function.iterate_succ_apply']
  simp only [stateAt, refill, wraps, fresh, later, next, place, Bool.false_or, Nat.add_sub_cancel,
    Nat.succ_ne_zero, if_false]

theorem advance_stateAt (inside : n % blockLen ≠ 0) :
    { ctx.stateAt aes n with ctrPos := n % blockLen + 1 } = ctx.stateAt aes (n + 1) := by
  have same : blocksFor (n + 1) = blocksFor n := by rw [blocksFor_succ, if_neg inside]
  have some : n ≠ 0 := by
    rintro rfl
    exact inside rfl
  have place : n % blockLen + 1 =
      if (n + 1) % blockLen = 0 then blockLen else (n + 1) % blockLen := by
    split <;> simp only [blockLen] at * <;> omega
  simp only [stateAt, same, some, place, Nat.succ_ne_zero, if_false]

theorem stateAt_keyByte (inside : n % blockLen ≠ 0) :
    (ctx.stateAt aes n).ctrStream.bytes.getD (n % blockLen) 0 = ctx.keyByte aes n := by
  have some : n ≠ 0 := by
    rintro rfl
    exact inside rfl
  have last : blocksFor n - 1 = n / blockLen := by
    simp only [blocksFor, blockLen] at inside ⊢
    omega
  simp only [stateAt, some, if_false, last, keyByte, keystream, counterAfter]

theorem countersBetween_self (n : Nat) : ctx.countersBetween n n = [] := by
  simp [countersBetween]

theorem countersBetween_append {n m k : Nat} (first : n ≤ m) (second : m ≤ k) :
    ctx.countersBetween n m ++ ctx.countersBetween m k = ctx.countersBetween n k := by
  have low := blocksFor_mono first
  have high := blocksFor_mono second
  rw [countersBetween, countersBetween, ← List.map_append]
  have whole : blocksFor k - blocksFor n =
      (blocksFor m - blocksFor n) + (blocksFor k - blocksFor m) := by omega
  have middle : blocksFor m = blocksFor n + (blocksFor m - blocksFor n) := by omega
  rw [countersBetween, whole, ← List.range'_append_1, ← middle]

theorem countersBetween_succ (n : Nat) : ctx.countersBetween n (n + 1) =
      if n % blockLen = 0 then [counterAfter ctx.iv (blocksFor n)] else [] := by
  rw [countersBetween, blocksFor_succ]
  split <;> simp

theorem ctrCryptLoop_stateAt {buf : Bytes}
    (room : ctx.iv.value + blocksFor (n + buf.length) ≤ counterSpace) :
    (ctx.stateAt aes n).ctrCryptLoop aes buf =
      (ctx.stateAt aes (n + buf.length), Blocks.xorAt (ctx.keyByte aes) n buf,
        ctx.countersBetween n (n + buf.length)) := by
  induction buf generalizing n with
  | nil => simp [ctrCryptLoop, Blocks.xorAt, countersBetween_self]
  | cons b rest ih =>
    have total : n + (b :: rest).length = n + 1 + rest.length := by
      rw [List.length_cons]
      omega
    rw [total] at room ⊢
    have here : ctx.iv.value + blocksFor (n + 1) ≤ counterSpace := by
      have := @blocksFor_mono (n + 1) (n + 1 + rest.length) (by omega)
      omega
    have later := ih room
    have counters := @countersBetween_append ctx n (n + 1) (n + 1 + rest.length) (by omega)
      (by omega)
    rw [countersBetween_succ] at counters
    by_cases start : n % blockLen = 0
    · have full : (ctx.stateAt aes n).ctrPos = blockLen := by simp [stateAt, start]
      have block : ((ctx.stateAt aes n).refill aes).ctrStream.bytes.getD 0 0 =
          ctx.keyByte aes n := by
        have index : blocksFor n = n / blockLen := by
          simp only [blocksFor, blockLen] at start ⊢
          omega
        simp only [refill, stateAt, keyByte, keystream, start, counterAfter, index]
      have next : { (ctx.stateAt aes n).refill aes with
          ctrPos := ((ctx.stateAt aes n).refill aes).ctrPos + 1 } = ctx.stateAt aes (n + 1) :=
        refill_stateAt start here
      simp only [ctrCryptLoop, if_pos full, next, later]
      rw [if_pos start] at counters
      rw [← counters, Blocks.xorAt, ← block]
      rfl
    · have place : (ctx.stateAt aes n).ctrPos = n % blockLen := by simp [stateAt, start]
      have partway : (ctx.stateAt aes n).ctrPos ≠ blockLen := by
        rw [place]
        simp only [blockLen]
        omega
      have next : { ctx.stateAt aes n with ctrPos := (ctx.stateAt aes n).ctrPos + 1 } =
          ctx.stateAt aes (n + 1) := by
        rw [place]
        exact advance_stateAt start
      simp only [ctrCryptLoop, if_neg partway, next, later]
      rw [if_neg start] at counters
      rw [← counters, Blocks.xorAt, place, stateAt_keyByte start]

def ctrAfter (aes : Cipher) (word : Nat) (ctx : CtrContext) (calls : List (Buffer word)) :
    CtrContext :=
  calls.foldl (fun ctx buf => (ctx.ctrCrypt aes word buf).ctx) ctx

def acceptedBytes (called : List Called) : Nat :=
  ((called.filter Called.accepted).map fun call => call.buf.length).sum

theorem counterBlocksNeeded_stateAt (n length : Nat) :
    counterBlocksNeeded length blockLen (ctx.stateAt aes n).ctrPos =
      blocksFor (n + length) - blocksFor n := by
  simp only [stateAt, counterBlocksNeeded]
  split <;> split <;> split <;> split <;> simp only [blocksFor, blockLen] at * <;> omega

theorem spaceLeft_stateAt (room : ctx.iv.value + blocksFor n ≤ counterSpace) :
    spaceLeft (ctx.stateAt aes n).iv.bytes (ctx.stateAt aes n).ctrExhausted =
      counterSpace - (ctx.iv.value + blocksFor n) := by
  rw [spaceLeft]
  split
  · rename_i wrapped
    have beyond : counterSpace ≤ ctx.iv.value + blocksFor n := by simpa [stateAt] using wrapped
    omega
  · rename_i open_
    have below : ctx.iv.value + blocksFor n < counterSpace := by simpa [stateAt] using open_
    have value := Block.value_counterAfter ctx.iv (blocksFor n)
    rw [Nat.mod_eq_of_lt below] at value
    rw [Octets.size]
    change counterSpace - (counterAfter ctx.iv (blocksFor n)).value = _
    rw [value]

theorem requestOk_stateAt {n length : Nat} (room : ctx.iv.value + blocksFor n ≤ counterSpace)
    (fits : length < 256 ^ word) : (ctx.stateAt aes n).requestOk word length = true ↔
      ctx.iv.value + blocksFor (n + length) ≤ counterSpace := by
  have place : ¬ (ctx.stateAt aes n).ctrPos > blockLen := by
    simp only [stateAt]
    split <;> simp only [blockLen] <;> omega
  have grows := @blocksFor_mono n (n + length) (by omega)
  have few : blocksFor (n + length) - blocksFor n < 256 ^ word := by
    refine Nat.lt_of_le_of_lt ?_ fits
    simp only [blocksFor, blockLen]
    omega
  rw [requestOk, if_neg place, Bool.or_eq_true, decide_eq_true_iff, counterBlocksNeeded_stateAt,
    counterHasBlocks_iff (by rw [Octets.size]; decide) few, spaceLeft_stateAt room]
  constructor
  · rintro (rfl | enough)
    · exact room
    · omega
  · intro enough
    right
    omega

theorem ctrCrypt_stateAt (active : ctx.active = true) (loaded : ctx.ivLoaded = true) {n : Nat}
    (room : ctx.iv.value + blocksFor n ≤ counterSpace) (buf : Buffer word) :
    (ctx.stateAt aes n).ctrCrypt aes word buf =
      if ctx.iv.value + blocksFor (n + buf.data.length) ≤ counterSpace then
        { accepted := true
          ctx := ctx.stateAt aes (n + buf.data.length)
          buf := Blocks.xorAt (ctx.keyByte aes) n buf.data
          counters := ctx.countersBetween n (n + buf.data.length) }
      else { accepted := false, ctx := ctx.stateAt aes n, buf := buf.data, counters := [] } := by
  have request := @requestOk_stateAt aes word ctx n _ room buf.fits
  have on : (ctx.stateAt aes n).active = true := active
  have set : (ctx.stateAt aes n).ivLoaded = true := loaded
  rw [ctrCrypt]
  by_cases enough : ctx.iv.value + blocksFor (n + buf.data.length) ≤ counterSpace
  · rw [if_pos enough, request.mpr enough, on, set, ctrCryptLoop_stateAt enough]
    rfl
  · have refused : (ctx.stateAt aes n).requestOk word buf.data.length = false :=
      Bool.eq_false_iff.mpr (mt request.mp enough)
    rw [if_neg enough, refused, Bool.not_false, Bool.or_true]
    rfl

theorem ctrCalls_stateAt (active : ctx.active = true) (loaded : ctx.ivLoaded = true) {n : Nat}
    (room : ctx.iv.value + blocksFor n ≤ counterSpace) (calls : List (Buffer word)) :
    ∃ m, m = n + acceptedBytes ((ctx.stateAt aes n).ctrCalls aes word calls) ∧
      ctx.iv.value + blocksFor m ≤ counterSpace ∧
      (ctx.stateAt aes n).ctrAfter aes word calls = ctx.stateAt aes m ∧
      ((ctx.stateAt aes n).ctrCalls aes word calls).flatMap Called.counters =
        ctx.countersBetween n m := by
  induction calls generalizing n with
  | nil => exact ⟨n, rfl, room, rfl, (countersBetween_self n).symm⟩
  | cons buf rest ih =>
    have call := @ctrCrypt_stateAt aes word ctx active loaded n room buf
    by_cases enough : ctx.iv.value + blocksFor (n + buf.data.length) ≤ counterSpace
    · rw [if_pos enough] at call
      obtain ⟨m, total, bound, after, counters⟩ := ih enough
      refine ⟨m, ?_, bound, ?_, ?_⟩
      · rw [ctrCalls, call, total]
        simp [acceptedBytes]
        omega
      · rw [ctrAfter, List.foldl_cons, call]
        exact after
      · rw [ctrCalls, call, List.flatMap_cons, counters]
        exact countersBetween_append (by omega) (by omega)
    · rw [if_neg enough] at call
      obtain ⟨m, total, bound, after, counters⟩ := ih room
      refine ⟨m, ?_, bound, ?_, ?_⟩
      · rw [ctrCalls, call, total]
        simp [acceptedBytes]
      · rw [ctrAfter, List.foldl_cons, call]
        exact after
      · rw [ctrCalls, call, List.flatMap_cons, counters]
        rfl

/-- A message in pieces: all are accepted when the whole fits, and together they
    write what one call writes. -/
theorem ctrCalls_pieces (active : ctx.active = true) (loaded : ctx.ivLoaded = true) {n : Nat}
    (room : ctx.iv.value + blocksFor n ≤ counterSpace) (pieces : List (Buffer word)) :
    ((∀ called ∈ (ctx.stateAt aes n).ctrCalls aes word pieces, called.accepted = true) ↔
        ctx.iv.value + blocksFor (n + (pieces.map Buffer.data).flatten.length) ≤ counterSpace) ∧
      ((∀ called ∈ (ctx.stateAt aes n).ctrCalls aes word pieces, called.accepted = true) →
        (((ctx.stateAt aes n).ctrCalls aes word pieces).map Called.buf).flatten =
          Blocks.xorAt (ctx.keyByte aes) n (pieces.map Buffer.data).flatten) := by
  induction pieces generalizing n with
  | nil => simpa [ctrCalls, Blocks.xorAt] using room
  | cons piece rest ih =>
    have call := @ctrCrypt_stateAt aes word ctx active loaded n room piece
    have total : n + ((piece :: rest).map Buffer.data).flatten.length =
        n + piece.data.length + (rest.map Buffer.data).flatten.length := by
      rw [List.map_cons, List.flatten_cons, List.length_append]
      omega
    rw [total]
    by_cases enough : ctx.iv.value + blocksFor (n + piece.data.length) ≤ counterSpace
    · rw [if_pos enough] at call
      obtain ⟨all, written⟩ := ih enough
      rw [ctrCalls, call]
      simp only [List.mem_cons, forall_eq_or_imp, true_and, List.map_cons, List.flatten_cons,
        Blocks.xorAt_append]
      exact ⟨all, fun accepted => congrArg _ (written accepted)⟩
    · rw [if_neg enough] at call
      have more := @blocksFor_mono (n + piece.data.length)
        (n + piece.data.length + (rest.map Buffer.data).flatten.length) (by omega)
      have beyond : ¬ ctx.iv.value + blocksFor (n + piece.data.length +
          (rest.map Buffer.data).flatten.length) ≤ counterSpace := by omega
      have refused : ¬ ∀ called ∈ (ctx.stateAt aes n).ctrCalls aes word (piece :: rest),
          called.accepted = true := by
        intro accepted
        have first := accepted _ (List.mem_cons_self ..)
        rw [call] at first
        cases first
      exact ⟨iff_of_false refused beyond, fun accepted => absurd accepted refused⟩

theorem countersBetween_nodup (room : ctx.iv.value + blocksFor n ≤ counterSpace) :
    (ctx.countersBetween 0 n).Nodup := by
  refine List.Nodup.map_on ?_ List.nodup_range'
  intro j first k second same
  rw [blocksFor_zero, List.mem_range'_1] at first second
  have values := congrArg Block.value same
  rw [Block.value_counterAfter, Block.value_counterAfter, Nat.mod_eq_of_lt (by omega),
    Nat.mod_eq_of_lt (by omega)] at values
  omega

/-- CTR never repeats a counter, refuses a call exactly when the space left does not
    cover it, and does not depend on how a message is cut into calls. -/
theorem ctr_calls_compose {start : CtrContext} {iv : Bytes} (given : ctx.setIv iv = some start)
    (calls : List (Buffer word)) :
    let called := start.ctrCalls aes word calls
    let reached := start.ctrAfter aes word calls
    let first := ByteCounter.value iv
    let taken := acceptedBytes called
    (called.flatMap Called.counters).Nodup ∧ called.flatMap Called.counters =
        (List.range (blocksFor taken)).map (counterAfter (Block.ofBytes iv)) ∧
      (∀ buf : Buffer word, ((reached.ctrCrypt aes word buf).accepted = false ↔
          2 ^ 128 - (first + blocksFor taken) <
            blocksFor (taken + buf.data.length) - blocksFor taken) ∧
        ((reached.ctrCrypt aes word buf).accepted = false →
          (reached.ctrCrypt aes word buf).ctx = reached ∧
            (reached.ctrCrypt aes word buf).buf = buf.data) ∧
        ((reached.ctrCrypt aes word buf).accepted = true → (reached.ctrCrypt aes word buf).buf =
            Blocks.xorAt
              (keystream (aes ctx.key) (Block.increment 0) (Block.ofBytes iv)) taken buf.data)) ∧
      ∀ message : Buffer word, message.data = (calls.map Buffer.data).flatten →
        ((∀ call ∈ called, call.accepted = true) ↔
          (start.ctrCrypt aes word message).accepted = true) ∧
        ((∀ call ∈ called, call.accepted = true) →
          (called.map Called.buf).flatten = (start.ctrCrypt aes word message).buf) := by
  intro called reached first taken
  obtain ⟨size, fresh, loaded, key⟩ := setIv_fresh given
  have value : start.iv.value = first := by
    have bytes : (Block.ofBytes iv).bytes = iv := by
      have same := Octets.ofBytes_bytes ⟨iv, size⟩
      exact congrArg Octets.bytes same
    rw [loaded, Block.value, bytes]
  have room : start.iv.value + blocksFor 0 ≤ counterSpace := by
    rw [blocksFor_zero]
    exact Nat.le_of_lt start.iv.value_lt
  have space : counterSpace = 2 ^ 128 := by decide
  have zero : start.stateAt aes 0 = start := fresh.stateAt_zero
  obtain ⟨m, total, bound, after, counters⟩ :=
    @ctrCalls_stateAt aes word start fresh.active fresh.loaded 0 room calls
  have whole := @ctrCalls_pieces aes word start fresh.active fresh.loaded 0 room calls
  rw [zero, Nat.zero_add] at total
  rw [zero] at after counters whole
  have here : taken = m := total.symm
  refine ⟨?_, ?_, ?_, ?_⟩
  · rw [counters]
    exact countersBetween_nodup bound
  · rw [counters, here, countersBetween, blocksFor_zero, Nat.sub_zero, List.range_eq_range', loaded]
  · intro buf
    have call := @ctrCrypt_stateAt aes word start fresh.active fresh.loaded m bound buf
    have grows := @blocksFor_mono m (m + buf.data.length) (by omega)
    have there : reached = start.stateAt aes m := after
    rw [there, here, ← value, ← space]
    by_cases enough : start.iv.value + blocksFor (m + buf.data.length) ≤ counterSpace
    · rw [if_pos enough] at call
      rw [call]
      refine ⟨iff_of_false (by simp) (by omega), fun refused => (nomatch refused), fun _ => ?_⟩
      change Blocks.xorAt (start.keyByte aes) m buf.data = _
      rw [keyByte, loaded, key]
    · rw [if_neg enough] at call
      rw [call]
      exact ⟨iff_of_true rfl (by omega), fun _ => ⟨rfl, rfl⟩, fun accepted => (nomatch accepted)⟩
  · intro message joined
    have call := @ctrCrypt_stateAt aes word start fresh.active fresh.loaded 0 room message
    rw [zero, joined] at call
    obtain ⟨all, written⟩ := whole
    rw [all, call]
    split
    · rename_i enough
      exact ⟨iff_of_true enough rfl, fun _ => written (all.mpr enough)⟩
    · rename_i short
      exact ⟨iff_of_false short (by simp), fun enough => absurd enough short⟩

/-- A context with a key, before and after the counter block `ff…fe` is loaded. -/
def keyed : CtrContext where
  key := List.replicate 16 7
  active := true
  iv := Block.zero
  ivLoaded := false
  ctrStream := Block.zero
  ctrPos := 0
  ctrExhausted := false

def nearlyWrapped : CtrContext :=
  { keyed with
    iv := Block.ofBytes (List.replicate 15 255 ++ [254]), ivLoaded := true, ctrPos := blockLen }

def lastCalls : List (Buffer 8) :=
  [⟨[1, 2, 3], by decide⟩, ⟨List.replicate 20 0, by decide⟩, ⟨List.replicate 20 0, by decide⟩]

theorem ctr_calls_compose_last :
    let called := nearlyWrapped.ctrCalls (encryptBlock .fast) 8 lastCalls
    keyed.setIv (List.replicate 15 255 ++ [254]) = some nearlyWrapped ∧
      called.map Called.accepted = [true, true, false] ∧
      (called.flatMap Called.counters).Nodup :=
  ⟨by decide, by decide, (@ctr_calls_compose (encryptBlock .fast) 8 keyed nearlyWrapped
    (List.replicate 15 255 ++ [254]) (by decide) lastCalls).1⟩

/-- The data of the accepted calls. -/
def dataTaken (calls : List (Buffer word)) (called : List Called) : Bytes :=
  (((calls.zip called).filter fun call => call.2.accepted).map fun call => call.1.data).flatten

/-- What the accepted calls wrote. -/
def dataWritten (called : List Called) : Bytes :=
  ((called.filter Called.accepted).map Called.buf).flatten

theorem ctrCalls_written (active : ctx.active = true) (loaded : ctx.ivLoaded = true) {n : Nat}
    (room : ctx.iv.value + blocksFor n ≤ counterSpace) (calls : List (Buffer word)) :
    let called := (ctx.stateAt aes n).ctrCalls aes word calls
    dataWritten called = Blocks.xorAt (ctx.keyByte aes) n (dataTaken calls called) := by
  induction calls generalizing n with
  | nil => rfl
  | cons buf rest ih =>
    have call := @ctrCrypt_stateAt aes word ctx active loaded n room buf
    by_cases enough : ctx.iv.value + blocksFor (n + buf.data.length) ≤ counterSpace
    · rw [if_pos enough] at call
      have later := ih enough
      simp only [dataWritten, dataTaken] at later
      simp [ctrCalls, call, dataWritten, dataTaken, Blocks.xorAt_append, later]
    · rw [if_neg enough] at call
      have later := ih room
      simp only [dataWritten, dataTaken] at later
      simp [ctrCalls, call, dataWritten, dataTaken, later]

/-- Whatever calls a sender makes, a receiver with its key and IV takes what they wrote, cut
    in any way, and gets the data of the accepted calls. -/
theorem ctr_recovers {sender receiver sent received : CtrContext} {iv : Bytes}
    (sends : sender.setIv iv = some sent) (receives : receiver.setIv iv = some received)
    (key : receiver.key = sender.key) (calls pieces : List (Buffer word))
    (arrived : (pieces.map Buffer.data).flatten = dataWritten (sent.ctrCalls aes word calls)) :
    (∀ call ∈ received.ctrCalls aes word pieces, call.accepted = true) ∧
      ((received.ctrCalls aes word pieces).map Called.buf).flatten =
        dataTaken calls (sent.ctrCalls aes word calls) := by
  obtain ⟨-, fresh, loaded, kept⟩ := setIv_fresh sends
  obtain ⟨-, fresh', loaded', kept'⟩ := setIv_fresh receives
  have iv : received.iv = sent.iv := loaded'.trans loaded.symm
  have stream : received.keyByte aes = sent.keyByte aes := by
    simp only [keyByte, iv, kept, kept', key]
  have room : sent.iv.value + blocksFor 0 ≤ counterSpace := by
    rw [blocksFor_zero]
    exact Nat.le_of_lt sent.iv.value_lt
  have written := @ctrCalls_written aes word sent fresh.active fresh.loaded 0 room calls
  obtain ⟨m, total, bound, -, -⟩ :=
    @ctrCalls_stateAt aes word sent fresh.active fresh.loaded 0 room calls
  have pieced := @ctrCalls_pieces aes word received fresh'.active fresh'.loaded 0
    (iv ▸ room) pieces
  rw [fresh.stateAt_zero] at written total
  rw [fresh'.stateAt_zero, iv, stream, arrived] at pieced
  have length : (dataWritten (sent.ctrCalls aes word calls)).length = m := by
    rw [total, Nat.zero_add, dataWritten, List.length_flatten, List.map_map]
    rfl
  have all := pieced.1.mpr (by rwa [length, Nat.zero_add])
  refine ⟨all, (pieced.2 all).trans ?_⟩
  rw [written, Blocks.xorAt_xorAt]

theorem ctr_recovers_last :
    let pieces : List (Buffer 8) := [⟨[40, 96], by decide⟩, ⟨[188, 101, 177, 244, 38, 67, 45, 15,
      208, 69, 54, 76, 83, 112, 44, 238, 247, 141, 181, 16, 223], by decide⟩]
    let called := nearlyWrapped.ctrCalls (encryptBlock .fast) 8 pieces
    keyed.setIv (List.replicate 15 255 ++ [254]) = some nearlyWrapped ∧
      (called.map Called.buf).flatten = 1 :: 2 :: 3 :: List.replicate 20 0 :=
  ⟨by decide, (@ctr_recovers (encryptBlock .fast) 8 keyed keyed nearlyWrapped nearlyWrapped
    (List.replicate 15 255 ++ [254]) (by decide) (by decide) rfl lastCalls _
    (by decide +kernel)).2⟩

end CtrContext

end TinyCrypto.Aes
