import Mathlib.Data.List.Induction
import TinyCrypto.Common.Bytes
import TinyCrypto.Library.Blocks

/-! # MACs from a block cipher

`mac_core.c` for each block size, and the CMAC contexts of `aes_cmac.c` and `des_mac.c`, which
differ in the cipher and in the reduction of the doubling. The ciphers of `aes.c` and `des.c`
always complete, so that the failure paths of the core are left out.
-/

namespace TinyCrypto.Mac

open Library

variable {width : Nat}

/-- The loop of `tc_mac_gf_double` from the last byte on: the shifted bytes and the carry
    out. -/
def shiftLoop (carry : UInt8) : Bytes → Bytes × UInt8
  | [] => ([], carry)
  | b :: rest =>
    let (shifted, last) := shiftLoop (b >>> 7) rest
    ((b <<< 1 ||| carry) :: shifted, last)

@[simp] theorem shiftLoop_length (carry : UInt8) (bytes : Bytes) :
    (shiftLoop carry bytes).1.length = bytes.length := by
  induction bytes generalizing carry with
  | nil => rfl
  | cons b rest ih => simp [shiftLoop, ih]

def reduceLast (reduction carry : UInt8) (bytes : Bytes) : Bytes :=
  bytes.modify (bytes.length - 1) (· ^^^ (reduction &&& (0 - carry)))

/-- `tc_mac_gf_double`. -/
def gfDouble (reduction : UInt8) (input : Octets width) : Octets width :=
  let shifted := shiftLoop 0 input.bytes.reverse
  ⟨reduceLast reduction shifted.2 shifted.1.reverse, by
    simp [reduceLast, shifted, input.size]⟩

section

variable (cipher : Octets width → Octets width)

/-- `tc_mac_derive_subkeys` with the plain doubling. -/
def deriveSubkeys (reduction : UInt8) : Octets width × Octets width :=
  let k1 := gfDouble reduction (cipher (.zero width))
  (k1, gfDouble reduction k1)

/-- The chaining value and the `used` bytes held for the next block. -/
structure Chain (width : Nat) where
  mac : Octets width
  block : Bytes
  deriving DecidableEq

def Chain.start (width : Nat) : Chain width := ⟨.zero width, []⟩

/-- `tc_mac_cbc_block`. -/
def cbcBlock (mac : Octets width) (block : Bytes) : Octets width :=
  cipher (mac.xor (.ofBytes width block))

def Chain.flush (chain : Chain width) : Chain width :=
  if chain.block.length = width then ⟨cbcBlock cipher chain.mac chain.block, []⟩ else chain

/-- The loop of `tc_mac_cbc_update`. A pass takes at least one byte. -/
def cbcUpdateLoop (retainLast : Bool) : (passes : Nat) → Chain width → Bytes → Chain width
  | 0, chain, _ => chain
  | passes + 1, chain, data =>
    if data.length = 0 then chain
    else
      let chain := chain.flush cipher
      if chain.block.length = 0 &&
          (if retainLast then data.length > width else data.length ≥ width) then
        cbcUpdateLoop retainLast passes
          { chain with mac := cbcBlock cipher chain.mac (data.take width) } (data.drop width)
      else
        let take := min (width - chain.block.length) data.length
        cbcUpdateLoop retainLast passes { chain with block := chain.block ++ data.take take }
          (data.drop take)

/-- `tc_mac_cbc_update`. -/
def cbcUpdate (chain : Chain width) (data : Bytes) (retainLast : Bool) : Chain width :=
  let chain := cbcUpdateLoop cipher retainLast data.length chain data
  if retainLast then chain else chain.flush cipher

/-- `tc_mac_cbc_pad`. -/
def cbcPad (chain : Chain width) : Chain width :=
  if chain.block.length ≠ 0 then ⟨cbcBlock cipher chain.mac chain.block, []⟩ else chain

/-- `tc_mac_cmac_final`. -/
def cmacFinal (chain : Chain width) (completeSubkey partialSubkey : Octets width) : Octets width :=
  let block := if chain.block.length ≠ width then Octets.ofBytes width (chain.block ++ [0x80])
    else .ofBytes width chain.block
  let subkey := if chain.block.length = width then completeSubkey else partialSubkey
  cbcBlock cipher chain.mac (block.xor subkey).bytes

/-- `tc_mac_cmac_parts`. -/
def cmacParts (initial : Octets width) (parts : List Bytes)
    (completeSubkey partialSubkey : Octets width) : Octets width :=
  let chain := parts.foldl (fun chain part => cbcUpdate cipher chain part true) ⟨initial, []⟩
  cmacFinal cipher chain completeSubkey partialSubkey

end

/-- `TC_AES_CMAC_ctx` and `TC_DES_CMAC_ctx`, without the key schedule. -/
structure CmacContext (width : Nat) where
  k1 : Octets width
  k2 : Octets width
  chain : Chain width
  active : Bool
  deriving DecidableEq

/-- `TC_AES_CMAC_ctx_clear` and `TC_DES_CMAC_ctx_clear`. -/
def CmacContext.clear (width : Nat) : CmacContext width :=
  ⟨.zero width, .zero width, .start width, false⟩

section

variable (cipher : Octets width → Octets width)

def cmacInit (reduction : UInt8) : CmacContext width :=
  let (k1, k2) := deriveSubkeys cipher reduction
  ⟨k1, k2, .start width, true⟩

/-- `TC_AES_CMAC_update` and `TC_DES_CMAC_update`: whether it returned TC_OK, and the
    context. -/
def cmacUpdate (ctx : CmacContext width) (data : Bytes) : Bool × CmacContext width :=
  if !ctx.active || ctx.chain.block.length > width then (false, ctx)
  else (true, { ctx with chain := cbcUpdate cipher ctx.chain data true })

/-- `TC_AES_CMAC_final` and `TC_DES_CMAC_final`: the tag, and the cleared context. -/
def cmacFinalize (ctx : CmacContext width) : Option (Octets width) × CmacContext width :=
  if !ctx.active || ctx.chain.block.length > width then (none, ctx)
  else (some (cmacFinal cipher ctx.chain ctx.k1 ctx.k2), .clear width)

def cmacUpdates : CmacContext width → List Bytes → Bool × CmacContext width
  | ctx, [] => (true, ctx)
  | ctx, data :: rest =>
    let (accepted, ctx) := cmacUpdate cipher ctx data
    let (all, ctx) := cmacUpdates ctx rest
    (accepted && all, ctx)

end

/-- `TC_AES_CMAC_init` in a build for one key length. -/
def aesCmacInit (keyLen : Nat) (aes : Bytes → Octets 16 → Octets 16) (key : Bytes) :
    Option (CmacContext 16) :=
  if key.length = keyLen then some (cmacInit (aes key) 0x87) else none

variable {width : Nat}

section

variable (cipher : Octets width → Octets width)

def feed (chain : Chain width) (byte : UInt8) : Chain width :=
  let chain := chain.flush cipher
  { chain with block := chain.block ++ [byte] }

end

variable {cipher : Octets width → Octets width}

variable {chain : Chain width}

theorem flush_short (short : chain.block.length ≠ width) :
    chain.flush cipher = chain := if_neg short

theorem flush_full {chain : Chain width} (full : chain.block.length = width) :
    chain.flush cipher = ⟨cbcBlock cipher chain.mac chain.block, []⟩ := if_pos full

theorem flush_flush (pos : 0 < width) (chain : Chain width) :
    (chain.flush cipher).flush cipher = chain.flush cipher := by
  by_cases full : chain.block.length = width
  · rw [flush_full full, flush_short (by simp; omega)]
  · rw [flush_short full, flush_short full]

theorem feed_flush (pos : 0 < width) (chain : Chain width) (byte : UInt8) :
    feed cipher (chain.flush cipher) byte = feed cipher chain byte := by
  rw [feed, flush_flush pos, feed]

theorem foldl_feed_fits {data : Bytes} (fits : chain.block.length + data.length ≤ width) :
    data.foldl (feed cipher) chain = { chain with block := chain.block ++ data } := by
  induction data generalizing chain with
  | nil => simp
  | cons byte rest ih =>
    rw [List.length_cons] at fits
    have here : feed cipher chain byte = { chain with block := chain.block ++ [byte] } := by
      rw [feed, flush_short (by omega)]
    rw [List.foldl_cons, here, ih (by simp; omega)]
    simp

section

variable (pos : 0 < width)

include pos

theorem foldl_feed_flush (chain : Chain width) {data : Bytes} (filled : data ≠ []) :
    data.foldl (feed cipher) (chain.flush cipher) = data.foldl (feed cipher) chain := by
  cases data with
  | nil => exact absurd rfl filled
  | cons byte rest => rw [List.foldl_cons, feed_flush pos, List.foldl_cons]

theorem flush_length_lt {chain : Chain width}
    (fits : chain.block.length ≤ width) : (chain.flush cipher).block.length < width := by
  by_cases full : chain.block.length = width
  · rw [flush_full full]
    exact pos
  · rw [flush_short full]
    omega

theorem cbcUpdateLoop_feed (retainLast : Bool) {passes : Nat} {data : Bytes}
    (enough : data.length ≤ passes) {chain : Chain width} (fits : chain.block.length ≤ width) :
    cbcUpdateLoop cipher retainLast passes chain data = data.foldl (feed cipher) chain ∨
      (retainLast = false ∧ cbcUpdateLoop cipher retainLast passes chain data =
        (data.foldl (feed cipher) chain).flush cipher) := by
  induction passes generalizing chain data with
  | zero =>
    rw [List.length_eq_zero_iff.mp (Nat.le_zero.mp enough)]
    exact .inl rfl
  | succ passes ih =>
    rw [cbcUpdateLoop]
    split
    · rename_i none
      rw [List.length_eq_zero_iff.mp none]
      exact .inl rfl
    rename_i some
    have filled : data ≠ [] := fun empty => some (by simp [empty])
    have below := @flush_length_lt _ cipher pos _ fits
    rw [← foldl_feed_flush pos chain filled]
    generalize chain.flush cipher = chain at below
    simp only
    by_cases whole : (decide (chain.block.length = 0) &&
        if retainLast then decide (data.length > width) else decide (data.length ≥ width)) = true
    · rw [if_pos whole]
      obtain ⟨empty, enough, more⟩ : chain.block = [] ∧ width ≤ data.length ∧
          (retainLast = true → width < data.length) := by
        rw [Bool.and_eq_true, decide_eq_true_eq] at whole
        obtain ⟨fresh, long⟩ := whole
        have most : width ≤ data.length ∧ (retainLast = true → width < data.length) := by
          cases retainLast with
          | false => exact ⟨by simpa using long, fun other => nomatch other⟩
          | true =>
            have less : width < data.length := by simpa using long
            exact ⟨Nat.le_of_lt less, fun _ => less⟩
        exact ⟨List.length_eq_zero_iff.mp fresh, most⟩
      have taken : (data.take width).length = width := List.length_take_of_le enough
      have parts : data.foldl (feed cipher) chain = (data.drop width).foldl (feed cipher)
          ((data.take width).foldl (feed cipher) chain) := by
        rw [← List.foldl_append, List.take_append_drop]
      have held : (data.take width).foldl (feed cipher) chain = ⟨chain.mac, data.take width⟩ := by
        rw [foldl_feed_fits (by rw [empty, taken]; simp), empty, List.nil_append]
      have full := @flush_full _ cipher ⟨chain.mac, data.take width⟩ taken
      rw [parts, held]
      by_cases rest : data.drop width = []
      · have last : retainLast = false := by
          cases retainLast with
          | false => rfl
          | true => exact absurd (List.drop_eq_nil_iff.mp rest) (Nat.not_le.mpr (more rfl))
        refine .inr ⟨last, ?_⟩
        rw [rest, List.foldl_nil, full, empty]
        cases passes <;> rfl
      · rw [← foldl_feed_flush pos _ rest, full, empty]
        apply ih
        · rw [List.length_drop]
          omega
        · exact Nat.zero_le _
    · rw [if_neg whole]
      generalize size : min (width - chain.block.length) data.length = count
      have taken : (data.take count).length = count := by
        rw [List.length_take]
        omega
      have parts : data.foldl (feed cipher) chain = (data.drop count).foldl (feed cipher)
          ((data.take count).foldl (feed cipher) chain) := by
        rw [← List.foldl_append, List.take_append_drop]
      have held : (data.take count).foldl (feed cipher) chain =
          { chain with block := chain.block ++ data.take count } := foldl_feed_fits (by omega)
      rw [parts, held]
      apply ih
      · rw [List.length_drop]
        omega
      · change (chain.block ++ data.take count).length ≤ width
        rw [List.length_append, taken]
        omega

theorem cbcUpdate_retain (fits : chain.block.length ≤ width) (data : Bytes) :
    cbcUpdate cipher chain data true = data.foldl (feed cipher) chain := by
  rcases @cbcUpdateLoop_feed _ cipher pos true _ _ (Nat.le_refl _) _ fits with same | ⟨other, -⟩
  · rw [cbcUpdate, same]
    rfl
  · cases other

theorem cbcUpdate_flush (fits : chain.block.length ≤ width) (data : Bytes) :
    cbcUpdate cipher chain data false = (data.foldl (feed cipher) chain).flush cipher := by
  rw [cbcUpdate]
  rcases @cbcUpdateLoop_feed _ cipher pos false _ _ (Nat.le_refl _) _ fits with same | ⟨-, same⟩
  · rw [same]
    rfl
  · rw [same]
    exact flush_flush pos _

theorem foldl_feed_le (fits : chain.block.length ≤ width) (data : Bytes) :
    (data.foldl (feed cipher) chain).block.length ≤ width := by
  induction data generalizing chain with
  | nil => exact fits
  | cons byte rest ih =>
    have below := @flush_length_lt _ cipher pos _ fits
    exact ih (by rw [feed, List.length_append, List.length_singleton]; omega)

theorem cbcUpdate_short (fits : chain.block.length ≤ width) (data : Bytes) :
    (cbcUpdate cipher chain data false).block.length < width := by
  rw [cbcUpdate_flush pos fits]
  exact flush_length_lt pos (foldl_feed_le pos fits data)

theorem cbcUpdate_append (fits : chain.block.length ≤ width) (first second : Bytes) :
    cbcUpdate cipher (cbcUpdate cipher chain first false) second false =
      cbcUpdate cipher chain (first ++ second) false := by
  have below := @cbcUpdate_short _ cipher _ pos fits first
  rw [cbcUpdate_flush pos (Nat.le_of_lt below), cbcUpdate_flush pos fits,
    cbcUpdate_flush pos fits, List.foldl_append]
  by_cases empty : second = []
  · rw [empty, List.foldl_nil, List.foldl_nil, flush_flush pos]
  · rw [foldl_feed_flush pos _ empty]

theorem foldl_feed_fold (start : Octets width) (message : Bytes) :
    ((message.foldl (feed cipher) ⟨start, []⟩).flush cipher) =
      ⟨(Blocks.fold width (cbcBlock cipher) start message).1,
        (Blocks.fold width (cbcBlock cipher) start message).2⟩ := by
  induction message using List.reverseRecOn with
  | nil =>
    rw [Blocks.fold_short pos]
    exact flush_short (by simp; omega)
  | append_singleton message byte ih =>
    have below : (Blocks.fold width (cbcBlock cipher) start message).2.length < width := by
      rw [Blocks.fold_rest_length pos]
      exact Nat.mod_lt _ pos
    rw [List.foldl_append, List.foldl_cons, List.foldl_nil, ← feed_flush pos, ih,
      Blocks.fold_append pos]
    generalize Blocks.fold width (cbcBlock cipher) start message = state at below
    have next : feed cipher ⟨state.1, state.2⟩ byte = ⟨state.1, state.2 ++ [byte]⟩ := by
      rw [feed, flush_short (by simpa using Nat.ne_of_lt below)]
    rw [next]
    by_cases full : (state.2 ++ [byte]).length = width
    · rw [Blocks.fold_full pos full, flush_full full]
    · have short : (state.2 ++ [byte]).length < width := by
        rw [List.length_append, List.length_singleton] at full ⊢
        omega
      rw [Blocks.fold_short short, flush_short full]

theorem cbcUpdate_fold {start : Octets width} {message : Bytes}
    (folded : (chain.mac, chain.block) = Blocks.fold width (cbcBlock cipher) start message)
    (data : Bytes) :
    ((cbcUpdate cipher chain data false).mac, (cbcUpdate cipher chain data false).block) =
      Blocks.fold width (cbcBlock cipher) start (message ++ data) := by
  have below : chain.block.length < width := by
    have rest := @Blocks.fold_rest_length _ _ _ (cbcBlock cipher) pos start message
    rw [← folded] at rest
    rw [rest]
    exact Nat.mod_lt _ pos
  have before : chain = (message.foldl (feed cipher) ⟨start, []⟩).flush cipher := by
    rw [foldl_feed_fold pos, ← folded]
  have after := @foldl_feed_fold _ cipher pos start (message ++ data)
  have same : cbcUpdate cipher chain data false =
      ((message ++ data).foldl (feed cipher) ⟨start, []⟩).flush cipher := by
    rw [cbcUpdate_flush pos (Nat.le_of_lt below), before, List.foldl_append]
    by_cases empty : data = []
    · rw [empty, List.foldl_nil, List.foldl_nil, flush_flush pos]
    · rw [foldl_feed_flush pos _ empty]
  rw [same, after]

end

end TinyCrypto.Mac
