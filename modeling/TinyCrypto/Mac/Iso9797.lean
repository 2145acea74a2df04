import TinyCrypto.Des.Conformance
import TinyCrypto.Mac.Cmac
import TinyCrypto.Mac.DesMac

/-! # The reference MACs

ISO/IEC 9797-1 on the whole message: padding, the chain, the output transformation. A stream of
updates gives the same tags, and CMAC contexts of AES and DES give those of SP 800-38B.
-/

namespace TinyCrypto.Mac

open Library
open Des (SboxMode RoundKey)

namespace Iso9797

def padded (padding : Padding) (data : Bytes) : Option Bytes := match padding with
  | .padNone => if data ≠ [] ∧ Des.blockLen ∣ data.length then some data else none
  | .pad1 =>
    if data = [] then some (List.replicate Des.blockLen 0)
    else some (data ++ List.replicate ((Des.blockLen - data.length % Des.blockLen) %
      Des.blockLen) 0)
  | .pad2 =>
    some (data ++ 0x80 :: List.replicate (Des.blockLen - 1 - data.length % Des.blockLen) 0)

section

variable (mode : SboxMode)

def e (key : Bytes) (block : Octets Des.blockLen) : Octets Des.blockLen :=
  Des.cipherBlock mode (Des.keySchedule mode key) block false

def d (key : Bytes) (block : Octets Des.blockLen) : Octets Des.blockLen :=
  Des.cipherBlock mode (Des.keySchedule mode key) block true

def k1 (key : Bytes) : Bytes := key.take Des.keyLen

def k2 (key : Bytes) : Bytes := (key.drop Des.keyLen).take Des.keyLen

def k3 (key : Bytes) : Bytes :=
  if key.length = Des.keyLen2Key then k1 key else (key.drop Des.keyLen2Key).take Des.keyLen

/-- The block cipher of the chain: TDEA for algorithm 1, the first key for algorithm 3. -/
def chainCipher (algorithm : Algorithm) (key : Bytes) (block : Octets Des.blockLen) :
    Octets Des.blockLen :=
  match algorithm with
  | .alg1 => e mode (k3 key) (d mode (k2 key) (e mode (k1 key) block))
  | .alg3 | .alg3ThreeKeyExtension => e mode (k1 key) block

def output (algorithm : Algorithm) (key : Bytes) (block : Octets Des.blockLen) :
    Octets Des.blockLen :=
  match algorithm with
  | .alg1 => block
  | .alg3 | .alg3ThreeKeyExtension => e mode (k3 key) (d mode (k2 key) block)

/-- The chain: the first block is encrypted, every other one is added to the last result. -/
def chain (cipher : Octets Des.blockLen → Octets Des.blockLen) : List Bytes → Octets Des.blockLen
  | [] => .zero Des.blockLen
  | first :: rest =>
    rest.foldl (fun h block => cipher (h.xor (.ofBytes Des.blockLen block)))
      (cipher (.ofBytes Des.blockLen first))

def mac (algorithm : Algorithm) (padding : Padding) (key message : Bytes) :
    Option (Octets Des.blockLen) :=
  (padded padding message).map fun data =>
    output mode algorithm key
      (chain (chainCipher mode algorithm key) (Blocks.pieces Des.blockLen data))

end

end Iso9797

theorem cipherBlock_starts {mode : SboxMode} {sk : List (RoundKey mode)} {key : Bytes}
    (starts : Des.Starts sk key) (block : Octets Des.blockLen) (decrypt : Bool) :
    Des.cipherBlock mode sk block decrypt =
      Des.cipherBlock mode (Des.keySchedule mode (key.take Des.keyLen)) block decrypt := by
  have single := Des.keySchedule_starts mode (key.take Des.keyLen)
  apply Octets.ext
  apply BitString.ofOctets_injective (by rw [Octets.size, Octets.size])
  cases decrypt with
  | false => rw [starts.enciphers, single.enciphers, List.take_take, Nat.min_self]
  | true => rw [starts.deciphers, single.deciphers, List.take_take, Nat.min_self]

def Parts (key : Bytes) : Prop := key.length = Des.keyLen2Key ∨ key.length = Des.keyLen3Key

section

variable {mode : SboxMode} {key : Bytes} (parts : Parts key) (block : Octets Des.blockLen)

include parts

theorem third_part (decrypt : Bool) :
    Des.cipherBlock mode ((Des.scheduleKey mode key).drop 32) block decrypt =
      Des.cipherBlock mode (Des.keySchedule mode (Iso9797.k3 key)) block decrypt := by
  obtain ⟨-, -, two, three⟩ := Des.scheduleKey_starts mode key
  rcases parts with pair | all
  · rw [cipherBlock_starts (two pair), Iso9797.k3, if_pos pair, Iso9797.k1]
  · have other : key.length ≠ Des.keyLen2Key := by
      rw [all]
      decide
    rw [cipherBlock_starts (three all), Iso9797.k3, if_neg other]

theorem second_part (decrypt : Bool) :
    Des.cipherBlock mode ((Des.scheduleKey mode key).drop 16) block decrypt =
      Des.cipherBlock mode (Des.keySchedule mode (Iso9797.k2 key)) block decrypt := by
  have more : key.length ≠ Des.keyLen := by
    rcases parts with pair | all
    · rw [pair]
      decide
    · rw [all]
      decide
  exact cipherBlock_starts ((Des.scheduleKey_starts mode key).2.1 more) block decrypt

omit parts in
theorem first_part (decrypt : Bool) :
    Des.cipherBlock mode (Des.scheduleKey mode key) block decrypt =
      Des.cipherBlock mode (Des.keySchedule mode (Iso9797.k1 key)) block decrypt :=
  cipherBlock_starts (Des.scheduleKey_starts mode key).1 block decrypt

theorem chain_cipher (algorithm : Algorithm) :
    Des.encryptScheduled mode (Des.scheduleKey mode key) block (algorithm = .alg1) =
      Iso9797.chainCipher mode algorithm key block := by
  cases algorithm with
  | alg1 =>
    simp only [Des.encryptScheduled, decide_true, if_true]
    rw [third_part parts, second_part parts, first_part]
    rfl
  | alg3 => exact first_part block false
  | alg3ThreeKeyExtension => exact first_part block false

end

theorem zero_xor {width : Nat} (a : Octets width) : (Octets.zero width).xor a = a := by
  have same : ∀ bytes : Bytes,
      List.zipWith (· ^^^ ·) (List.replicate bytes.length 0) bytes = bytes := by
    intro bytes
    induction bytes with
    | nil => rfl
    | cons b rest ih => simp [List.replicate_succ, ih]
  apply Octets.ext
  have bytes := same a.bytes
  rw [a.size] at bytes
  exact bytes

theorem chain_foldl (cipher : Octets Des.blockLen → Octets Des.blockLen) {blocks : List Bytes}
    (filled : blocks ≠ []) :
    blocks.foldl (cbcBlock cipher) (.zero Des.blockLen) = Iso9797.chain cipher blocks := by
  cases blocks with
  | nil => exact absurd rfl filled
  | cons first rest =>
    rw [List.foldl_cons, cbcBlock, zero_xor]
    rfl

structure Iso9797Context.Holds {mode : SboxMode} (ctx : Iso9797Context mode)
    (algorithm : Algorithm) (padding : Padding) (key message : Bytes) : Prop where
  parts : Parts key
  schedule : ctx.schedule = Des.scheduleKey mode key
  algorithm_eq : ctx.algorithm = algorithm
  padding_eq : ctx.padding = padding
  active : ctx.active = true
  nonempty : ctx.nonempty = true ↔ message ≠ []
  folded : (ctx.chain.mac, ctx.chain.block) = Blocks.fold Des.blockLen
    (cbcBlock (Iso9797.chainCipher mode algorithm key)) (.zero Des.blockLen) message

section

variable {mode : SboxMode} {ctx : Iso9797Context mode} {algorithm : Algorithm} {padding : Padding}
  {key message : Bytes}

section

variable (holds : ctx.Holds algorithm padding key message)

include holds

theorem Iso9797Context.Holds.cipher : ctx.cipher = Iso9797.chainCipher mode algorithm key := by
  funext block
  rw [Iso9797Context.cipher, holds.schedule, holds.algorithm_eq, chain_cipher holds.parts]

theorem Iso9797Context.Holds.used : ctx.chain.block.length = message.length % Des.blockLen := by
  have pos : 0 < Des.blockLen := by decide
  have rest := @Blocks.fold_rest_length _ _ _ (cbcBlock (Iso9797.chainCipher mode algorithm key))
    pos (.zero Des.blockLen) message
  rwa [← holds.folded] at rest

theorem Iso9797Context.Holds.below : ctx.chain.block.length < Des.blockLen := by
  rw [holds.used]
  exact Nat.mod_lt _ (by decide)

end

theorem iso9797Init_holds {rejectWeak : Bool}
    (started : iso9797Init mode rejectWeak algorithm padding key = some ctx) :
    ctx.Holds algorithm padding key [] := by
  have pos : 0 < Des.blockLen := by decide
  unfold iso9797Init at started
  split at started
  · cases started
  · rename_i admitted
    split at started
    · cases started
    · split at started
      · cases started
      · cases started
        have parts : Parts key := by
          cases algorithm with
          | alg1 =>
            by_contra other
            rw [Parts, not_or] at other
            simp [other] at admitted
          | alg3 => exact .inl (by simpa using admitted)
          | alg3ThreeKeyExtension => exact .inr (by simpa using admitted)
        refine ⟨parts, rfl, rfl, rfl, rfl, by simp, ?_⟩
        rw [Blocks.fold_short pos]
        rfl

theorem Iso9797Context.Holds.update (holds : ctx.Holds algorithm padding key message)
    (data : Bytes) : (iso9797Update ctx data).1 = true ∧
      (iso9797Update ctx data).2.Holds algorithm padding key (message ++ data) := by
  have pos : 0 < Des.blockLen := by decide
  have below := holds.below
  have live : (!ctx.active || decide (ctx.chain.block.length ≥ Des.blockLen)) = false := by
    simp [holds.active, below]
  have folded := holds.folded
  rw [← holds.cipher] at folded
  have chained := cbcUpdate_fold pos folded data
  have run : iso9797Update ctx data = (true, { ctx with
      nonempty := if data.length ≠ 0 then true else ctx.nonempty
      chain := cbcUpdate ctx.cipher ctx.chain data false }) := by
    rw [iso9797Update, live]
    by_cases empty : data.length = 0
    · simp [empty]
    · simp only [ne_eq, empty, not_false_eq_true, if_true, Bool.false_eq_true, if_false]
      rfl
  rw [run]
  refine ⟨rfl, holds.parts, holds.schedule, holds.algorithm_eq, holds.padding_eq, holds.active,
    ?_, ?_⟩
  · have before := holds.nonempty
    by_cases empty : data = []
    · simp [empty, before]
    · simp [empty]
  · rw [← holds.cipher]
    exact chained

theorem Iso9797Context.Holds.updates (holds : ctx.Holds algorithm padding key message)
    (parts : List Bytes) : (iso9797Updates ctx parts).1 = true ∧
      (iso9797Updates ctx parts).2.Holds algorithm padding key (message ++ parts.flatten) := by
  induction parts generalizing ctx message with
  | nil => exact ⟨rfl, by simpa [iso9797Updates] using holds⟩
  | cons data rest ih =>
    obtain ⟨accepted, next⟩ := holds.update data
    obtain ⟨all, later⟩ := ih next
    rw [iso9797Updates]
    simp only [accepted, all, Bool.and_self, List.flatten_cons, ← List.append_assoc]
    exact ⟨trivial, later⟩

theorem fold_rest (step : Octets Des.blockLen → Bytes → Octets Des.blockLen) {pad : Bytes}
    (start : Octets Des.blockLen) (message : Bytes)
    (full : message.length % Des.blockLen + pad.length = Des.blockLen) :
    (Blocks.pieces Des.blockLen (message ++ pad)).foldl step start =
      step (Blocks.fold Des.blockLen step start message).1
        ((Blocks.fold Des.blockLen step start message).2 ++ pad) := by
  have pos : 0 < Des.blockLen := by decide
  have rest := @Blocks.fold_rest_length _ _ _ step pos start message
  rw [← Blocks.fold_eq_foldl pos, Blocks.fold_append pos, Blocks.fold_full pos]
  rw [List.length_append, rest, full]

theorem pieces_filled {data : Bytes} (whole : Des.blockLen ≤ data.length) :
    Blocks.pieces Des.blockLen data ≠ [] := by
  rw [Blocks.pieces_block (by decide) whole]
  exact List.cons_ne_nil _ _

section

variable (holds : ctx.Holds algorithm padding key message)

include holds

theorem Iso9797Context.Holds.transforms (block : Octets Des.blockLen) :
    (if ctx.algorithm = .alg3 || ctx.algorithm = .alg3ThreeKeyExtension then
      outputTransformation3 ctx block else block) = Iso9797.output mode algorithm key block := by
  have third : outputTransformation3 ctx block =
      Iso9797.e mode (Iso9797.k3 key) (Iso9797.d mode (Iso9797.k2 key) block) := by
    rw [outputTransformation3, holds.schedule]
    simp only [second_part holds.parts, third_part holds.parts]
    rfl
  rw [holds.algorithm_eq]
  cases algorithm with
  | alg1 => rfl
  | alg3 => exact third
  | alg3ThreeKeyExtension => exact third

theorem Iso9797Context.Holds.closes {pad : Bytes}
    (full : message.length % Des.blockLen + pad.length = Des.blockLen) :
    cbcBlock ctx.cipher ctx.chain.mac (ctx.chain.block ++ pad) =
      Iso9797.chain (Iso9797.chainCipher mode algorithm key)
        (Blocks.pieces Des.blockLen (message ++ pad)) := by
  have split := Nat.div_add_mod message.length Des.blockLen
  have whole : Des.blockLen ≤ (message ++ pad).length := by
    rw [List.length_append]
    omega
  rw [← chain_foldl _ (pieces_filled whole), fold_rest _ _ _ full, ← holds.folded, holds.cipher]

theorem Iso9797Context.Holds.whole (some : message ≠ [])
    (full : message.length % Des.blockLen = 0) :
    ctx.chain.mac = Iso9797.chain (Iso9797.chainCipher mode algorithm key)
      (Blocks.pieces Des.blockLen message) := by
  have pos : 0 < Des.blockLen := by decide
  have split := Nat.div_add_mod message.length Des.blockLen
  have filled : 0 < message.length := List.length_pos_iff.mpr some
  have whole : Des.blockLen ≤ message.length := by
    by_contra short
    rw [Nat.mod_eq_of_lt (by omega)] at full
    omega
  rw [← chain_foldl _ (pieces_filled whole), ← Blocks.fold_eq_foldl pos, ← holds.folded]

theorem Iso9797Context.Holds.final :
    (iso9797Final ctx).1 = Iso9797.mac mode algorithm padding key message ∧
      (iso9797Final ctx).2 = .clear mode := by
  have used := holds.used
  have below := holds.below
  have live : (!ctx.active || decide (ctx.chain.block.length ≥ Des.blockLen)) = false := by
    simp [holds.active, below]
  have transforms := holds.transforms
  have nonempty := holds.nonempty
  have smaller : message.length % Des.blockLen < Des.blockLen := Nat.mod_lt _ (by decide)
  have rest (full : message.length % Des.blockLen = 0) : ctx.chain.block = [] :=
    List.length_eq_zero_iff.mp (used.trans full)
  simp only [iso9797Final, live, transforms, Bool.false_eq_true, if_false, Iso9797.mac]
  rw [holds.padding_eq]
  cases padding with
  | padNone =>
    by_cases fits : message ≠ [] ∧ Des.blockLen ∣ message.length
    · have full := Nat.mod_eq_zero_of_dvd fits.2
      have chained := holds.whole fits.1 full
      simp [Iso9797.padded, fits, nonempty.mpr fits.1, rest full, chained]
    · have refused : (decide (ctx.chain.block.length ≠ 0) || !ctx.nonempty) = true := by
        by_contra admitted
        rw [used] at admitted
        simp [nonempty] at admitted
        exact fits ⟨admitted.2, Nat.dvd_of_mod_eq_zero admitted.1⟩
      simp only [decide_true, Bool.true_and, refused, if_true]
      rw [Iso9797.padded, if_neg fits]
      exact ⟨rfl, trivial⟩
  | pad1 =>
    by_cases none : message = []
    · have flag : ctx.nonempty = false := by simpa [none] using nonempty
      have closed := @Iso9797Context.Holds.closes _ _ _ _ _ _ holds
        (List.replicate Des.blockLen 0) (by simp [none])
      rw [none] at closed
      simp [Iso9797.padded, used, none, flag, closed]
    · have flag : ctx.nonempty = true := nonempty.mpr none
      by_cases full : message.length % Des.blockLen = 0
      · have chained := holds.whole none full
        simp [Iso9797.padded, none, flag, rest full, full, chained]
      · have closed := @Iso9797Context.Holds.closes _ _ _ _ _ _ holds
          (List.replicate (Des.blockLen - message.length % Des.blockLen) 0)
          (by rw [List.length_replicate]; omega)
        have short : (Des.blockLen - message.length % Des.blockLen) % Des.blockLen =
            Des.blockLen - message.length % Des.blockLen := Nat.mod_eq_of_lt (by omega)
        simp [Iso9797.padded, none, used, full, closed, short]
  | pad2 =>
    have closed := @Iso9797Context.Holds.closes _ _ _ _ _ _ holds
      (0x80 :: List.replicate (Des.blockLen - 1 - message.length % Des.blockLen) 0)
      (by simp only [List.length_cons, List.length_replicate]; omega)
    rw [Nat.sub_right_comm] at closed
    simp [Iso9797.padded, used, closed, Nat.sub_right_comm Des.blockLen 1]

end

end

/-- Updates of a fresh context are all accepted. The tag is the CMAC of the whole message, which
    is the tag of one call on the parts, and the context is wiped. -/
def CmacStreams {width : Nat} (cipher : Octets width → Octets width) (reduction : UInt8)
    (fresh : CmacContext width) : Prop :=
  ∀ parts : List Bytes, let run := cmacUpdates cipher fresh parts
    let (k1, k2) := deriveSubkeys cipher reduction
    let tag := cmacParts cipher (.zero width) parts k1 k2
    run.1 = true ∧ cmacFinalize cipher run.2 = (some tag, .clear width) ∧
      Sp38b.Cmac cipher parts.flatten tag

theorem cmacInit_streams {width : Nat} {reduction : UInt8} (reduces : Reduces width reduction)
    (cipher : Octets width → Octets width) :
    CmacStreams cipher reduction (cmacInit cipher reduction) := by
  intro parts
  obtain ⟨accepted, held⟩ := (cmacInit_holds cipher reduction).updates reduces.1 parts
  obtain ⟨tag, final, mac, wiped⟩ := held.final reduces
  rw [List.nil_append] at mac
  have whole := @cmacParts_cmac _ cipher _ reduces parts
  refine ⟨accepted, Prod.ext ?_ wiped, whole⟩
  rw [final, mac.unique whole]
  rfl

/-- Streamed MACs are those of the whole message, for each split. -/
theorem streams_mac (mode : SboxMode) (rejectWeak : Bool) (key : Bytes) :
    (∀ (keyLen : Nat) (aes : Bytes → Octets 16 → Octets 16) (ctx : CmacContext 16),
      aesCmacInit keyLen aes key = some ctx → CmacStreams (aes key) 0x87 ctx) ∧
    (∀ ctx : CmacContext Des.blockLen, desCmacInit mode rejectWeak key = some ctx →
      CmacStreams (desCipher mode key) 0x1b ctx) ∧
    ∀ (algorithm : Algorithm) (padding : Padding) (ctx : Iso9797Context mode),
      iso9797Init mode rejectWeak algorithm padding key = some ctx → ∀ parts : List Bytes,
        let run := iso9797Updates ctx parts
        run.1 = true ∧ iso9797Final run.2 =
          (Iso9797.mac mode algorithm padding key parts.flatten, .clear mode) := by
  refine ⟨?_, ?_, ?_⟩
  · intro keyLen aes ctx started
    rw [aesCmacInit] at started
    split at started
    · cases started
      exact cmacInit_streams reduces_aes _
    · cases started
  · intro ctx started
    rw [desCmacInit] at started
    split at started
    · cases started
    · cases started
      exact cmacInit_streams reduces_des _
  · intro algorithm padding ctx started parts
    obtain ⟨accepted, held⟩ := (iso9797Init_holds started).updates parts
    obtain ⟨tag, wiped⟩ := held.final
    exact ⟨accepted, Prod.ext tag wiped⟩

/-- A two-key bundle starts a context of algorithm 3. -/
theorem streams_mac_example :
    let key : Bytes := [1, 2, 3, 4, 5, 6, 7, 8, 9, 10, 11, 12, 13, 14, 15, 16]
    let ctx : Iso9797Context .fast :=
      ⟨Des.scheduleKey .fast key, .start Des.blockLen, .alg3, .pad2, true, false⟩
    let run := iso9797Updates ctx [[1, 2, 3], [], [4, 5, 6, 7, 8, 9]]
    run.1 = true ∧ iso9797Final run.2 =
      (Iso9797.mac .fast .alg3 .pad2 key [1, 2, 3, 4, 5, 6, 7, 8, 9], .clear .fast) := by
  intro key ctx
  have distinct : Des.keysEqual key (key.drop Des.keyLen) = false := by decide
  have started : iso9797Init .fast false .alg3 .pad2 key = some ctx := by
    rw [iso9797Init, distinct]
    rfl
  exact (streams_mac .fast false key).2.2 .alg3 .pad2 ctx started [[1, 2, 3], [], [4, 5, 6, 7, 8, 9]]

end TinyCrypto.Mac
