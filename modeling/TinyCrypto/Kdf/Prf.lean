import TinyCrypto.Hash.Hmac
import TinyCrypto.Mac.Cmac
import TinyCrypto.Mac.DesMac

/-! # Pseudorandom functions

The descriptors of `kdf.c`: HMAC over a hash core, and CMAC of AES or of DES. The storage of a
caller is disjoint from the inputs.
-/

namespace TinyCrypto.Kdf

open Hash (Core HmacContext Info)
open Mac (CmacContext Sp38b.Cmac)
open Des (SboxMode)

/-- `struct tc_kdf_prf` of a build: the AES key length is fixed, and DES may reject weak
    keys. -/
inductive Prf where
  | hmac (hash : Core) (compression : Core.Compression hash)
  | aesCmac (keyLen : Nat) (aes : Bytes → Octets 16 → Octets 16)
  | desCmac (mode : SboxMode) (rejectWeak : Bool)

namespace Prf

/-- `out_len`. -/
def outLen : Prf → Nat
  | hmac hash _ => hash.digestBytes
  | aesCmac _ _ => 16
  | desCmac _ _ => Des.blockLen

def Context : Prf → Type
  | hmac _ _ => HmacContext
  | aesCmac _ _ => Bytes × CmacContext 16
  | desCmac _ _ => Bytes × CmacContext Des.blockLen

/-- `tc_kdf_key_ok`. -/
def keyOk : Prf → (keyLen : Nat) → Bool
  | hmac _ _, length => length ≠ 0
  | aesCmac keyLen _, length => length = keyLen
  | desCmac _ _, length => length = 8 || length = 16 || length = 24

/-- `tc_kdf_mac_init`. None is TC_ERROR. -/
def macInit : (prf : Prf) → (key : Bytes) → Option prf.Context
  | hmac hash compression, key => (hash.info compression).hmacInit key
  | aesCmac keyLen aes, key => (Mac.aesCmacInit keyLen aes key).map fun ctx => (key, ctx)
  | desCmac mode rejectWeak, key =>
    (Mac.desCmacInit mode rejectWeak key).map fun ctx => (key, ctx)

/-- `tc_kdf_mac_update`. -/
def macUpdate : (prf : Prf) → prf.Context → (data : Bytes) → Option prf.Context
  | hmac hash compression, ctx, data =>
    let (accepted, ctx) := (hash.info compression).hmacUpdate ctx data
    if accepted then some ctx else none
  | aesCmac _ aes, (key, ctx), data =>
    let (accepted, ctx) := Mac.cmacUpdate (aes key) ctx data
    if accepted then some (key, ctx) else none
  | desCmac mode _, (key, ctx), data =>
    let (accepted, ctx) := Mac.cmacUpdate (Mac.desCipher mode key) ctx data
    if accepted then some (key, ctx) else none

/-- `tc_kdf_mac_final`. -/
def macFinal : (prf : Prf) → prf.Context → Option Bytes
  | hmac hash compression, ctx => ((hash.info compression).hmacFinal ctx).1
  | aesCmac _ aes, (key, ctx) => (Mac.cmacFinalize (aes key) ctx).1.map Octets.bytes
  | desCmac mode _, (key, ctx) =>
    (Mac.cmacFinalize (Mac.desCipher mode key) ctx).1.map Octets.bytes

/-- The loop of `tc_kdf_prf_run` over the segments. -/
def feed (prf : Prf) : prf.Context → (segments : List Bytes) → Option prf.Context
  | ctx, [] => some ctx
  | ctx, segment :: rest =>
    if segment.length ≠ 0 then (prf.macUpdate ctx segment).bind fun ctx => prf.feed ctx rest
    else prf.feed ctx rest

/-- `tc_kdf_prf_run`. -/
def run (prf : Prf) (initialized : prf.Context) (segments : List Bytes) : Option Bytes :=
  (prf.feed initialized segments).bind prf.macFinal

/-- `tag` is the output of the function under a key. -/
def Tag : Prf → (key message tag : Bytes) → Prop
  | hmac hash compression, key, message, tag => tag = (hash.info compression).hmac key message
  | aesCmac _ aes, key, message, tag =>
    ∃ mac : Octets 16, Sp38b.Cmac (aes key) message mac ∧ tag = mac.bytes
  | desCmac mode _, key, message, tag =>
    ∃ mac : Octets Des.blockLen, Sp38b.Cmac (Mac.desCipher mode key) message mac ∧ tag = mac.bytes

def Keys : Prf → (key : Bytes) → Prop
  | hmac hash _, key => 0 < key.length ∧ key.length ≤ hash.maxMessageBytes
  | aesCmac keyLen _, key => 0 < key.length ∧ key.length = keyLen
  | desCmac _ rejectWeak, key =>
    (key.length = 8 ∨ key.length = 16 ∨ key.length = 24) ∧
      (rejectWeak = true → Des.bundleIsRejected key key.length = false)

def Fits : Prf → (length : Nat) → Prop
  | hmac hash _, length => hash.blockBytes + length ≤ hash.maxMessageBytes
  | _, _ => True

theorem outLen_pos (prf : Prf) : 0 < prf.outLen := by
  cases prf with
  | hmac hash compression => exact hash.digestBytes_pos
  | aesCmac keyLen aes => exact Nat.zero_lt_succ _
  | desCmac mode rejectWeak => exact Nat.zero_lt_succ _

variable {prf : Prf}

theorem Tag.unique {key message tag tag' : Bytes} (first : prf.Tag key message tag)
    (second : prf.Tag key message tag') : tag = tag' := by
  cases prf with
  | hmac hash compression => exact Eq.trans first (Eq.symm second)
  | aesCmac keyLen aes =>
    obtain ⟨mac, cmac, rfl⟩ := first
    obtain ⟨mac', cmac', rfl⟩ := second
    rw [cmac.unique cmac']
  | desCmac mode rejectWeak =>
    obtain ⟨mac, cmac, rfl⟩ := first
    obtain ⟨mac', cmac', rfl⟩ := second
    rw [cmac.unique cmac']

theorem Tag.length {key message tag : Bytes} (output : prf.Tag key message tag) :
    tag.length = prf.outLen := by
  cases prf with
  | hmac hash compression =>
    rw [show tag = _ from output, Info.hmac, ← Hash.digest_eq_standard, Info.digest_length]
    rfl
  | aesCmac keyLen aes =>
    obtain ⟨mac, cmac, rfl⟩ := output
    exact mac.size
  | desCmac mode rejectWeak =>
    obtain ⟨mac, cmac, rfl⟩ := output
    exact mac.size

def Holds : (prf : Prf) → (key : Bytes) → prf.Context → (message : Bytes) → Prop
  | hmac hash compression, key, ctx, message => (hash.info compression).Keyed ctx key message
  | aesCmac _ aes, key, (held, ctx), message => held = key ∧ ctx.Holds (aes key) 0x87 message
  | desCmac mode _, key, (held, ctx), message =>
    held = key ∧ ctx.Holds (Mac.desCipher mode key) 0x1b message

theorem macInit_eq (prf : Prf) (key : Bytes) :
    (prf.Keys key ∧ key.length ≠ 0 ∧ prf.keyOk key.length = true ∧
      ∃ ctx, prf.macInit key = some ctx ∧ prf.Holds key ctx []) ∨ (¬ prf.Keys key ∧
      (key.length = 0 ∨ prf.keyOk key.length = false ∨ prf.macInit key = none)) := by
  cases prf with
  | hmac hash compression =>
    rw [Keys]
    rcases Hash.hmacInit_eq (hash.hmacs compression) key with
      ⟨long, refused⟩ | ⟨ctx, fits, started, keyed⟩
    · exact .inr ⟨fun keys => absurd keys.2 (Nat.not_le.mpr long), .inr (.inr refused)⟩
    · rcases Nat.eq_zero_or_pos key.length with none | some
      · exact .inr ⟨fun keys => absurd keys.1 (by omega), .inl none⟩
      · exact .inl ⟨⟨some, fits⟩, by omega, decide_eq_true (by omega), ctx, started, keyed⟩
  | aesCmac keyLen aes =>
    rw [Keys]
    by_cases same : key.length = keyLen
    · rcases Nat.eq_zero_or_pos key.length with none | some
      · exact .inr ⟨fun keys => absurd keys.1 (by omega), .inl none⟩
      · refine .inl ⟨⟨some, same⟩, by omega, decide_eq_true same,
          (key, Mac.cmacInit (aes key) 0x87), ?_, rfl, Mac.cmacInit_holds _ _⟩
        rw [macInit, Mac.aesCmacInit, if_pos same]
        rfl
    · exact .inr ⟨fun keys => same keys.2, .inr (.inl (decide_eq_false same))⟩
  | desCmac mode rejectWeak =>
    have sizes : (keyOk (desCmac mode rejectWeak) key.length = true) ↔
        (key.length = 8 ∨ key.length = 16 ∨ key.length = 24) := by
      simp only [keyOk, Bool.or_eq_true, decide_eq_true_eq, or_assoc]
    have schedule : Mac.desCmacSchedule rejectWeak key = true ↔ Keys (desCmac mode rejectWeak) key := by
      simp only [Mac.desCmacSchedule, Keys, Des.keyLen, Des.keyLen2Key, Des.keyLen3Key]
      grind
    by_cases keys : Keys (desCmac mode rejectWeak) key
    · refine .inl ⟨keys, ?_, sizes.mpr keys.1, (key, Mac.cmacInit (Mac.desCipher mode key) 0x1b),
        ?_, rfl, Mac.cmacInit_holds _ _⟩
      · have := keys.1
        omega
      · rw [macInit, Mac.desCmacInit, schedule.mpr keys]
        rfl
    · have refused : Mac.desCmacSchedule rejectWeak key = false := by
        rw [Bool.eq_false_iff]
        exact mt schedule.mp keys
      refine .inr ⟨keys, .inr (.inr ?_)⟩
      rw [macInit, Mac.desCmacInit, refused]
      rfl

theorem Holds.fits {prf : Prf} {key message : Bytes} {ctx : prf.Context}
    (holds : prf.Holds key ctx message) : prf.Fits message.length := by
  cases prf with
  | hmac hash compression =>
    have keyed : (hash.info compression).Keyed ctx key message := holds
    have within := keyed.inner.within
    rw [List.length_append, Hash.keyed_length (hash.hmacs compression)] at within
    exact within
  | aesCmac keyLen aes => trivial
  | desCmac mode rejectWeak => trivial

variable {key message : Bytes} {ctx : prf.Context}

theorem Holds.update (holds : prf.Holds key ctx message) (data : Bytes) :
    (∃ after, prf.macUpdate ctx data = some after ∧ prf.Holds key after (message ++ data)) ∨
      (¬ prf.Fits (message ++ data).length ∧ prf.macUpdate ctx data = none) := by
  cases prf with
  | hmac hash compression =>
    have keyed : (hash.info compression).Keyed ctx key message := holds
    rcases keyed.update data with ⟨accepted, _, later⟩ | ⟨refused, long⟩
    · refine .inl ⟨_, ?_, later⟩
      simp only [macUpdate, accepted, if_true]
    · rw [List.length_append, Hash.keyed_length (hash.hmacs compression)] at long
      refine .inr ⟨Nat.not_le.mpr long, ?_⟩
      simp only [macUpdate, refused, Bool.false_eq_true, if_false]
  | aesCmac keyLen aes =>
    obtain ⟨stored, ctx⟩ := ctx
    obtain ⟨rfl, held⟩ := holds
    obtain ⟨after, accepted, later⟩ := held.update Mac.reduces_aes.1 data
    refine .inl ⟨(stored, after), ?_, rfl, later⟩
    simp only [macUpdate, accepted, if_true]
  | desCmac mode rejectWeak =>
    obtain ⟨stored, ctx⟩ := ctx
    obtain ⟨rfl, held⟩ := holds
    obtain ⟨after, accepted, later⟩ := held.update (show 0 < Des.blockLen from Mac.reduces_des.1) data
    refine .inl ⟨(stored, after), ?_, rfl, later⟩
    simp only [macUpdate, accepted, if_true]

theorem Holds.final (holds : prf.Holds key ctx message) :
    ∃ tag, prf.macFinal ctx = some tag ∧ prf.Tag key message tag := by
  cases prf with
  | hmac hash compression =>
    have keyed : (hash.info compression).Keyed ctx key message := holds
    exact ⟨_, congrArg Prod.fst (keyed.final (hash.hmacs compression)), rfl⟩
  | aesCmac keyLen aes =>
    obtain ⟨stored, ctx⟩ := ctx
    obtain ⟨rfl, held⟩ := holds
    obtain ⟨tag, output, cmac, _⟩ := held.final Mac.reduces_aes
    exact ⟨tag.bytes, congrArg (Option.map Octets.bytes) output, tag, cmac, rfl⟩
  | desCmac mode rejectWeak =>
    obtain ⟨stored, ctx⟩ := ctx
    obtain ⟨rfl, held⟩ := holds
    obtain ⟨tag, output, cmac, _⟩ := held.final Mac.reduces_des
    exact ⟨tag.bytes, congrArg (Option.map Octets.bytes) output, tag, cmac, rfl⟩

theorem Fits.mono {few many : Nat} (fits : prf.Fits many) (le : few ≤ many) : prf.Fits few := by
  cases prf with
  | hmac hash compression =>
    rw [Fits] at fits ⊢
    omega
  | aesCmac keyLen aes => trivial
  | desCmac mode rejectWeak => trivial

theorem Holds.feed (holds : prf.Holds key ctx message) (segments : List Bytes) :
    (∃ after, prf.feed ctx segments = some after ∧
        prf.Holds key after (message ++ segments.flatten)) ∨
      (¬ prf.Fits (message ++ segments.flatten).length ∧ prf.feed ctx segments = none) := by
  induction segments generalizing ctx message with
  | nil =>
    rw [List.flatten_nil, List.append_nil]
    exact .inl ⟨ctx, rfl, holds⟩
  | cons segment rest ih =>
    rw [List.flatten_cons, ← List.append_assoc, Prf.feed]
    split
    · rcases holds.update segment with ⟨after, accepted, later⟩ | ⟨long, refused⟩
      · rw [accepted, Option.bind_some]
        exact ih later
      · rw [refused, Option.bind_none]
        refine .inr ⟨fun fits => long (fits.mono ?_), rfl⟩
        rw [@List.length_append _ _ rest.flatten]
        exact Nat.le_add_right _ _
    · rename_i empty
      rw [List.length_eq_zero_iff.mp (not_not.mp empty), List.append_nil]
      exact ih holds

theorem Holds.run {prf : Prf} {key : Bytes} {ctx : prf.Context} (holds : prf.Holds key ctx [])
    (segments : List Bytes) : (prf.Fits segments.flatten.length ∧
        ∃ tag, prf.run ctx segments = some tag ∧ prf.Tag key segments.flatten tag) ∨
      (¬ prf.Fits segments.flatten.length ∧ prf.run ctx segments = none) := by
  rw [Prf.run]
  rcases holds.feed segments with ⟨after, fed, later⟩ | ⟨long, refused⟩
  · obtain ⟨tag, output, right⟩ := later.final
    rw [fed]
    exact .inl ⟨later.fits, tag, output, right⟩
  · rw [refused]
    exact .inr ⟨long, rfl⟩

theorem exists_function (prf : Prf) (key : Bytes) :
    ∃ f : Bytes → Bytes, ∀ message, prf.Tag key message (f message) := by
  cases prf with
  | hmac hash compression => exact ⟨(hash.info compression).hmac key, fun _ => rfl⟩
  | aesCmac keyLen aes =>
    choose mac cmac using Mac.exists_cmac Mac.reduces_aes (aes key)
    exact ⟨fun message => (mac message).bytes, fun message => ⟨mac message, cmac message, rfl⟩⟩
  | desCmac mode rejectWeak =>
    choose mac cmac using Mac.exists_cmac Mac.reduces_des (Mac.desCipher mode key)
    exact ⟨fun message => (mac message).bytes, fun message => ⟨mac message, cmac message, rfl⟩⟩

end Prf

end TinyCrypto.Kdf
