import TinyCrypto.Hash.Core

/-! # HMAC over a stream of updates

The HMAC entry points of `hash_core.c`, which keep the two states after the key blocks, compared
with FIPS 198-1 on the whole message.
-/

namespace TinyCrypto.Hash

open Library

/-- `HMAC_IPAD` and `HMAC_OPAD`. -/
def ipad : UInt8 := 0x36

def opad : UInt8 := 0x5c

/-- An HMAC context: the inner hash, and the state after the block of `HMAC_OPAD`. -/
structure HmacContext where
  inner : Context
  outerState : Bytes
  deriving DecidableEq

namespace Info

variable (info : Info)

def hmacWiped : HmacContext :=
  let state := List.replicate info.stateInit.length 0
  ⟨⟨⟨state, 0, []⟩, false⟩, state⟩

/-- `hmac_key_block`, or none for TC_ERROR. -/
def hmacKeyBlock (key : Bytes) : Option Bytes := if key.length > info.blockBytes then
    (info.absorb info.start key).map fun view =>
      let digest := info.finish view
      digest ++ List.replicate (info.blockBytes - digest.length) 0
  else some (key ++ List.replicate (info.blockBytes - key.length) 0)

/-- `tc_hmac_core_init`. None is TC_ERROR and leaves a wiped context. -/
def hmacInit (key : Bytes) : Option HmacContext := (info.hmacKeyBlock key).map fun block =>
    let block := block.map (· ^^^ ipad)
    let inner : View := { info.start with
      state := info.compress info.stateInit block
      count := info.blockBytes }
    let block := block.map (· ^^^ (ipad ^^^ opad))
    ⟨⟨inner, true⟩, info.compress info.stateInit block⟩

/-- `tc_hmac_core_update`: whether it returned TC_OK, and the context. -/
def hmacUpdate (ctx : HmacContext) (data : Bytes) : Bool × HmacContext :=
  if !info.viewIsLive ctx.inner then (false, ctx)
  else
    match info.absorb ctx.inner.view data with
    | none => (false, ctx)
    | some view => (true, { ctx with inner := { ctx.inner with view } })

/-- `tc_hmac_core_final`: the tag, and the wiped context. -/
def hmacFinal (ctx : HmacContext) : Option Bytes × HmacContext :=
  if !info.viewIsLive ctx.inner then (none, ctx)
  else
    let innerDigest := info.finish ctx.inner.view
    let outer := info.streamFinish ctx.outerState (info.blockBytes + info.digestBytes) innerDigest
    (some (info.digestOut outer), info.hmacWiped)

def hmacUpdates : HmacContext → List Bytes → HmacContext × List Bytes
  | ctx, [] => (ctx, [])
  | ctx, data :: rest =>
    let (accepted, ctx) := info.hmacUpdate ctx data
    let (ctx, taken) := hmacUpdates ctx rest
    (ctx, if accepted then data :: taken else taken)

def hmacAbsorb : HmacContext → List Bytes → Option HmacContext
  | ctx, [] => some ctx
  | ctx, part :: rest =>
    let (accepted, ctx) := info.hmacUpdate ctx part
    if accepted then hmacAbsorb ctx rest else none

/-- `tc_hmac_core_parts`, or none for TC_ERROR. -/
def hmacParts (key : Bytes) (parts : List Bytes) : Option Bytes := do
  let ctx ← info.hmacInit key
  let ctx ← info.hmacAbsorb ctx parts
  (info.hmacFinal ctx).1

end Info

/-- The two contexts of `tc_hmac_core_resume_parts`. -/
structure Resumption where
  keyed : HmacContext
  context : HmacContext
  deriving DecidableEq

namespace Info

variable (info : Info)

/-- `tc_hmac_core_resume_parts`: the tag, and both contexts. -/
def hmacResumeParts (r : Resumption) (parts : List Bytes) : Option Bytes × Resumption :=
  let r := { r with context := r.keyed }
  let tag := (info.hmacAbsorb r.context parts).bind fun ctx => (info.hmacFinal ctx).1
  (tag, { r with context := info.hmacWiped })

def hmacResumes : Resumption → List (List Bytes) → List (Option Bytes) × Resumption
  | r, [] => ([], r)
  | r, parts :: rest =>
    let (tag, r) := info.hmacResumeParts r parts
    let (tags, r) := hmacResumes r rest
    (tag :: tags, r)

def k0 (key : Bytes) : Bytes :=
  let short := if key.length > info.blockBytes then info.standardDigest key else key
  short ++ List.replicate (info.blockBytes - short.length) 0

def keyed (key : Bytes) (pad : UInt8) : Bytes := (info.k0 key).map (· ^^^ pad)

def hmac (key message : Bytes) : Bytes :=
  info.standardDigest (info.keyed key opad ++ info.standardDigest (info.keyed key ipad ++ message))

/-- A digest leaves room in a block, and a block in the longest message. -/
structure Hmacs : Prop where
  shorter : info.digestBytes < info.blockBytes
  room : info.blockBytes ≤ info.maxMessageBytes

end Info

theorem Core.fits (hash : Core) :
    hash.digestBytes < hash.blockBytes ∧ hash.blockBytes ≤ hash.maxMessageBytes := by
  cases hash with
  | md5 => decide
  | sha algorithm => cases algorithm <;> decide

theorem Core.digestBytes_pos (hash : Core) : 0 < hash.digestBytes := by
  cases hash with
  | md5 => decide
  | sha algorithm => cases algorithm <;> decide

theorem Core.hmacs (hash : Core) (c : Core.Compression hash) : (hash.info c).Hmacs :=
  ⟨hash.fits.1, hash.fits.2⟩

variable {info : Info} {key message : Bytes} {ctx : HmacContext}

theorem keyed_length (hmacs : info.Hmacs) (key : Bytes) (pad : UInt8) :
    (info.keyed key pad).length = info.blockBytes := by
  have shorter := hmacs.shorter
  have size := @Info.digest_length info key
  rw [digest_eq_standard] at size
  rw [Info.keyed, List.length_map, Info.k0]
  split
  · simp only [List.length_append, List.length_replicate, size]
    omega
  · simp only [List.length_append, List.length_replicate]
    omega

theorem hmacKeyBlock_eq (hmacs : info.Hmacs) (key : Bytes) : info.hmacKeyBlock key =
      if key.length ≤ info.maxMessageBytes then some (info.k0 key) else none := by
  have room := hmacs.room
  rw [Info.hmacKeyBlock, Info.k0]
  by_cases long : key.length > info.blockBytes
  · simp only [long, if_true]
    by_cases fits : key.length ≤ info.maxMessageBytes
    · obtain ⟨view, absorbed, holds⟩ := @Info.Absorbed.fits _ _ _ key info.start_absorbed fits
      rw [absorbed, if_pos fits, Option.map_some, holds.finish, List.nil_append, digest_eq_standard]
    · have filled : key ≠ [] := by
        apply List.ne_nil_of_length_pos
        omega
      rw [@Info.Absorbed.long _ _ _ key info.start_absorbed filled (by simpa using fits),
        if_neg fits]
      rfl
  · have fits : key.length ≤ info.maxMessageBytes := by omega
    simp only [long, if_false, fits, if_true]

structure Info.Keyed (info : Info) (ctx : HmacContext) (key message : Bytes) : Prop where
  inner : info.Holds ctx.inner (info.keyed key ipad ++ message)
  outer : ctx.outerState = info.compress info.stateInit (info.keyed key opad)

theorem fold_block {block : Bytes} (full : block.length = info.blockBytes) :
    Blocks.fold info.blockBytes info.compress info.stateInit block =
      (info.compress info.stateInit block, []) :=
  Blocks.fold_full info.block_pos full _

theorem pad_pad (block : Bytes) :
    (block.map (· ^^^ ipad)).map (· ^^^ (ipad ^^^ opad)) = block.map (· ^^^ opad) := by
  rw [List.map_map]
  refine List.map_congr_left fun b _ => ?_
  simp only [Function.comp_apply, UInt8.xor_assoc]
  rw [← UInt8.xor_assoc ipad, UInt8.xor_self, UInt8.zero_xor]

theorem hmacInit_eq (hmacs : info.Hmacs) (key : Bytes) :
    (info.maxMessageBytes < key.length ∧ info.hmacInit key = none) ∨
      ∃ ctx, key.length ≤ info.maxMessageBytes ∧ info.hmacInit key = some ctx ∧
        info.Keyed ctx key [] := by
  rw [Info.hmacInit, hmacKeyBlock_eq hmacs]
  by_cases fits : key.length ≤ info.maxMessageBytes
  · right
    have size := keyed_length hmacs key ipad
    rw [if_pos fits]
    refine ⟨_, fits, rfl, ⟨rfl, ⟨?_, ?_⟩, ?_⟩, ?_⟩
    · rw [List.append_nil, fold_block size]
      rfl
    · rw [List.append_nil, size]
    · rw [List.append_nil, size]
      exact hmacs.room
    · exact congrArg (info.compress info.stateInit) (pad_pad (info.k0 key))
  · left
    rw [if_neg fits]
    exact ⟨by omega, rfl⟩

theorem hmacUpdate_eq (ctx : HmacContext) (data : Bytes) : info.hmacUpdate ctx data =
      ((info.coreUpdate ctx.inner data).1,
        { ctx with inner := (info.coreUpdate ctx.inner data).2 }) := by
  rw [Info.hmacUpdate, Info.coreUpdate]
  split
  · rfl
  · cases info.absorb ctx.inner.view data <;> rfl

theorem Info.Keyed.update (keyed : info.Keyed ctx key message) (data : Bytes) :
    ((info.hmacUpdate ctx data).1 = true ∧
        (info.keyed key ipad ++ (message ++ data)).length ≤ info.maxMessageBytes ∧
        info.Keyed (info.hmacUpdate ctx data).2 key (message ++ data)) ∨
      (info.hmacUpdate ctx data = (false, ctx) ∧
        info.maxMessageBytes < (info.keyed key ipad ++ (message ++ data)).length) := by
  rw [hmacUpdate_eq, ← List.append_assoc]
  rcases keyed.inner.update data with ⟨accepted, fits, later⟩ | ⟨refused, long⟩
  · rw [List.append_assoc] at later
    exact .inl ⟨accepted, fits, later, keyed.outer⟩
  · rw [refused]
    exact .inr ⟨rfl, long⟩

theorem hmacUpdates_eq (ctx : HmacContext) (chunks : List Bytes) : info.hmacUpdates ctx chunks =
      ({ ctx with inner := (info.coreUpdates ctx.inner chunks).1 },
        (info.coreUpdates ctx.inner chunks).2) := by
  induction chunks generalizing ctx with
  | nil => rfl
  | cons data rest ih =>
    rw [Info.hmacUpdates, hmacUpdate_eq]
    simp only [ih, Info.coreUpdates]

theorem Info.Keyed.updates (keyed : info.Keyed ctx key message) (chunks : List Bytes) :
    info.Keyed (info.hmacUpdates ctx chunks).1 key
        (message ++ (info.hmacUpdates ctx chunks).2.flatten) ∧
      ((info.keyed key ipad ++ (message ++ chunks.flatten)).length ≤ info.maxMessageBytes →
        (info.hmacUpdates ctx chunks).2 = chunks) := by
  obtain ⟨after, all⟩ := keyed.inner.updates chunks
  rw [List.append_assoc] at after all
  rw [hmacUpdates_eq]
  exact ⟨⟨after, keyed.outer⟩, all⟩

theorem Info.Keyed.absorb (keyed : info.Keyed ctx key message) (parts : List Bytes) :
    if (info.keyed key ipad ++ (message ++ parts.flatten)).length ≤ info.maxMessageBytes then
      ∃ after, info.hmacAbsorb ctx parts = some after ∧
        info.Keyed after key (message ++ parts.flatten) else info.hmacAbsorb ctx parts = none := by
  induction parts generalizing ctx message with
  | nil =>
    have within := keyed.inner.within
    rw [List.flatten_nil, List.append_nil, if_pos within]
    exact ⟨ctx, rfl, keyed⟩
  | cons part rest ih =>
    rw [List.flatten_cons, ← List.append_assoc message, Info.hmacAbsorb]
    rcases keyed.update part with ⟨accepted, fits, later⟩ | ⟨refused, long⟩
    · have next := ih later
      simp only [accepted, if_true]
      exact next
    · have beyond : ¬ (info.keyed key ipad ++ (message ++ part ++ rest.flatten)).length ≤
          info.maxMessageBytes := by
        simp only [List.length_append] at long ⊢
        omega
      rw [refused, if_neg beyond]
      rfl

theorem Info.Keyed.final (hmacs : info.Hmacs) (keyed : info.Keyed ctx key message) :
    info.hmacFinal ctx = (some (info.hmac key message), info.hmacWiped) := by
  have inner : info.finish ctx.inner.view =
      info.standardDigest (info.keyed key ipad ++ message) := by
    rw [keyed.inner.absorbed.finish, digest_eq_standard]
  have size : (info.standardDigest (info.keyed key ipad ++ message)).length = info.digestBytes := by
    rw [← digest_eq_standard, Info.digest_length]
  have block := keyed_length hmacs key opad
  have outer : Blocks.fold info.blockBytes info.compress info.stateInit
      (info.keyed key opad ++ info.standardDigest (info.keyed key ipad ++ message)) =
      (ctx.outerState, info.standardDigest (info.keyed key ipad ++ message)) := by
    rw [Blocks.fold_append info.block_pos, fold_block block, List.nil_append,
      Blocks.fold_short (by rw [size]; exact hmacs.shorter), keyed.outer]
  have tag : info.hmac key message = info.digestOut (info.streamFinish ctx.outerState
      (info.blockBytes + info.digestBytes)
      (info.standardDigest (info.keyed key ipad ++ message))) := by
    rw [Info.hmac, ← digest_eq_standard, Info.digest, outer, List.length_append, block, size]
    rfl
  rw [Info.hmacFinal, keyed.inner.live, inner, tag]
  rfl

def Info.limitedHmac (info : Info) (key message : Bytes) : Option Bytes :=
  if info.blockBytes + message.length ≤ info.maxMessageBytes then some (info.hmac key message)
  else none

theorem Info.Keyed.parts (hmacs : info.Hmacs) (keyed : info.Keyed ctx key []) (parts : List Bytes) :
    ((info.hmacAbsorb ctx parts).bind fun ctx => (info.hmacFinal ctx).1) =
      info.limitedHmac key parts.flatten := by
  have absorbed := keyed.absorb parts
  rw [List.nil_append, List.length_append, keyed_length hmacs] at absorbed
  rw [Info.limitedHmac]
  split at absorbed
  · rename_i fits
    obtain ⟨after, reached, holds⟩ := absorbed
    rw [reached, if_pos fits, Option.bind_some, holds.final hmacs]
  · rename_i long
    rw [absorbed, if_neg long]
    rfl

theorem hmacParts_eq (hmacs : info.Hmacs) (key : Bytes) (parts : List Bytes) :
    info.hmacParts key parts =
      if key.length ≤ info.maxMessageBytes then info.limitedHmac key parts.flatten else none := by
  rw [Info.hmacParts]
  rcases hmacInit_eq hmacs key with ⟨long, refused⟩ | ⟨ctx, fits, started, keyed⟩
  · rw [refused, if_neg (by omega)]
    rfl
  · have tags := keyed.parts hmacs parts
    rw [started, if_pos fits]
    exact tags

theorem Info.Keyed.resume (hmacs : info.Hmacs) (keyed : info.Keyed ctx key [])
    (r : Resumption) (same : r.keyed = ctx) (parts : List Bytes) :
    (info.hmacResumeParts r parts).1 = info.limitedHmac key parts.flatten := by
  rw [← keyed.parts hmacs, ← same]
  rfl

theorem Info.Keyed.resumes (hmacs : info.Hmacs) (keyed : info.Keyed ctx key [])
    (r : Resumption) (same : r.keyed = ctx) (requests : List (List Bytes)) :
    (info.hmacResumes r requests).1 =
        requests.map (fun parts => info.limitedHmac key parts.flatten) ∧
      (info.hmacResumes r requests).2.keyed = ctx := by
  induction requests generalizing r with
  | nil => exact ⟨rfl, same⟩
  | cons parts rest ih =>
    obtain ⟨tags, kept⟩ := ih (info.hmacResumeParts r parts).2 same
    rw [Info.hmacResumes]
    simp only [tags, keyed.resume hmacs r same, kept, List.map_cons]
    exact ⟨trivial, trivial⟩

/-- HMAC contexts of every hash give HMAC of the whole message. A context that only has its key
    serves any number of messages and gives the tags of contexts with that key. -/
theorem hmac_streaming (hash : Core) (c : Core.Compression hash) (key : Bytes)
    (chunks : List Bytes) (requests : List (List Bytes)) :
    let info := hash.info c
    (∀ parts : List Bytes, info.hmacParts key parts = if key.length ≤ hash.maxMessageBytes ∧
          hash.blockBytes + parts.flatten.length ≤ hash.maxMessageBytes then
        some (info.hmac key parts.flatten)
      else none) ∧
    match info.hmacInit key with
    | none => hash.maxMessageBytes < key.length
    | some ctx =>
      let after := (info.hmacUpdates ctx chunks).1
      let taken := (info.hmacUpdates ctx chunks).2
      info.hmacFinal after = (some (info.hmac key taken.flatten), info.hmacWiped) ∧
        (hash.blockBytes + chunks.flatten.length ≤ hash.maxMessageBytes → taken = chunks) ∧
        (∀ data : Bytes, (info.hmacUpdate after data).1 = false ↔
          hash.maxMessageBytes < hash.blockBytes + taken.flatten.length + data.length) ∧
        ∀ context : HmacContext, let resumed := info.hmacResumes ⟨ctx, context⟩ requests
          resumed.1 = requests.map (info.hmacParts key) ∧ resumed.2.keyed = ctx := by
  intro info
  have hmacs : info.Hmacs := hash.hmacs c
  have limit : info.maxMessageBytes = hash.maxMessageBytes := rfl
  have block : info.blockBytes = hash.blockBytes := rfl
  refine ⟨fun parts => ?_, ?_⟩
  · rw [hmacParts_eq hmacs, Info.limitedHmac, limit, block]
    split_ifs <;> grind
  rcases hmacInit_eq hmacs key with ⟨long, refused⟩ | ⟨ctx, fits, started, keyed⟩
  · rw [refused]
    exact long
  · rw [started]
    obtain ⟨after, all⟩ := keyed.updates chunks
    rw [List.nil_append] at after all
    rw [List.length_append, keyed_length hmacs] at all
    refine ⟨after.final hmacs, all, fun data => ?_, fun context => ?_⟩
    · rcases after.update data with ⟨accepted, fits, -⟩ | ⟨refused, long⟩
      · simp only [List.length_append, keyed_length hmacs, limit, block] at fits
        rw [accepted]
        exact iff_of_false (by simp) (by omega)
      · simp only [List.length_append, keyed_length hmacs, limit, block] at long
        rw [refused]
        exact iff_of_true rfl (by omega)
    · obtain ⟨tags, kept⟩ := keyed.resumes hmacs ⟨ctx, context⟩ rfl requests
      refine ⟨?_, kept⟩
      rw [tags]
      refine List.map_congr_left fun parts _ => ?_
      rw [hmacParts_eq hmacs, if_pos fits]

end TinyCrypto.Hash
