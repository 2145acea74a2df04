import TinyCrypto.Des.Cipher
import TinyCrypto.Mac.Core

/-! # The MACs of DES

`des_mac.c`: CMAC, and ISO/IEC 9797-1 MAC algorithms 1 and 3 with a three-key extension. The
storage of a caller is disjoint from the context.
-/

namespace TinyCrypto.Mac

open Des (SboxMode RoundKey)

def desCipher (mode : SboxMode) (key : Bytes) (block : Octets Des.blockLen) : Octets Des.blockLen :=
  Des.encryptScheduled mode (Des.scheduleKey mode key) block (key.length ≠ Des.keyLen)

/-- `tc_des_cmac_schedule`, which refuses weak keys in some builds. -/
def desCmacSchedule (rejectWeak : Bool) (key : Bytes) : Bool :=
  if key.length ≠ Des.keyLen && key.length ≠ Des.keyLen2Key && key.length ≠ Des.keyLen3Key then
    false
  else if rejectWeak && Des.bundleIsRejected key key.length then false
  else true

/-- `TC_DES_CMAC_init`. -/
def desCmacInit (mode : SboxMode) (rejectWeak : Bool) (key : Bytes) :
    Option (CmacContext Des.blockLen) :=
  if !desCmacSchedule rejectWeak key then none else some (cmacInit (desCipher mode key) 0x1b)

/-- `TC_DES_ISO9797_algorithm`. -/
inductive Algorithm where
  | alg1
  | alg3
  | alg3ThreeKeyExtension
  deriving DecidableEq

/-- `TC_DES_ISO9797_padding`. -/
inductive Padding where
  | padNone
  | pad1
  | pad2
  deriving DecidableEq

/-- `TC_DES_ISO9797_ctx`. -/
structure Iso9797Context (mode : SboxMode) where
  schedule : List (RoundKey mode)
  chain : Chain Des.blockLen
  algorithm : Algorithm
  padding : Padding
  active : Bool
  nonempty : Bool

namespace Iso9797Context

variable {mode : SboxMode}

/-- `TC_DES_ISO9797_ctx_clear`. -/
def clear (mode : SboxMode) : Iso9797Context mode :=
  ⟨[], .start Des.blockLen, .alg1, .padNone, false, false⟩

def cipher (ctx : Iso9797Context mode) (block : Octets Des.blockLen) : Octets Des.blockLen :=
  Des.encryptScheduled mode ctx.schedule block (ctx.algorithm = .alg1)

end Iso9797Context

variable {mode : SboxMode}

/-- `tc_des_iso9797_output_transformation3`. -/
def outputTransformation3 (ctx : Iso9797Context mode) (block : Octets Des.blockLen) :
    Octets Des.blockLen :=
  let block := Des.cipherBlock mode (ctx.schedule.drop 16) block true
  Des.cipherBlock mode (ctx.schedule.drop 32) block false

/-- `TC_DES_ISO9797_init`. -/
def iso9797Init (mode : SboxMode) (rejectWeak : Bool) (algorithm : Algorithm) (padding : Padding)
    (key : Bytes) : Option (Iso9797Context mode) :=
  if (algorithm = .alg3 && key.length ≠ Des.keyLen2Key) ||
      (algorithm = .alg3ThreeKeyExtension && key.length ≠ Des.keyLen3Key) ||
      (algorithm = .alg1 && key.length ≠ Des.keyLen2Key && key.length ≠ Des.keyLen3Key) then none
  else if Des.keysEqual key (key.drop Des.keyLen) || (key.length = Des.keyLen3Key &&
        Des.keysEqual (key.drop Des.keyLen) (key.drop Des.keyLen2Key)) then none
  else if rejectWeak && Des.bundleIsRejected key key.length then none
  else some ⟨Des.scheduleKey mode key, .start Des.blockLen, algorithm, padding, true, false⟩

/-- `TC_DES_ISO9797_update`: whether it returned TC_OK, and the context. -/
def iso9797Update (ctx : Iso9797Context mode) (msg : Bytes) : Bool × Iso9797Context mode :=
  if !ctx.active || ctx.chain.block.length ≥ Des.blockLen then (false, ctx)
  else
    let ctx := if msg.length ≠ 0 then { ctx with nonempty := true } else ctx
    (true, { ctx with chain := cbcUpdate ctx.cipher ctx.chain msg false })

/-- `TC_DES_ISO9797_final`: the tag, and the context. -/
def iso9797Final (ctx : Iso9797Context mode) : Option (Octets Des.blockLen) × Iso9797Context mode :=
  let used := ctx.chain.block.length
  if !ctx.active || used ≥ Des.blockLen then (none, ctx)
  else if (ctx.padding = .padNone && used ≠ 0) || (ctx.padding = .padNone && !ctx.nonempty) then
    (none, .clear mode)
  else
    let mac := ctx.chain.mac
    let mac := if ctx.padding = .pad1 && (used ≠ 0 || !ctx.nonempty) then
        cbcBlock ctx.cipher mac (ctx.chain.block ++ List.replicate (Des.blockLen - used) 0)
      else mac
    let mac := if ctx.padding = .pad2 then
        cbcBlock ctx.cipher mac
          (ctx.chain.block ++ 0x80 :: List.replicate (Des.blockLen - used - 1) 0)
      else mac
    let mac := if ctx.algorithm = .alg3 || ctx.algorithm = .alg3ThreeKeyExtension then
        outputTransformation3 ctx mac
      else mac
    (some mac, .clear mode)

def iso9797Updates : Iso9797Context mode → List Bytes → Bool × Iso9797Context mode
  | ctx, [] => (true, ctx)
  | ctx, msg :: rest =>
    let (accepted, ctx) := iso9797Update ctx msg
    let (all, ctx) := iso9797Updates ctx rest
    (accepted && all, ctx)

end TinyCrypto.Mac
