import TinyCrypto.Aes.GcmStreaming
import TinyCrypto.Aes.Rounds

/-! # Sequences of GCM calls

Any calls in any order on one context. Accepted additional data, text and a
finish give what one encryption of the concatenations gives, and that is the
encryption of SP 800-38D.
-/

namespace TinyCrypto.Aes

open Library
open Sp80038d

inductive GcmCall where
  | aad (bytes : Bytes)
  | text (buf : Bytes)
  | finish (capacity : Nat)
  deriving DecidableEq

section

variable (aes : Cipher) (multiply : Block → Block → Block)

def GcmCall.exec (ctx : Gcm) : GcmCall → Option (Gcm × Bytes)
  | .aad bytes => (ctx.aadUpdate multiply bytes).map fun ctx => (ctx, [])
  | .text buf => ctx.encryptUpdate aes multiply buf
  | .finish capacity => ctx.encryptFinish aes multiply capacity

def execAll : Gcm → List GcmCall → Option (Gcm × List Bytes)
  | ctx, [] => some (ctx, [])
  | ctx, call :: calls => do
    let (ctx, written) ← call.exec aes multiply ctx
    let (ctx, later) ← execAll ctx calls
    return (ctx, written :: later)

def afterCalls (ctx : Gcm) (calls : List GcmCall) : Gcm :=
  calls.foldl (fun ctx call => ((call.exec aes multiply ctx).map Prod.fst).getD ctx) ctx

end

variable {aes : Cipher} {multiply : Block → Block → Block} {keyLen : Nat} {ctx next : Gcm}
variable {key iv aad plaintext : Bytes} {tagLen : Nat}

variable {written : List Bytes}

theorem execAll_append {first second : List GcmCall}
    (accepted : execAll aes multiply ctx (first ++ second) = some (next, written)) :
    ∃ middle early late, execAll aes multiply ctx first = some (middle, early) ∧
      execAll aes multiply middle second = some (next, late) ∧ written = early ++ late := by
  induction first generalizing ctx written with
  | nil => exact ⟨ctx, [], written, rfl, accepted, rfl⟩
  | cons call first ih =>
    rw [List.cons_append, execAll] at accepted
    obtain ⟨⟨after, bytes⟩, called, accepted⟩ := Option.bind_eq_some_iff.mp accepted
    obtain ⟨⟨last, others⟩, rest, accepted⟩ := Option.bind_eq_some_iff.mp accepted
    cases accepted
    obtain ⟨middle, early, late, one, two, same⟩ := ih rest
    refine ⟨middle, bytes :: early, late, ?_, two, ?_⟩
    · simp [execAll, called, one]
    · rw [same]
      rfl

theorem execAll_aads {aads : List Bytes}
    (streaming : Gcm.Streaming aes multiply key iv tagLen ctx aad plaintext)
    (accepted : execAll aes multiply ctx (aads.map .aad) = some (next, written)) :
    Gcm.Streaming aes multiply key iv tagLen next (aad ++ aads.flatten) plaintext ∧
      written = aads.map fun _ => [] := by
  induction aads generalizing ctx aad written with
  | nil =>
    cases accepted
    simpa using streaming
  | cons bytes aads ih =>
    rw [List.map_cons, execAll] at accepted
    obtain ⟨⟨after, out⟩, called, accepted⟩ := Option.bind_eq_some_iff.mp accepted
    obtain ⟨⟨last, others⟩, rest, accepted⟩ := Option.bind_eq_some_iff.mp accepted
    cases accepted
    obtain ⟨absorbed, updated, same⟩ := Option.map_eq_some_iff.mp called
    cases same
    obtain ⟨later, outputs⟩ := ih (Gcm.aadUpdate_streaming streaming updated).1 rest
    rw [List.append_assoc] at later
    exact ⟨later, by rw [outputs]; rfl⟩

theorem execAll_texts {texts : List Bytes}
    (streaming : Gcm.Streaming aes multiply key iv tagLen ctx aad plaintext)
    (accepted : execAll aes multiply ctx (texts.map .text) = some (next, written)) :
    Gcm.Streaming aes multiply key iv tagLen next aad (plaintext ++ texts.flatten) ∧
      written.flatten = Blocks.xorAt (keystream (aes key) inc32
        (inc32 (Sp80038d.j0 multiply (aes key Block.zero) iv))) plaintext.length texts.flatten ∧
      written.map List.length = texts.map List.length := by
  induction texts generalizing ctx plaintext written with
  | nil =>
    cases accepted
    refine ⟨?_, rfl, rfl⟩
    simpa using streaming
  | cons buf texts ih =>
    rw [List.map_cons, execAll] at accepted
    obtain ⟨⟨after, out⟩, called, accepted⟩ := Option.bind_eq_some_iff.mp accepted
    obtain ⟨⟨last, others⟩, rest, accepted⟩ := Option.bind_eq_some_iff.mp accepted
    cases accepted
    obtain ⟨kept, _, bytes⟩ := Gcm.encryptUpdate_streaming streaming called
    obtain ⟨later, outputs, lengths⟩ := ih kept rest
    rw [List.append_assoc] at later
    refine ⟨later, ?_, ?_⟩
    · rw [List.flatten_cons, List.flatten_cons, outputs, bytes, Blocks.xorAt_append,
        List.length_append]
    · rw [List.map_cons, List.map_cons, lengths, bytes, Blocks.xorAt_length]

theorem init_accepts {shortTag : Bool} (keySize : key.length = keyLen) (ivSome : iv.length ≠ 0)
    (ivFits : iv.length ≤ gcmMaxIvBytes) (tagOk : Gcm.tagLengthIsAllowed tagLen shortTag = true) :
    ∃ ctx, Gcm.init aes multiply keyLen key iv tagLen shortTag = some ctx := by
  rw [Gcm.init, if_neg]
  · exact ⟨_, rfl⟩
  · simp only [keySize, ivSome, tagOk, ne_eq, not_true_eq_false, decide_false, Bool.false_or,
      Bool.not_true, Bool.or_false, decide_eq_true_eq, Nat.not_lt, gt_iff_lt]
    exact ivFits

section

variable (streaming : Gcm.Streaming aes multiply key iv tagLen ctx aad plaintext)

include streaming

theorem aadUpdate_accepts {data : Bytes} (phase : ctx.phase = .aad)
    (fits : (aad ++ data).length ≤ gcmMaxAadBytes)
    (packet : Gcm.packetLengthsOk tagLen (aad ++ data).length plaintext.length 0 = true) :
    ∃ next, ctx.aadUpdate multiply data = some next := by
  rw [List.length_append] at fits packet
  rw [← Gcm.packetLengthsOk_aad] at packet
  rw [Gcm.aadUpdate, streaming.sameTagLen, streaming.aadLen, streaming.textLen, packet, if_neg]
  · exact ⟨_, rfl⟩
  · simp only [phase, ne_eq, not_true_eq_false, decide_false, Bool.false_or, Bool.not_true,
      Bool.or_false, decide_eq_true_eq, Nat.not_lt, gt_iff_lt]
    omega

theorem Gcm.Streaming.open : ctx.phase ≠ .uninit ∧ ctx.phase ≠ .final := by
  obtain ⟨phase, _⟩ | ⟨phase, _⟩ := streaming.hash
  · rw [phase]
    simp
  · rw [phase]
    simp

theorem encryptUpdate_accepts {buf : Bytes}
    (fits : (plaintext ++ buf).length ≤ gcmMaxPlaintextBytes)
    (packet : Gcm.packetLengthsOk tagLen aad.length (plaintext ++ buf).length 0 = true) :
    ∃ result, ctx.encryptUpdate aes multiply buf = some result := by
  rw [List.length_append] at fits packet
  rw [← Gcm.packetLengthsOk_text] at packet
  rw [Gcm.encryptUpdate, streaming.sameTagLen, streaming.aadLen, streaming.textLen, packet, if_neg]
  · exact ⟨_, rfl⟩
  · simp only [streaming.open.1, streaming.open.2, decide_false, Bool.false_or, Bool.not_true,
      Bool.or_false, decide_eq_true_eq, Nat.not_lt, gt_iff_lt]
    omega

theorem encryptFinish_accepts : ∃ result, ctx.encryptFinish aes multiply tagLen = some result := by
  rw [Gcm.encryptFinish, streaming.sameTagLen, streaming.aadLen, streaming.textLen,
    streaming.packet, if_neg]
  · exact ⟨_, rfl⟩
  · simp [streaming.open.1, streaming.open.2]

end

theorem gcmArgsOk_iff {input : Bytes} {capacity : Nat} {shortTag : Bool} :
    gcmArgsOk keyLen key iv aad input capacity tagLen shortTag = true ↔
      key.length = keyLen ∧ iv.length ≠ 0 ∧ Gcm.tagLengthIsAllowed tagLen shortTag = true ∧
        iv.length ≤ gcmMaxIvBytes ∧ aad.length ≤ gcmMaxAadBytes ∧
        input.length ≤ gcmMaxPlaintextBytes ∧ input.length ≤ capacity ∧
        Gcm.packetLengthsOk tagLen aad.length input.length 0 = true := by
  simp [gcmArgsOk, and_assoc]

/-- One-shot encryption is the encryption of SP 800-38D. -/
theorem gcmEncrypt_eq (aes : Cipher) (multiply : Block → Block → Block) (keyLen : Nat)
    (key iv aad plaintext : Bytes) (capacity tagLen : Nat) (shortTag : Bool) :
    gcmEncrypt aes multiply keyLen key iv aad plaintext capacity tagLen shortTag =
      if gcmArgsOk keyLen key iv aad plaintext capacity tagLen shortTag = true then
        some (encrypt (aes key) multiply iv aad plaintext tagLen) else none := by
  rw [gcmEncrypt]
  split
  · rename_i allowed
    obtain ⟨keySize, ivSome, tagOk, ivFits, aadFits, textFits, _, packet⟩ := gcmArgsOk_iff.mp allowed
    obtain ⟨first, started⟩ := @init_accepts aes multiply keyLen key iv tagLen shortTag keySize
      ivSome ivFits tagOk
    obtain ⟨streaming, phase, _⟩ := Gcm.init_streaming started
    have aadPacket := Gcm.packetLengthsOk_empty packet
    obtain ⟨second, absorbed⟩ := aadUpdate_accepts streaming phase aadFits aadPacket
    obtain ⟨streaming, _⟩ := Gcm.aadUpdate_streaming streaming absorbed
    obtain ⟨⟨third, ciphertext⟩, crypted⟩ := encryptUpdate_accepts streaming textFits packet
    obtain ⟨streaming, _, bytes⟩ := Gcm.encryptUpdate_streaming streaming crypted
    obtain ⟨⟨last, tag⟩, finished⟩ := encryptFinish_accepts streaming
    obtain ⟨_, tagged⟩ := Gcm.encryptFinish_streaming streaming finished
    simp only [started, absorbed, crypted, finished, bind, Option.bind, pure]
    rw [tagged, bytes]
    rfl
  · rfl

theorem afterCalls_append (first second : List GcmCall) :
    afterCalls aes multiply ctx (first ++ second) =
      afterCalls aes multiply (afterCalls aes multiply ctx first) second :=
  List.foldl_append

theorem afterCalls_accepted {call : GcmCall} {calls : List GcmCall} {written : Bytes}
    (accepted : call.exec aes multiply ctx = some (next, written)) :
    afterCalls aes multiply ctx (call :: calls) = afterCalls aes multiply next calls := by
  rw [afterCalls, List.foldl_cons, accepted]
  rfl

theorem exec_final (phase : ctx.phase = .final) (call : GcmCall) :
    call.exec aes multiply ctx = none := by
  cases call with
  | aad bytes => simp [GcmCall.exec, Gcm.aadUpdate, phase]
  | text buf => simp [GcmCall.exec, Gcm.encryptUpdate, phase]
  | finish capacity => simp [GcmCall.exec, Gcm.encryptFinish, phase]

theorem afterCalls_final (phase : ctx.phase = .final) (calls : List GcmCall) :
    afterCalls aes multiply ctx calls = ctx := by
  induction calls with
  | nil => rfl
  | cons call calls ih =>
    rw [afterCalls, List.foldl_cons, exec_final phase]
    exact ih

theorem gctrLoop_phase (passes : Nat) (ctx : Gcm) (buf : Bytes) :
    (ctx.gctrLoop aes passes buf).1.phase = ctx.phase := by
  induction passes generalizing ctx buf with
  | zero => rfl
  | succ passes ih =>
    rw [Gcm.gctrLoop]
    split
    · rfl
    · simp only
      rw [ih]
      simp only
      split <;> rfl

theorem absorbLoop_phase (passes : Nat) (ctx : Gcm) (data : Bytes) :
    (ctx.absorbLoop multiply passes data).phase = ctx.phase := by
  induction passes generalizing ctx data with
  | zero => rfl
  | succ passes ih =>
    rw [Gcm.absorbLoop]
    split
    · rfl
    split
    · rw [ih]
      rfl
    · simp only
      split
      · rw [ih]
        rfl
      · rw [ih]

theorem startText_phase (some : ctx.phase = .aad ∨ ctx.phase = .text) :
    (ctx.startText multiply).phase = .text := by
  rw [Gcm.startText]
  obtain phase | phase := some
  · rw [if_neg (by simp [phase])]
  · rw [if_pos (by simp [phase]), phase]

theorem encryptUpdate_phase {buf written : Bytes}
    (accepted : ctx.encryptUpdate aes multiply buf = some (next, written)) :
    next.phase = .text := by
  rw [Gcm.encryptUpdate] at accepted
  split at accepted
  · cases accepted
  rename_i allowed
  have some : ctx.phase = .aad ∨ ctx.phase = .text := by
    cases phase : ctx.phase with
    | uninit => simp [phase] at allowed
    | aad => simp
    | text => simp
    | final => simp [phase] at allowed
  have started := @startText_phase multiply ctx some
  cases accepted
  change (Gcm.absorbLoop multiply _ _ _).phase = .text
  rw [absorbLoop_phase, gctrLoop_phase, started]

theorem afterCalls_text (phase : ctx.phase = .text ∨ ctx.phase = .final) (calls : List GcmCall) :
    (afterCalls aes multiply ctx calls).phase = .text ∨
      (afterCalls aes multiply ctx calls).phase = .final := by
  induction calls generalizing ctx with
  | nil => exact phase
  | cons call calls ih =>
    rw [afterCalls, List.foldl_cons]
    refine ih ?_
    cases called : call.exec aes multiply ctx with
    | none => exact phase
    | some result =>
      obtain ⟨next, written⟩ := result
      change next.phase = .text ∨ next.phase = .final
      cases call with
      | aad bytes =>
        obtain other | other := phase <;>
          simp [GcmCall.exec, Gcm.aadUpdate, other] at called
      | text buf => exact .inl (encryptUpdate_phase called)
      | finish capacity =>
        simp only [GcmCall.exec, Gcm.encryptFinish] at called
        split at called
        · cases called
        · cases called
          exact .inr rfl

/-- Streaming gives what one encryption of the concatenations gives, whatever the
    cuts; additional data after text and calls after a finish are refused. -/
theorem gcm_streaming {shortTag : Bool} {start : Gcm}
    (started : Gcm.init aes multiply keyLen key iv tagLen shortTag = some start) :
    (∀ (aads texts : List Bytes) (capacity : Nat) (last : Gcm) (written : List Bytes),
      execAll aes multiply start
          (aads.map .aad ++ texts.map .text ++ [.finish capacity]) = some (last, written) →
        ∃ ciphertexts tag, written = aads.map (fun _ => []) ++ ciphertexts ++ [tag] ∧
            ciphertexts.map List.length = texts.map List.length ∧ (ciphertexts.flatten, tag) =
              encrypt (aes key) multiply iv aads.flatten texts.flatten tagLen ∧
            ∀ room, texts.flatten.length ≤ room →
              gcmEncrypt aes multiply keyLen key iv aads.flatten texts.flatten room tagLen
                shortTag = some (ciphertexts.flatten, tag)) ∧
    (∀ (before between : List GcmCall) (buf bytes : Bytes),
      (GcmCall.exec aes multiply (afterCalls aes multiply start before) (.text buf)).isSome →
        GcmCall.exec aes multiply
          (afterCalls aes multiply start (before ++ .text buf :: between)) (.aad bytes) = none) ∧
    (∀ (before between : List GcmCall) (capacity : Nat) (call : GcmCall),
      (GcmCall.exec aes multiply (afterCalls aes multiply start before) (.finish capacity)).isSome →
        call.exec aes multiply
          (afterCalls aes multiply start (before ++ .finish capacity :: between)) = none) := by
  refine ⟨?_, ?_, ?_⟩
  · intro aads texts capacity last written accepted
    obtain ⟨streaming, _, keySize, ivSome, ivFits, tagOk⟩ := Gcm.init_streaming started
    obtain ⟨second, early, late, accepted, finished, same⟩ := execAll_append accepted
    obtain ⟨first, empties, ciphertexts, absorbed, crypted, joined⟩ := execAll_append accepted
    obtain ⟨streaming, nothing⟩ := execAll_aads streaming absorbed
    obtain ⟨streaming, bytes, lengths⟩ := execAll_texts streaming crypted
    rw [execAll] at finished
    obtain ⟨⟨after, tag⟩, called, finished⟩ := Option.bind_eq_some_iff.mp finished
    cases finished
    obtain ⟨_, tagged⟩ := Gcm.encryptFinish_streaming streaming called
    have result : (ciphertexts.flatten, tag) =
        encrypt (aes key) multiply iv aads.flatten texts.flatten tagLen := by
      rw [bytes, tagged]
      rfl
    refine ⟨ciphertexts, tag, by rw [same, joined, nothing], lengths, result, ?_⟩
    intro room fits
    have allowed : gcmArgsOk keyLen key iv aads.flatten texts.flatten room tagLen shortTag = true :=
      gcmArgsOk_iff.mpr ⟨keySize, ivSome, tagOk, ivFits, streaming.aadFits, streaming.textFits,
        fits, streaming.packet⟩
    rw [gcmEncrypt_eq, if_pos allowed, result]
  · intro before between buf bytes accepted
    obtain ⟨⟨next, written⟩, called⟩ := Option.isSome_iff_exists.mp accepted
    rw [afterCalls_append, afterCalls_accepted called]
    obtain phase | phase := @afterCalls_text aes multiply next
      (Or.inl (encryptUpdate_phase called)) between
    · simp [GcmCall.exec, Gcm.aadUpdate, phase]
    · exact exec_final phase _
  · intro before between capacity call accepted
    obtain ⟨⟨next, written⟩, called⟩ := Option.isSome_iff_exists.mp accepted
    have phase : next.phase = .final := by
      simp only [GcmCall.exec, Gcm.encryptFinish] at called
      split at called
      · cases called
      · cases called
        rfl
    rw [afterCalls_append, afterCalls_accepted called, afterCalls_final phase]
    exact exec_final phase call

/-- A context with a one-byte nonce. -/
def plainStart : Gcm :=
  (Gcm.init (encryptBlock .fast) (gcmMultiply .wide) 16 (List.replicate 16 7) [1] 12 false).getD
    Gcm.cleared

theorem gcm_streaming_plain :
    Gcm.init (encryptBlock .fast) (gcmMultiply .wide) 16 (List.replicate 16 7) [1] 12 false =
        some plainStart ∧ (execAll (encryptBlock .fast) (gcmMultiply .wide) plainStart
        [.aad [1], .aad [2, 3], .text [4], .text [], .text [5], .finish 12]).isSome = true ∧
      GcmCall.exec (encryptBlock .fast) (gcmMultiply .wide)
        (afterCalls (encryptBlock .fast) (gcmMultiply .wide) plainStart [.aad [1], .text [4]])
        (.aad [2]) = none :=
  ⟨rfl, by decide +kernel, (gcm_streaming (rfl :
      Gcm.init (encryptBlock .fast) (gcmMultiply .wide) 16 (List.replicate 16 7) [1] 12 false =
        some plainStart)).2.1 [.aad [1]] [] [4] [2] (by decide +kernel)⟩

end TinyCrypto.Aes
