import TinyCrypto.Aes.Aead
import TinyCrypto.Aes.GcmCalls

/-! # Opening what was sealed

A mode opens exactly what it seals, gives back the sealed text, and leaves zeros
when it does not authenticate. -/

namespace TinyCrypto.Aes

open Library Mac

/-- Encryption and decryption of one mode under one key, nonce and additional data.
    `decrypted` is the text a ciphertext and tag decrypt to. -/
structure Agrees (Admits : (text : Bytes) → (tagLen : Nat) → Prop)
    (encrypts : (plaintext : Bytes) → (capacity tagLen : Nat) → Option (Bytes × Bytes))
    (decrypts : (ciphertext tag output : Bytes) → Bool × Bytes)
    (decrypted : (ciphertext tag : Bytes) → Bytes) : Prop where
  seals : ∀ plaintext capacity tagLen, Admits plaintext tagLen → plaintext.length ≤ capacity →
    (encrypts plaintext capacity tagLen).isSome = true
  roundTrip : ∀ plaintext capacity tagLen ciphertext tag output,
    encrypts plaintext capacity tagLen = some (ciphertext, tag) → plaintext.length ≤ output.length →
      decrypts ciphertext tag output = (true, overwrite output plaintext)
  opens : ∀ ciphertext tag output,
    ((decrypts ciphertext tag output).1 = true ↔ ciphertext.length ≤ output.length ∧
      (encrypts (decrypted ciphertext tag) ciphertext.length tag.length).map Prod.snd = some tag)
  releases : ∀ ciphertext tag output, (decrypts ciphertext tag output).1 = true →
    (decrypts ciphertext tag output).2 = overwrite output (decrypted ciphertext tag)
  wipes : ∀ ciphertext tag output, Admits ciphertext tag.length →
    ciphertext.length ≤ output.length → (decrypts ciphertext tag output).1 = false →
      (decrypts ciphertext tag output).2 = overwrite output (List.replicate ciphertext.length 0)

section

variable {encrypts : Bytes → Nat → Nat → Option (Bytes × Bytes)}
variable {decrypts : Bytes → Bytes → Bytes → Bool × Bytes} {decrypted : Bytes → Bytes → Bytes}

/-- The shape of a mode: encryption gives `crypted` and `tagOf`; decryption
    recomputes the tag from the decrypted text and compares. A tag buffer of
    `tagLen` bytes receives `size tagLen` bytes. -/
structure Recomputes (ok : (length capacity tagLen : Nat) → Prop) (size : Nat → Nat)
    (crypted tagOf : (plaintext : Bytes) → (tagLen : Nat) → Bytes)
    (encrypts : Bytes → Nat → Nat → Option (Bytes × Bytes))
    (decrypts : Bytes → Bytes → Bytes → Bool × Bytes) (decrypted : Bytes → Bytes → Bytes) : Prop where
  sealed : ∀ plaintext capacity tagLen, ok plaintext.length capacity tagLen →
    encrypts plaintext capacity tagLen = some (crypted plaintext tagLen, tagOf plaintext tagLen)
  refused : ∀ plaintext capacity tagLen, ¬ ok plaintext.length capacity tagLen →
    encrypts plaintext capacity tagLen = none
  unsealed : ∀ ciphertext tag output, ok ciphertext.length output.length tag.length →
    size tag.length = tag.length → decrypts ciphertext tag output =
      wipeOrKeep (tagOf (decrypted ciphertext tag) tag.length = tag) output
        (decrypted ciphertext tag) ciphertext.length
  unopened : ∀ ciphertext tag output,
    ¬ (ok ciphertext.length output.length tag.length ∧ size tag.length = tag.length) →
      decrypts ciphertext tag output = (false, output)
  room : ∀ {length capacity tagLen},
    ok length capacity tagLen ↔ length ≤ capacity ∧ ok length length tagLen
  cryptedLength : ∀ plaintext tagLen, (crypted plaintext tagLen).length = plaintext.length
  decryptedLength : ∀ ciphertext tag, (decrypted ciphertext tag).length = ciphertext.length
  tagLength : ∀ plaintext {capacity tagLen}, ok plaintext.length capacity tagLen →
    (tagOf plaintext tagLen).length = size tagLen
  inverse : ∀ plaintext tagLen,
    decrypted (crypted plaintext tagLen) (tagOf plaintext tagLen) = plaintext
  sizeOk : ∀ {length capacity tagLen}, ok length capacity tagLen → ok length capacity (size tagLen)
  sizeSize : ∀ tagLen, size (size tagLen) = size tagLen
  sameTag : ∀ plaintext tagLen, tagOf plaintext (size tagLen) = tagOf plaintext tagLen

variable {ok : Nat → Nat → Nat → Prop} {size : Nat → Nat} {crypted tagOf : Bytes → Nat → Bytes}

def Admitted (ok : (length capacity tagLen : Nat) → Prop) (size : Nat → Nat) (text : Bytes)
    (tagLen : Nat) : Prop :=
  ok text.length text.length tagLen ∧ size tagLen = tagLen

/-- A mode with one check before anything is computed, whose tag has the asked length. -/
theorem Recomputes.of_check [∀ length capacity tagLen, Decidable (ok length capacity tagLen)]
    (sealed : ∀ plaintext capacity tagLen, encrypts plaintext capacity tagLen =
      if ok plaintext.length capacity tagLen then
        some (crypted plaintext tagLen, tagOf plaintext tagLen) else none)
    (unsealed : ∀ ciphertext tag output, decrypts ciphertext tag output =
      if ok ciphertext.length output.length tag.length then
        wipeOrKeep (tagOf (decrypted ciphertext tag) tag.length = tag) output
          (decrypted ciphertext tag) ciphertext.length else (false, output))
    (room : ∀ {length capacity tagLen},
      ok length capacity tagLen ↔ length ≤ capacity ∧ ok length length tagLen)
    (cryptedLength : ∀ plaintext tagLen, (crypted plaintext tagLen).length = plaintext.length)
    (decryptedLength : ∀ ciphertext tag, (decrypted ciphertext tag).length = ciphertext.length)
    (tagLength : ∀ plaintext {capacity tagLen}, ok plaintext.length capacity tagLen →
      (tagOf plaintext tagLen).length = tagLen)
    (inverse : ∀ plaintext tagLen,
      decrypted (crypted plaintext tagLen) (tagOf plaintext tagLen) = plaintext) :
    Recomputes ok id crypted tagOf encrypts decrypts decrypted where
  sealed plaintext capacity tagLen allowed := by rw [sealed, if_pos allowed]
  refused plaintext capacity tagLen refused := by rw [sealed, if_neg refused]
  unsealed ciphertext tag output allowed _ := by rw [unsealed, if_pos allowed]
  unopened ciphertext tag output refused := by
    rw [unsealed, if_neg fun allowed => refused ⟨allowed, rfl⟩]
  room := room
  cryptedLength := cryptedLength
  decryptedLength := decryptedLength
  tagLength := tagLength
  inverse := inverse
  sizeOk allowed := allowed
  sizeSize _ := rfl
  sameTag _ _ := rfl

theorem Recomputes.agrees
    (mode : Recomputes ok size crypted tagOf encrypts decrypts decrypted) :
    Agrees (Admitted ok size) encrypts decrypts decrypted where
  seals := by
    intro plaintext capacity tagLen admitted fits
    rw [mode.sealed _ _ _ (mode.room.mpr ⟨fits, admitted.1⟩)]
    rfl
  roundTrip := by
    intro plaintext capacity tagLen ciphertext tag output sealed fits
    by_cases allowed : ok plaintext.length capacity tagLen
    · rw [mode.sealed _ _ _ allowed] at sealed
      cases sealed
      have length := mode.tagLength plaintext allowed
      have inside := mode.sizeOk (mode.room.mp allowed).2
      rw [mode.unsealed]
      · rw [mode.inverse, length, mode.sameTag, wipeOrKeep, decide_eq_true rfl, if_pos rfl]
      · rw [mode.cryptedLength, length]
        exact mode.room.mpr ⟨fits, inside⟩
      · rw [length]
        exact mode.sizeSize tagLen
    · rw [mode.refused _ _ _ allowed] at sealed
      cases sealed
  opens := by
    intro ciphertext tag output
    constructor
    · intro opened
      by_cases allowed :
          ok ciphertext.length output.length tag.length ∧ size tag.length = tag.length
      · rw [mode.unsealed _ _ _ allowed.1 allowed.2, wipeOrKeep] at opened
        split at opened
        · rename_i same
          obtain ⟨fits, inside⟩ := mode.room.mp allowed.1
          rw [← mode.decryptedLength ciphertext tag] at inside
          refine ⟨fits, ?_⟩
          rw [← mode.decryptedLength ciphertext tag, mode.sealed _ _ _ inside]
          exact congrArg some (of_decide_eq_true same)
        · cases opened
      · rw [mode.unopened _ _ _ allowed] at opened
        cases opened
    · rintro ⟨fits, sealed⟩
      by_cases allowed : ok (decrypted ciphertext tag).length ciphertext.length tag.length
      · rw [mode.sealed _ _ _ allowed] at sealed
        have same : tagOf (decrypted ciphertext tag) tag.length = tag := Option.some.inj sealed
        have length := mode.tagLength _ allowed
        rw [same] at length
        rw [mode.decryptedLength] at allowed
        rw [mode.unsealed _ _ _ (mode.room.mpr ⟨fits, allowed⟩) length.symm, wipeOrKeep,
          decide_eq_true same, if_pos rfl]
      · rw [mode.refused _ _ _ allowed] at sealed
        cases sealed
  releases := by
    intro ciphertext tag output opened
    by_cases allowed : ok ciphertext.length output.length tag.length ∧ size tag.length = tag.length
    · rw [mode.unsealed _ _ _ allowed.1 allowed.2, wipeOrKeep] at opened ⊢
      split at opened
      · rename_i same
        rw [if_pos same]
      · cases opened
    · rw [mode.unopened _ _ _ allowed] at opened
      cases opened
  wipes := by
    intro ciphertext tag output admitted fits failed
    rw [mode.unsealed _ _ _ (mode.room.mpr ⟨fits, admitted.1⟩) admitted.2, wipeOrKeep] at failed ⊢
    split at failed
    · cases failed
    · rename_i other
      rw [if_neg other]

theorem Agrees.of_admits {Admits Fewer : Bytes → Nat → Prop}
    (agrees : Agrees Admits encrypts decrypts decrypted)
    (fewer : ∀ text tagLen, Fewer text tagLen → Admits text tagLen) :
    Agrees Fewer encrypts decrypts decrypted where
  seals plaintext capacity tagLen admitted :=
    agrees.seals plaintext capacity tagLen (fewer _ _ admitted)
  roundTrip := agrees.roundTrip
  opens := agrees.opens
  releases := agrees.releases
  wipes ciphertext tag output admitted := agrees.wipes ciphertext tag output (fewer _ _ admitted)

end

variable {aes : Cipher} {multiply : Block → Block → Block} {keyLen minTagLen : Nat}
variable {key iv aad : Bytes}

def gcmDecrypted (aes : Cipher) (multiply : Block → Block → Block) (key iv ciphertext : Bytes) :
    Bytes :=
  Sp80038d.gctr (aes key) (Sp80038d.inc32 (Sp80038d.j0 multiply (aes key Block.zero) iv)) ciphertext

theorem gcmDecrypt_eq (aes : Cipher) (multiply : Block → Block → Block) (keyLen : Nat)
    (key iv aad ciphertext tag output : Bytes) (shortTag : Bool)
    (allowed : gcmArgsOk keyLen key iv aad ciphertext output.length tag.length shortTag = true) :
    gcmDecrypt aes multiply keyLen key iv aad ciphertext tag output shortTag =
      wipeOrKeep (Sp80038d.tag (aes key) multiply iv aad ciphertext tag.length = tag) output
        (gcmDecrypted aes multiply key iv ciphertext) ciphertext.length := by
  obtain ⟨keySize, ivSome, tagOk, ivFits, aadFits, textFits, _, packet⟩ := gcmArgsOk_iff.mp allowed
  obtain ⟨first, started⟩ := @init_accepts aes multiply keyLen key iv tag.length shortTag keySize
    ivSome ivFits tagOk
  obtain ⟨streaming, phase, _⟩ := Gcm.init_streaming started
  obtain ⟨second, absorbed⟩ := aadUpdate_accepts streaming phase aadFits
    (Gcm.packetLengthsOk_empty packet)
  obtain ⟨streaming, _⟩ := Gcm.aadUpdate_streaming streaming absorbed
  obtain ⟨streaming, phase⟩ := Gcm.startText_streaming streaming
  have hashed := (streaming.authenticating phase).hashed.absorb ciphertext
  obtain ⟨state, kept⟩ := @Gcm.absorb_withHash multiply _ streaming.short ciphertext
  rw [kept] at hashed
  have authenticating : Gcm.Authenticating aes multiply key iv tag.length
      { (second.startText multiply).absorb multiply ciphertext with
        textLen := ciphertext.length } aad ciphertext := by
    rw [kept]
    refine ⟨streaming.sameKey, streaming.sameH, streaming.sameJ0, streaming.sameTagLen,
      streaming.aadLen, rfl, ?_⟩
    rw [List.append_assoc] at hashed
    exact hashed
  have made := authenticating.tag
  obtain ⟨last, finished⟩ := Gcm.finishGhash_withHash multiply
    { (second.startText multiply).absorb multiply ciphertext with textLen := ciphertext.length }
  rw [gcmDecrypt, if_pos allowed, wipeOrKeep]
  simp only [started, absorbed, made, bind, Option.bind, pure]
  by_cases same : Sp80038d.tag (aes key) multiply iv aad ciphertext tag.length = tag
  · rw [if_pos same, if_pos (decide_eq_true same)]
    have keyAt : Gcm.KeyAt aes (Gcm.finishGhash multiply
        { (second.startText multiply).absorb multiply ciphertext with
          textLen := ciphertext.length }) 0 := by
      rw [finished, kept]
      exact streaming.keyAt
    obtain ⟨_, _, _, crypted, _⟩ := Gcm.gctr_keystream keyAt ciphertext
    have bytes : Gcm.keyByte aes (Gcm.finishGhash multiply
        { (second.startText multiply).absorb multiply ciphertext with
          textLen := ciphertext.length }) = keystream (aes key) Sp80038d.inc32
            (Sp80038d.inc32 (Sp80038d.j0 multiply (aes key Block.zero) iv)) := by
      rw [finished, kept, Gcm.keyByte]
      change keystream (aes (second.startText multiply).key) _
        (Sp80038d.inc32 (second.startText multiply).j0) = _
      rw [streaming.sameKey, streaming.sameJ0]
    simp only [crypted, bytes]
    rfl
  · rw [if_neg same, if_neg (by simpa using same)]

theorem gcm_recomputes (aes : Cipher) (multiply : Block → Block → Block) (keyLen : Nat)
    (key iv aad : Bytes) (shortTag : Bool) : Recomputes (fun length capacity tagLen =>
        gcmArgsOk keyLen key iv aad (List.replicate length 0) capacity tagLen shortTag = true) id
      (fun plaintext tagLen => (Sp80038d.encrypt (aes key) multiply iv aad plaintext tagLen).1)
      (fun plaintext tagLen => (Sp80038d.encrypt (aes key) multiply iv aad plaintext tagLen).2)
      (fun plaintext capacity tagLen =>
        gcmEncrypt aes multiply keyLen key iv aad plaintext capacity tagLen shortTag)
      (fun ciphertext tag output =>
        gcmDecrypt aes multiply keyLen key iv aad ciphertext tag output shortTag)
      (fun ciphertext _ => gcmDecrypted aes multiply key iv ciphertext) := by
  have lengths : ∀ (text : Bytes) capacity tagLen,
      gcmArgsOk keyLen key iv aad (List.replicate text.length 0) capacity tagLen shortTag =
        gcmArgsOk keyLen key iv aad text capacity tagLen shortTag := by
    intro text capacity tagLen
    simp [gcmArgsOk]
  have twice : ∀ text, Sp80038d.gctr (aes key)
      (Sp80038d.inc32 (Sp80038d.j0 multiply (aes key Block.zero) iv))
      (gcmDecrypted aes multiply key iv text) = text := fun text => Blocks.xorAt_xorAt _ _ _
  refine .of_check ?_ ?_ ?_ ?_ ?_ ?_ ?_
  · intro plaintext capacity tagLen
    simp only [lengths]
    exact gcmEncrypt_eq _ _ _ _ _ _ _ _ _ _
  · intro ciphertext tag output
    simp only [lengths]
    split
    · rename_i allowed
      rw [gcmDecrypt_eq _ _ _ _ _ _ _ _ _ _ allowed]
      simp only [Sp80038d.encrypt, twice]
    · rename_i refused
      rw [gcmDecrypt, if_neg refused]
  · intro length capacity tagLen
    rw [gcmArgsOk_iff, gcmArgsOk_iff]
    simp only [List.length_replicate]
    constructor
    · rintro ⟨one, two, three, four, five, six, fits, seven⟩
      exact ⟨fits, one, two, three, four, five, six, Nat.le_refl _, seven⟩
    · rintro ⟨fits, one, two, three, four, five, six, _, seven⟩
      exact ⟨one, two, three, four, five, six, fits, seven⟩
  · intro plaintext tagLen
    exact Blocks.xorAt_length _ _ _
  · intro ciphertext tag
    exact Blocks.xorAt_length _ _ _
  · intro plaintext capacity tagLen allowed
    obtain ⟨_, _, tagOk, _⟩ := gcmArgsOk_iff.mp allowed
    have bound : tagLen ≤ blockLen := by
      rw [Gcm.tagLengthIsAllowed] at tagOk
      simp only [blockLen]
      split at tagOk
      · simp at tagOk
        omega
      · simp at tagOk
        omega
    simp only [Sp80038d.encrypt, Sp80038d.tag, Sp80038d.gctr]
    rw [List.length_take, Blocks.xorAt_length, Octets.size]
    exact Nat.min_eq_left bound
  · intro plaintext tagLen
    exact Blocks.xorAt_xorAt _ _ _

theorem tagLength_bound {length maxLength : Nat} {shortTag : Bool}
    (allowed : tagLengthAllowed minTagLen length maxLength shortTag = true) :
    length ≤ maxLength := by
  rw [tagLengthAllowed] at allowed
  split at allowed
  · cases allowed
  · rename_i inside
    simp only [Bool.or_eq_true, decide_eq_true_eq, not_or, Nat.not_lt, gt_iff_lt] at inside
    exact inside.2

namespace Ccm

variable {cipher : Block → Block}

theorem start_short (nonce aad : Bytes) (inputLen tagLen : Nat) :
    (start cipher nonce aad inputLen tagLen).block.length < blockLen := by
  rw [start]
  split
  · simp only [cbcPad]
    split
    · exact blockLen_pos
    · rename_i none
      rw [not_not.mp none]
      exact blockLen_pos
  · exact blockLen_pos

theorem cbcUpdate_nil {st : Chain blockLen} (short : st.block.length < blockLen) :
    cbcUpdate cipher st [] false = st := flush_short (Nat.ne_of_lt short)

theorem decryptPass_eq {passes : Nat} {input : Bytes} (enough : input.length ≤ passes)
    (counter : Block) {st : Chain blockLen} (short : st.block.length < blockLen) :
    decryptPass cipher passes counter st input =
      cbcUpdate cipher st (ctrXor cipher counter input none) false := by
  induction passes generalizing counter st input with
  | zero =>
    have none : input = [] := List.length_eq_zero_iff.mp (Nat.le_zero.mp enough)
    rw [none]
    exact (cbcUpdate_nil short).symm
  | succ passes ih =>
    rw [decryptPass]
    split
    · rename_i none
      rw [List.length_eq_zero_iff.mp none]
      exact (cbcUpdate_nil short).symm
    rename_i some
    simp only
    have fewer : (input.drop (min input.length blockLen)).length ≤ passes := by
      rw [List.length_drop]
      omega
    rw [ih fewer _ (cbcUpdate_short blockLen_pos (Nat.le_of_lt short) _),
      cbcUpdate_append blockLen_pos (Nat.le_of_lt short)]
    congr 1
    exact (ctrXor_block counter rfl).symm

theorem recomputes (aes : Cipher) (keyLen minTagLen : Nat) (key nonce aad : Bytes)
    (shortTag : Bool) : Recomputes (fun length capacity tagLen => key.length = keyLen ∧
        tagLengthAllowed minTagLen tagLen shortTag = true ∧
        argsOk nonce.length length capacity = true) id
      (fun plaintext _ => ctrXor (aes key) ((makeCounter nonce 0).increment 0) plaintext none)
      (fun plaintext tagLen => finishTag (aes key)
        (cbcUpdate (aes key) (start (aes key) nonce aad plaintext.length tagLen) plaintext false)
        nonce tagLen) (fun plaintext capacity tagLen =>
        encrypt aes keyLen minTagLen key nonce aad plaintext capacity tagLen shortTag)
      (fun ciphertext tag output =>
        decrypt aes keyLen minTagLen key nonce aad ciphertext tag output shortTag)
      (fun ciphertext _ =>
        ctrXor (aes key) ((makeCounter nonce 0).increment 0) ciphertext none) := by
  refine .of_check ?_ ?_ ?_ ?_ ?_ ?_ ?_
  · intro plaintext capacity tagLen
    simp only [encrypt]
    grind
  · intro ciphertext tag output
    simp only [decrypt, decryptPass_eq (Nat.le_refl _) _ (start_short _ _ _ _), ctrXor_length]
    grind
  · intro length capacity tagLen
    simp only [argsOk, Bool.and_eq_true, decide_eq_true_eq]
    constructor
    · rintro ⟨keySize, tagOk, ⟨⟨fits, low⟩, high⟩, payload⟩
      exact ⟨fits, keySize, tagOk, ⟨⟨Nat.le_refl _, low⟩, high⟩, payload⟩
    · rintro ⟨fits, keySize, tagOk, ⟨⟨_, low⟩, high⟩, payload⟩
      exact ⟨keySize, tagOk, ⟨⟨fits, low⟩, high⟩, payload⟩
  · intro plaintext tagLen
    exact ctrXor_length _ _ _
  · intro ciphertext tag
    exact ctrXor_length _ _ _
  · rintro plaintext capacity tagLen ⟨_, tagOk, _⟩
    have bound : tagLen ≤ blockLen := tagLength_bound (Bool.and_eq_true_iff.mp
      (Bool.and_eq_true_iff.mp tagOk).1).1
    rw [finishTag, List.length_take, Octets.size]
    exact Nat.min_eq_left bound
  · intro plaintext tagLen
    exact ctrXor_ctrXor _ _ _

end Ccm

namespace Eax

theorem recomputes (aes : Cipher) (keyLen minTagLen : Nat) (key nonce aad : Bytes)
    (shortTag : Bool) : Recomputes (fun length capacity tagLen => key.length = keyLen ∧
        tagLengthAllowed minTagLen tagLen blockLen shortTag = true ∧ length ≤ capacity ∧
        tagLen ≠ 0 ∧ tagLen ≤ blockLen) id
      (fun plaintext _ => eaxCtrXor (aes key) (cmac (aes key) 0 nonce) plaintext)
      (fun plaintext tagLen => fullTag (aes key) nonce aad
        (eaxCtrXor (aes key) (cmac (aes key) 0 nonce) plaintext) tagLen)
      (fun plaintext capacity tagLen =>
        encrypt aes keyLen minTagLen key nonce aad plaintext capacity tagLen shortTag)
      (fun ciphertext tag output =>
        decrypt aes keyLen minTagLen key nonce aad ciphertext tag output shortTag)
      (fun ciphertext _ => eaxCtrXor (aes key) (cmac (aes key) 0 nonce) ciphertext) := by
  refine .of_check ?_ ?_ ?_ ?_ ?_ ?_ ?_
  · intro plaintext capacity tagLen
    simp only [encrypt]
    grind
  · intro ciphertext tag output
    simp only [decrypt, eaxCtrXor, ctrXor_ctrXor]
    grind
  · intro length capacity tagLen
    constructor
    · rintro ⟨keySize, tagOk, fits, some, bound⟩
      exact ⟨fits, keySize, tagOk, Nat.le_refl _, some, bound⟩
    · rintro ⟨fits, keySize, tagOk, _, some, bound⟩
      exact ⟨keySize, tagOk, fits, some, bound⟩
  · intro plaintext tagLen
    exact ctrXor_length _ _ _
  · intro ciphertext tag
    exact ctrXor_length _ _ _
  · rintro plaintext capacity tagLen ⟨_, _, _, _, bound⟩
    rw [fullTag, List.length_take, Octets.size]
    exact Nat.min_eq_left bound
  · intro plaintext tagLen
    exact ctrXor_ctrXor _ _ _

end Eax

namespace Siv

theorem recomputes (aes : Cipher) (keyLen : Nat) (key : Bytes) (ad : List Bytes) : Recomputes
      (fun length capacity tagLen => key.length = keyLen * 2 ∧ blockLen ≤ tagLen ∧
        argsOk ad length capacity = true) (fun _ => blockLen)
      (fun plaintext _ => sivCtr (aes (key.drop keyLen))
        (s2v (aes (key.take keyLen)) ad plaintext) plaintext)
      (fun plaintext _ => (s2v (aes (key.take keyLen)) ad plaintext).bytes)
      (fun plaintext capacity tagLen => encrypt aes keyLen key ad plaintext capacity tagLen)
      (fun ciphertext tag output => decrypt aes keyLen key ad ciphertext tag output)
      (fun ciphertext tag => sivCtr (aes (key.drop keyLen)) (Block.ofBytes tag) ciphertext) := by
  refine ⟨?_, ?_, ?_, ?_, ?_, ?_, ?_, ?_, ?_, ?_, ?_, ?_⟩
  · rintro plaintext capacity tagLen ⟨keySize, room, allowed⟩
    rw [encrypt, if_neg (by simp [keySize, room]), if_neg (by simp [allowed])]
  · intro plaintext capacity tagLen refused
    rw [encrypt]
    split
    · rfl
    rename_i sizes
    split
    · rfl
    rename_i inside
    simp only [Bool.or_eq_true, decide_eq_true_eq, not_or, not_not, Nat.not_lt, ne_eq] at sizes
    exact absurd ⟨sizes.1, sizes.2, by simpa using inside⟩ refused
  · rintro ciphertext tag output ⟨keySize, room, allowed⟩ size
    rw [decrypt, if_neg (by simp [keySize, size.symm]), if_neg (by simp [allowed])]
  · intro ciphertext tag output refused
    rw [decrypt]
    split
    · rfl
    rename_i sizes
    split
    · rfl
    rename_i inside
    simp only [Bool.or_eq_true, decide_eq_true_eq, not_or, not_not, ne_eq] at sizes
    exact absurd ⟨⟨sizes.1, Nat.le_of_eq sizes.2.symm, by simpa using inside⟩, sizes.2.symm⟩ refused
  · intro length capacity tagLen
    simp only [argsOk, Bool.and_eq_true, decide_eq_true_eq]
    constructor
    · rintro ⟨keySize, room, few, fits⟩
      exact ⟨fits, keySize, room, few, Nat.le_refl _⟩
    · rintro ⟨fits, keySize, room, few, _⟩
      exact ⟨keySize, room, few, fits⟩
  · intro plaintext tagLen
    exact ctrXor_length _ _ _
  · intro ciphertext tag
    exact ctrXor_length _ _ _
  · intro plaintext capacity tagLen _
    exact Octets.size _
  · intro plaintext tagLen
    simp only [Octets.ofBytes_bytes]
    exact ctrXor_ctrXor _ _ _
  · rintro length capacity tagLen ⟨keySize, _, allowed⟩
    exact ⟨keySize, Nat.le_refl _, allowed⟩
  · intro tagLen
    rfl
  · intro plaintext tagLen
    rfl

end Siv

/-- Each mode opens exactly what it seals under the same key, nonce and additional
    data, and wipes its output otherwise. -/
theorem aead_agrees (aes : Cipher) (multiply : Block → Block → Block) (keyLen minTagLen : Nat) :
    (∀ (key iv aad : Bytes) (shortTag : Bool), Agrees (fun text tagLen =>
          gcmArgsOk keyLen key iv aad text text.length tagLen shortTag = true)
        (fun plaintext capacity tagLen =>
          gcmEncrypt aes multiply keyLen key iv aad plaintext capacity tagLen shortTag)
        (fun ciphertext tag output =>
          gcmDecrypt aes multiply keyLen key iv aad ciphertext tag output shortTag)
        (fun ciphertext _ => gcmDecrypted aes multiply key iv ciphertext)) ∧
    (∀ (key nonce aad : Bytes) (shortTag : Bool), Agrees (fun text tagLen => key.length = keyLen ∧
          Ccm.tagLengthAllowed minTagLen tagLen shortTag = true ∧
          Ccm.argsOk nonce.length text.length text.length = true) (fun plaintext capacity tagLen =>
          Ccm.encrypt aes keyLen minTagLen key nonce aad plaintext capacity tagLen shortTag)
        (fun ciphertext tag output =>
          Ccm.decrypt aes keyLen minTagLen key nonce aad ciphertext tag output shortTag)
        (fun ciphertext _ =>
          ctrXor (aes key) ((Ccm.makeCounter nonce 0).increment 0) ciphertext none)) ∧
    (∀ (key nonce aad : Bytes) (shortTag : Bool), Agrees (fun _ tagLen => key.length = keyLen ∧
          tagLengthAllowed minTagLen tagLen blockLen shortTag = true)
        (fun plaintext capacity tagLen =>
          Eax.encrypt aes keyLen minTagLen key nonce aad plaintext capacity tagLen shortTag)
        (fun ciphertext tag output =>
          Eax.decrypt aes keyLen minTagLen key nonce aad ciphertext tag output shortTag)
        (fun ciphertext _ => Eax.eaxCtrXor (aes key) (Eax.cmac (aes key) 0 nonce) ciphertext)) ∧
    (∀ (key : Bytes) (ad : List Bytes), Agrees
        (fun _ tagLen => key.length = keyLen * 2 ∧ ad.length ≤ Siv.maxAd ∧ tagLen = blockLen)
        (fun plaintext capacity tagLen => Siv.encrypt aes keyLen key ad plaintext capacity tagLen)
        (fun ciphertext tag output => Siv.decrypt aes keyLen key ad ciphertext tag output)
        (fun ciphertext tag =>
          Siv.sivCtr (aes (key.drop keyLen)) (Block.ofBytes tag) ciphertext)) := by
  refine ⟨?_, ?_, ?_, ?_⟩
  · intro key iv aad shortTag
    refine (gcm_recomputes aes multiply keyLen key iv aad shortTag).agrees.of_admits ?_
    intro text tagLen admitted
    refine ⟨?_, rfl⟩
    simpa [gcmArgsOk] using admitted
  · intro key nonce aad shortTag
    refine (Ccm.recomputes aes keyLen minTagLen key nonce aad shortTag).agrees.of_admits ?_
    intro text tagLen admitted
    exact ⟨admitted, rfl⟩
  · intro key nonce aad shortTag
    refine (Eax.recomputes aes keyLen minTagLen key nonce aad shortTag).agrees.of_admits ?_
    rintro text tagLen ⟨keySize, tagOk⟩
    refine ⟨⟨keySize, tagOk, Nat.le_refl _, ?_, tagLength_bound tagOk⟩, rfl⟩
    rintro rfl
    simp [tagLengthAllowed] at tagOk
  · intro key ad
    refine (Siv.recomputes aes keyLen key ad).agrees.of_admits ?_
    rintro text tagLen ⟨keySize, few, size⟩
    refine ⟨⟨keySize, Nat.le_of_eq size.symm, ?_⟩, size.symm⟩
    simp [Siv.argsOk, few]

end TinyCrypto.Aes
