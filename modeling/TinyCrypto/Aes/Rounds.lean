import Mathlib.Data.List.Nodup
import Mathlib.Tactic.FinCases
import TinyCrypto.Aes.ByteField

/-! # The rounds of AES

Key expansion, the cipher and the inverse cipher of `aes.c` over a state of four columns of
four bytes.
-/

namespace TinyCrypto.Aes

/-- `state_t`. -/
abbrev State := Vector (Vector UInt8 4) 4

namespace State

/-- `(*state)[i][j]`. -/
def get (s : State) (i j : Fin 4) : UInt8 := s[i][j]

/-- An assignment to `(*state)[i][j]`. -/
def put (s : State) (i j : Fin 4) (byte : UInt8) : State := Vector.set s i (s[i].set j byte)

def ofBlock (block : Block) : State :=
  Vector.ofFn fun i => Vector.ofFn fun j => block.bytes.getD (4 * i + j) 0

def toBlock (s : State) : Block :=
  ⟨List.ofFn fun k : Fin 16 => s.get ⟨k / 4, by omega⟩ ⟨k % 4, by omega⟩, by simp [blockLen]⟩

def update (s : State) (order : List (Fin 4 × Fin 4)) (f : Fin 4 → Fin 4 → UInt8 → UInt8) : State :=
  order.foldl (fun s cell => s.put cell.1 cell.2 (f cell.1 cell.2 (s.get cell.1 cell.2))) s

end State

def cells : List (Fin 4 × Fin 4) := (List.finRange 4).product (List.finRange 4)

/-- `tc_aes_add_round_key`. -/
def addRoundKey (round : Nat) (s : State) (roundKey : Bytes) : State :=
  s.update cells fun i j byte => byte ^^^ roundKey.getD (round * 4 * 4 + i * 4 + j) 0

/-- `tc_aes_sub_bytes`. -/
def subBytes (mode : SboxMode) (s : State) : State :=
  s.update (cells.map Prod.swap) fun _ _ byte => sboxValue mode byte

/-- `tc_aes_inverse_sub_bytes`. -/
def inverseSubBytes (mode : SboxMode) (s : State) : State :=
  s.update (cells.map Prod.swap) fun _ _ byte => inverseSboxValue mode byte

/-- `tc_aes_shift_rows`. -/
def shiftRows (s : State) : State :=
  let temp := s.get 0 1
  let s := s.put 0 1 (s.get 1 1)
  let s := s.put 1 1 (s.get 2 1)
  let s := s.put 2 1 (s.get 3 1)
  let s := s.put 3 1 temp
  let temp := s.get 0 2
  let s := s.put 0 2 (s.get 2 2)
  let s := s.put 2 2 temp
  let temp := s.get 1 2
  let s := s.put 1 2 (s.get 3 2)
  let s := s.put 3 2 temp
  let temp := s.get 0 3
  let s := s.put 0 3 (s.get 3 3)
  let s := s.put 3 3 (s.get 2 3)
  let s := s.put 2 3 (s.get 1 3)
  s.put 1 3 temp

/-- `tc_aes_inverse_shift_rows`. -/
def inverseShiftRows (s : State) : State :=
  let temp := s.get 3 1
  let s := s.put 3 1 (s.get 2 1)
  let s := s.put 2 1 (s.get 1 1)
  let s := s.put 1 1 (s.get 0 1)
  let s := s.put 0 1 temp
  let temp := s.get 0 2
  let s := s.put 0 2 (s.get 2 2)
  let s := s.put 2 2 temp
  let temp := s.get 1 2
  let s := s.put 1 2 (s.get 3 2)
  let s := s.put 3 2 temp
  let temp := s.get 0 3
  let s := s.put 0 3 (s.get 1 3)
  let s := s.put 1 3 (s.get 2 3)
  let s := s.put 2 3 (s.get 3 3)
  s.put 3 3 temp

/-- The body of `tc_aes_mix_columns`. -/
def mixColumn (s : State) (i : Fin 4) : State :=
  let t := s.get i 0
  let tmp := s.get i 0 ^^^ s.get i 1 ^^^ s.get i 2 ^^^ s.get i 3
  let s := s.put i 0 (s.get i 0 ^^^ (xtime (s.get i 0 ^^^ s.get i 1) ^^^ tmp))
  let s := s.put i 1 (s.get i 1 ^^^ (xtime (s.get i 1 ^^^ s.get i 2) ^^^ tmp))
  let s := s.put i 2 (s.get i 2 ^^^ (xtime (s.get i 2 ^^^ s.get i 3) ^^^ tmp))
  s.put i 3 (s.get i 3 ^^^ (xtime (s.get i 3 ^^^ t) ^^^ tmp))

/-- `tc_aes_mix_columns`. -/
def mixColumns (s : State) : State := (List.finRange 4).foldl mixColumn s

/-- The body of `tc_aes_inverse_mix_columns`. -/
def inverseMixColumn (s : State) (i : Fin 4) : State :=
  let a := s.get i 0
  let b := s.get i 1
  let c := s.get i 2
  let d := s.get i 3
  let ac4 := xtime (xtime (a ^^^ c))
  let bd4 := xtime (xtime (b ^^^ d))
  let a := a ^^^ ac4
  let c := c ^^^ ac4
  let b := b ^^^ bd4
  let d := d ^^^ bd4
  let all := a ^^^ b ^^^ c ^^^ d
  let s := s.put i 0 (a ^^^ xtime (a ^^^ b) ^^^ all)
  let s := s.put i 1 (b ^^^ xtime (b ^^^ c) ^^^ all)
  let s := s.put i 2 (c ^^^ xtime (c ^^^ d) ^^^ all)
  s.put i 3 (d ^^^ xtime (d ^^^ a) ^^^ all)

/-- `tc_aes_inverse_mix_columns`. -/
def inverseMixColumns (s : State) : State := (List.finRange 4).foldl inverseMixColumn s

section
variable (mode : SboxMode) (roundKey : Bytes)

/-- The loop of `tc_aes_cipher_rounds`, which leaves at the last round. -/
def cipherLoop (rounds : Nat) : (passes round : Nat) → State → State
  | 0, _, s => s
  | passes + 1, round, s =>
    let s := shiftRows (subBytes mode s)
    if round = rounds then s
    else cipherLoop rounds passes (round + 1) (addRoundKey round (mixColumns s) roundKey)

/-- `tc_aes_cipher_rounds`. -/
def cipherRounds (s : State) (rounds : Nat) : State :=
  addRoundKey rounds (cipherLoop mode roundKey rounds rounds 1 (addRoundKey 0 s roundKey)) roundKey

/-- The loop of `tc_aes_inverse_rounds`, which leaves at round zero. -/
def inverseLoop : Nat → State → State
  | 0, s => addRoundKey 0 (inverseSubBytes mode (inverseShiftRows s)) roundKey
  | round + 1, s =>
    inverseLoop round (inverseMixColumns
      (addRoundKey (round + 1) (inverseSubBytes mode (inverseShiftRows s)) roundKey))

/-- `tc_aes_inverse_rounds`. -/
def inverseRounds (s : State) (rounds : Nat) : State :=
  inverseLoop mode roundKey (rounds - 1) (addRoundKey rounds s roundKey)

end

/-- `tempa` of one pass, and the round constant after it. -/
def expansionTemp (mode : SboxMode) (words i : Nat) (rcon : UInt8) (temp : Vector UInt8 4) :
    Vector UInt8 4 × UInt8 :=
  let (temp, rcon) := if i % words = 0 then
      let temp := #v[temp[1], temp[2], temp[3], temp[0]]
      let temp := temp.map (sboxValue mode)
      (temp.set 0 (temp[0] ^^^ rcon), xtime rcon)
    else (temp, rcon)
  (if words = 8 ∧ i % words = 4 then temp.map (sboxValue mode) else temp, rcon)

/-- The loop of `tc_aes_key_expansion`, which fills the schedule word by word. -/
def expansionLoop (mode : SboxMode) (words : Nat) : (passes i : Nat) → UInt8 → Bytes → Bytes
  | 0, _, _, roundKey => roundKey
  | passes + 1, i, rcon, roundKey =>
    let k := (i - 1) * 4
    let (temp, rcon) := expansionTemp mode words i rcon
      #v[roundKey.getD k 0, roundKey.getD (k + 1) 0, roundKey.getD (k + 2) 0,
        roundKey.getD (k + 3) 0]
    let k := (i - words) * 4
    expansionLoop mode words passes (i + 1) rcon
      (roundKey ++ [roundKey.getD k 0 ^^^ temp[0], roundKey.getD (k + 1) 0 ^^^ temp[1],
        roundKey.getD (k + 2) 0 ^^^ temp[2], roundKey.getD (k + 3) 0 ^^^ temp[3]])

/-- `tc_aes_key_expansion`. -/
def keyExpansion (mode : SboxMode) (key : Bytes) (words : Nat) : Bytes :=
  expansionLoop mode words (4 * (words + 6 + 1) - words) words 0x01 (key.take (words * 4))

/-- `TC_AES_CAVP_encrypt_block`, for a key of an AES length. -/
def encryptBlock (mode : SboxMode) (key : Bytes) (block : Block) : Block :=
  (cipherRounds mode (keyExpansion mode key (key.length / 4)) (.ofBlock block)
    (key.length / 4 + 6)).toBlock

/-- `TC_AES_CAVP_decrypt_block`. -/
def decryptBlock (mode : SboxMode) (key : Bytes) (block : Block) : Block :=
  (inverseRounds mode (keyExpansion mode key (key.length / 4)) (.ofBlock block)
    (key.length / 4 + 6)).toBlock

open Library

namespace State

theorem ext {s t : State} (same : ∀ i j, s.get i j = t.get i j) : s = t := by
  refine Vector.ext fun i inside => Vector.ext fun j inside' => ?_
  exact same ⟨i, inside⟩ ⟨j, inside'⟩

@[simp] theorem get_put (s : State) (i j i' j' : Fin 4) (byte : UInt8) :
    (s.put i j byte).get i' j' = if i' = i ∧ j' = j then byte else s.get i' j' := by
  obtain ⟨i', inside⟩ := i'
  obtain ⟨j', inside'⟩ := j'
  simp only [get, put, Fin.getElem_fin, Vector.getElem_set, Fin.ext_iff]
  by_cases column : i' = i
  · subst column
    by_cases row : j' = j
    · simp [row]
    · simp [row, Ne.symm row]
  · simp [column, Ne.symm column]

theorem get_ofBlock (block : Block) (i j : Fin 4) :
    (ofBlock block).get i j = block.bytes.getD (4 * i + j) 0 := by
  simp [get, ofBlock]

theorem get_update (s : State) (order : List (Fin 4 × Fin 4)) (once : order.Nodup)
    (f : Fin 4 → Fin 4 → UInt8 → UInt8) (i j : Fin 4) :
    (s.update order f).get i j = if (i, j) ∈ order then f i j (s.get i j) else s.get i j := by
  induction order generalizing s with
  | nil => simp [update]
  | cons cell order ih =>
    obtain ⟨fresh, later⟩ := List.nodup_cons.mp once
    have step : s.update (cell :: order) f =
        (s.put cell.1 cell.2 (f cell.1 cell.2 (s.get cell.1 cell.2))).update order f := rfl
    rw [step, ih _ later, get_put]
    by_cases here : (i, j) = cell
    · subst here
      simp [fresh]
    · have other : ¬ (i = cell.1 ∧ j = cell.2) := fun same => here (Prod.ext same.1 same.2)
      simp [here, other]

theorem toBlock_ofBlock (block : Block) : (ofBlock block).toBlock = block := by
  refine Octets.ext (List.ext_getElem (by simp [toBlock, block.size, blockLen]) ?_)
  intro k inside inside'
  have small : k < 16 := by simpa [toBlock] using inside
  have place : 4 * (k / 4) + k % 4 = k := Nat.div_add_mod k 4
  simp only [toBlock, List.getElem_ofFn, get_ofBlock, place]
  exact List.getD_eq_getElem _ _ inside'

theorem ofBlock_toBlock (s : State) : ofBlock s.toBlock = s := by
  refine State.ext fun i j => ?_
  have inside : 4 * (i : Nat) + j < s.toBlock.bytes.length := by
    rw [s.toBlock.size, blockLen]
    omega
  rw [get_ofBlock, List.getD_eq_getElem _ _ inside]
  simp only [toBlock, List.getElem_ofFn]
  congr 1 <;> exact Fin.ext (by dsimp only; omega)

end State

theorem cells_mem (i j : Fin 4) : (i, j) ∈ cells ∧ (i, j) ∈ cells.map Prod.swap := by
  revert i j
  decide

theorem cells_nodup : cells.Nodup ∧ (cells.map Prod.swap).Nodup := by decide

variable (mode : SboxMode) (roundKey : Bytes)

@[simp] theorem get_addRoundKey (round : Nat) (s : State) (i j : Fin 4) :
    (addRoundKey round s roundKey).get i j =
      s.get i j ^^^ roundKey.getD (round * 4 * 4 + i * 4 + j) 0 := by
  rw [addRoundKey, State.get_update _ _ cells_nodup.1, if_pos (cells_mem i j).1]

@[simp] theorem get_subBytes (s : State) (i j : Fin 4) :
    (subBytes mode s).get i j = sboxValue mode (s.get i j) := by
  rw [subBytes, State.get_update _ _ cells_nodup.2, if_pos (cells_mem i j).2]

@[simp] theorem get_inverseSubBytes (s : State) (i j : Fin 4) :
    (inverseSubBytes mode s).get i j = inverseSboxValue mode (s.get i j) := by
  rw [inverseSubBytes, State.get_update _ _ cells_nodup.2, if_pos (cells_mem i j).2]

@[simp] theorem get_shiftRows (s : State) (i j : Fin 4) :
    (shiftRows s).get i j = s.get (i + j) j := by
  fin_cases i <;> fin_cases j <;> simp [shiftRows]

@[simp] theorem get_inverseShiftRows (s : State) (i j : Fin 4) :
    (inverseShiftRows s).get i j = s.get (i - j) j := by
  fin_cases i <;> fin_cases j <;> simp [inverseShiftRows] <;> rfl

/-- A column mixed as `tc_aes_mix_columns` does it. -/
def mixed (column : Fin 4 → UInt8) (j : Fin 4) : UInt8 :=
  column j ^^^ (xtime (column j ^^^ column (j + 1)) ^^^
    (column 0 ^^^ column 1 ^^^ column 2 ^^^ column 3))

/-- The whitening before the transform of `tc_aes_inverse_mix_columns`. -/
def whitened (column : Fin 4 → UInt8) (j : Fin 4) : UInt8 :=
  column j ^^^ xtime (xtime (column j ^^^ column (j + 2)))

theorem get_mixColumn (s : State) (i i' j : Fin 4) :
    (mixColumn s i).get i' j = if i' = i then mixed (s.get i) j else s.get i' j := by
  by_cases column : i' = i
  · subst column
    fin_cases j <;> simp [mixColumn, mixed]
  · simp [mixColumn, column]

theorem get_inverseMixColumn (s : State) (i i' j : Fin 4) : (inverseMixColumn s i).get i' j =
      if i' = i then mixed (whitened (s.get i)) j else s.get i' j := by
  by_cases column : i' = i
  · subst column
    have opposite : ∀ a b : UInt8, a ^^^ b = b ^^^ a := UInt8.xor_comm
    fin_cases j <;>
      simp [inverseMixColumn, mixed, whitened, UInt8.xor_assoc, opposite (s.get i' 2) (s.get i' 0),
        opposite (s.get i' 3) (s.get i' 1)]
  · simp [inverseMixColumn, column]

theorem get_foldl_columns {body : State → Fin 4 → State} {map : (Fin 4 → UInt8) → Fin 4 → UInt8}
    (one : ∀ s i i' j, (body s i).get i' j = if i' = i then map (s.get i) j else s.get i' j)
    (s : State) (order : List (Fin 4)) (once : order.Nodup) (i j : Fin 4) :
    (order.foldl body s).get i j = if i ∈ order then map (s.get i) j else s.get i j := by
  induction order generalizing s with
  | nil => simp
  | cons column order ih =>
    obtain ⟨fresh, later⟩ := List.nodup_cons.mp once
    have same : ∀ i', i' ≠ column → (body s column).get i' = s.get i' :=
      fun i' other => funext fun j => by rw [one, if_neg other]
    rw [List.foldl_cons, ih _ later]
    by_cases here : i = column
    · subst here
      simp [fresh, one]
    · simp [here, same i here]

@[simp] theorem get_mixColumns (s : State) (i j : Fin 4) :
    (mixColumns s).get i j = mixed (s.get i) j := by
  rw [mixColumns, get_foldl_columns get_mixColumn _ _ (List.nodup_finRange 4),
    if_pos (List.mem_finRange i)]

@[simp] theorem get_inverseMixColumns (s : State) (i j : Fin 4) :
    (inverseMixColumns s).get i j = mixed (whitened (s.get i)) j := by
  have one := @get_foldl_columns inverseMixColumn (fun column => mixed (whitened column))
    get_inverseMixColumn
  rw [inverseMixColumns, one _ _ (List.nodup_finRange 4), if_pos (List.mem_finRange i)]

theorem element_mixed (column : Fin 4 → UInt8) (j : Fin 4) :
    element (mixed column j) = element (column j) + (x * (element (column j) +
      element (column (j + 1))) + (element (column 0) + element (column 1) + element (column 2) +
        element (column 3))) := by
  simp only [mixed, element_xor, element_xtime]

theorem element_whitened (column : Fin 4 → UInt8) (j : Fin 4) :
    element (whitened column j) = element (column j) +
      x * (x * (element (column j) + element (column (j + 2)))) := by
  simp only [whitened, element_xor, element_xtime]

theorem mix_whiten_mix {R : Type*} [CommRing R] (two : (2 : R) = 0) (x a b c d : R) :
    let s := a + b + c + d
    let a' := a + (x * (a + b) + s)
    let b' := b + (x * (b + c) + s)
    let c' := c + (x * (c + d) + s)
    let d' := d + (x * (d + a) + s)
    let a'' := a' + x * (x * (a' + c'))
    let b'' := b' + x * (x * (b' + d'))
    let c'' := c' + x * (x * (c' + a'))
    let d'' := d' + x * (x * (d' + b'))
    a'' + (x * (a'' + b'') + (a'' + b'' + c'' + d'')) = a := by
  linear_combination ((3 + 3 * x + 7 * x ^ 2 + 5 * x ^ 3 + x ^ 4) * (a + b) +
    (3 + 2 * x + 7 * x ^ 2 + 5 * x ^ 3 + x ^ 4) * c +
    (3 + 2 * x + 6 * x ^ 2 + 5 * x ^ 3 + x ^ 4) * d) * two

theorem mixed_whitened_mixed (column : Fin 4 → UInt8) : mixed (whitened (mixed column)) = column := by
  funext j
  refine element_injective ?_
  have ring := @mix_whiten_mix (AdjoinRoot modulus) _ BinaryQuotient.two_eq_zero x
  simp only [element_mixed, element_whitened]
  fin_cases j
  · have first := ring (element (column 0)) (element (column 1)) (element (column 2))
      (element (column 3))
    simp at first ⊢
    linear_combination first
  · have second := ring (element (column 1)) (element (column 2)) (element (column 3))
      (element (column 0))
    simp at second ⊢
    linear_combination second
  · have third := ring (element (column 2)) (element (column 3)) (element (column 0))
      (element (column 1))
    simp at third ⊢
    linear_combination third
  · have fourth := ring (element (column 3)) (element (column 0)) (element (column 1))
      (element (column 2))
    simp at fourth ⊢
    linear_combination fourth

theorem addRoundKey_twice (round : Nat) (s : State) :
    addRoundKey round (addRoundKey round s roundKey) roundKey = s := by
  refine State.ext fun i j => ?_
  rw [get_addRoundKey, get_addRoundKey, UInt8.xor_assoc, UInt8.xor_self, UInt8.xor_zero]

theorem inverseSubBytes_subBytes (s : State) : inverseSubBytes mode (subBytes mode s) = s :=
  State.ext fun i j => by
    rw [get_inverseSubBytes, get_subBytes, inverseSboxValue_sboxValue]

theorem inverseShiftRows_shiftRows (s : State) : inverseShiftRows (shiftRows s) = s :=
  State.ext fun i j => by
    rw [get_inverseShiftRows, get_shiftRows, sub_add_cancel]

theorem inverseMixColumns_mixColumns (s : State) : inverseMixColumns (mixColumns s) = s := by
  refine State.ext fun i j => ?_
  have column : (mixColumns s).get i = mixed (s.get i) := funext (get_mixColumns s i)
  rw [get_inverseMixColumns, column, mixed_whitened_mixed]

def middle (s : State) : Nat → State
  | 0 => addRoundKey 0 s roundKey
  | round + 1 =>
    addRoundKey (round + 1) (mixColumns (shiftRows (subBytes mode (middle s round)))) roundKey

theorem cipherLoop_eq (s : State) (rounds : Nat) {passes round : Nat}
    (total : round + passes = rounds) :
    cipherLoop mode roundKey (rounds + 1) (passes + 1) (round + 1) (middle mode roundKey s round) =
      shiftRows (subBytes mode (middle mode roundKey s rounds)) := by
  induction passes generalizing round with
  | zero =>
    obtain rfl : round = rounds := total
    simp [cipherLoop]
  | succ passes ih =>
    have other : round + 1 ≠ rounds + 1 := by omega
    rw [cipherLoop]
    simp only [other, if_false]
    exact ih (by omega)

theorem cipherRounds_eq (s : State) (rounds : Nat) : cipherRounds mode roundKey s (rounds + 1) =
      addRoundKey (rounds + 1) (shiftRows (subBytes mode (middle mode roundKey s rounds)))
        roundKey :=
  congrArg (addRoundKey (rounds + 1) · roundKey)
    (cipherLoop_eq mode roundKey s rounds (Nat.zero_add rounds))

theorem inverseLoop_eq (s : State) (round : Nat) :
    inverseLoop mode roundKey round (shiftRows (subBytes mode (middle mode roundKey s round))) =
      s := by
  induction round with
  | zero =>
    rw [inverseLoop, inverseShiftRows_shiftRows, inverseSubBytes_subBytes, middle,
      addRoundKey_twice]
  | succ round ih =>
    rw [inverseLoop, inverseShiftRows_shiftRows, inverseSubBytes_subBytes, middle,
      addRoundKey_twice, inverseMixColumns_mixColumns, ih]

theorem inverseRounds_cipherRounds (s : State) (rounds : Nat) :
    inverseRounds mode roundKey (cipherRounds mode roundKey s (rounds + 1)) (rounds + 1) = s := by
  rw [inverseRounds, cipherRounds_eq, addRoundKey_twice, Nat.add_sub_cancel, inverseLoop_eq]

theorem decryptBlock_encryptBlock (key : Bytes) (block : Block) :
    decryptBlock mode key (encryptBlock mode key block) = block := by
  rw [decryptBlock, encryptBlock, State.ofBlock_toBlock]
  exact (congrArg State.toBlock (inverseRounds_cipherRounds mode _ _ _)).trans
    (State.toBlock_ofBlock block)

end TinyCrypto.Aes
