import TinyCrypto.Common.Bytes

/-! # Command and response APDUs

`apdu_encode.c` and `apdu_response.c` (ISO/IEC 7816-4 5.2 and 5.6).
-/

namespace TinyCrypto.Apdu

/-- `TC_APDU_length_format`. -/
inductive Format where
  | short
  | extended
  deriving DecidableEq

/-- `TC_APDU_command`. -/
structure Command where
  data : Bytes
  ne : Nat
  cla : UInt8
  ins : UInt8
  p1 : UInt8
  p2 : UInt8
  deriving DecidableEq

/-- `TC_APDU_response`. -/
structure Response where
  data : Bytes
  sw : Nat
  deriving DecidableEq

/-- `tc_apdu_form`. -/
structure Form where
  size : Nat
  extended : Bool
  deriving DecidableEq

def headerBytes : Nat := 4
def statusBytes : Nat := 2
def shortMaxNc : Nat := 255
def shortMaxNe : Nat := 256
def maxNc : Nat := 65535
def maxNe : Nat := 65536

/-- `TC_APDU_CLA_CLASS_MASK`, `TC_APDU_CLA_CHAINING`, `TC_APDU_CLA_SM_MASK` and
    `TC_APDU_CLA_CHANNEL_MASK`. -/
def claClassMask : UInt8 := 0xe0
def claChaining : UInt8 := 0x10
def claSmMask : UInt8 := 0x0c
def claChannelMask : UInt8 := 0x03

/-- `tc_apdu_class_check`. -/
def classCheck (cla : UInt8) : Result := if cla &&& claClassMask ≠ 0 then .unsupported
  else if cla &&& claChaining ≠ 0 then .argument
  else .ok

/-- `tc_apdu_form_get`. -/
def formGet (sizeMax nc ne : Nat) (format : Format) : Except Result Form :=
  if nc > maxNc || ne > maxNe then .error .argument
  else if nc ≤ shortMaxNc && ne ≤ shortMaxNe then
    .ok ⟨headerBytes + (if nc = 0 then 0 else 1 + nc) + (if ne = 0 then 0 else 1), false⟩
  else if format = .short then .error .argument
  else if nc > sizeMax - 9 then .error .limit
  else
    .ok ⟨headerBytes + (if nc = 0 then 0 else 3 + nc) +
      (if ne = 0 then 0 else if nc = 0 then 3 else 2), true⟩

/-- `tc_apdu_write`. -/
def write (command : Command) (form : Form) : Bytes :=
  let nc := command.data.length
  [command.cla, command.ins, command.p1, command.p2] ++ (if nc = 0 then []
      else (if form.extended then [0, UInt8.ofNat (nc / 256)] else []) ++
        UInt8.ofNat nc :: command.data) ++
    (if command.ne = 0 then []
      else (if form.extended then
          (if nc = 0 then [0] else []) ++ [UInt8.ofNat (command.ne / 256)]
        else []) ++ [UInt8.ofNat command.ne])

/-- `TC_APDU_status_class`. -/
inductive StatusClass where
  | success
  | moreData
  | warning
  | execution
  | wrongLe
  | checking
  | proprietary
  | invalid
  deriving DecidableEq

/-- `TC_APDU_status_classify`. -/
def statusClassify (sw : Nat) : StatusClass :=
  let sw1 := sw / 256
  if sw = 0x9000 then .success
  else if sw1 = 0x61 then .moreData
  else if sw1 = 0x62 || sw1 = 0x63 then .warning
  else if 0x64 ≤ sw1 && sw1 ≤ 0x66 then .execution
  else if sw1 = 0x6c then .wrongLe
  else if 0x67 ≤ sw1 && sw1 ≤ 0x6f then .checking
  else if sw1 / 16 = 9 then .proprietary
  else .invalid

/-- `TC_APDU_response_read`. -/
def responseRead (encoded : Bytes) : Except Result Response :=
  if encoded.length < statusBytes then .error .invalid
  else
    let nr := encoded.length - statusBytes
    let sw1 := (encoded.getD nr 0).toNat
    let sw := sw1 * 256 + (encoded.getD (nr + 1) 0).toNat
    if statusClassify sw = .invalid then .error .invalid
    else if nr ≠ 0 && 0x64 ≤ sw1 && sw1 ≤ 0x6f then .error .invalid
    else .ok ⟨encoded.take nr, sw⟩

structure Places where
  command : Span
  data : Nat
  out : Span
  written : Span
  deriving DecidableEq

/-- What the encoder leaves in `*written` and at the front of `out`. -/
structure Encoded where
  written : Nat
  bytes : Bytes
  deriving DecidableEq

section Code
variable (sizeMax pointerMax : Nat)

/-- `command_check`. -/
def commandCheck (places : Places) (command : Command) (format : Format) : Except Result Form :=
  if places.command.address = 0 ||
      !Span.valid pointerMax ⟨places.data, command.data.length⟩ then .error .argument
  else
    match formGet sizeMax command.data.length command.ne format with
    | .error result => .error result
    | .ok form =>
      if classCheck command.cla = .ok then .ok form else .error (classCheck command.cla)

/-- `TC_APDU_command_encode`. -/
def commandEncode (places : Places) (command : Command) (format : Format) : Except Result Encoded :=
  if places.written.address = 0 || !places.out.valid pointerMax then .error .argument
  else
    match commandCheck sizeMax pointerMax places command format with
    | .error result => .error result
    | .ok form =>
      if !places.out.disjoint ⟨places.data, command.data.length⟩ ||
          !places.out.disjoint places.command ||
          !places.out.disjoint places.written then .error .argument
      else if places.out.length < form.size then .error .limit
      else .ok ⟨form.size, write command form⟩

end Code

/-- The command cases of ISO/IEC 7816-4. -/
inductive Case where
  | case1
  | case2S
  | case3S
  | case4S
  | case2E
  | case3E
  | case4E
  deriving DecidableEq

def Command.case (command : Command) : Case :=
  let nc := command.data.length
  let short := nc ≤ 255 ∧ command.ne ≤ 256
  if nc = 0 ∧ command.ne = 0 then .case1
  else if nc = 0 then if short then .case2S else .case2E
  else if command.ne = 0 then if short then .case3S else .case3E
  else if short then .case4S else .case4E

def pair (high low : UInt8) : Nat := high.toNat * 256 + low.toNat

/-- A short Le field: `00` asks for 256 bytes. -/
def shortLe (le : UInt8) : Nat := if le = 0 then 256 else le.toNat

/-- An extended Le field: `0000` asks for 65536 bytes. -/
def extendedLe (high low : UInt8) : Nat := if pair high low = 0 then 65536 else pair high low

def bodyCase : Bytes → Option Case
  | [] => some .case1
  | [_] => some .case2S
  | first :: rest =>
    if first ≠ 0 then
      if rest.length = first.toNat then some .case3S
      else if rest.length = first.toNat + 1 then some .case4S
      else none
    else
      match rest with
      | [_, _] => some .case2E
      | high :: low :: data =>
        if pair high low = 0 then none
        else if data.length = pair high low then some .case3E
        else if data.length = pair high low + 2 then some .case4E
        else none
      | _ => none

def bodyFields (body : Bytes) : Case → Bytes × Nat
  | .case1 => ([], 0)
  | .case2S => ([], shortLe (body.getD 0 0))
  | .case3S => (body.drop 1, 0)
  | .case4S => ((body.drop 1).dropLast, shortLe (body.getD (body.length - 1) 0))
  | .case2E => ([], extendedLe (body.getD 1 0) (body.getD 2 0))
  | .case3E => (body.drop 3, 0)
  | .case4E =>
    ((body.drop 3).take (body.length - 5),
      extendedLe (body.getD (body.length - 2) 0) (body.getD (body.length - 1) 0))

def decode : Bytes → Option (Case × Command)
  | cla :: ins :: p1 :: p2 :: body =>
    match bodyCase body with
    | none => none
    | some case =>
      let (data, ne) := bodyFields body case
      some (case, ⟨data, ne, cla, ins, p1, p2⟩)
  | _ => none

theorem bodyCase_short {first : UInt8} {rest : Bytes} (present : first ≠ 0) (longer : rest ≠ []) :
    bodyCase (first :: rest) = if rest.length = first.toNat then some .case3S
      else if rest.length = first.toNat + 1 then some .case4S else none := by
  cases rest with
  | nil => exact absurd rfl longer
  | cons byte rest => simp only [bodyCase, if_pos present]

theorem bodyCase_extended {high low : UInt8} {data : Bytes} (longer : data ≠ []) :
    bodyCase (0 :: high :: low :: data) = if pair high low = 0 then none
      else if data.length = pair high low then some .case3E
      else if data.length = pair high low + 2 then some .case4E else none := by
  cases data with
  | nil => exact absurd rfl longer
  | cons byte data => simp [bodyCase]

theorem shortLe_ofNat {ne : Nat} (pos : 0 < ne) (fits : ne ≤ 256) :
    shortLe (UInt8.ofNat ne) = ne := by
  by_cases whole : ne = 256
  · subst whole
    rfl
  · have value : (UInt8.ofNat ne).toNat = ne := by simp; omega
    have present : UInt8.ofNat ne ≠ 0 := fun zero => by simp [zero] at value; omega
    rw [shortLe, if_neg present, value]

theorem pair_ofNat (n : Nat) : pair (UInt8.ofNat (n / 256)) (UInt8.ofNat n) = n % 65536 := by
  simp [pair]
  omega

theorem extendedLe_ofNat {ne : Nat} (pos : 0 < ne) (fits : ne ≤ 65536) :
    extendedLe (UInt8.ofNat (ne / 256)) (UInt8.ofNat ne) = ne := by
  unfold extendedLe
  rw [pair_ofNat]
  split <;> omega

theorem shortLc_ofNat {nc : Nat} (pos : 0 < nc) (fits : nc ≤ 255) :
    UInt8.ofNat nc ≠ 0 ∧ (UInt8.ofNat nc).toNat = nc := by
  have value : (UInt8.ofNat nc).toNat = nc := by simp; omega
  exact ⟨fun zero => by simp [zero] at value; omega, value⟩

/-- What `tc_apdu_form_get` admits and computes. -/
structure FormOf (nc ne : Nat) (form : Form) : Prop where
  data : nc ≤ 65535
  expected : ne ≤ 65536
  extended : form.extended = true ↔ ¬ (nc ≤ 255 ∧ ne ≤ 256)
  size : form.size = headerBytes + (if nc = 0 then 0 else (if form.extended then 3 else 1) + nc) +
    (if ne = 0 then 0 else if form.extended then (if nc = 0 then 3 else 2) else 1)

theorem formGet_form {sizeMax nc ne : Nat} {format : Format} {form : Form}
    (h : formGet sizeMax nc ne format = .ok form) : FormOf nc ne form := by
  unfold formGet at h
  split at h
  · cases h
  rename_i admitted
  simp only [Bool.or_eq_true, decide_eq_true_eq, not_or, Nat.not_lt] at admitted
  split at h
  · rename_i short
    simp only [Bool.and_eq_true, decide_eq_true_eq] at short
    cases h
    exact ⟨admitted.1, admitted.2, ⟨(nomatch ·), (absurd short ·)⟩, rfl⟩
  rename_i long
  split at h
  · cases h
  split at h
  · cases h
  simp only [Bool.and_eq_true, decide_eq_true_eq] at long
  cases h
  exact ⟨admitted.1, admitted.2, ⟨fun _ => long, fun _ => rfl⟩, rfl⟩

theorem write_length {command : Command} {form : Form}
    (h : FormOf command.data.length command.ne form) : (write command form).length = form.size := by
  rw [h.size]
  cases extended : form.extended <;> by_cases noData : command.data.length = 0 <;>
    by_cases noLe : command.ne = 0 <;>
    simp [write, headerBytes, extended, noData, noLe] <;> omega

def body (command : Command) (form : Form) : Bytes := (write command form).drop headerBytes

theorem write_body (command : Command) (form : Form) : write command form =
      command.cla :: command.ins :: command.p1 :: command.p2 :: body command form := by
  simp [body, write, headerBytes]

variable {command : Command} {form : Form}

section

variable (h : FormOf command.data.length command.ne form)

include h

theorem body_short (short : form.extended = false) :
    bodyCase (body command form) = some command.case ∧
      bodyFields (body command form) command.case = (command.data, command.ne) := by
  have bounds : command.data.length ≤ 255 ∧ command.ne ≤ 256 := by
    by_contra long
    simp [h.extended.mpr long] at short
  obtain ⟨data, ne, cla, ins, p1, p2⟩ := command
  simp only at bounds
  cases data with
  | nil =>
    by_cases noLe : ne = 0
    · simp [body, write, headerBytes, bodyCase, bodyFields, Command.case, noLe]
    · simp [body, write, headerBytes, bodyCase, bodyFields, Command.case, noLe, short, bounds.2,
        shortLe_ofNat (Nat.pos_of_ne_zero noLe) bounds.2]
  | cons byte rest =>
    have nonempty : (byte :: rest).length ≠ 0 := by simp
    have some_data : byte :: rest ≠ [] := by simp
    generalize byte :: rest = data at bounds nonempty some_data ⊢
    obtain ⟨present, value⟩ := shortLc_ofNat (Nat.pos_of_ne_zero nonempty) bounds.1
    by_cases noLe : ne = 0
    · have whole : body ⟨data, ne, cla, ins, p1, p2⟩ form = UInt8.ofNat data.length :: data := by
        simp [body, write, headerBytes, nonempty, noLe, short]
      have parsed : bodyCase (UInt8.ofNat data.length :: data) = some .case3S := by
        rw [bodyCase_short present some_data, if_pos value.symm]
      have kind : Command.case ⟨data, ne, cla, ins, p1, p2⟩ = .case3S := by
        simp [Command.case, nonempty, noLe, bounds.1]
      rw [whole, kind]
      exact ⟨parsed, by simp [bodyFields, noLe]⟩
    · have whole : body ⟨data, ne, cla, ins, p1, p2⟩ form =
          UInt8.ofNat data.length :: (data ++ [UInt8.ofNat ne]) := by
        simp [body, write, headerBytes, nonempty, noLe, short]
      have parsed : bodyCase (UInt8.ofNat data.length :: (data ++ [UInt8.ofNat ne])) =
          some .case4S := by
        rw [bodyCase_short present (by simp), value]
        simp
      have kind : Command.case ⟨data, ne, cla, ins, p1, p2⟩ = .case4S := by
        simp [Command.case, nonempty, noLe, bounds.1, bounds.2]
      rw [whole, kind]
      exact ⟨parsed, by simp [bodyFields, shortLe_ofNat (Nat.pos_of_ne_zero noLe) bounds.2]⟩

theorem body_extended (extended : form.extended = true) :
    bodyCase (body command form) = some command.case ∧
      bodyFields (body command form) command.case = (command.data, command.ne) := by
  have long := h.extended.mp extended
  have data_fits := h.data
  have ne_fits := h.expected
  obtain ⟨data, ne, cla, ins, p1, p2⟩ := command
  simp only at long data_fits ne_fits
  cases data with
  | nil =>
    have le : ne ≠ 0 := by
      rintro rfl
      simp at long
    have beyond : ¬ ne ≤ 256 := fun short => long ⟨by simp, short⟩
    simp [body, write, headerBytes, bodyCase, bodyFields, Command.case, le, beyond, extended,
      extendedLe_ofNat (Nat.pos_of_ne_zero le) ne_fits]
  | cons byte rest =>
    have nonempty : (byte :: rest).length ≠ 0 := by simp
    have some_data : byte :: rest ≠ [] := by simp
    generalize byte :: rest = data at long data_fits nonempty some_data ⊢
    have value : pair (UInt8.ofNat (data.length / 256)) (UInt8.ofNat data.length) =
        data.length := by
      rw [pair_ofNat]
      omega
    by_cases noLe : ne = 0
    · have whole : body ⟨data, ne, cla, ins, p1, p2⟩ form =
          0 :: UInt8.ofNat (data.length / 256) :: UInt8.ofNat data.length :: data := by
        simp [body, write, headerBytes, nonempty, noLe, extended]
      have parsed : bodyCase (0 :: UInt8.ofNat (data.length / 256) ::
          UInt8.ofNat data.length :: data) = some .case3E := by
        rw [bodyCase_extended some_data, value, if_neg nonempty, if_pos rfl]
      have kind : Command.case ⟨data, ne, cla, ins, p1, p2⟩ = .case3E := by
        have : ¬ data.length ≤ 255 := by omega
        simp [Command.case, nonempty, noLe, this]
      rw [whole, kind]
      exact ⟨parsed, by simp [bodyFields, noLe]⟩
    · have whole : body ⟨data, ne, cla, ins, p1, p2⟩ form =
          0 :: UInt8.ofNat (data.length / 256) :: UInt8.ofNat data.length ::
            (data ++ [UInt8.ofNat (ne / 256), UInt8.ofNat ne]) := by
        simp [body, write, headerBytes, nonempty, noLe, extended]
      have parsed : bodyCase (0 :: UInt8.ofNat (data.length / 256) ::
          UInt8.ofNat data.length :: (data ++ [UInt8.ofNat (ne / 256), UInt8.ofNat ne])) =
          some .case4E := by
        rw [bodyCase_extended (by simp), value, if_neg nonempty]
        simp
      have kind : Command.case ⟨data, ne, cla, ins, p1, p2⟩ = .case4E := by
        simp [Command.case, nonempty, noLe, long]
      rw [whole, kind]
      refine ⟨parsed, ?_⟩
      have le := extendedLe_ofNat (Nat.pos_of_ne_zero noLe) ne_fits
      simp [bodyFields, le]

theorem decode_write : decode (write command form) = some (command.case, command) := by
  have parts : bodyCase (body command form) = some command.case ∧
      bodyFields (body command form) command.case = (command.data, command.ne) := by
    cases extended : form.extended with
    | false => exact body_short h extended
    | true => exact body_extended h extended
  simp [write_body, decode, parts.1, parts.2]

end

theorem commandCheck_ok {sizeMax pointerMax : Nat} {places : Places} {format : Format}
    (h : commandCheck sizeMax pointerMax places command format = .ok form) :
    formGet sizeMax command.data.length command.ne format = .ok form := by
  unfold commandCheck at h
  split at h
  · cases h
  split at h
  · cases h
  split at h <;> cases h
  assumption

theorem commandEncode_ok {sizeMax pointerMax : Nat} {places : Places} {format : Format}
    {out : Encoded} (h : commandEncode sizeMax pointerMax places command format = .ok out) :
    ∃ form, commandCheck sizeMax pointerMax places command format = .ok form ∧
      places.written.address ≠ 0 ∧ out = ⟨form.size, write command form⟩ := by
  unfold commandEncode at h
  split at h
  · cases h
  rename_i present
  simp only [Bool.or_eq_true, decide_eq_true_eq, not_or] at present
  split at h
  · cases h
  rename_i form checked
  split at h
  · cases h
  split at h
  · cases h
  cases h
  exact ⟨form, checked, present.1, rfl⟩

/-- An accepted command is read back from its bytes, in its own case and with its own Ne. The
    bytes number what `tc_apdu_form_get` computed, and no other command that is accepted in the
    same format has them. -/
theorem encoding_invertible {sizeMax pointerMax : Nat} {places : Places} {format : Format}
    {out : Encoded} (accepted : commandEncode sizeMax pointerMax places command format = .ok out) :
    decode out.bytes = some (command.case, command) ∧
      (∃ form, formGet sizeMax command.data.length command.ne format = .ok form ∧
        out.written = form.size ∧ out.bytes.length = form.size) ∧ ∀ others other also,
        commandEncode sizeMax pointerMax others other format = .ok also →
          also.bytes = out.bytes → other = command := by
  obtain ⟨form, checked, _, rfl⟩ := commandEncode_ok accepted
  have got := commandCheck_ok checked
  have decoded := decode_write (formGet_form got)
  refine ⟨decoded, ⟨form, got, rfl, write_length (formGet_form got)⟩, ?_⟩
  intro others other also also_accepted same
  obtain ⟨form', checked', _, rfl⟩ := commandEncode_ok also_accepted
  have decoded' := decode_write (formGet_form (commandCheck_ok checked'))
  have same' : write other form' = write command form := same
  rw [same', decoded, Option.some.injEq, Prod.mk.injEq] at decoded'
  exact decoded'.2.symm

theorem encoding_invertible_case4S : decode [0x00, 0xa4, 0x04, 0x00, 0x02, 0x3f, 0x00, 0x00] =
      some (.case4S, ⟨[0x3f, 0x00], 256, 0x00, 0xa4, 0x04, 0x00⟩) :=
  (@encoding_invertible ⟨[0x3f, 0x00], 256, 0x00, 0xa4, 0x04, 0x00⟩ 65535 65535
    ⟨⟨16, 16⟩, 32, ⟨64, 8⟩, ⟨80, 2⟩⟩ .short
    ⟨8, [0x00, 0xa4, 0x04, 0x00, 0x02, 0x3f, 0x00, 0x00]⟩ (by decide)).1

end TinyCrypto.Apdu
