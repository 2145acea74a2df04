import Mathlib.Data.List.Induction
import TinyCrypto.Library.Incremental
import TinyCrypto.Unicode.Prepare

/-! # Strings in segments

`tc_asn1_string_feed`: a scalar that a segment cuts off waits for the segments after it.
-/

namespace TinyCrypto.Unicode

open Library.Incremental (Decoder Next)

variable {C : Type}

/-- `tc_asn1_string_consume`. A null function checks the syntax. -/
abbrev Consume (C : Type) := Option (C → Nat → Result × C)

/-- The call of `consume`. -/
def Consume.give (consume : Consume C) (context : C) (point : Nat) : Result × C :=
  match consume with
  | none => (.ok, context)
  | some consume => consume context point

/-- `tc_asn1_string_state`, with the used octets of `pending`. -/
structure StringState where
  tag : Nat
  pending : Bytes
  deriving DecidableEq

/-- `TC_ASN1_SCALAR_BYTES`. -/
def scalarBytes : Nat := 4

variable {point : Nat}

theorem stringRead_shorter {tag : Nat} {input rest : Bytes}
    (read : stringRead tag input = .ok (point, rest)) : rest.length < input.length := by
  apply @stringNext_shorter tag input rest point
  rw [stringNext, read]

/-- The loop of `tc_asn1_string_feed`. An error leaves no state. -/
def feedLoop (consume : Consume C) (state : StringState) (bytes : Bytes) (context : C) :
    Except Result StringState × C :=
  match bytes with
  | [] => (.ok state, context)
  | b :: rest =>
    if state.pending ≠ [] then
      let pending := state.pending ++ [b]
      match stringRead state.tag pending with
      | .error .more =>
        if pending.length = scalarBytes then (.error .invalid, context)
        else feedLoop consume { state with pending } rest context
      | .error e => (.error e, context)
      | .ok (point, _) =>
        match consume.give context point with
        | (.ok, context) => feedLoop consume { state with pending := [] } rest context
        | (e, context) => (.error e, context)
    else
      match read : stringRead state.tag (b :: rest) with
      | .error .more =>
        if (b :: rest).length ≥ scalarBytes then (.error .invalid, context)
        else (.ok { state with pending := b :: rest }, context)
      | .error e => (.error e, context)
      | .ok (point, after) =>
        have _shorter : after.length ≤ rest.length := Nat.le_of_lt_succ (stringRead_shorter read)
        match consume.give context point with
        | (.ok, context) => feedLoop consume state after context
        | (e, context) => (.error e, context)
termination_by bytes.length

/-- `tc_asn1_string_feed`. -/
def feed (consume : Consume C) (state : StringState) (bytes : Bytes) (context : C) :
    Except Result StringState × C :=
  if state.pending.length ≥ scalarBytes then (.error .argument, context)
  else if !stringTag state.tag then (.error .invalid, context)
  else feedLoop consume state bytes context

def feedSegments (consume : Consume C) :
    StringState → List Bytes → C → Except Result StringState × C
  | state, [], context => (.ok state, context)
  | state, segment :: segments, context =>
    match feed consume state segment context with
    | (.ok state, context) => feedSegments consume state segments context
    | failed => failed

def readSegments (consume : Consume C) (tag : Nat) (segments : List Bytes) (context : C) : Result × C :=
  match feedSegments consume ⟨tag, []⟩ segments context with
  | (.ok state, context) => (if state.pending ≠ [] then .invalid else .ok, context)
  | (.error e, context) => (e, context)

/-- `tc_asn1_string_next` until its end. -/
def readString (consume : Consume C) (tag : Nat) (input : Bytes) (context : C) : Result × C :=
  match read : stringNext tag input with
  | .error .end => (.ok, context)
  | .error e => (e, context)
  | .ok (point, rest) =>
    have _shorter := stringNext_shorter read
    match consume.give context point with
    | (.ok, context) => readString consume tag rest context
    | failed => failed
termination_by input.length

def stringWidth (tag : Nat) (first : UInt8) : Option Nat :=
  if tag = 0x0c then (utf8Lead first.toNat).map (·.1 + 1)
  else if tag = 0x1e then some 2
  else if tag = 0x1c then some 4
  else some 1

def stringValue (tag : Nat) (first : UInt8) (tail : Bytes) : Option Nat := if tag = 0x0c then
    (utf8Lead first.toNat).bind fun (_, minimum, code) =>
      (utf8Rest code tail).bind fun code => if code < minimum then none else some code
  else if tag = 0x1e || tag = 0x1c then
    some ((first :: tail).foldl (fun code b => code * 256 + b.toNat) 0)
  else if tag = 0x13 then if printable first.toNat then some first.toNat else none
  else if tag = 0x1a then
    if first.toNat < 0x20 || first.toNat > 0x7e then none else some first.toNat
  else if first.toNat > 127 then none
  else some first.toNat

theorem stringCode_eq (tag : Nat) (first : UInt8) (rest : Bytes) : stringCode tag first rest =
      match stringWidth tag first with
      | none => .error .invalid
      | some width =>
        if rest.length + 1 < width then .error .more
        else
          match stringValue tag first (rest.take (width - 1)) with
          | none => .error .invalid
          | some code => .ok (code, width) := by
  unfold stringCode stringWidth stringValue
  by_cases utf8 : tag = 0x0c
  · simp only [if_pos utf8]
    rcases utf8Lead first.toNat with _ | ⟨extra, minimum, code⟩
    · rfl
    · simp only [Option.map_some, Option.bind_some, Nat.add_sub_cancel, Nat.add_lt_add_iff_right]
      by_cases short : rest.length < extra
      · rw [if_pos short, if_pos short]
      · rw [if_neg short, if_neg short]
        cases utf8Rest code (rest.take extra) with
        | none => rfl
        | some code =>
          dsimp only [Option.bind_some]
          by_cases overlong : code < minimum
          · simp only [if_pos overlong]
          · simp only [if_neg overlong]
  · by_cases bmp : tag = 0x1e
    · subst bmp
      rfl
    · by_cases universal : tag = 0x1c
      · subst universal
        rfl
      · simp only [if_neg utf8, if_neg bmp, if_neg universal, decide_eq_false bmp,
          decide_eq_false universal, Bool.or_self, Bool.false_eq_true, if_false,
          if_neg (show ¬rest.length + 1 < 1 by omega)]
        by_cases restricted : tag = 0x13
        · simp only [if_pos restricted]
          cases printable first.toNat <;> rfl
        · simp only [if_neg restricted]
          by_cases visible : tag = 0x1a
          · simp only [if_pos visible]
            cases decide (first.toNat < 0x20) || decide (first.toNat > 0x7e) <;> rfl
          · simp only [if_neg visible]
            by_cases high : first.toNat > 127
            · simp only [if_pos high]
            · simp only [if_neg high]

variable {first : UInt8}

theorem stringWidth_bound {tag : Nat} {width : Nat} (given : stringWidth tag first = some width) :
    0 < width ∧ width ≤ scalarBytes := by
  unfold stringWidth at given
  by_cases utf8 : tag = 0x0c
  · rw [if_pos utf8] at given
    obtain ⟨⟨extra, minimum, code⟩, lead, rfl⟩ := Option.map_eq_some_iff.mp given
    unfold utf8Lead at lead
    repeat' split at lead
    all_goals
      cases lead
    all_goals
      exact ⟨Nat.succ_pos _, by simp [scalarBytes]⟩
  · rw [if_neg utf8] at given
    repeat' split at given
    all_goals
      cases given
      decide

variable {rest : Bytes}

theorem stringCode_more {tag : Nat} : stringCode tag first rest = .error .more ↔
      ∃ width, stringWidth tag first = some width ∧ rest.length + 1 < width := by
  rw [stringCode_eq]
  cases stringWidth tag first with
  | none => simp
  | some width =>
    dsimp only
    split
    · rename_i short
      simp [short]
    · rename_i complete
      cases stringValue tag first (rest.take (width - 1)) <;> simp [complete]

theorem stringCode_ok {tag : Nat} {first : UInt8} {rest : Bytes} {code width : Nat} :
    stringCode tag first rest = .ok (code, width) ↔
      stringWidth tag first = some width ∧ width ≤ rest.length + 1 ∧
        stringValue tag first (rest.take (width - 1)) = some code := by
  rw [stringCode_eq]
  cases stringWidth tag first with
  | none => simp
  | some w =>
    dsimp only
    split
    · rename_i short
      simp only [reduceCtorEq, Option.some.injEq, false_iff, not_and]
      rintro rfl inside
      exact absurd short (Nat.not_lt.mpr inside)
    · rename_i complete
      cases value : stringValue tag first (rest.take (w - 1)) with
      | none =>
        simp only [reduceCtorEq, Option.some.injEq, false_iff, not_and]
        rintro rfl _
        simp [value]
      | some c =>
        simp only [Except.ok.injEq, Prod.mk.injEq, Option.some.injEq]
        constructor
        · rintro ⟨rfl, rfl⟩
          exact ⟨rfl, Nat.not_lt.mp complete, value⟩
        · rintro ⟨rfl, -, found⟩
          rw [value] at found
          exact ⟨Option.some.inj found, rfl⟩

theorem stringCode_append {tag : Nat} (later : Bytes)
    (complete : stringCode tag first rest ≠ .error .more) :
    stringCode tag first (rest ++ later) = stringCode tag first rest := by
  have enough (width : Nat) (some : stringWidth tag first = some width) : width ≤ rest.length + 1 :=
    Nat.not_lt.mp fun short => complete (stringCode_more.mpr ⟨width, some, short⟩)
  rw [stringCode_eq, stringCode_eq]
  cases known : stringWidth tag first with
  | none => rfl
  | some width =>
    have inside := enough width known
    dsimp only
    rw [if_neg (Nat.not_lt.mpr inside), List.take_append_of_le_length (by omega),
      if_neg (by rw [List.length_append]; omega)]

theorem stringCode_error {tag : Nat} {e : Result} (failed : stringCode tag first rest = .error e) :
    e = .invalid ∨ e = .more := by
  rw [stringCode_eq] at failed
  repeat' split at failed
  all_goals cases failed
  · exact .inl rfl
  · exact .inr rfl
  · exact .inl rfl

section

variable {tag : Nat} (typed : stringTag tag = true)

include typed

theorem stringRead_cons (first : UInt8) (rest : Bytes) : stringRead tag (first :: rest) =
      match stringCode tag first rest with
      | .error e => .error e
      | .ok (code, width) =>
        if scalarOk code then .ok (code, (first :: rest).drop width) else .error .invalid := by
  rw [stringRead, typed]
  rfl

theorem stringRead_more {first : UInt8} {rest : Bytes} :
    stringRead tag (first :: rest) = .error .more ↔ stringCode tag first rest = .error .more := by
  rw [stringRead_cons typed]
  rcases stringCode tag first rest with e | ⟨code, width⟩
  · simp
  · dsimp only
    split <;> simp

variable {input : Bytes}

theorem stringRead_end : stringRead tag input = .error .end ↔ input = [] := by
  cases input with
  | nil => simp [stringRead, typed]
  | cons first rest =>
    rw [stringRead_cons typed]
    cases code : stringCode tag first rest with
    | error e =>
      rcases stringCode_error code with rfl | rfl <;> simp
    | ok found =>
      dsimp only
      split <;> simp

theorem stringRead_append {input later : Bytes} (some : input ≠ [])
    (complete : stringRead tag input ≠ .error .more) : stringRead tag (input ++ later) =
      (stringRead tag input).map fun found => (found.1, found.2 ++ later) := by
  obtain ⟨first, rest, rfl⟩ := List.exists_cons_of_ne_nil some
  have whole : stringCode tag first rest ≠ .error .more := fun more =>
    complete ((stringRead_more typed).mpr more)
  rw [List.cons_append, stringRead_cons typed, stringRead_cons typed, stringCode_append later whole]
  cases code : stringCode tag first rest with
  | error e => rfl
  | ok found =>
    obtain ⟨-, inside, -⟩ := (@stringCode_ok _ _ rest _ _).mp code
    dsimp only
    split
    · rw [← List.cons_append, List.drop_append_of_le_length inside]
      rfl
    · rfl

variable {pending : Bytes}

theorem stringRead_short (more : stringRead tag pending = .error .more) :
    pending.length < scalarBytes := by
  cases pending with
  | nil => decide
  | cons first rest =>
    obtain ⟨width, known, short⟩ := stringCode_more.mp ((stringRead_more typed).mp more)
    exact Nat.lt_of_lt_of_le short (stringWidth_bound known).2

variable {point : Nat}

theorem completed_nil {pending rest : Bytes} {b : UInt8}
    (more : stringRead tag pending = .error .more) (some : pending ≠ [])
    (read : stringRead tag (pending ++ [b]) = .ok (point, rest)) : rest = [] := by
  obtain ⟨first, tail, rfl⟩ := List.exists_cons_of_ne_nil some
  obtain ⟨width, known, short⟩ := stringCode_more.mp ((stringRead_more typed).mp more)
  rw [List.cons_append, stringRead_cons typed] at read
  cases code : stringCode tag first (tail ++ [b]) with
  | error e => simp [code] at read
  | ok found =>
    obtain ⟨known', inside, -⟩ := (@stringCode_ok _ _ (tail ++ [b]) _ _).mp code
    rw [known] at known'
    cases known'
    simp only [code] at read
    split at read
    · cases read
      apply List.drop_eq_nil_of_le
      simp only [List.length_cons, List.length_append, List.length_nil]
      omega
    · cases read

theorem stringRead_cases (input : Bytes) :
    input = [] ∨ stringRead tag input = .error .more ∨ stringRead tag input = .error .invalid ∨
      ∃ point rest, stringRead tag input = .ok (point, rest) := by
  cases input with
  | nil => exact .inl rfl
  | cons first rest =>
    refine .inr ?_
    rw [stringRead_cons typed]
    cases code : stringCode tag first rest with
    | error e => rcases stringCode_error code with rfl | rfl <;> simp
    | ok found =>
      dsimp only
      split <;> simp

def stringFront (tag : Nat) (input : Bytes) : Next UInt8 Nat Result :=
  match stringRead tag input with
  | .ok (point, rest) => .item point rest
  | .error .more => .more
  | .error .end => .more
  | .error e => .failed e

theorem stringFront_failed {e : Result} (failed : stringFront tag input = .failed e) :
    e = .invalid ∧ stringRead tag input = .error .invalid := by
  unfold stringFront at failed
  rcases stringRead_cases typed input with rfl | more | invalid | ⟨point, rest, read⟩
  · simp [(stringRead_end typed).mpr] at failed
  · simp [more] at failed
  · rw [invalid] at failed
    cases failed
    exact ⟨rfl, invalid⟩
  · simp [read] at failed

omit typed in
theorem stringFront_item {input rest : Bytes} :
    stringFront tag input = .item point rest ↔ stringRead tag input = .ok (point, rest) := by
  unfold stringFront
  split <;> simp_all

def stringDecoder : Decoder UInt8 Nat Result where
  next := stringFront tag
  shorter found := stringRead_shorter (stringFront_item.mp found)
  failed_append := by
    intro input e later failed
    obtain ⟨rfl, invalid⟩ := stringFront_failed typed failed
    have some : input ≠ [] := by
      rintro rfl
      rw [(stringRead_end typed).mpr rfl] at invalid
      cases invalid
    rw [stringFront, stringRead_append typed some (by rw [invalid]; nofun), invalid]
    rfl
  item_append := by
    intro input point rest later found
    have read := stringFront_item.mp found
    have some : input ≠ [] := by
      rintro rfl
      rw [(stringRead_end typed).mpr rfl] at read
      cases read
    rw [stringFront_item, stringRead_append typed some (by rw [read]; nofun), read]
    rfl

omit typed in
def Consume.refuses (consume : Consume C) (context : C) (point : Nat) : Option Result × C :=
  match consume.give context point with
  | (.ok, context) => (none, context)
  | (e, context) => (some e, context)

theorem stringDecoder_nil : (stringDecoder typed).next [] = .more := by
  simp [stringDecoder, stringFront, (stringRead_end typed).mpr]

theorem stringDecoder_more :
    (stringDecoder typed).next input = .more ↔ input = [] ∨ stringRead tag input = .error .more := by
  constructor
  · intro waiting
    rcases stringRead_cases typed input with nil | more | invalid | ⟨point, rest, read⟩
    · exact .inl nil
    · exact .inr more
    · simp [stringDecoder, stringFront, invalid] at waiting
    · simp [stringDecoder, stringFront, read] at waiting
  · rintro (rfl | more)
    · exact stringDecoder_nil typed
    · simp [stringDecoder, stringFront, more]

variable {consume : Consume C}

theorem run_invalid {context : C} (invalid : stringRead tag input = .error .invalid) :
    (stringDecoder typed).run consume.refuses input context = (.error .invalid, context) :=
  Decoder.run_failed (by simp [stringDecoder, stringFront, invalid])

theorem run_scalar {input rest : Bytes} {context : C}
    (read : stringRead tag input = .ok (point, rest)) :
    (stringDecoder typed).run consume.refuses input context = match consume.give context point with
      | (.ok, context) => (stringDecoder typed).run consume.refuses rest context
      | (e, context) => (.error e, context) := by
  rw [Decoder.run_item (stringFront_item.mpr read), Consume.refuses]
  cases consume.give context point with
  | mk outcome after => cases outcome <;> rfl

/-- `tc_asn1_string_feed` reads on from its pending octets. -/
theorem feedLoop_eq (consume : Consume C) (waiting : (stringDecoder typed).next pending = .more)
    (bytes : Bytes) (context : C) : feedLoop consume ⟨tag, pending⟩ bytes context =
      (((stringDecoder typed).run consume.refuses (pending ++ bytes) context).1.map fun left => ⟨tag, left⟩,
        ((stringDecoder typed).run consume.refuses (pending ++ bytes) context).2) := by
  induction size : bytes.length using Nat.strongRecOn generalizing pending bytes context with
  | ind size ih =>
    have nil := stringDecoder_nil typed
    cases bytes with
    | nil =>
      rw [List.append_nil, feedLoop, Decoder.run_more waiting]
      rfl
    | cons b rest =>
      rw [feedLoop]
      rcases eq_or_ne pending [] with rfl | some
      · rw [if_neg (not_not.mpr rfl), List.nil_append]
        rcases stringRead_cases typed (b :: rest) with empty | more | invalid | ⟨point, after, read⟩
        · cases empty
        · have short := stringRead_short typed more
          rw [Decoder.run_more ((stringDecoder_more typed).mpr (.inr more)),
            if_neg (Nat.not_le.mpr short)]
          split <;> simp_all [Except.map]
        · rw [run_invalid typed invalid]
          split <;> simp_all [Except.map]
        · have less := stringRead_shorter read
          rw [size] at less
          rw [run_scalar typed read]
          split
          · simp_all
          · simp_all
          · rename_i point' after' read'
            rw [read] at read'
            cases read'
            split
            · exact ih _ less nil after _ rfl
            · rfl
      · rw [if_pos some]
        have more := ((stringDecoder_more typed).mp waiting).resolve_left some
        have whole := @stringRead_append tag typed (pending ++ [b]) rest
          (show pending ++ [b] ≠ [] from List.append_ne_nil_of_right_ne_nil _ nofun)
        rw [List.append_assoc, List.singleton_append] at whole
        have less : rest.length < (b :: rest).length := Nat.lt_succ_self _
        rw [size] at less
        rcases stringRead_cases typed (pending ++ [b]) with empty | more' | invalid |
            ⟨point, after, read⟩
        · cases pending <;> cases empty
        · have short := stringRead_short typed more'
          simp only [more', if_neg (Nat.ne_of_lt short)]
          rw [ih _ less ((stringDecoder_more typed).mpr (.inr more')) rest _ rfl, List.append_assoc,
            List.singleton_append]
        · rw [invalid] at whole
          rw [run_invalid typed (whole nofun)]
          simp only [invalid]
          rfl
        · obtain rfl := completed_nil typed more some read
          rw [read] at whole
          rw [run_scalar typed (whole nofun)]
          simp only [read]
          split
          · exact ih _ less nil rest _ rfl
          · rfl

theorem feedSegments_eq (consume : Consume C) (waiting : (stringDecoder typed).next pending = .more)
    (segments : List Bytes) (context : C) : feedSegments consume ⟨tag, pending⟩ segments context =
      (((stringDecoder typed).runPieces consume.refuses pending segments context).1.map fun left =>
          ⟨tag, left⟩,
        ((stringDecoder typed).runPieces consume.refuses pending segments context).2) := by
  induction segments generalizing pending context with
  | nil => rfl
  | cons segment segments ih =>
    have short : pending.length < scalarBytes := by
      rcases (stringDecoder_more typed).mp waiting with rfl | more
      · decide
      · exact stringRead_short typed more
    rw [feedSegments, feed, if_neg (Nat.not_le.mpr short), if_neg (by simp [typed]),
      feedLoop_eq typed consume waiting, Decoder.runPieces]
    cases first : (stringDecoder typed).run consume.refuses (pending ++ segment) context with
    | mk outcome after =>
      cases outcome with
      | error e => rfl
      | ok left => exact ih (Decoder.run_left first) after

theorem readString_nil (consume : Consume C) (context : C) :
    readString consume tag [] context = (.ok, context) := by
  have next : stringNext tag [] = .error .end := by
    rw [stringNext, (stringRead_end typed).mpr rfl]
  rw [readString]
  split <;> simp_all

omit typed in
theorem readString_refused {context : C}
    (refused : stringRead tag input = .error .more ∨ stringRead tag input = .error .invalid) :
    readString consume tag input context = (.invalid, context) := by
  have next : stringNext tag input = .error .invalid := by
    rcases refused with more | invalid
    · rw [stringNext, more]
    · rw [stringNext, invalid]
  rw [readString]
  split <;> simp_all

omit typed in
theorem readString_next {input rest : Bytes} {context : C}
    (read : stringRead tag input = .ok (point, rest)) :
    readString consume tag input context = match consume.give context point with
      | (.ok, context) => readString consume tag rest context
      | failed => failed := by
  have next : stringNext tag input = .ok (point, rest) := by rw [stringNext, read]
  rw [readString]
  split <;> simp_all

theorem readString_eq (consume : Consume C) (input : Bytes) (context : C) :
    readString consume tag input context =
      match (stringDecoder typed).run consume.refuses input context with
      | (.ok left, context) => (if left ≠ [] then .invalid else .ok, context)
      | (.error e, context) => (e, context) := by
  induction size : input.length using Nat.strongRecOn generalizing input context with
  | ind size ih =>
    rcases stringRead_cases typed input with rfl | more | invalid | ⟨point, rest, read⟩
    · rw [readString_nil typed, Decoder.run_more (stringDecoder_nil typed)]
      rfl
    · have some : input ≠ [] := by
        rintro rfl
        rw [(stringRead_end typed).mpr rfl] at more
        cases more
      rw [readString_refused (.inl more),
        Decoder.run_more ((stringDecoder_more typed).mpr (.inr more))]
      simp [some]
    · rw [readString_refused (.inr invalid), run_invalid typed invalid]
    · have less := stringRead_shorter read
      rw [size] at less
      rw [readString_next read, run_scalar typed read]
      cases consume.give context point with
      | mk outcome after =>
        by_cases accepted : outcome = .ok
        · subst accepted
          exact ih _ less rest after rfl
        · cases outcome <;> first
            | rfl
            | exact absurd rfl accepted

/-- However a string is cut, its scalars are given to the function in their order, with the
verdict of the whole string. -/
theorem readSegments_eq (consume : Consume C) (segments : List Bytes) (context : C) :
    readSegments consume tag segments context = readString consume tag segments.flatten context := by
  rw [readSegments, feedSegments_eq typed consume (stringDecoder_nil typed),
    Decoder.runPieces_eq (stringDecoder_nil typed), List.nil_append, readString_eq typed consume]
  rcases (stringDecoder typed).run consume.refuses segments.flatten context with ⟨_ | _, _⟩ <;> rfl

end

def Scalar (point : Nat) : Prop := point ≤ 0x10ffff ∧ ¬(0xd800 ≤ point ∧ point ≤ 0xdfff)

def utf8Tail : (count point : Nat) → Bytes
  | 0, _ => []
  | count + 1, point => utf8Tail count (point / 64) ++ [UInt8.ofNat (0x80 + point % 64)]

/-- The octets of RFC 3629. -/
def utf8Octets (point : Nat) : Bytes := if point < 0x80 then [UInt8.ofNat point]
  else if point < 0x800 then UInt8.ofNat (0xc0 + point / 64) :: utf8Tail 1 point
  else if point < 0x10000 then UInt8.ofNat (0xe0 + point / 4096) :: utf8Tail 2 point
  else UInt8.ofNat (0xf0 + point / 262144) :: utf8Tail 3 point

theorem scalarOk_iff : scalarOk point = true ↔ Scalar point := by
  simp only [scalarOk, Scalar, Bool.not_eq_true', Bool.or_eq_false_iff, Bool.and_eq_false_iff,
    decide_eq_false_iff_not, ge_iff_le]
  omega

theorem octet_eq {b : UInt8} {n : Nat} (small : n < 256) : b = UInt8.ofNat n ↔ b.toNat = n := by
  rw [← UInt8.toNat_inj, UInt8.toNat_ofNat', Nat.mod_eq_of_lt small]

theorem utf8Tail_length (count point : Nat) : (utf8Tail count point).length = count := by
  induction count generalizing point with
  | zero => rfl
  | succ count ih => rw [utf8Tail, List.length_append, ih, List.length_singleton]

theorem utf8Rest_snoc (code : Nat) (tail : Bytes) (b : UInt8) : utf8Rest code (tail ++ [b]) =
      (utf8Rest code tail).bind fun code =>
        if b.toNat / 64 ≠ 2 then none else some (code * 64 + b.toNat % 64) := by
  induction tail generalizing code with
  | nil => rfl
  | cons c tail ih =>
    rw [List.cons_append, utf8Rest, utf8Rest]
    split
    · rfl
    · exact ih _

theorem utf8Rest_iff {code point : Nat} {tail : Bytes} : utf8Rest code tail = some point ↔
      tail = utf8Tail tail.length point ∧ code = point / 64 ^ tail.length := by
  induction tail using List.reverseRecOn generalizing point with
  | nil => simp [utf8Rest, utf8Tail]
  | append_singleton tail b ih =>
    have bound := b.toNat_lt
    rw [utf8Rest_snoc, Option.bind_eq_some_iff, List.length_append, List.length_singleton, utf8Tail,
      Nat.pow_succ', ← Nat.div_div_eq_div_mul,
      List.append_singleton_inj]
    constructor
    · rintro ⟨code', before, last⟩
      split at last
      · cases last
      · cases last
        rw [show (code' * 64 + b.toNat % 64) / 64 = code' by omega]
        obtain ⟨same, whole⟩ := ih.mp before
        refine ⟨⟨same, ?_⟩, whole⟩
        exact (octet_eq (by omega)).mpr (by omega)
    · rintro ⟨⟨same, last⟩, whole⟩
      refine ⟨point / 64, ih.mpr ⟨same, whole⟩, ?_⟩
      have value := (octet_eq (by omega)).mp last
      rw [if_neg (by omega), Option.some.injEq]
      omega

theorem stringRead_lead {tail rest : Bytes} : stringRead 0x0c (first :: tail) = .ok (point, rest) ↔
      ∃ extra minimum code, utf8Lead first.toNat = some (extra, minimum, code) ∧
        extra ≤ tail.length ∧ utf8Rest code (tail.take extra) = some point ∧ minimum ≤ point ∧
        Scalar point ∧ rest = tail.drop extra := by
  rw [stringRead_cons (by decide)]
  constructor
  · intro given
    cases read : stringCode 0x0c first tail with
    | error e => simp [read] at given
    | ok found =>
      obtain ⟨point', width⟩ := found
      simp only [read] at given
      split at given
      · rename_i scalar
        cases given
        obtain ⟨known, inside, value⟩ := stringCode_ok.mp read
        obtain ⟨⟨extra, minimum, code⟩, lead, rfl⟩ := Option.map_eq_some_iff.mp known
        have value' : ((utf8Rest code (tail.take extra)).bind fun code =>
            if code < minimum then none else some code) = some point := by
          simpa [stringValue, lead] using value
        obtain ⟨code', decoded, enough⟩ := Option.bind_eq_some_iff.mp value'
        split at enough
        · cases enough
        · rename_i least
          cases enough
          exact ⟨extra, minimum, code, lead, Nat.le_of_succ_le_succ inside, decoded,
            Nat.not_lt.mp least, scalarOk_iff.mp scalar, rfl⟩
      · cases given
  · rintro ⟨extra, minimum, code, lead, inside, decoded, least, scalar, rfl⟩
    have read : stringCode 0x0c first tail = .ok (point, extra + 1) := by
      refine stringCode_ok.mpr ⟨by simp [stringWidth, lead], Nat.succ_le_succ inside, ?_⟩
      simp [stringValue, lead, decoded, Nat.not_lt.mpr least]
    rw [read]
    simp [scalarOk_iff.mpr scalar]

theorem stringRead_utf8 {input rest : Bytes} :
    stringRead 0x0c input = .ok (point, rest) ↔ Scalar point ∧ input = utf8Octets point ++ rest := by
  constructor
  · intro given
    cases input with
    | nil => cases given
    | cons first tail =>
      obtain ⟨extra, minimum, code, lead, inside, decoded, least, scalar, rfl⟩ :=
        stringRead_lead.mp given
      obtain ⟨same, whole⟩ := utf8Rest_iff.mp decoded
      rw [List.length_take_of_le inside] at same whole
      have bound := first.toNat_lt
      refine ⟨scalar, ?_⟩
      conv_lhs => rw [← List.take_append_drop extra tail, same]
      rw [← List.cons_append]
      congr 1
      unfold utf8Lead at lead
      simp only [Bool.and_eq_true, decide_eq_true_eq, ge_iff_le] at lead
      unfold utf8Octets
      split at lead
      · cases lead
        rw [Nat.pow_zero, Nat.div_one] at whole
        rw [if_pos (by omega), (octet_eq (by omega)).mpr whole, utf8Tail]
      split at lead
      · cases lead
        rw [if_neg (by omega), if_pos (by omega)]
        rw [(octet_eq (by omega)).mpr (show first.toNat = 0xc0 + point / 64 by omega)]
      split at lead
      · cases lead
        rw [if_neg (by omega), if_neg (by omega), if_pos (by omega)]
        rw [(octet_eq (by omega)).mpr (show first.toNat = 0xe0 + point / 4096 by omega)]
      split at lead
      · cases lead
        rw [if_neg (by omega), if_neg (by omega), if_neg (by omega)]
        rw [(octet_eq (by omega)).mpr (show first.toNat = 0xf0 + point / 262144 by omega)]
      · cases lead
  · rintro ⟨scalar, rfl⟩
    have limit := scalar.1
    have led (extra minimum : Nat) (first : UInt8)
        (lead : utf8Lead first.toNat = some (extra, minimum, point / 64 ^ extra)) (least : minimum ≤ point) :
        stringRead 0x0c (first :: utf8Tail extra point ++ rest) = .ok (point, rest) := by
      rw [List.cons_append, stringRead_lead]
      refine ⟨extra, minimum, _, lead, ?_, ?_, least, scalar, ?_⟩
      · rw [List.length_append, utf8Tail_length]
        omega
      · rw [List.take_left' (utf8Tail_length extra point), utf8Rest_iff, utf8Tail_length]
        exact ⟨rfl, rfl⟩
      · rw [List.drop_left' (utf8Tail_length extra point)]
    unfold utf8Octets
    split
    · rename_i small
      refine led 0 0 _ ?_ (Nat.zero_le _)
      rw [(octet_eq (by omega)).mp (rfl : UInt8.ofNat point = _), utf8Lead, if_pos small, Nat.pow_zero,
        Nat.div_one]
    split
    · refine led 1 0x80 _ ?_ (by omega)
      rw [(octet_eq (by omega)).mp (rfl : UInt8.ofNat (0xc0 + point / 64) = _), utf8Lead,
        if_neg (by omega), if_pos (by simp; omega), Nat.pow_one,
        show (0xc0 + point / 64) % 32 = point / 64 by omega]
    split
    · refine led 2 0x800 _ ?_ (by omega)
      rw [(octet_eq (by omega)).mp (rfl : UInt8.ofNat (0xe0 + point / 4096) = _), utf8Lead,
        if_neg (by omega), if_neg (by simp; omega), if_pos (by simp; omega),
        show (0xe0 + point / 4096) % 16 = point / 64 ^ 2 by omega]
    · refine led 3 0x10000 _ ?_ (by omega)
      rw [(octet_eq (by omega)).mp (rfl : UInt8.ofNat (0xf0 + point / 262144) = _), utf8Lead,
        if_neg (by omega), if_neg (by simp; omega), if_neg (by simp; omega), if_pos (by simp; omega),
        show (0xf0 + point / 262144) % 8 = point / 64 ^ 3 by omega]

def collect : Consume (List Nat) := some fun points point => (.ok, points ++ [point])

theorem readString_utf8 {input : Bytes} {before after : List Nat} :
    readString collect 0x0c input before = (.ok, after) ↔
      ∃ points : List Nat, (∀ point ∈ points, Scalar point) ∧ input = points.flatMap utf8Octets ∧
        after = before ++ points := by
  have typed : stringTag 0x0c = true := rfl
  constructor
  · intro given
    induction size : input.length using Nat.strong_induction_on generalizing input before with
    | _ size ih =>
      rcases stringRead_cases typed input with rfl | more | invalid | ⟨point, rest, read⟩
      · rw [readString_nil typed] at given
        cases given
        exact ⟨[], nofun, rfl, (List.append_nil _).symm⟩
      · rw [readString_refused (.inl more)] at given
        cases given
      · rw [readString_refused (.inr invalid)] at given
        cases given
      · have less := stringRead_shorter read
        rw [size] at less
        rw [readString_next read] at given
        obtain ⟨scalar, rfl⟩ := stringRead_utf8.mp read
        obtain ⟨points, scalars, rfl, rfl⟩ := ih _ less given rfl
        refine ⟨point :: points, fun p member => ?_, rfl, List.append_assoc _ _ _⟩
        rcases List.mem_cons.mp member with rfl | member
        · exact scalar
        · exact scalars p member
  · rintro ⟨points, scalars, rfl, rfl⟩
    induction points generalizing before with
    | nil => rw [List.flatMap_nil, readString_nil typed, List.append_nil]
    | cons point points ih =>
      have read : stringRead 0x0c ((point :: points).flatMap utf8Octets) =
          .ok (point, points.flatMap utf8Octets) :=
        stringRead_utf8.mpr ⟨scalars point List.mem_cons_self, rfl⟩
      have later := @ih (before ++ [point]) fun p member => scalars p (List.mem_cons_of_mem _ member)
      rw [readString_next read]
      rwa [List.append_assoc] at later

/-- Segments give the scalars and the verdict of the whole string, to any function; and UTF-8 is
accepted exactly where it encodes scalars, each in its one way, with those scalars. -/
theorem segments_transparent_exact :
    (∀ (C : Type) (consume : Consume C) (tag : Nat), stringTag tag = true →
        ∀ (segments : List Bytes) (context : C),
          readSegments consume tag segments context = readString consume tag segments.flatten context) ∧
      ∀ (input : Bytes) (points : List Nat), readString collect 0x0c input [] = (.ok, points) ↔
          (∀ point ∈ points, Scalar point) ∧ input = points.flatMap utf8Octets := by
  refine ⟨fun C consume tag typed => readSegments_eq typed consume, fun input points => ?_⟩
  rw [readString_utf8]
  constructor
  · rintro ⟨found, scalars, encoded, rfl⟩
    exact ⟨scalars, encoded⟩
  · rintro ⟨scalars, encoded⟩
    exact ⟨points, scalars, encoded, rfl⟩

end TinyCrypto.Unicode
