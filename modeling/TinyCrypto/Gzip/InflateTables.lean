import TinyCrypto.Gzip.InflateTrees

/-! # Fixed and dynamic tables

The table reader accepts the headers that declare at most 30 distance codes, and leaves
tables for their alphabets.
-/

namespace TinyCrypto.Gzip

open Library Library.Program

variable {input : Bytes} {s s' : Inflating} {bits rest : List Bool} {first second : Nat}

theorem order_idxOf {symbol : Nat} (inside : symbol < 19) :
    codeLengthOrder.idxOf symbol < 19 ∧ order.getD (codeLengthOrder.idxOf symbol) 0 = symbol := by
  have all : ∀ symbol < 19, codeLengthOrder.idxOf symbol < 19 ∧
      order.getD (codeLengthOrder.idxOf symbol) 0 = symbol := by decide
  exact all symbol inside

theorem idxOf_order {i : Nat} (inside : i < 19) : codeLengthOrder.idxOf (order.getD i 0) = i := by
  have all : ∀ i < 19, codeLengthOrder.idxOf (order.getD i 0) = i := by decide
  exact all i inside

/-- A row that holds the lengths given so far in their order. -/
def Ordered (given : List Nat) (lengths : Row) : Prop :=
  ∀ symbol < 19, lengths symbol = given.getD (codeLengthOrder.idxOf symbol) 0

theorem Ordered.set {given : List Nat} {lengths : Row} (ordered : Ordered given lengths)
    (number : Nat) (room : given.length < 19) :
    Ordered (given ++ [number]) (lengths.set (order.getD given.length 0) number) := by
  intro symbol inside
  obtain ⟨index_lt, back⟩ := order_idxOf inside
  rw [Row.set]
  by_cases own : symbol = order.getD given.length 0
  · have index := idxOf_order room
    rw [← own] at index
    rw [if_pos own, index]
    simp
  · have other : codeLengthOrder.idxOf symbol ≠ given.length := by
      intro same
      rw [same] at back
      exact own back.symm
    rw [if_neg own, ordered symbol inside]
    rcases Nat.lt_or_ge (codeLengthOrder.idxOf symbol) given.length with less | more
    · rw [List.getD_append _ _ _ _ less]
    · rw [List.getD_eq_default _ _ more, List.getD_eq_default]
      rw [List.length_append, List.length_singleton]
      omega

theorem Ordered.list_eq {given : List Nat} {lengths : Row} (ordered : Ordered given lengths) :
    lengths.list 19 = orderedLengths given :=
  List.map_congr_left fun symbol member => ordered symbol (List.mem_range.mp member)

theorem orderLoop_moved {passes : Nat} (given : List Nat) {lengths lengths' : Row}
    (cursor : At input s bits) (ordered : Ordered given lengths) (room : given.length + passes ≤ 19)
    (run : Gives (orderLoop input passes given.length lengths) s lengths' s') :
    ∃ numbers rest, Numbers 3 bits numbers rest ∧ numbers.length = passes ∧
      Ordered (given ++ numbers) lengths' ∧ Moved input (3 * passes) s rest s' := by
  induction passes generalizing given lengths s bits with
  | zero =>
    obtain ⟨rfl, rfl⟩ := gives_pure.mp run
    exact ⟨[], bits, .nil, rfl, by rwa [List.append_nil], cursor, rfl, rfl⟩
  | succ passes ih =>
    simp only [orderLoop, gives_bind] at run
    obtain ⟨number, middle, read, run⟩ := run
    obtain ⟨next, isNumber, moved⟩ := bitsRead_moved cursor read
    have longer : (given ++ [number]).length = given.length + 1 := by simp
    rw [← longer] at run
    obtain ⟨numbers, rest, others, count, final, later⟩ :=
      ih _ moved.cursor (ordered.set number (by omega)) (by omega) run
    refine ⟨number :: numbers, rest, .cons isNumber others, by rw [List.length_cons, count],
      by simpa using final, ?_⟩
    have total := moved.trans later
    rwa [Nat.add_comm, ← Nat.mul_succ] at total

theorem orderLoop_enough (given : List Nat) {numbers : List Nat} {lengths : Row}
    (cursor : At input s bits) (read : Numbers 3 bits numbers rest) (ordered : Ordered given lengths)
    (room : given.length + numbers.length ≤ 19) (enough : 3 * numbers.length ≤ s.work) :
    ∃ lengths' s', Gives (orderLoop input numbers.length given.length lengths) s lengths' s' ∧
      Ordered (given ++ numbers) lengths' ∧ Moved input (3 * numbers.length) s rest s' := by
  induction read generalizing given lengths s with
  | nil =>
    exact ⟨lengths, s, gives_pure.mpr ⟨rfl, rfl⟩, by rwa [List.append_nil], cursor, rfl, rfl⟩
  | @cons bits number middle numbers rest isNumber _ ih =>
    rw [List.length_cons] at room enough
    obtain ⟨s₁, run, moved⟩ := bitsRead_enough cursor isNumber (by omega)
    have worked := moved.work
    have longer : (given ++ [number]).length = given.length + 1 := by simp
    obtain ⟨lengths', s₂, later, final, moved'⟩ := ih _ moved.cursor
      (ordered.set number (by omega)) (by omega) (by omega)
    rw [longer] at later
    refine ⟨lengths', s₂, ?_, by simpa using final, ?_⟩
    · simp only [List.length_cons, orderLoop, gives_bind]
      exact ⟨number, s₁, run, later⟩
    · have total := moved.trans moved'
      rwa [Nat.add_comm, ← Nat.mul_succ] at total

theorem Row.list_succ (row : Row) (used : Nat) : row.list (used + 1) = row.list used ++ [row used] := by
  simp [Row.list, List.range_succ]

theorem Row.list_congr {row row' : Row} {used : Nat} (same : ∀ i < used, row i = row' i) :
    row.list used = row'.list used :=
  List.map_congr_left fun i member => same i (List.mem_range.mp member)

theorem Row.list_fill (row : Row) (used times value : Nat) :
    (row.fill used times value).list (used + times) =
      row.list used ++ List.replicate times value := by
  have before : (row.fill used times value).list used = row.list used :=
    Row.list_congr fun i less => by
      rw [Row.fill, if_neg (by omega)]
  induction times with
  | zero => simpa using before
  | succ times ih =>
    have kept : (row.fill used (times + 1) value).list (used + times) =
        (row.fill used times value).list (used + times) :=
      Row.list_congr fun i less => by
        rw [Row.fill, Row.fill]
        exact if_congr (by omega) rfl rfl
    have inner : (row.fill used times value).list used = row.list used :=
      Row.list_congr fun i less => by
        rw [Row.fill, if_neg (by omega)]
    rw [← Nat.add_assoc, Row.list_succ, kept, ih inner, List.replicate_succ', List.append_assoc,
      Row.fill, if_pos (by omega)]

theorem Row.list_getLast (row : Row) {used : Nat} (pos : 0 < used) :
    (row.list used).getLast? = some (row (used - 1)) := by
  obtain ⟨before, rfl⟩ := Nat.exists_eq_succ_of_ne_zero (Nat.pos_iff_ne_zero.mp pos)
  rw [Nat.succ_eq_add_one, Row.list_succ, List.getLast?_append]
  rfl

section

variable {codes : List Nat} {tree : Tree} {lengths : Row} {used : Nat}

theorem lengthCode_moved (built : Built codes tree) {times value : Nat} (cursor : At input s bits)
    (run : Gives (lengthCode input tree lengths used) s (times, value) s') :
    ∃ cost rest, LengthCode codes (lengths.list used) bits times value rest ∧ 0 < times ∧
      Moved input cost s rest s' := by
  simp only [lengthCode, gives_bind] at run
  obtain ⟨v, middle, read, run⟩ := run
  obtain ⟨cost, inner, _, isSymbol, moved⟩ := symbol_moved built cursor read
  split at run
  · rename_i small
    obtain ⟨pair, rfl⟩ := gives_pure.mp run
    cases pair
    exact ⟨cost, inner, .single isSymbol small, Nat.one_pos, moved⟩
  · split at run
    · exact absurd run gives_throw
    · rename_i some
      split at run
      · exact absurd run gives_throw
      · simp only [gives_bind, gives_pure, Prod.mk.injEq] at run
        obtain ⟨extra, final, read', ⟨rfl, rfl⟩, rfl⟩ := run
        obtain ⟨rest, number, moved'⟩ := bitsRead_moved moved.cursor read'
        refine ⟨_, rest, ?_, by split <;> omega, moved.trans moved'⟩
        have cases : v = 16 ∨ v = 17 ∨ v = 18 := by omega
        rcases cases with rfl | rfl | rfl
        · exact .previous isSymbol (lengths.list_getLast (by omega)) number
        · exact .zeros isSymbol number
        · exact .manyZeros isSymbol number

theorem lengthCode_enough {given : List Nat} {times value : Nat}
    (code : LengthCode codes given bits times value rest) :
    ∃ cost, ∀ {input : Bytes} tree (lengths : Row) s, Built codes tree → lengths.list given.length = given →
      At input s bits → cost ≤ s.work →
      ∃ s', Gives (lengthCode input tree lengths given.length) s (times, value) s' ∧
        Moved input cost s rest s' := by
  have extended : ∀ {v width extra middle}, Symbol codes bits v middle →
      Number width middle extra rest → 15 < v → v ≤ 18 → (v = 16 → given.length ≠ 0) →
      width = (if v = 16 then 2 else if v = 17 then 3 else 7) →
      ∃ cost, ∀ {input : Bytes} tree (lengths : Row) s, Built codes tree → At input s bits → cost ≤ s.work →
        ∃ s', Gives (lengthCode input tree lengths given.length) s
            (extra + (if v = 18 then 11 else 3),
              if v = 16 then lengths (given.length - 1) else 0) s' ∧
          Moved input cost s rest s' := by
    intro v width extra middle read number large small some equal
    obtain ⟨cost, _, symbol⟩ := symbol_enough read
    refine ⟨cost + width, fun tree lengths s built cursor enough => ?_⟩
    obtain ⟨s₁, run, moved⟩ := symbol tree s built cursor (by omega)
    have worked := moved.work
    obtain ⟨s₂, run', moved'⟩ := bitsRead_enough moved.cursor number (by omega)
    refine ⟨s₂, ?_, moved.trans moved'⟩
    simp only [lengthCode, gives_bind]
    refine ⟨v, s₁, run, ?_⟩
    rw [if_neg (by omega), if_neg (by omega), if_neg (by omega), ← equal, gives_bind]
    exact ⟨extra, s₂, run', gives_pure.mpr ⟨rfl, rfl⟩⟩
  cases code with
  | single read small =>
    obtain ⟨cost, _, symbol⟩ := symbol_enough read
    refine ⟨cost, fun tree lengths s built _ cursor enough => ?_⟩
    obtain ⟨s₁, run, moved⟩ := symbol tree s built cursor enough
    refine ⟨s₁, ?_, moved⟩
    simp only [lengthCode, gives_bind]
    exact ⟨value, s₁, run, by rw [if_pos small]; exact gives_pure.mpr ⟨rfl, rfl⟩⟩
  | previous read last number =>
    have some : given.length ≠ 0 := by
      rw [Ne, List.length_eq_zero_iff]
      rintro rfl
      cases last
    obtain ⟨cost, symbol⟩ := extended read number (by omega) (by omega) (fun _ => some) rfl
    refine ⟨cost, fun tree lengths s built same => ?_⟩
    rw [← same, lengths.list_getLast (by omega), Option.some_inj] at last
    rw [← last]
    exact symbol tree lengths s built
  | zeros read number =>
    obtain ⟨cost, symbol⟩ := extended read number (by omega) (by omega) (by omega) rfl
    exact ⟨cost, fun tree lengths s built _ => symbol tree lengths s built⟩
  | manyZeros read number =>
    obtain ⟨cost, symbol⟩ := extended read number (by omega) (by omega) (by omega) rfl
    exact ⟨cost, fun tree lengths s built _ => symbol tree lengths s built⟩

theorem lengthsLoop_moved (built : Built codes tree) {total passes : Nat} {lengths' : Row}
    (cursor : At input s bits) (room : used ≤ total) (fuel : total ≤ used + passes)
    (run : Gives (lengthsLoop input tree total passes used lengths) s lengths' s') :
    ∃ cost rest, CodeLengths codes total (lengths.list used) bits (lengths'.list total) rest ∧
      Moved input cost s rest s' := by
  induction passes generalizing used lengths s bits with
  | zero =>
    have finished : used = total := by omega
    obtain ⟨rfl, rfl⟩ := gives_pure.mp run
    subst finished
    exact ⟨0, bits, .done (by simp), cursor, rfl, rfl⟩
  | succ passes ih =>
    rw [lengthsLoop] at run
    split at run
    · rename_i less
      rw [gives_bind] at run
      obtain ⟨⟨times, value⟩, s₁, read, run⟩ := run
      obtain ⟨cost, middle, code, pos, moved⟩ := lengthCode_moved built cursor read
      dsimp only at run
      split at run
      · exact absurd run gives_throw
      · rename_i fits
        rw [gives_bind] at run
        obtain ⟨_, s₂, spent, run⟩ := run
        have paid := spend_moved moved.cursor spent
        obtain ⟨cost', rest, others, moved'⟩ := ih paid.cursor (by omega) (by omega) run
        rw [Row.list_fill] at others
        exact ⟨_, rest, .more code (by rw [Row.list_length]; omega) others,
          (moved.trans paid).trans moved'⟩
    · obtain ⟨rfl, rfl⟩ := gives_pure.mp run
      have finished : used = total := by omega
      subst finished
      exact ⟨0, bits, .done (by simp), cursor, rfl, rfl⟩

theorem LengthCode.positive {given : List Nat} {times value : Nat}
    (code : LengthCode codes given bits times value rest) : 0 < times := by
  cases code <;> omega

theorem lengthsLoop_enough {total : Nat} {given all : List Nat}
    (read : CodeLengths codes total given bits all rest) :
    ∃ cost, ∀ {input : Bytes} tree s passes (lengths : Row), Built codes tree → At input s bits →
      cost ≤ s.work → lengths.list given.length = given → total ≤ given.length + passes →
      ∃ lengths' s', Gives (lengthsLoop input tree total passes given.length lengths) s lengths' s' ∧
        lengths'.list total = all ∧ Moved input cost s rest s' := by
  induction read with
  | done finished =>
    refine ⟨0, fun tree s passes lengths _ cursor _ same _ => ⟨lengths, s, ?_, by rw [← finished, same],
      cursor, rfl, rfl⟩⟩
    cases passes with
    | zero => exact gives_pure.mpr ⟨rfl, rfl⟩
    | succ passes =>
      rw [lengthsLoop, if_neg (by omega)]
      exact gives_pure.mpr ⟨rfl, rfl⟩
  | @more given bits times value middle all rest code fits _ ih =>
    have pos := code.positive
    obtain ⟨cost', later⟩ := ih
    obtain ⟨cost, symbol⟩ := lengthCode_enough code
    refine ⟨cost + times + cost', fun tree s passes lengths built cursor enough same fuel => ?_⟩
    obtain ⟨s₁, run, moved⟩ := symbol tree lengths s built same cursor (by omega)
    have worked := moved.work
    obtain ⟨s₂, spent, paid⟩ := spend_enough times moved.cursor (by omega)
    have worked' := paid.work
    have longer : (given ++ List.replicate times value).length = given.length + times := by simp
    rw [longer] at later
    obtain ⟨passes, rfl⟩ : ∃ before, passes = before + 1 := ⟨passes - 1, by omega⟩
    obtain ⟨lengths', s₃, loop, final, moved'⟩ := later tree s₂ passes
      (lengths.fill given.length times value) built paid.cursor (by omega)
      (by rw [Row.list_fill, same]) (by omega)
    refine ⟨lengths', s₃, ?_, final, (moved.trans paid).trans moved'⟩
    rw [lengthsLoop, if_pos (by omega), gives_bind]
    refine ⟨_, s₁, run, ?_⟩
    dsimp only
    rw [if_neg (by omega), gives_bind]
    exact ⟨(), s₂, spent, loop⟩

end

theorem Row.list_take (row : Row) (first second : Nat) :
    (row.list (first + second)).take first = row.list first := by
  rw [Row.list, Row.list, ← List.map_take, List.take_range, Nat.min_eq_left (Nat.le_add_right _ _)]

theorem Row.list_drop (row : Row) (first second : Nat) :
    (row.list (first + second)).drop first = Row.list (fun i => row (first + i)) second := by
  refine List.ext_getElem (by simp) fun i _ _ => ?_
  simp [Row.list]

theorem Number.lt {width number : Nat} (read : Number width bits number rest) : number < 2 ^ width := by
  obtain ⟨word, rfl, _, rfl⟩ := read
  exact BitString.value_lt word

theorem ordered_start (row : Row) : Ordered [] (row.fill 0 order.length 0) := by
  intro symbol inside
  rw [Row.fill, if_pos ⟨Nat.zero_le _, by rwa [Nat.zero_add]⟩, List.getD_nil]

theorem dynamicLengths_moved {lengths : Row} (cursor : At input s bits)
    (run : Gives (dynamicLengths input) s (lengths, first, second) s') :
    ∃ cost rest, LengthSequence 30 bits first second (lengths.list (first + second)) rest ∧
      Moved input cost s rest s' := by
  simp only [dynamicLengths, gives_bind] at run
  obtain ⟨literalCount, s₁, read₁, distanceCount, s₂, read₂, codeCount, s₃, read₃, run⟩ := run
  obtain ⟨_, h₁, m₁⟩ := bitsRead_moved cursor read₁
  obtain ⟨_, h₂, m₂⟩ := bitsRead_moved m₁.cursor read₂
  obtain ⟨_, h₃, m₃⟩ := bitsRead_moved m₂.cursor read₃
  have few := h₃.lt
  split at run
  · exact absurd run gives_throw
  · rename_i limits
    simp only [gives_bind, gives_state, gives_change] at run
    obtain ⟨_, s₄, spent, _, _, ⟨rfl, rfl⟩, lengths₁, s₅, ordered, codes, s₆, build, lengths₂, s₇,
      loop, _, s₈, rfl, run⟩ := run
    have m₄ := spend_moved m₃.cursor spent
    obtain ⟨numbers, _, h₅, count, final, m₅⟩ := orderLoop_moved [] m₄.cursor
      (ordered_start _) (by simp; omega) ordered
    obtain ⟨permitted, built, m₆⟩ := treeBuild_moved m₅.cursor build
    rw [show order.length = 19 from rfl, final.list_eq] at permitted built
    obtain ⟨_, rest, h₇, m₇⟩ := lengthsLoop_moved built m₆.cursor (Nat.zero_le _) (by omega) loop
    split at run
    · exact absurd run gives_throw
    · simp only [gives_pure, Prod.mk.injEq] at run
      obtain ⟨⟨rfl, rfl, rfl⟩, rfl⟩ := run
      have moved := (((((m₁.trans m₂).trans m₃).trans m₄).trans m₅).trans m₆).trans m₇
      exact ⟨_, rest, .mk h₁ h₂ h₃ (by omega) (by omega) h₅ count permitted h₇,
        moved.cursor.of_position rfl rfl, moved.output, moved.work⟩

theorem dynamicLengths_enough {all : List Nat}
    (header : LengthSequence 30 bits first second all rest) (ends : ∀ length, all[256]? = some length →
      length ≠ 0) : ∃ cost, ∀ {input : Bytes} s, At input s bits → cost ≤ s.work →
      ∃ lengths s', Gives (dynamicLengths input) s (lengths, first, second) s' ∧
        lengths.list (first + second) = all ∧ Moved input cost s rest s' := by
  obtain ⟨h₁, h₂, h₃, few, limited, numbers, count, permitted, read⟩ := header
  rename_i literalCount _ distanceCount _ codeCount _ given _
  have wide : codeCount < 2 ^ 4 := h₃.lt
  obtain ⟨cost, loop⟩ := lengthsLoop_enough read
  refine ⟨5 + 5 + 4 + 19 + 3 * (codeCount + 4) + (2 * 19 + codeBits) + cost,
    fun s cursor enough => ?_⟩
  obtain ⟨s₁, r₁, m₁⟩ := bitsRead_enough cursor h₁ (by omega)
  have w₁ := m₁.work
  obtain ⟨s₂, r₂, m₂⟩ := bitsRead_enough m₁.cursor h₂ (by omega)
  have w₂ := m₂.work
  obtain ⟨s₃, r₃, m₃⟩ := bitsRead_enough m₂.cursor h₃ (by omega)
  have w₃ := m₃.work
  obtain ⟨s₄, r₄, m₄⟩ := spend_enough order.length m₃.cursor
    (by rw [show order.length = 19 from rfl]; omega)
  have w₄ := m₄.work
  rw [show order.length = 19 from rfl] at w₄
  obtain ⟨lengths₁, s₅, r₅, final, m₅⟩ := orderLoop_enough [] m₄.cursor numbers
    (ordered_start s₄.tables.lengths) (by simp; omega) (by omega)
  have w₅ := m₅.work
  have alphabet : lengths₁.list order.length = orderedLengths given := final.list_eq
  obtain ⟨codes, s₆, r₆, built, m₆⟩ := treeBuild_enough lengths₁ order.length .completeTree
    s₄.tables.literal.symbols m₅.cursor
    (by rw [alphabet]; exact permitted) (by rw [show order.length = 19 from rfl]; omega)
  have w₆ := m₆.work
  rw [show order.length = 19 from rfl] at w₆
  rw [alphabet] at built
  obtain ⟨lengths₂, s₇, r₇, all_eq, m₇⟩ := loop codes s₆ _ lengths₁ built m₆.cursor (by omega) rfl
    (Nat.le_of_eq (Nat.zero_add _).symm)
  have moved := (((((m₁.trans m₂).trans m₃).trans m₄).trans m₅).trans m₆).trans m₇
  have ended : lengths₂ 256 ≠ 0 := by
    refine ends _ ?_
    rw [← all_eq]
    exact Row.list_getElem lengths₂ (by omega)
  refine ⟨lengths₂, { s₇ with tables := { s₇.tables with literal := codes, lengths := lengths₂ } },
    ?_, all_eq, moved.cursor.of_position rfl rfl, moved.output, ?_⟩
  · simp only [dynamicLengths, gives_bind]
    refine ⟨literalCount, s₁, r₁, distanceCount, s₂, r₂, codeCount, s₃, r₃, ?_⟩
    rw [if_neg (by omega)]
    simp only [gives_bind, gives_state, gives_change]
    rw [count] at r₅
    refine ⟨(), s₄, r₄, s₄, s₄, ⟨rfl, rfl⟩, lengths₁, s₅, r₅, codes, s₆, r₆, lengths₂, s₇, r₇, (),
      _, rfl, ?_⟩
    rw [if_neg ended]
    exact gives_pure.mpr ⟨rfl, rfl⟩
  · have worked := moved.work
    rw [show order.length = 19 from rfl, count] at worked
    exact worked

theorem buildTables_moved {lengths : Row} {u : Unit} (cursor : At input s bits)
    (run : Gives (buildTables lengths first second) s u s') :
    Permitted .literals (lengths.list first) ∧
      Permitted .distances (Row.list (fun i => lengths (first + i)) second) ∧
      Built (lengths.list first) s'.tables.literal ∧
      Built (Row.list (fun i => lengths (first + i)) second) s'.tables.distance ∧
      ∃ cost, Moved input cost s bits s' := by
  simp only [buildTables, gives_bind, gives_state, gives_change] at run
  obtain ⟨_, _, ⟨rfl, rfl⟩, literal, s₁, r₁, distance, s₂, r₂, rfl⟩ := run
  obtain ⟨permitted, built, m₁⟩ := treeBuild_moved cursor r₁
  obtain ⟨permitted', built', m₂⟩ := treeBuild_moved m₁.cursor r₂
  have moved := m₁.trans m₂
  exact ⟨permitted, permitted', built, built', _, moved.cursor.of_position rfl rfl, moved.output,
    moved.work⟩

theorem buildTables_enough (lengths : Row) (first second : Nat) (cursor : At input s bits)
    (permitted : Permitted .literals (lengths.list first))
    (permitted' : Permitted .distances (Row.list (fun i => lengths (first + i)) second))
    (enough : 2 * first + codeBits + (2 * second + codeBits) ≤ s.work) :
    ∃ s', Gives (buildTables lengths first second) s () s' ∧
      Built (lengths.list first) s'.tables.literal ∧
      Built (Row.list (fun i => lengths (first + i)) second) s'.tables.distance ∧
      Moved input (2 * first + codeBits + (2 * second + codeBits)) s bits s' := by
  obtain ⟨literal, s₁, r₁, built, m₁⟩ := treeBuild_enough lengths first .literalTree
    s.tables.literal.symbols cursor permitted (by omega)
  have worked := m₁.work
  obtain ⟨distance, s₂, r₂, built', m₂⟩ := treeBuild_enough
    (fun i => lengths (first + i)) second .distanceTree s.tables.distance.symbols m₁.cursor permitted' (by omega)
  have moved := m₁.trans m₂
  refine ⟨{ s₂ with tables := ⟨literal, distance, lengths⟩ }, ?_, built, built',
    moved.cursor.of_position rfl rfl, moved.output, moved.work⟩
  simp only [buildTables, gives_bind, gives_state, gives_change]
  exact ⟨s, s, ⟨rfl, rfl⟩, literal, s₁, r₁, distance, s₂, r₂, rfl⟩

theorem fixedLengths_literals (lengths : Row) :
    (fixedLengths lengths).list literalCodes = fixedLiterals := by
  have same : (fixedLengths lengths).list literalCodes =
      (fixedLengths fun _ => 0).list literalCodes :=
    Row.list_congr fun i less => by rw [fixedLengths, fixedLengths, if_pos less, if_pos less]
  rw [same]
  decide +kernel

theorem fixedLengths_distances (lengths : Row) :
    Row.list (fun i => fixedLengths lengths (literalCodes + i)) distanceCodes = fixedDistances := by
  have same : Row.list (fun i => fixedLengths lengths (literalCodes + i)) distanceCodes =
      Row.list (fun _ => 5) distanceCodes :=
    Row.list_congr fun i less => by
      rw [fixedLengths, if_neg (by omega), if_pos (by omega)]
  rw [same]
  decide

theorem fixed_permitted : Permitted .literals fixedLiterals ∧ Permitted .distances fixedDistances :=
  ⟨⟨by decide +kernel, .inl (by decide +kernel)⟩, ⟨by decide, .inl (by decide)⟩⟩

theorem tablesRead_fixed_moved {u : Unit} (cursor : At input s bits)
    (run : Gives (tablesRead input 1) s u s') :
    Built fixedLiterals s'.tables.literal ∧ Built fixedDistances s'.tables.distance ∧
      ∃ cost, Moved input cost s bits s' := by
  rw [tablesRead, if_pos rfl] at run
  simp only [gives_bind, gives_state] at run
  obtain ⟨_, s₁, spent, _, _, ⟨rfl, rfl⟩, run⟩ := run
  have paid := spend_moved cursor spent
  obtain ⟨_, _, built, built', _, moved⟩ := buildTables_moved paid.cursor run
  rw [fixedLengths_literals] at built
  rw [fixedLengths_distances] at built'
  exact ⟨built, built', _, paid.trans moved⟩

/-- With enough work a block of `type` reads these codes. -/
def TablesEnough (type : Nat) (literals distances : List Nat) (bits rest : List Bool) : Prop :=
  ∃ cost, ∀ {input : Bytes} s, At input s bits → cost ≤ s.work →
    ∃ s', Gives (tablesRead input type) s () s' ∧ Built literals s'.tables.literal ∧
      Built distances s'.tables.distance ∧ Moved input cost s rest s'

theorem tablesRead_fixed_enough : TablesEnough 1 fixedLiterals fixedDistances bits bits := by
  refine ⟨literalCodes + distanceCodes +
    (2 * literalCodes + codeBits + (2 * distanceCodes + codeBits)), fun s cursor enough => ?_⟩
  obtain ⟨s₁, r₁, m₁⟩ := spend_enough (literalCodes + distanceCodes) cursor (by omega)
  have worked := m₁.work
  obtain ⟨s₂, r₂, built, built', m₂⟩ := buildTables_enough
    (fixedLengths s₁.tables.lengths) literalCodes distanceCodes m₁.cursor
    (by rw [fixedLengths_literals]; exact fixed_permitted.1)
    (by rw [fixedLengths_distances]; exact fixed_permitted.2) (by omega)
  rw [fixedLengths_literals] at built
  rw [fixedLengths_distances] at built'
  refine ⟨s₂, ?_, built, built', m₁.trans m₂⟩
  rw [tablesRead, if_pos rfl]
  simp only [gives_bind, gives_state]
  exact ⟨(), s₁, r₁, s₁, s₁, ⟨rfl, rfl⟩, r₂⟩

theorem tablesRead_dynamic_moved {u : Unit} (cursor : At input s bits)
    (run : Gives (tablesRead input 2) s u s') :
    ∃ literals distances rest cost, Header 30 bits literals distances rest ∧
      Built literals s'.tables.literal ∧ Built distances s'.tables.distance ∧
      Moved input cost s rest s' := by
  rw [tablesRead, if_neg (by decide)] at run
  simp only [gives_bind] at run
  obtain ⟨⟨lengths, first, second⟩, s₁, read, run⟩ := run
  obtain ⟨_, rest, header, m₁⟩ := dynamicLengths_moved cursor read
  obtain ⟨permitted, permitted', built, built', _, m₂⟩ := buildTables_moved m₁.cursor run
  rw [← Row.list_take lengths first second] at permitted built
  rw [← Row.list_drop lengths first second] at permitted' built'
  exact ⟨_, _, rest, _, .mk header permitted permitted', built, built', m₁.trans m₂⟩

theorem tablesRead_dynamic_enough {literals distances : List Nat}
    (header : Header 30 bits literals distances rest)
    (ends : ∃ length, literals[256]? = some length ∧ length ≠ 0) :
    TablesEnough 2 literals distances bits rest := by
  obtain ⟨sequence, permitted, permitted'⟩ := header
  rename_i first second all
  obtain ⟨cost, read⟩ := dynamicLengths_enough sequence (by
    intro length given
    obtain ⟨own, found, nonzero⟩ := ends
    rw [List.getElem?_take] at found
    split at found
    · rw [given, Option.some_inj] at found
      rwa [found]
    · cases found)
  refine ⟨cost + (2 * first + codeBits + (2 * second + codeBits)), fun s cursor enough => ?_⟩
  obtain ⟨lengths, s₁, r₁, rfl, m₁⟩ := read s cursor (by omega)
  have worked := m₁.work
  rw [Row.list_take] at permitted
  rw [Row.list_drop] at permitted'
  obtain ⟨s₂, r₂, built, built', m₂⟩ := buildTables_enough _ _ _ m₁.cursor permitted permitted' (by omega)
  refine ⟨s₂, ?_, by rwa [Row.list_take], by rwa [Row.list_drop], m₁.trans m₂⟩
  rw [tablesRead, if_neg (by decide)]
  simp only [gives_bind]
  exact ⟨_, s₁, r₁, r₂⟩

end TinyCrypto.Gzip
