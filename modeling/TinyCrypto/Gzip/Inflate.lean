import TinyCrypto.Common.Bytes
import TinyCrypto.Library.Program

/-! # The inflate decoder

`inflate.c`, `inflate_bits.c`, `inflate_tables.c` and `inflate_tree.c`. Every step spends
work, so the loops that the source leaves open run on the work there is.
-/

namespace TinyCrypto.Gzip

open Library (Program)

abbrev Row := Nat → Nat

def Row.set (row : Row) (index entry : Nat) : Row := fun i => if i = index then entry else row i

/-- A row with `count` entries from `first` on changed. -/
def Row.fill (row : Row) (first count entry : Nat) : Row :=
  fun i => if first ≤ i ∧ i < first + count then entry else row i

/-- `TC_GZIP_CODE_BITS`. -/
def codeBits : Nat := 15

/-- `TC_GZIP_LITERAL_CODES`. -/
def literalCodes : Nat := 288

/-- `TC_GZIP_DISTANCE_CODES`. -/
def distanceCodes : Nat := 32

/-- `TC_GZIP_tree`. -/
structure Tree where
  counts : Row
  symbols : Row

/-- `TC_GZIP_workspace`. -/
structure Workspace where
  literal : Tree
  distance : Tree
  lengths : Row

/-- The cursor of `tc_inflate_bits` with its work, the decoded bytes and the workspace. -/
structure Inflating where
  offset : Nat
  bit : Nat
  work : Nat
  output : Bytes
  tables : Workspace

abbrev Inflate := Program Result Inflating

/-- Take `amount` from the work, or stop. -/
def spend (amount : Nat) : Inflate Unit := do
  let s ← Program.state
  if s.work < amount then throw .limit
  else Program.change fun s => { s with work := s.work - amount }

/-- `tc_inflate_tree_kind`. -/
inductive TreeKind where
  | completeTree
  | literalTree
  | distanceTree
  deriving DecidableEq

section

variable (input : Bytes) (capacity : Nat)

/-- The loop of `tc_inflate_bits_read`; every pass takes a bit at least. -/
def bitsLoop : (passes count value shift : Nat) → Inflate Nat
  | 0, _, value, _ => pure value
  | passes + 1, count, value, shift => do
    if count = 0 then pure value
    else
      let s ← Program.state
      if s.offset = input.length then throw .invalid
      else
        let take := if 8 - s.bit > count then count else 8 - s.bit
        let low := (input.getD s.offset 0).toNat / 2 ^ s.bit % 2 ^ take
        let bit := s.bit + take
        Program.change fun s =>
          if bit = 8 then { s with bit := 0, offset := s.offset + 1 } else { s with bit := bit }
        bitsLoop passes (count - take) (value + low * 2 ^ shift) (shift + take)

/-- `tc_inflate_bits_read`. -/
def bitsRead (count : Nat) : Inflate Nat := do
  spend count
  bitsLoop input count count 0 0

/-- The loop of `tc_inflate_symbol`. -/
def symbolLoop (tree : Tree) : (passes length code first index : Nat) → Inflate Nat
  | 0, _, _, _, _ => throw .invalid
  | passes + 1, length, code, first, index => do
    let bit ← bitsRead input 1
    let code := 2 * code + bit
    if first ≤ code ∧ code - first < tree.counts length then
      pure (tree.symbols (index + code - first))
    else
      symbolLoop tree passes (length + 1) code (2 * (first + tree.counts length))
        (index + tree.counts length)

/-- `tc_inflate_symbol`. -/
def symbol (tree : Tree) : Inflate Nat := symbolLoop input tree codeBits 1 0 0 0

/-- The counting loop of `tc_inflate_tree_build`: the counts and the number of symbols. -/
def treeCounts (lengths : Row) : (passes i : Nat) → Row → Nat → Option (Row × Nat)
  | 0, _, counts, symbols => some (counts, symbols)
  | passes + 1, i, counts, symbols =>
    if lengths i > codeBits then none
    else if lengths i ≠ 0 then
      treeCounts lengths passes (i + 1) (counts.set (lengths i) (counts (lengths i) + 1))
        (symbols + 1)
    else treeCounts lengths passes (i + 1) counts symbols

def treeLevels (counts : Row) : (passes bits remaining : Nat) → Row → Option (Nat × Row)
  | 0, _, remaining, offsets => some (remaining, offsets)
  | passes + 1, bits, remaining, offsets =>
    if counts bits > 2 * remaining then none
    else
      treeLevels counts passes (bits + 1) (2 * remaining - counts bits)
        (if bits < codeBits then offsets.set (bits + 1) (offsets bits + counts bits) else offsets)

def treeSymbols (lengths : Row) : (passes i : Nat) → Row → Row → Row
  | 0, _, _, symbols => symbols
  | passes + 1, i, offsets, symbols =>
    if lengths i ≠ 0 then
      treeSymbols lengths passes (i + 1) (offsets.set (lengths i) (offsets (lengths i) + 1))
        (symbols.set (offsets (lengths i)) i)
    else treeSymbols lengths passes (i + 1) offsets symbols

/-- `tc_inflate_tree_build`, over the symbols that the tree held. -/
def treeBuild (lengths : Row) (count : Nat) (kind : TreeKind) (old : Row) : Inflate Tree := do
  spend (2 * count + codeBits)
  match treeCounts lengths count 0 (fun _ => 0) 0 with
  | none => throw .invalid
  | some (counts, symbols) =>
    match treeLevels counts codeBits 1 1 (fun _ => 0) with
    | none => throw .invalid
    | some (remaining, offsets) =>
      if remaining ≠ 0 ∧ ¬ (kind = .distanceTree ∧ symbols = 0) ∧
          ¬ (kind ≠ .completeTree ∧ symbols = 1 ∧ counts 1 = 1) then
        throw .invalid
      else pure ⟨counts, treeSymbols lengths count 0 offsets old⟩

def order : List Nat := [16, 17, 18, 0, 8, 7, 9, 6, 10, 5, 11, 4, 12, 3, 13, 2, 14, 1, 15]

def orderLoop : (passes i : Nat) → Row → Inflate Row
  | 0, _, lengths => pure lengths
  | passes + 1, i, lengths => do
    let length ← bitsRead input 3
    orderLoop passes (i + 1) (lengths.set (order.getD i 0) length)

def lengthCode (codes : Tree) (lengths : Row) (used : Nat) : Inflate (Nat × Nat) := do
  let symbol ← symbol input codes
  if symbol ≤ 15 then pure (1, symbol)
  else if symbol = 16 ∧ used = 0 then throw .invalid
  else if symbol > 18 then throw .invalid
  else
    let extra ← bitsRead input (if symbol = 16 then 2 else if symbol = 17 then 3 else 7)
    pure (extra + if symbol = 18 then 11 else 3, if symbol = 16 then lengths (used - 1) else 0)

/-- The loop of `dynamic_lengths`; every pass gives a length at least. -/
def lengthsLoop (codes : Tree) (total : Nat) : (passes used : Nat) → Row → Inflate Row
  | 0, _, lengths => pure lengths
  | passes + 1, used, lengths => do
    if used < total then
      let (repeats, value) ← lengthCode input codes lengths used
      if repeats > total - used then throw .invalid
      else
        spend repeats
        lengthsLoop codes total passes (used + repeats) (lengths.fill used repeats value)
    else pure lengths

/-- `dynamic_lengths`: the lengths and both counts. -/
def dynamicLengths : Inflate (Row × Nat × Nat) := do
  let literalCount ← bitsRead input 5
  let distanceCount ← bitsRead input 5
  let codeCount ← bitsRead input 4
  let literalCount := literalCount + 257
  let distanceCount := distanceCount + 1
  let codeCount := codeCount + 4
  if literalCount > 286 ∨ distanceCount > 30 then throw .invalid
  else
    spend order.length
    let s ← Program.state
    let lengths ← orderLoop input codeCount 0 (s.tables.lengths.fill 0 order.length 0)
    let codes ← treeBuild lengths order.length .completeTree s.tables.literal.symbols
    let total := literalCount + distanceCount
    let lengths ← lengthsLoop input codes total total 0 lengths
    Program.change fun s =>
      { s with tables := { s.tables with literal := codes, lengths := lengths } }
    if lengths 256 = 0 then throw .invalid else pure (lengths, literalCount, distanceCount)

def fixedLengths (lengths : Row) : Row := fun i =>
  if i < literalCodes then if i < 144 then 8 else if i < 256 then 9 else if i < 280 then 7 else 8
  else if i < literalCodes + distanceCodes then 5
  else lengths i

/-- The end of `tc_inflate_tables_read`: both trees from their lengths. -/
def buildTables (lengths : Row) (literals distances : Nat) : Inflate Unit := do
  let s ← Program.state
  let literal ← treeBuild lengths literals .literalTree s.tables.literal.symbols
  let distance ← treeBuild (fun i => lengths (literals + i)) distances .distanceTree
    s.tables.distance.symbols
  Program.change fun s => { s with tables := ⟨literal, distance, lengths⟩ }

/-- `tc_inflate_tables_read` for the block types 1 and 2. -/
def tablesRead (type : Nat) : Inflate Unit := do
  if type = 1 then
    spend (literalCodes + distanceCodes)
    let s ← Program.state
    buildTables (fixedLengths s.tables.lengths) literalCodes distanceCodes
  else
    let (lengths, literals, distances) ← dynamicLengths input
    buildTables lengths literals distances

/-- `reserve`. -/
def reserve (length : Nat) : Inflate Unit := do
  let s ← Program.state
  if length > capacity - s.output.length ∨ s.work < length then throw .limit
  else Program.change fun s => { s with work := s.work - length }

def align : Inflate Unit :=
  Program.change fun s => if s.bit ≠ 0 then { s with offset := s.offset + 1, bit := 0 } else s

/-- `stored`. -/
def stored : Inflate Unit := do
  align
  let length ← bitsRead input 16
  let complement ← bitsRead input 16
  let s ← Program.state
  if length ^^^ complement ≠ 0xffff ∨ length > input.length - s.offset then throw .invalid
  else
    reserve capacity length
    Program.change fun s =>
      { s with
        output := s.output ++ (input.drop s.offset).take length
        offset := s.offset + length }

/-- The copying loop of `compressed`. -/
def copyLoop (distance : Nat) : (length : Nat) → Bytes → Bytes
  | 0, output => output
  | length + 1, output =>
    copyLoop distance length (output ++ [output.getD (output.length - distance) 0])

def copyLength (symbol : Nat) : Inflate Nat := do
  let index := symbol - 257
  if index < 8 then pure (index + 3)
  else if symbol = 285 then pure 258
  else
    let width := index / 4 - 1
    let extra ← bitsRead input width
    pure ((4 + index % 4) * 2 ^ width + 3 + extra)

def copyDistance (symbol : Nat) : Inflate Nat := do
  if symbol < 4 then pure (symbol + 1)
  else
    let width := symbol / 2 - 1
    let extra ← bitsRead input width
    pure ((2 + symbol % 2) * 2 ^ width + 1 + extra)

def copy (tables : Workspace) (historyStart lengthSymbol : Nat) : Inflate Unit := do
  let length ← copyLength input lengthSymbol
  let symbol ← symbol input tables.distance
  if symbol > 29 then throw .invalid
  else
    let distance ← copyDistance input symbol
    let s ← Program.state
    if distance > s.output.length - historyStart then throw .invalid
    else
      reserve capacity length
      Program.change fun s => { s with output := copyLoop distance length s.output }

/-- The loop of `compressed`. -/
def compressedLoop (tables : Workspace) (historyStart : Nat) : (passes : Nat) → Inflate Unit
  | 0 => throw .limit
  | passes + 1 => do
    let symbol ← symbol input tables.literal
    if symbol = 256 then pure ()
    else if symbol < 256 then
      reserve capacity 1
      Program.change fun s => { s with output := s.output ++ [UInt8.ofNat symbol] }
      compressedLoop tables historyStart passes
    else if symbol > 285 then throw .invalid
    else
      copy input capacity tables historyStart symbol
      compressedLoop tables historyStart passes

/-- `compressed`. A pass spends work, so there are no more passes than work. -/
def compressed (historyStart : Nat) : Inflate Unit := do
  let s ← Program.state
  compressedLoop input capacity s.tables historyStart (s.work + 1)

def block (historyStart : Nat) : Inflate Unit := do
  let type ← bitsRead input 2
  if type = 0 then stored input capacity
  else if type = 3 then throw .invalid
  else
    tablesRead input type
    compressed input capacity historyStart

/-- The loop of `tc_inflate_decode`. -/
def decodeLoop (historyStart : Nat) : (passes : Nat) → Inflate Unit
  | 0 => throw .limit
  | passes + 1 => do
    let final ← bitsRead input 1
    block input capacity historyStart
    if final = 0 then decodeLoop historyStart passes else pure ()

/-- `tc_inflate_decode`. A block spends work, so there are no more blocks than work. -/
def decode : Inflate Unit := do
  let s ← Program.state
  decodeLoop input capacity s.output.length (s.work + 1)
  align

end

end TinyCrypto.Gzip
