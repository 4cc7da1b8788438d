/-!
# LZ4 block encoder and decoder of the standard library

Translation of `library/std/compress/lz4/lz4.rz`. A pointer is null or the list of
bytes that may be addressed from it; a load or a store past the end of that list is a
`fault`, so a run that ends without one touched nothing outside its buffers. Lengths and
positions that the source keeps in `i64` are naturals wherever they cannot be negative;
`match_limit`, the table entries and the returned values are integers.
-/

namespace Raz.Lz4

/-- Why a run stops early: `fault` is an access outside a buffer, `minusOne` is the
source's `return -1` with the bytes written so far. -/
inductive Stop where
  | fault
  | minusOne (output : List UInt8)
  deriving Repr, DecidableEq

/-- A null pointer or the bytes addressable from it. -/
abbrev Pointer := Option (List UInt8)

/-! ## Memory -/

def loadU8 (memory : List UInt8) (address : Nat) : Except Stop Nat :=
  match memory[address]? with
  | some byte => .ok byte.toNat
  | none => .error .fault

def storeU8 (memory : List UInt8) (address value : Nat) : Except Stop (List UInt8) :=
  if address < memory.length then .ok (memory.set address (UInt8.ofNat value))
  else .error .fault

def loadU32 (memory : List UInt8) (address : Nat) : Except Stop UInt64 := do
  let b0 ← loadU8 memory address
  let b1 ← loadU8 memory (address + 1)
  let b2 ← loadU8 memory (address + 2)
  let b3 ← loadU8 memory (address + 3)
  return UInt64.ofNat b0 ||| (UInt64.ofNat b1 <<< 8) ||| (UInt64.ofNat b2 <<< 16) |||
    (UInt64.ofNat b3 <<< 24)

def hashSlots : Nat := 4096

/-- The encoder's hash table: `hash_slots` cells, each a position or `-1`. -/
structure HashTable where
  cells : List Int
  size_eq : cells.length = hashSlots

/-- `Encoder.table`, null when its allocation failed. -/
structure Encoder where
  table : Option HashTable

def HashTable.get (table : HashTable) (index : Nat) : Except Stop Int :=
  match table.cells[index]? with
  | some value => .ok value
  | none => .error .fault

def HashTable.set (table : HashTable) (index : Nat) (value : Int) : Except Stop HashTable :=
  if index < hashSlots then
    .ok ⟨table.cells.set index value, by rw [List.length_set, table.size_eq]⟩
  else .error .fault

/-- `reset`: filling all the bytes with 255 makes every cell `-1`. -/
def HashTable.reset (_table : HashTable) : HashTable :=
  ⟨List.replicate hashSlots (-1), List.length_replicate⟩

def hashSequence (sequence : UInt64) : Nat :=
  (((sequence * 2654435761) >>> 20) &&& 4095).toNat

def equal4 (memory : List UInt8) (left right : Nat) : Except Stop Bool := do
  let a ← loadU32 memory left
  let b ← loadU32 memory right
  return a == b

/-- `copy_bytes` between two disjoint buffers, from the `index`-th byte on. -/
def copyBytes (sourceMemory : List UInt8) (source : Nat) :
    List UInt8 → Nat → Nat → Except Stop (List UInt8)
  | memory, _, 0 => .ok memory
  | memory, destination, length + 1 => do
      let byte ← loadU8 sourceMemory source
      let memory ← storeU8 memory destination byte
      copyBytes sourceMemory (source + 1) memory (destination + 1) length
termination_by _ _ length => length

/-! ## Compression -/

/-- `emit_length`: a false return makes every caller return `-1`. -/
def emitLength (output : List UInt8) (capacity cursor remaining : Nat) :
    Except Stop (List UInt8 × Nat) :=
  if remaining ≥ 255 then
    if cursor ≥ capacity then .error (.minusOne output)
    else do
      let output ← storeU8 output cursor 255
      emitLength output capacity (cursor + 1) (remaining - 255)
  else if cursor ≥ capacity then .error (.minusOne output)
  else do
    let output ← storeU8 output cursor remaining
    return (output, cursor + 1)
termination_by remaining
decreasing_by omega

/-- Maximum destination size for a block of `inputLength` bytes. -/
def compressBound (inputLength : Int) : Int :=
  if inputLength < 0 ∨ inputLength > 2113929216 then -1
  else inputLength + inputLength / 255 + 16

/-- Token byte and literals: the first half of every sequence and all of the last one. -/
def emitLiterals (input : List UInt8) (anchor literalLength matchToken : Nat)
    (output : List UInt8) (capacity cursor : Nat) : Except Stop (List UInt8 × Nat) := do
  if cursor ≥ capacity then .error (.minusOne output)
  let literalToken := if literalLength > 15 then 15 else literalLength
  let output ← storeU8 output cursor ((literalToken <<< 4) ||| matchToken)
  let (output, cursor) ←
    if literalLength ≥ 15 then emitLength output capacity (cursor + 1) (literalLength - 15)
    else pure (output, cursor + 1)
  if literalLength > capacity - cursor then .error (.minusOne output)
  let output ← copyBytes input anchor output cursor literalLength
  return (output, cursor + literalLength)

/-- Offset and match length: the second half of a sequence. -/
def emitMatch (distance matchLength : Nat) (output : List UInt8) (capacity cursor : Nat) :
    Except Stop (List UInt8 × Nat) := do
  if (cursor : Int) > (capacity : Int) - 2 then .error (.minusOne output)
  let output ← storeU8 output cursor (distance &&& 255)
  let output ← storeU8 output (cursor + 1) ((distance >>> 8) &&& 255)
  if matchLength - 4 ≥ 15 then emitLength output capacity (cursor + 2) (matchLength - 19)
  else return (output, cursor + 2)

/-- The match-extension loop: the first length from `matchLength` on that ends the match. -/
def extendMatch (input : List UInt8) (candidate index : Nat) :
    Nat → Nat → Except Stop Nat
  | 0, matchLength => .ok matchLength
  | fuel + 1, matchLength =>
      if index + matchLength < input.length then do
        let left ← loadU8 input (candidate + matchLength)
        let right ← loadU8 input (index + matchLength)
        if left = right then extendMatch input candidate index fuel (matchLength + 1)
        else return matchLength
      else return matchLength

/-- Locals of `compress` that its main loop carries. -/
structure CompressState where
  table : HashTable
  output : List UInt8
  anchor : Nat
  cursor : Nat
  index : Nat

/-- Seed the sequence two bytes before the end of a match; it is a hint only. -/
def seedTable (input : List UInt8) (matchLimit : Int) (index : Nat) (table : HashTable) :
    Except Stop HashTable :=
  if (index : Int) ≤ matchLimit then
    let previous : Int := (index : Int) - 2
    if previous ≥ 0 ∧ previous ≤ matchLimit then do
      let sequence ← loadU32 input previous.toNat
      table.set (hashSequence sequence) previous
    else return table
  else return table

/-- One sequence: literals since `anchor`, then the match of `candidate` at `index`. -/
def emitSequence (input : List UInt8) (matchLimit : Int) (capacity : Nat) (candidate : Nat)
    (s : CompressState) : Except Stop CompressState := do
  let matchLength ← extendMatch input candidate s.index (input.length - s.index) 4
  let matchToken := if matchLength - 4 > 15 then 15 else matchLength - 4
  let (output, cursor) ←
    emitLiterals input s.anchor (s.index - s.anchor) matchToken s.output capacity s.cursor
  let (output, cursor) ← emitMatch (s.index - candidate) matchLength output capacity cursor
  let index := s.index + matchLength
  let table ← seedTable input matchLimit index s.table
  return { table, output, anchor := index, cursor, index }

/-- One iteration of the main loop at `index ≤ match_limit`. -/
def compressStep (input : List UInt8) (matchLimit : Int) (capacity : Nat)
    (s : CompressState) : Except Stop CompressState := do
  let sequence ← loadU32 input s.index
  let slot := hashSequence sequence
  let candidate ← s.table.get slot
  let table ← s.table.set slot s.index
  let s := { s with table }
  if candidate ≥ 0 ∧ candidate < s.index ∧ (s.index : Int) - candidate ≤ 65535 ∧
      candidate ≤ matchLimit then
    if ← equal4 input candidate.toNat s.index then
      emitSequence input matchLimit capacity candidate.toNat s
    else return { s with index := s.index + 1 }
  else return { s with index := s.index + 1 }

/-- The main loop. `index` grows in every iteration, so `input.length + 1` is enough
fuel (`compressLoop_correct` never meets the zero case). -/
def compressLoop (input : List UInt8) (matchLimit : Int) (capacity : Nat) :
    Nat → CompressState → Except Stop CompressState
  | 0, _ => .error .fault
  | fuel + 1, s =>
      if (s.index : Int) ≤ matchLimit then do
        let s ← compressStep input matchLimit capacity s
        compressLoop input matchLimit capacity fuel s
      else .ok s

/-- `compress` after its argument checks, on `0 < input.length`. -/
def compressBlock (table : HashTable) (input output : List UInt8) (capacity : Nat) :
    Except Stop (List UInt8 × Nat) := do
  let matchLimit : Int := (input.length : Int) - 4
  let s ← compressLoop input matchLimit capacity (input.length + 1)
    { table := table.reset, output, anchor := 0, cursor := 0, index := 0 }
  emitLiterals input s.anchor (input.length - s.anchor) 0 s.output capacity s.cursor

/-- Returned value and final destination buffer; `none` is an access outside a buffer. -/
def finish : Except Stop (List UInt8 × Nat) → Option (Int × List UInt8)
  | .ok (output, cursor) => some (cursor, output)
  | .error (.minusOne output) => some (-1, output)
  | .error .fault => none

/-- The first `length` bytes of a buffer. Announcing more bytes than the buffer holds
breaks the caller's contract and counts as a fault. -/
def inputBytes (input : Pointer) (length : Int) : Except Stop (List UInt8) :=
  if length.toNat ≤ (input.getD []).length then .ok ((input.getD []).take length.toNat)
  else .error .fault

/-- `compress`. The bytes of `input` past `inputLength` are never read. The table it leaves
in the encoder is not returned: the next call resets it. -/
def compress (encoder : Encoder) (input : Pointer) (inputLength : Int) (output : Pointer)
    (outputCapacity : Int) : Option (Int × List UInt8) :=
  match encoder.table with
  | none => some (-1, output.getD [])
  | some table =>
      if inputLength < 0 ∨ outputCapacity < 0 ∨ (inputLength > 0 ∧ input.isNone) ∨
          (outputCapacity > 0 ∧ output.isNone) then
        some (-1, output.getD [])
      else if inputLength = 0 then
        if outputCapacity < 1 then some (-1, output.getD [])
        else finish (do
          let output ← storeU8 (output.getD []) 0 0
          return (output, 1))
      else
        finish (do
          let input ← inputBytes input inputLength
          compressBlock table input (output.getD []) outputCapacity.toNat)

/-! ## Decompression -/

/-- The extension bytes of a length whose nibble was 15. Returns the length and the next
source position. -/
def readLength (input : List UInt8) (output : List UInt8) :
    Nat → Nat → Nat → Except Stop (Nat × Nat)
  | 0, _, _ => .error .fault
  | fuel + 1, source, length =>
      if source ≥ input.length then .error (.minusOne output)
      else do
        let extra ← loadU8 input source
        if length > 9223372036854775807 - extra then .error (.minusOne output)
        else if extra ≠ 255 then return (length + extra, source + 1)
        else readLength input output fuel (source + 1) (length + extra)

/-- A length from its token nibble: `base` is what the format adds to it, 15 announces
extension bytes. Both lengths of a sequence are read so. -/
def readNibbleLength (input output : List UInt8) (nibble base source : Nat) :
    Except Stop (Nat × Nat) :=
  if nibble = 15 then readLength input output (input.length + 1) source (nibble + base)
  else return (nibble + base, source)

/-- The match copy: byte by byte inside the output, so that source and destination may
overlap. -/
def copyMatch (distance : Nat) : List UInt8 → Nat → Nat → Except Stop (List UInt8)
  | memory, _, 0 => .ok memory
  | memory, destination, length + 1 => do
      let byte ← loadU8 memory (destination - distance)
      let memory ← storeU8 memory destination byte
      copyMatch distance memory (destination + 1) length
termination_by _ _ length => length

/-- Locals of `decompress` that its main loop carries. -/
structure DecompressState where
  output : List UInt8
  source : Nat
  destination : Nat

/-- Token and literals: the destination buffer, the token and both positions after it. -/
def readLiterals (input : List UInt8) (capacity : Nat) (s : DecompressState) :
    Except Stop (Nat × DecompressState) := do
  let token ← loadU8 input s.source
  let (literalLength, source) ← readNibbleLength input s.output (token >>> 4) 0 (s.source + 1)
  if literalLength > input.length - source ∨ literalLength > capacity - s.destination then
    .error (.minusOne s.output)
  let output ← copyBytes input source s.output s.destination literalLength
  return (token, { output, source := source + literalLength,
                   destination := s.destination + literalLength })

/-- Offset, match length and match copy of a sequence with the given token. -/
def readMatch (input : List UInt8) (capacity token : Nat) (s : DecompressState) :
    Except Stop DecompressState := do
  if (s.source : Int) > (input.length : Int) - 2 then .error (.minusOne s.output)
  let low ← loadU8 input s.source
  let high ← loadU8 input (s.source + 1)
  let distance := low ||| (high <<< 8)
  if distance ≤ 0 ∨ distance > s.destination then .error (.minusOne s.output)
  let (matchLength, source) ← readNibbleLength input s.output (token &&& 15) 4 (s.source + 2)
  if matchLength > capacity - s.destination then .error (.minusOne s.output)
  let output ← copyMatch distance s.output s.destination matchLength
  return { output, source, destination := s.destination + matchLength }

/-- The main loop. Every iteration reads at least the token byte, so `input.length + 1`
is enough fuel. -/
def decompressLoop (input : List UInt8) (capacity : Nat) :
    Nat → DecompressState → Except Stop (List UInt8 × Nat)
  | 0, _ => .error .fault
  | fuel + 1, s =>
      if s.source < input.length then do
        let (token, s) ← readLiterals input capacity s
        if s.source = input.length then return (s.output, s.destination)
        let s ← readMatch input capacity token s
        decompressLoop input capacity fuel s
      else return (s.output, s.destination)

def decompress (input : Pointer) (inputLength : Int) (output : Pointer)
    (outputCapacity : Int) : Option (Int × List UInt8) :=
  if inputLength < 0 ∨ outputCapacity < 0 ∨ (inputLength > 0 ∧ input.isNone) ∨
      (outputCapacity > 0 ∧ output.isNone) then
    some (-1, output.getD [])
  else
    finish (do
      let input ← inputBytes input inputLength
      decompressLoop input outputCapacity.toNat (input.length + 1)
        { output := output.getD [], source := 0, destination := 0 })

end Raz.Lz4
