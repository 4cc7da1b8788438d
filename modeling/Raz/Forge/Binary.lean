import Raz.Forge.Record
import Raz.Lib.Codec

/-!
# The binary format of Forge IR

`writeBinary` puts a module that the verifier accepts into one checked payload behind a header of
sixteen bytes; `readBinary` reads this revision of the format and every earlier one.

A read outside the bytes is a fault of its own, apart from the exceptions the reader throws.
-/

namespace Raz.Forge.Record

open Codec

def magic : List UInt8 := [70, 73, 82, 66]

def binaryFormatMajor : UInt16 := 1

def binaryFormatMinor : UInt16 := 24

def maxCollection : Nat := 1000000

def maxString : Nat := 16 * 1024 * 1024

def headerSize : Nat := 16

def checksum (bytes : List UInt8) : UInt32 :=
  bytes.foldl (fun hash byte => (hash ^^^ byte.toUInt32) * 16777619) 2166136261

/-! ## Enumerations -/

def TypeKind.byte : TypeKind → UInt8
  | .void => 0 | .i1 => 1 | .i8 => 2 | .i16 => 3 | .i32 => 4 | .i64 => 5 | .f32 => 6 | .f64 => 7
  | .ptr => 8

def TypeKind.ofByte : UInt8 → Option TypeKind
  | 0 => some .void | 1 => some .i1 | 2 => some .i8 | 3 => some .i16 | 4 => some .i32
  | 5 => some .i64 | 6 => some .f32 | 7 => some .f64 | 8 => some .ptr
  | _ => none

def AggregateRefKind.byte : AggregateRefKind → UInt8
  | .scalar => 0 | .structure_ => 1 | .array => 2

def AggregateRefKind.ofByte : UInt8 → Option AggregateRefKind
  | 0 => some .scalar | 1 => some .structure_ | 2 => some .array
  | _ => none

def GlobalAggregateKind.byte : GlobalAggregateKind → UInt8
  | .known kind => kind.byte
  | .other byte _ => byte

/-- The cast of a byte, which is not checked. -/
def GlobalAggregateKind.ofByte (byte : UInt8) : GlobalAggregateKind :=
  if beyond : 3 ≤ byte then .other byte beyond
  else if byte = 0 then .known .scalar
  else if byte = 1 then .known .structure_
  else .known .array

def BorrowMode.byte : BorrowMode → UInt8
  | .none => 0 | .immutable => 1 | .mutable => 2

def BorrowMode.ofByte : UInt8 → Option BorrowMode
  | 0 => some .none | 1 => some .immutable | 2 => some .mutable
  | _ => none

def CallingConvention.byte : CallingConvention → UInt8
  | .platform => 0 | .c => 1 | .systemV => 2 | .windowsX64 => 3 | .fast => 4

def CallingConvention.ofByte : UInt8 → Option CallingConvention
  | 0 => some .platform | 1 => some .c | 2 => some .systemV | 3 => some .windowsX64
  | 4 => some .fast
  | _ => none

def SymbolLinkage.byte : SymbolLinkage → UInt8
  | .external => 0 | .internal => 1 | .weak => 2

def SymbolLinkage.ofByte : UInt8 → Option SymbolLinkage
  | 0 => some .external | 1 => some .internal | 2 => some .weak
  | _ => none

def SymbolVisibility.byte : SymbolVisibility → UInt8
  | .default => 0 | .hidden => 1

def SymbolVisibility.ofByte : UInt8 → Option SymbolVisibility
  | 0 => some .default | 1 => some .hidden
  | _ => none

/-! ## The writer -/

abbrev Writer := StateT (List UInt8) (Except String) Unit

namespace Writer

def u8 (value : UInt8) : Writer := fun bytes => .ok ((), bytes ++ [value])

def u16 (value : UInt16) : Writer := (littleEndian 2 value.toNat).forM u8

def u32 (value : UInt32) : Writer := (littleEndian 4 value.toNat).forM u8

def flag (value : Bool) : Writer := u8 (if value then 1 else 0)

def string (value : Text) : Writer := do
  if 2 ^ 32 ≤ value.length then
    throw "string too large"
  u32 (UInt32.ofNat value.length)
  value.forM u8

def type (value : TypeKind) : Writer := u8 (TypeKind.byte value)

end Writer

def writeVector (values : List α) (write : α → Writer) : Writer := do
  if 2 ^ 32 ≤ values.length then
    throw "collection too large"
  Writer.u32 (UInt32.ofNat values.length)
  values.forM write

def writeDecl (value : ValueDecl) : Writer := do
  Writer.string value.name
  Writer.type value.type
  Writer.u8 value.aggregateKind.byte
  Writer.string value.aggregateName
  Writer.flag value.owned
  Writer.u8 (BorrowMode.byte value.borrowMode)
  Writer.string value.functionSignatureName

def writeField (field : StructField) : Writer := do
  Writer.string field.name
  Writer.type field.type
  Writer.u8 field.aggregateKind.byte
  Writer.string field.aggregateName

def writeStruct (structure_ : StructDecl) : Writer := do
  Writer.string structure_.name
  Writer.flag structure_.moveOnly
  writeVector structure_.fields writeField

def writeArray (array : ArrayDecl) : Writer := do
  Writer.string array.name
  Writer.type array.elementType
  Writer.u8 array.elementAggregateKind.byte
  Writer.string array.elementAggregateName
  Writer.u32 array.elementCount
  Writer.flag array.moveOnly

def writeSymbol (linkage : SymbolLinkage) (visibility : SymbolVisibility) : Writer := do
  Writer.u8 (SymbolLinkage.byte linkage)
  Writer.u8 (SymbolVisibility.byte visibility)

def writeGlobal (global : Global) : Writer := do
  Writer.string global.name
  Writer.type global.type
  Writer.u8 global.aggregateKind.byte
  Writer.string global.aggregateName
  Writer.string global.functionSignatureName
  Writer.flag global.isConstant
  Writer.flag global.isExternal
  Writer.flag global.isThreadLocal
  writeSymbol global.linkage global.visibility
  Writer.string global.initializer
  Writer.u32 global.elementCount
  Writer.u32 global.alignment
  Writer.flag global.zeroInitialized
  Writer.string global.bytes

def writeOperation (operation : Operation) : Writer := do
  Writer.string operation.result
  Writer.string operation.opcode
  Writer.type operation.type
  writeVector operation.operands Writer.string
  writeVector operation.successors Writer.string
  writeVector operation.successorArguments fun arguments => writeVector arguments Writer.string
  Writer.u32 operation.alignment

def writeBlock (block : Block) : Writer := do
  Writer.string block.name
  writeVector block.parameters writeDecl
  writeVector block.operations writeOperation

def writeLinking (convention : CallingConvention) (linkage : SymbolLinkage)
    (visibility : SymbolVisibility) : Writer := do
  Writer.u8 (CallingConvention.byte convention)
  Writer.u8 (SymbolLinkage.byte linkage)
  Writer.u8 (SymbolVisibility.byte visibility)

def writeFunction (function : Function) : Writer := do
  Writer.string function.name
  Writer.flag function.isExternal
  Writer.flag function.isSignature
  Writer.flag function.variadic
  writeLinking function.callingConvention function.linkage function.visibility
  Writer.type function.returnType
  Writer.u8 function.returnAggregateKind.byte
  Writer.string function.returnAggregateName
  Writer.flag function.returnOwned
  Writer.u8 (BorrowMode.byte function.returnBorrowMode)
  Writer.u32 function.returnBorrowParameter.toUInt32
  writeVector function.parameters writeDecl
  writeVector function.blocks writeBlock

def writePayload (m : Module) : Writer := do
  Writer.string m.name
  writeVector m.structs writeStruct
  writeVector m.arrays writeArray
  writeVector m.globals writeGlobal
  writeVector m.functions writeFunction

/-- The size of the payload is cast to 32 bits. -/
def writeHeader (payload : List UInt8) : Writer := do
  magic.forM Writer.u8
  Writer.u16 binaryFormatMajor
  Writer.u16 binaryFormatMinor
  Writer.u32 (UInt32.ofNat payload.length)
  Writer.u32 (checksum payload)

def writeFile (payload : List UInt8) : Writer := do
  writeHeader payload
  payload.forM Writer.u8

structure BinaryWriteResult where
  bytes : List UInt8 := []
  diagnostics : List String := []
deriving DecidableEq, Repr

def writeBinary (verify : Module → List String) (m : Module) : BinaryWriteResult :=
  if verify m ≠ [] then { diagnostics := verify m }
  else
    match (do writeFile (← writePayload m []).2 [] : Except String (Unit × List UInt8)) with
    | .ok (_, bytes) => { bytes := bytes }
    | .error message => { diagnostics := [message] }

/-! ## The reader -/

inductive Fault
  | outOfBounds
  | thrown (message : String)
deriving DecidableEq, Repr

/-- The state is what is left of the bytes. -/
abbrev Reader := StateT (List UInt8) (Except Fault)

namespace Reader

def require (count : Nat) : Reader Unit := do
  if (← get).length < count then
    throw (.thrown "truncated binary IR")

/-- The next bytes, without a check. -/
def next (count : Nat) : Reader (List UInt8) := fun bytes =>
  if count ≤ bytes.length then .ok (bytes.take count, bytes.drop count) else .error .outOfBounds

/-- The next bytes, if there are as many. -/
def take (count : Nat) : Reader (List UInt8) := do
  require count
  next count

def u8 : Reader UInt8 := do return (← take 1).headD 0

def u16 : Reader UInt16 := do return UInt16.ofNat (ofLittleEndian (← readMany u8 2))

def u32 : Reader UInt32 := do return UInt32.ofNat (ofLittleEndian (← readMany u8 4))

def flag : Reader Bool := do return (← u8) != 0

def string : Reader Text := do
  let size ← u32
  if maxString < size.toNat then
    throw (.thrown "string exceeds format limit")
  take size.toNat

/-- The value that a byte stands for. -/
def enumerator (ofByte : UInt8 → Option α) (message : String) (raw : UInt8) : Reader α :=
  match ofByte raw with
  | some value => return value
  | none => throw (.thrown message)

def type : Reader TypeKind := do enumerator TypeKind.ofByte "invalid type tag" (← u8)

def aggregateKind (message : String) : Reader AggregateRefKind := do
  enumerator AggregateRefKind.ofByte message (← u8)

def borrowMode (message : String) : Reader BorrowMode := do
  enumerator BorrowMode.ofByte message (← u8)

end Reader

/-- A field that the format has from a minor revision on. -/
def since (first minor : UInt16) (absent : α) (read : Reader α) : Reader α :=
  if first ≤ minor then read else return absent

def readCount (read : Reader α) : Reader (List α) := do
  let count ← Reader.u32
  if maxCollection < count.toNat then
    throw (.thrown "collection exceeds format limit")
  readMany read count.toNat

def readDecl (minor : UInt16) : Reader ValueDecl := do
  let name ← Reader.string
  let type ← Reader.type
  let aggregateKind ← since 10 minor .scalar (Reader.aggregateKind "invalid aggregate value kind")
  let aggregateName ← since 10 minor [] Reader.string
  let owned ← since 13 minor false Reader.flag
  let borrowMode ← since 16 minor .none (Reader.borrowMode "invalid parameter borrow mode")
  let functionSignatureName ← since 19 minor [] Reader.string
  return { name, type, aggregateKind, aggregateName, owned, borrowMode, functionSignatureName }

def readField (minor : UInt16) : Reader StructField := do
  let name ← Reader.string
  let type ← Reader.type
  let aggregateKind ← since 8 minor .scalar (Reader.aggregateKind "invalid aggregate field kind")
  let aggregateName ← since 8 minor [] Reader.string
  return { name, type, aggregateKind, aggregateName }

def readStruct (minor : UInt16) : Reader StructDecl := do
  let name ← Reader.string
  let moveOnly ← since 14 minor false Reader.flag
  let fields ← readCount (readField minor)
  return { name, fields, moveOnly }

def readArray (minor : UInt16) : Reader ArrayDecl := do
  let name ← Reader.string
  let elementType ← Reader.type
  let elementAggregateKind ← since 23 minor .scalar
    (Reader.aggregateKind "invalid array element aggregate kind")
  let elementAggregateName ← since 23 minor [] Reader.string
  let elementCount ← Reader.u32
  let moveOnly ← since 14 minor false Reader.flag
  return { name, elementType, elementAggregateKind, elementAggregateName, elementCount, moveOnly }

/-- Linkage and visibility: both bytes are read before the first is checked. -/
def readSymbol (what : String) : Reader (SymbolLinkage × SymbolVisibility) := do
  let linkage ← Reader.u8
  let visibility ← Reader.u8
  let linkage ← Reader.enumerator SymbolLinkage.ofByte ("invalid " ++ what ++ " linkage") linkage
  let visibility ← Reader.enumerator SymbolVisibility.ofByte
    ("invalid " ++ what ++ " visibility") visibility
  return (linkage, visibility)

def readGlobal (minor : UInt16) : Reader Global := do
  let name ← Reader.string
  let type ← Reader.type
  let aggregateKind ← since 9 minor (.known .scalar)
    (do return GlobalAggregateKind.ofByte (← Reader.u8))
  let aggregateName ← since 9 minor [] Reader.string
  let functionSignatureName ← since 20 minor [] Reader.string
  let isConstant ← Reader.flag
  let isExternal ← since 4 minor false Reader.flag
  let isThreadLocal ← since 24 minor false Reader.flag
  let symbol ← since 22 minor (.external, .default) (readSymbol "global")
  let initializer ← Reader.string
  let elementCount ← since 5 minor 1 Reader.u32
  let alignment ← since 5 minor 0 Reader.u32
  let zeroInitialized ← since 5 minor false Reader.flag
  let bytes ← since 5 minor [] Reader.string
  return {
    name, type, aggregateKind, aggregateName, functionSignatureName
    isConstant, isExternal, isThreadLocal
    linkage := symbol.1
    visibility := symbol.2
    initializer, elementCount, alignment, zeroInitialized, bytes }

def readOperation (minor : UInt16) : Reader Operation := do
  let result ← Reader.string
  let opcode ← Reader.string
  let type ← Reader.type
  let operands ← readCount Reader.string
  let successors ← readCount Reader.string
  let successorArguments ← readCount (readCount Reader.string)
  let alignment ← since 3 minor 0 Reader.u32
  return { result, opcode, type, operands, successors, successorArguments, alignment }

def readBlock (minor : UInt16) : Reader Block := do
  let name ← Reader.string
  let parameters ← readCount (readDecl minor)
  let operations ← readCount (readOperation minor)
  return { name, parameters, operations }

/-- The convention with linkage and visibility: all bytes are read before the first is checked. -/
def readLinking : Reader (CallingConvention × SymbolLinkage × SymbolVisibility) := do
  let convention ← Reader.u8
  let linkage ← Reader.u8
  let visibility ← Reader.u8
  let convention ← Reader.enumerator CallingConvention.ofByte "invalid calling convention"
    convention
  let linkage ← Reader.enumerator SymbolLinkage.ofByte "invalid function linkage" linkage
  let visibility ← Reader.enumerator SymbolVisibility.ofByte "invalid function visibility"
    visibility
  return (convention, linkage, visibility)

/-- Before revision 18 a function without blocks is external. -/
def readFunction (minor : UInt16) : Reader Function := do
  let name ← Reader.string
  let isExternal ← since 18 minor false Reader.flag
  let isSignature ← since 18 minor false Reader.flag
  let variadic ← since 22 minor false Reader.flag
  let linking ← since 22 minor (.platform, .external, .default) readLinking
  let returnType ← Reader.type
  let returnAggregateKind ← since 11 minor .scalar
    (Reader.aggregateKind "invalid aggregate return kind")
  let returnAggregateName ← since 11 minor [] Reader.string
  let returnOwned ← since 12 minor false Reader.flag
  let returnBorrowMode ← since 17 minor .none (Reader.borrowMode "invalid return borrow mode")
  let returnBorrowParameter ← since 17 minor (-1) (do return (← Reader.u32).toInt32)
  let parameters ← readCount (readDecl minor)
  let blocks ← readCount (readBlock minor)
  return {
    name
    isExternal := isExternal || (minor < 18 && blocks.isEmpty)
    isSignature, variadic
    callingConvention := linking.1
    linkage := linking.2.1
    visibility := linking.2.2
    returnType, returnAggregateKind, returnAggregateName, returnOwned, returnBorrowMode
    returnBorrowParameter, parameters, blocks }

def readFields (minor : UInt16) : Reader Module := do
  let name ← Reader.string
  let structs ← since 6 minor [] (readCount (readStruct minor))
  let arrays ← since 7 minor [] (readCount (readArray minor))
  let globals ← since 2 minor [] (readCount (readGlobal minor))
  let functions ← readCount (readFunction minor)
  return { name, structs, arrays, globals, functions }

def readPayload (minor : UInt16) : Reader Module := do
  let m ← readFields minor
  if !(← get).isEmpty then
    throw (.thrown "trailing data in binary IR payload")
  return m

structure Header where
  minor : UInt16
  payloadSize : UInt32
  checksum : UInt32
deriving DecidableEq, Repr

def readMagic (expected : UInt8) : Reader Unit := do
  if (← Reader.u8) ≠ expected then
    throw (.thrown "invalid binary IR magic")

def readHeader : Reader Header := do
  magic.forM readMagic
  let major ← Reader.u16
  let minor ← Reader.u16
  if major ≠ binaryFormatMajor then
    throw (.thrown "unsupported binary IR major version")
  if binaryFormatMinor < minor then
    throw (.thrown "binary IR requires a newer reader")
  let payloadSize ← Reader.u32
  let checksum ← Reader.u32
  return { minor, payloadSize, checksum }

/-- A part of the bytes, without a check. -/
def subspan (bytes : List UInt8) (offset count : Nat) : Except Fault (List UInt8) :=
  if offset + count ≤ bytes.length then .ok ((bytes.drop offset).take count)
  else .error .outOfBounds

/-- The payload behind a header, of the size and with the checksum that the header has. -/
def payloadOf (header : Header) (bytes : List UInt8) : Except Fault (List UInt8) :=
  if bytes.length < headerSize ∨ bytes.length - headerSize ≠ header.payloadSize.toNat then
    throw (.thrown "binary IR size mismatch")
  else do
    let payload ← subspan bytes headerSize header.payloadSize.toNat
    if checksum payload = header.checksum then return payload
    else throw (.thrown "binary IR checksum mismatch")

def readModule (bytes : List UInt8) : Except Fault Module := do
  let (header, _) ← readHeader bytes
  let payload ← payloadOf header bytes
  let (m, _) ← readPayload header.minor payload
  return m

structure BinaryReadResult where
  module : Module
  diagnostics : List String
deriving DecidableEq, Repr

/-- The module that stands for none. -/
def invalidModule : Module := { name := [105, 110, 118, 97, 108, 105, 100] }

/-- There is no result if the reader has read outside the bytes. -/
def readBinary (verify : Module → List String) (bytes : List UInt8) : Option BinaryReadResult :=
  match readModule bytes with
  | .ok m => some { module := m, diagnostics := verify m }
  | .error (.thrown message) => some { module := invalidModule, diagnostics := [message] }
  | .error .outOfBounds => none

end Raz.Forge.Record
