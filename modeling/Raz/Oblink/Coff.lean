import Raz.Lib.Codec

/-!
# The COFF parser of ObLink

`parse` reads an object file by offsets: the file header or that of a big object, the section
table, the symbol table with its auxiliary records, and the leaders of the COMDAT sections. An
exception ends the parse; what was read until then is not kept.

Numbers keep the width of their fields. Offsets are computed in `size_t` from fields of 32 bits and
do not leave its range.
-/

namespace Raz.Oblink.Coff

open Codec

abbrev Text := List UInt8

def machineAmd64 : Nat := 0x8664

structure Relocation where
  virtualAddress : UInt32
  symbolIndex : UInt32
  type : UInt16
deriving DecidableEq, Repr

structure Section where
  name : Text
  data : List UInt8 := []
  virtualSize : UInt32 := 0
  characteristics : UInt32
  relocations : List Relocation := []
  comdatSelection : UInt8 := 0
  comdatChecksum : UInt32 := 0
  comdatAssociativeSection : UInt32 := 0
  comdatLeaderSymbol : UInt32 := 0xffffffff
  comdatLeaderName : Text := []
deriving DecidableEq, Repr

def comdatSelectAssociative : UInt8 := 5

def Section.isComdat (section_ : Section) : Bool :=
  section_.characteristics &&& 0x00001000 != 0 || section_.comdatSelection != 0

structure Symbol where
  name : Text := []
  value : UInt32 := 0
  sectionNumber : Int := 0
  type : UInt16 := 0
  storageClass : UInt8 := 0
  auxiliaryCount : UInt8 := 0
  weakDefaultIndex : UInt32 := 0
  weakCharacteristics : UInt32 := 0
deriving DecidableEq, Repr

structure Object where
  source : String := ""
  sections : List Section := []
  symbols : List Symbol := []
deriving DecidableEq, Repr

/-! ## Numbers and names -/

abbrev Parse := Except String

def readLe (count : Nat) (bytes : List UInt8) (offset : Nat) : Parse Nat :=
  if bytes.length < offset + count then .error "truncated COFF input"
  else .ok (ofLittleEndian ((bytes.drop offset).take count))

def readU16 (bytes : List UInt8) (offset : Nat) : Parse UInt16 := do
  return UInt16.ofNat (← readLe 2 bytes offset)

def readU32 (bytes : List UInt8) (offset : Nat) : Parse UInt32 := do
  return UInt32.ofNat (← readLe 4 bytes offset)

/-- A byte that the checks before have shown to be there. -/
def byteAt (bytes : List UInt8) (offset : Nat) : UInt8 := bytes.getD offset 0

/-- The bytes up to the first zero. -/
def shortString (bytes : List UInt8) (offset count : Nat) : Text :=
  ((bytes.drop offset).take count).takeWhile (· != 0)

/-- The name in a table of so many bytes: there must be a zero behind it. -/
def tableString (bytes : List UInt8) (strings tableSize offset : Nat) : Parse Text :=
  if offset < 4 ∨ tableSize ≤ offset then .error "invalid COFF string-table offset"
  else
    let entry := (bytes.drop (strings + offset)).take (tableSize - offset)
    if 0 ∈ entry then .ok (entry.takeWhile (· != 0))
    else .error "unterminated COFF string-table entry"

def symbolName (bytes : List UInt8) (entry strings stringSize : Nat) : Parse Text := do
  if (← readU32 bytes entry) ≠ 0 then return shortString bytes entry 8
  tableString bytes strings stringSize (← readU32 bytes (entry + 4)).toNat

/-- The number behind a slash, in 32 bits; `none` if there is another character. -/
def tableOffset : List UInt8 → UInt32 → Option UInt32
  | [], offset => some offset
  | digit :: digits, offset =>
    if digit < 48 ∨ 57 < digit then none
    else tableOffset digits (offset * 10 + (digit - 48).toUInt32)

def sectionName (bytes : List UInt8) (header strings stringSize : Nat) : Parse Text :=
  match shortString bytes header 8 with
  | 47 :: first :: digits =>
    match tableOffset (first :: digits) 0 with
    | some offset => tableString bytes strings stringSize offset.toNat
    | none => .ok (47 :: first :: digits)
  | name => .ok name

/-! ## The file header -/

def bigobjMagic : List UInt8 :=
  [ 0xc7, 0xa1, 0xba, 0xd1, 0xee, 0xba, 0xa9, 0x4b
  , 0xaf, 0x20, 0xfa, 0xf6, 0x6a, 0xa4, 0xdc, 0xb8 ]

def bigobjSignature (bytes : List UInt8) : Bool :=
  decide (56 ≤ bytes.length) &&
    (bytes.take 4 == [0, 0, 0xff, 0xff] &&
      (decide (2 ≤ ofLittleEndian ((bytes.drop 4).take 2)) &&
        (ofLittleEndian ((bytes.drop 6).take 2) == machineAmd64 &&
          (bytes.drop 12).take 16 == bigobjMagic)))

structure Header where
  bigobj : Bool
  sectionCount : Nat
  symbolOffset : Nat
  symbolCount : Nat
  sectionTable : Nat
  symbolSize : Nat
deriving DecidableEq, Repr

def Header.strings (header : Header) : Nat :=
  header.symbolOffset + header.symbolCount * header.symbolSize

/-- The section number of a symbol is wider in a big object, and what follows it is behind. -/
def Header.numberSize (header : Header) : Nat := if header.bigobj then 4 else 2

def parseHeader (bytes : List UInt8) : Parse Header := do
  if bytes.length < 20 then
    throw "COFF object is smaller than the file header"
  if bigobjSignature bytes then
    return {
      bigobj := true
      sectionCount := (← readU32 bytes 44).toNat
      symbolOffset := (← readU32 bytes 48).toNat
      symbolCount := (← readU32 bytes 52).toNat
      sectionTable := 56
      symbolSize := 20 }
  if (← readU16 bytes 0).toNat ≠ machineAmd64 then
    throw "ObLink currently supports AMD64 COFF objects only"
  return {
    bigobj := false
    sectionCount := (← readU16 bytes 2).toNat
    symbolOffset := (← readU32 bytes 8).toNat
    symbolCount := (← readU32 bytes 12).toNat
    sectionTable := 20 + (← readU16 bytes 16).toNat
    symbolSize := 18 }

/-- The size of the string table, once the tables are known to be inside the file. -/
def Header.stringSize (header : Header) (bytes : List UInt8) : Parse Nat := do
  if bytes.length < header.sectionTable + header.sectionCount * 40 then
    throw "truncated COFF section table"
  if bytes.length < header.symbolOffset ∨
      bytes.length - header.symbolOffset < header.symbolCount * header.symbolSize then
    throw "invalid COFF symbol table"
  if bytes.length < header.strings + 4 then
    throw "COFF string table is missing"
  let size := (← readU32 bytes header.strings).toNat
  if size < 4 ∨ bytes.length - header.strings < size then
    throw "invalid COFF string table size"
  return size

/-! ## Sections -/

def parseRelocation (bytes : List UInt8) (start index : Nat) : Parse Relocation := do
  return {
    virtualAddress := ← readU32 bytes (start + index * 10)
    symbolIndex := ← readU32 bytes (start + index * 10 + 4)
    type := ← readU16 bytes (start + index * 10 + 8) }

/-- The number of relocations and their offset. With more than 65535 of them the first is a record
that has their number, if the section says so. -/
def relocationTable (bytes : List UInt8) (offset count : Nat) (characteristics : UInt32) :
    Parse (Nat × Nat) := do
  if count = 0xffff ∧ characteristics &&& 0x01000000 ≠ 0 then
    if bytes.length < offset ∨ bytes.length - offset < 10 then
      throw "truncated extended COFF relocation count"
    let extended := (← readU32 bytes offset).toNat
    if extended = 0 then
      throw "invalid extended COFF relocation count"
    return (extended - 1, offset + 10)
  return (count, offset)

def parseRelocations (bytes : List UInt8) (count start : Nat) : Parse (List Relocation) := do
  if count = 0 then return []
  if bytes.length < start ∨ bytes.length - start < count * 10 then
    throw "invalid COFF relocation table range"
  (List.range count).mapM (parseRelocation bytes start)

/-- The data and the virtual size. A section without data in the file still has a size. -/
def parseData (bytes : List UInt8) (virtualSize rawSize rawOffset : UInt32)
    (characteristics : UInt32) : Parse (List UInt8 × UInt32) :=
  if rawSize = 0 then .ok ([], virtualSize)
  else if characteristics &&& 0x00000080 ≠ 0 ∨ rawOffset = 0 then
    .ok ([], if virtualSize < rawSize then rawSize else virtualSize)
  else if bytes.length < rawOffset.toNat ∨
      bytes.length - rawOffset.toNat < rawSize.toNat then
    .error "invalid COFF section data range"
  else .ok ((bytes.drop rawOffset.toNat).take rawSize.toNat, virtualSize)

/-- The section of the entry at an offset. -/
def parseSection (bytes : List UInt8) (header : Header) (stringSize entry : Nat) :
    Parse Section := do
  let name ← sectionName bytes entry header.strings stringSize
  let virtualSize ← readU32 bytes (entry + 8)
  let rawSize ← readU32 bytes (entry + 16)
  let rawOffset ← readU32 bytes (entry + 20)
  let relocationOffset ← readU32 bytes (entry + 24)
  let relocationCount ← readU16 bytes (entry + 32)
  let characteristics ← readU32 bytes (entry + 36)
  let (count, start) ← relocationTable bytes relocationOffset.toNat relocationCount.toNat
    characteristics
  let (data, virtualSize) ← parseData bytes virtualSize rawSize rawOffset characteristics
  let relocations ← parseRelocations bytes count start
  return { name, data, virtualSize, characteristics, relocations }

/-! ## Symbols -/

/-- What the auxiliary record of a weak symbol says of it. -/
def weakExternal (bytes : List UInt8) (header : Header) (auxiliary : Nat) (symbol : Symbol) :
    Parse Symbol := do
  if symbol.storageClass = 105 ∧ symbol.auxiliaryCount ≠ 0 then
    if bytes.length < auxiliary + header.symbolSize then
      throw "truncated weak-external auxiliary record"
    return { symbol with
      weakDefaultIndex := ← readU32 bytes auxiliary
      weakCharacteristics := ← readU32 bytes (auxiliary + 4) }
  return symbol

/-- The symbol of the entry at an offset. -/
def parseSymbol (bytes : List UInt8) (header : Header) (stringSize entry : Nat) :
    Parse Symbol := do
  let name ← symbolName bytes entry header.strings stringSize
  let value ← readU32 bytes (entry + 8)
  let sectionNumber ← readLe header.numberSize bytes (entry + 12)
  let type ← readU16 bytes (entry + 12 + header.numberSize)
  weakExternal bytes header (entry + header.symbolSize) {
    name, value, type
    sectionNumber := signed (8 * header.numberSize) sectionNumber
    storageClass := byteAt bytes (entry + 14 + header.numberSize)
    auxiliaryCount := byteAt bytes (entry + 15 + header.numberSize) }

/-- What the auxiliary record of a section symbol says of its section. -/
def sectionDefinition (bytes : List UInt8) (header : Header) (auxiliary : Nat) (symbol : Symbol)
    (sections : List Section) : Parse (List Section) := do
  if symbol.storageClass = 3 ∧ 0 < symbol.sectionNumber ∧ symbol.value = 0 ∧ symbol.type = 0 ∧
      symbol.auxiliaryCount ≠ 0 then
    match sections[(symbol.sectionNumber - 1).toNat]? with
    | none => return sections
    | some section_ =>
      if bytes.length < auxiliary + header.symbolSize then
        throw "truncated section-definition auxiliary record"
      let checksum ← readU32 bytes (auxiliary + 8)
      let low ← readU16 bytes (auxiliary + 12)
      let high ← readU16 bytes (auxiliary + 16)
      return sections.set (symbol.sectionNumber - 1).toNat { section_ with
        comdatChecksum := checksum
        comdatAssociativeSection :=
          low.toUInt32 ||| (if header.bigobj then high.toUInt32 <<< 16 else 0)
        comdatSelection := byteAt bytes (auxiliary + 14) }
  return sections

/-- The symbol of an index. -/
def symbolAt (bytes : List UInt8) (header : Header) (stringSize index : Nat) : Parse Symbol :=
  parseSymbol bytes header stringSize (header.symbolOffset + index * header.symbolSize)

/-- From the symbol of an index on. The records behind a symbol that belong to it are no symbols. -/
def parseSymbols (bytes : List UInt8) (header : Header) (stringSize : Nat) :
    Nat → Nat → Object → Parse Object
  | 0, _, object => .ok object
  | rounds + 1, index, object =>
    if header.symbolCount ≤ index then .ok object
    else do
      let symbol ← symbolAt bytes header stringSize index
      let sections ← sectionDefinition bytes header
        (header.symbolOffset + (index + 1) * header.symbolSize) symbol object.sections
      if symbol.auxiliaryCount ≠ 0 ∧
          header.symbolCount ≤ index + symbol.auxiliaryCount.toNat then
        throw "COFF auxiliary symbol exceeds table"
      parseSymbols bytes header stringSize rounds (index + 1 + symbol.auxiliaryCount.toNat)
        { object with sections, symbols := object.symbols.set index symbol }

/-! ## Leaders -/

/-- The first external definition in a COMDAT section keys it. -/
def leadComdat (symbols : List Symbol) (sections : List Section) (index : Nat) : List Section :=
  match symbols[index]? with
  | none => sections
  | some symbol =>
    if symbol.storageClass ≠ 2 ∨ symbol.sectionNumber ≤ 0 ∨ symbol.name = [] then sections
    else
      match sections[(symbol.sectionNumber - 1).toNat]? with
      | none => sections
      | some section_ =>
        if !section_.isComdat || section_.comdatSelection == comdatSelectAssociative ||
            section_.comdatLeaderName != [] then sections
        else sections.set (symbol.sectionNumber - 1).toNat { section_ with
          comdatLeaderSymbol := UInt32.ofNat index
          comdatLeaderName := symbol.name }

/-! ## The object -/

def parse (bytes : List UInt8) (source : String) : Parse Object := do
  let header ← parseHeader bytes
  let stringSize ← header.stringSize bytes
  let sections ← (List.range header.sectionCount).mapM fun index =>
    parseSection bytes header stringSize (header.sectionTable + index * 40)
  let object ← parseSymbols bytes header stringSize header.symbolCount 0
    { source, sections, symbols := List.replicate header.symbolCount {} }
  return { object with
    sections := (List.range object.symbols.length).foldl (leadComdat object.symbols)
      object.sections }

end Raz.Oblink.Coff
