import Raz.Lib.Codec

/-!
# The COFF writer of Forge

`emitCoff` turns an encoded image into an object file: it declares the symbols, rewrites the thunks
and the addresses of globals into code with relocations, lays the sections out and writes header,
sections, symbols and names.

Offsets in the code are not so large that a sum with them leaves the range of `size_t`. The file
offsets that are too large for their field end the emission; the numbers of relocations and of
symbols and the size of the string table are cast to theirs. The order in which relocations with
equal offsets are sorted is left open by the sort.
-/

namespace Raz.Forge.Coff

open Codec

abbrev Text := List UInt8

/-- Why nothing is emitted: a message, and the name behind it if there is one. -/
structure Failure where
  message : String
  name : Text := []
deriving DecidableEq, Repr

def failure (message : String) : Except Failure α := .error { message }

/-! ## Images -/

inductive DataSection
  | readOnly | writable | tls
deriving DecidableEq, Repr

structure GlobalRelocation where
  addressOffset : Nat
  dataSection : DataSection
  dataOffset : Nat
deriving DecidableEq, Repr

structure EncodedGlobal where
  name : Text
  dataSection : DataSection
  dataOffset : Nat
  isInternal : Bool := false
deriving DecidableEq, Repr

/-- A relocation against a symbol of another object: a function, a global or a thread-local. -/
structure ExternalRelocation where
  symbol : Text
  addressOffset : Nat
deriving DecidableEq, Repr

structure EncodedModuleImage where
  code : List UInt8
  readOnlyData : List UInt8 := []
  writableData : List UInt8 := []
  threadLocalData : List UInt8 := []
  entries : List (Text × Nat) := []
  globals : List EncodedGlobal := []
  globalRelocations : List GlobalRelocation := []
  externalGlobals : List ExternalRelocation := []
  externalTls : List ExternalRelocation := []
  tlsRelocations : List GlobalRelocation := []
  externals : List ExternalRelocation := []
deriving DecidableEq, Repr

/-! ## Symbols and relocations -/

structure Symbol where
  name : Text
  value : UInt32
  sectionNumber : UInt16
  type : UInt16
  storageClass : UInt8
deriving DecidableEq, Repr

structure Relocation where
  offset : UInt32
  symbol : UInt32
  type : UInt16
deriving DecidableEq, Repr

def relocRel32 : UInt16 := 0x0004
def relocSecrel : UInt16 := 0x000B
def storageExternal : UInt8 := 2
def storageStatic : UInt8 := 3
def symbolFunction : UInt16 := 0x20

def checkedU32 (value : Nat) : Option UInt32 :=
  if value ≤ 0xffffffff then some (UInt32.ofNat value) else none

/-- The index of a name. A name is declared once. -/
def symbolIndex (symbols : List Symbol) (name : Text) : Option Nat :=
  symbols.findIdx? (·.name == name)

def addDefinedSymbol (symbols : List Symbol) (symbol : Symbol) : Except Failure (List Symbol) :=
  match symbolIndex symbols symbol.name with
  | some _ => .error ⟨"duplicate defined symbol while emitting COFF object: ", symbol.name⟩
  | none => .ok (symbols ++ [symbol])

def addEntry (symbols : List Symbol) (entry : Text × Nat) : Except Failure (List Symbol) :=
  match checkedU32 entry.2 with
  | none => failure "function offset exceeds COFF limits"
  | some value => addDefinedSymbol symbols
      { name := entry.1
        value := value
        sectionNumber := 1
        type := symbolFunction
        storageClass := storageExternal }

def sectionNumber (hasTlsSection : Bool) : DataSection → UInt16
  | .readOnly => 2
  | .writable => 3
  | .tls => if hasTlsSection then 4 else 0

def addGlobal (hasTlsSection : Bool) (symbols : List Symbol) (global : EncodedGlobal) :
    Except Failure (List Symbol) :=
  match checkedU32 global.dataOffset with
  | none => failure "global offset exceeds COFF limits"
  | some value => addDefinedSymbol symbols
      { name := global.name
        value := value
        sectionNumber := sectionNumber hasTlsSection global.dataSection
        type := 0
        storageClass := if global.isInternal then storageStatic else storageExternal }

/-- What the emission has made so far. -/
structure Emission where
  code : List UInt8
  symbols : List Symbol
  relocations : List Relocation := []
deriving DecidableEq, Repr

/-- The index of a symbol that is declared as one of another object if it is not there. -/
def requireExternal (e : Emission) (name : Text) : UInt32 × Emission :=
  match symbolIndex e.symbols name with
  | some index => (UInt32.ofNat index, e)
  | none => (UInt32.ofNat e.symbols.length, { e with
      symbols := e.symbols ++ [⟨name, 0, 0, 0, storageExternal⟩] })

def pushRelocation (e : Emission) (offset : Nat) (symbol : UInt32) (type : UInt16) :
    Option Emission := do
  let converted ← checkedU32 offset
  return { e with relocations := e.relocations ++ [⟨converted, symbol, type⟩] }

/-- The code with these bytes from an offset on. -/
def overwrite (code : List UInt8) (start : Nat) (bytes : List UInt8) : List UInt8 :=
  code.take start ++ bytes ++ code.drop (start + bytes.length)

/-- A jump in place of the thunk. -/
def thunkCode : List UInt8 :=
  [0xE9, 0, 0, 0, 0, 0x90, 0x90, 0x90, 0x90, 0x90, 0x90, 0x90]

def addExternal (e : Emission) (relocation : ExternalRelocation) : Except Failure Emission :=
  if relocation.addressOffset < 2 ∨ e.code.length ≤ relocation.addressOffset + 9 then
    failure "malformed external function thunk while emitting COFF object"
  else
    let start := relocation.addressOffset - 2
    let (symbol, e) := requireExternal { e with code := overwrite e.code start thunkCode }
      relocation.symbol
    match pushRelocation e (start + 1) symbol relocRel32 with
    | none => failure "COFF relocation offset exceeds format limits"
    | some e => .ok e

/-- The address relative to the instruction in place of the absolute one. -/
def globalCode : List UInt8 := [0x48, 0x8D, 0x05, 0, 0, 0, 0, 0x90, 0x90, 0x90]

def rewriteGlobal (e : Emission) (addressOffset : Nat) (symbol : UInt32) : Option Emission :=
  if addressOffset < 2 ∨ e.code.length ≤ addressOffset + 7 then none
  else
    let start := addressOffset - 2
    pushRelocation { e with code := overwrite e.code start globalCode } (start + 3) symbol
      relocRel32

def addExternalGlobal (e : Emission) (relocation : ExternalRelocation) :
    Except Failure Emission :=
  let (symbol, e) := requireExternal e relocation.symbol
  match rewriteGlobal e relocation.addressOffset symbol with
  | none => failure "malformed external global address while emitting COFF object"
  | some e => .ok e

/-- The global of a section at an offset. -/
def findGlobal (globals : List EncodedGlobal) (dataSection : DataSection) (dataOffset : Nat) :
    Option EncodedGlobal :=
  globals.find? fun global => global.dataSection = dataSection ∧ global.dataOffset = dataOffset

def addGlobalRelocation (globals : List EncodedGlobal) (e : Emission)
    (relocation : GlobalRelocation) : Except Failure Emission :=
  let rewritten := do
    let global ← findGlobal globals relocation.dataSection relocation.dataOffset
    let index ← symbolIndex e.symbols global.name
    rewriteGlobal e relocation.addressOffset (UInt32.ofNat index)
  match rewritten with
  | none => failure "unable to resolve internal global relocation while emitting COFF object"
  | some e => .ok e

/-- The access to the thread's block. The array has a byte more than the source lists. -/
def tlsCode : List UInt8 :=
  [ 0x8B, 0x05, 0, 0, 0, 0
  , 0x65, 0x48, 0x8B, 0x0C, 0x25, 0x58, 0, 0, 0
  , 0x48, 0x8B, 0x04, 0xC1
  , 0x48, 0x8D, 0x80, 0, 0, 0, 0
  , 0, 0x90, 0x90, 0x90, 0x90, 0x90 ]

def tlsIndexName : Text := [95, 116, 108, 115, 95, 105, 110, 100, 101, 120]

def rewriteTls (e : Emission) (addressOffset : Nat) (symbol : UInt32) : Option Emission :=
  if e.code.length ≤ addressOffset + 31 then none
  else
    let (index, e) := requireExternal { e with code := overwrite e.code addressOffset tlsCode }
      tlsIndexName
    do
      let e ← pushRelocation e (addressOffset + 2) index relocRel32
      pushRelocation e (addressOffset + 22) symbol relocSecrel

def addExternalTls (e : Emission) (relocation : ExternalRelocation) : Except Failure Emission :=
  let (symbol, e) := requireExternal e relocation.symbol
  match rewriteTls e relocation.addressOffset symbol with
  | none => failure "malformed external TLS address while emitting COFF object"
  | some e => .ok e

/-- The section that a thread-local relocation gives is not looked at. -/
def addTlsRelocation (globals : List EncodedGlobal) (e : Emission)
    (relocation : GlobalRelocation) : Except Failure Emission :=
  let rewritten := do
    let global ← findGlobal globals .tls relocation.dataOffset
    let index ← symbolIndex e.symbols global.name
    rewriteTls e relocation.addressOffset (UInt32.ofNat index)
  match rewritten with
  | none => failure "unable to resolve internal TLS relocation while emitting COFF object"
  | some e => .ok e

def EncodedModuleImage.hasTlsSection (image : EncodedModuleImage) : Bool :=
  !image.threadLocalData.isEmpty

def prepare (image : EncodedModuleImage) : Except Failure Emission := do
  let symbols ← image.entries.foldlM addEntry []
  let symbols ← image.globals.foldlM (addGlobal image.hasTlsSection) symbols
  let e ← image.externals.foldlM addExternal { code := image.code, symbols }
  let e ← image.externalGlobals.foldlM addExternalGlobal e
  let e ← image.globalRelocations.foldlM (addGlobalRelocation image.globals) e
  let e ← image.externalTls.foldlM addExternalTls e
  image.tlsRelocations.foldlM (addTlsRelocation image.globals) e

/-! ## Sections -/

/-- The name has eight bytes. -/
structure Section where
  name : Text
  data : List UInt8
  relocations : List Relocation := []
  characteristics : UInt32
deriving DecidableEq, Repr

def sectionText : UInt32 := 0x60000020
def sectionRdata : UInt32 := 0x40000040
def sectionData : UInt32 := 0xC0000040

def textName : Text := [46, 116, 101, 120, 116]
def rdataName : Text := [46, 114, 100, 97, 116, 97]
def dataName : Text := [46, 100, 97, 116, 97]
def tlsName : Text := [46, 116, 108, 115, 36, 65, 65, 65]

/-- A name of at most eight bytes, with zeros behind it. -/
def shortName (name : Text) : List UInt8 := (name ++ List.replicate 8 0).take 8

def EncodedModuleImage.sections (image : EncodedModuleImage) (e : Emission) : List Section :=
  [ { name := shortName textName
      data := e.code
      relocations := e.relocations
      characteristics := sectionText }
  , { name := shortName rdataName, data := image.readOnlyData, characteristics := sectionRdata }
  , { name := shortName dataName, data := image.writableData, characteristics := sectionData } ] ++
  if image.hasTlsSection then
    [{ name := shortName tlsName, data := image.threadLocalData, characteristics := sectionData }]
  else []

/-- Where a section and its relocations are. -/
structure PlacedSection where
  section_ : Section
  rawOffset : UInt32
  relocationOffset : UInt32 := 0
deriving DecidableEq, Repr

def alignCursor (value : Nat) : Nat := (value + 15) / 16 * 16

def place (cursor : Nat) (section_ : Section) : Except Failure (PlacedSection × Nat) :=
  match checkedU32 (alignCursor cursor) with
  | none => failure "COFF section offset exceeds format limits"
  | some rawOffset =>
    let cursor := alignCursor cursor + section_.data.length
    if section_.relocations = [] then .ok ({ section_, rawOffset }, cursor)
    else
      match checkedU32 cursor with
      | none => failure "COFF relocation table offset exceeds format limits"
      | some relocationOffset =>
        .ok ({ section_, rawOffset, relocationOffset },
          cursor + section_.relocations.length * 10)

def placeAll : Nat → List Section → Except Failure (List PlacedSection × Nat)
  | cursor, [] => .ok ([], cursor)
  | cursor, section_ :: sections => do
    let (placed, cursor) ← place cursor section_
    let (rest, cursor) ← placeAll cursor sections
    return (placed :: rest, cursor)

/-! ## Names -/

structure StringTable where
  bytes : List UInt8 := []
  offsets : List (Text × UInt32) := []
deriving DecidableEq, Repr

/-- A name is in the table once. There is no offset for a name behind the range of 32 bits. -/
def StringTable.add (strings : StringTable) (name : Text) : UInt32 × StringTable :=
  match strings.offsets.find? (·.1 == name) with
  | some found => (found.2, strings)
  | none =>
    if 0xffffffff < strings.bytes.length + 4 then (0, strings)
    else
      let offset := UInt32.ofNat (strings.bytes.length + 4)
      (offset,
        { bytes := strings.bytes ++ name ++ [0], offsets := strings.offsets ++ [(name, offset)] })

def writeName (name : Text) (strings : StringTable) : List UInt8 × StringTable :=
  if name.length ≤ 8 then (name ++ List.replicate (8 - name.length) 0, strings)
  else
    let (offset, strings) := strings.add name
    (littleEndian 4 0 ++ littleEndian 4 offset.toNat, strings)

def writeSymbol (symbol : Symbol) (strings : StringTable) : List UInt8 × StringTable :=
  let (name, strings) := writeName symbol.name strings
  (name ++ (littleEndian 4 symbol.value.toNat ++ (littleEndian 2 symbol.sectionNumber.toNat ++
    (littleEndian 2 symbol.type.toNat ++ [symbol.storageClass, 0]))), strings)

def writeSymbols : List Symbol → StringTable → List UInt8 × StringTable
  | [], strings => ([], strings)
  | symbol :: symbols, strings =>
    let (bytes, strings) := writeSymbol symbol strings
    let (rest, strings) := writeSymbols symbols strings
    (bytes ++ rest, strings)

/-! ## The file -/

def writeHeader (sectionCount symbolTableOffset symbolCount : Nat) : List UInt8 :=
  littleEndian 2 0x8664 ++ (littleEndian 2 sectionCount ++ (littleEndian 4 0 ++
    (littleEndian 4 symbolTableOffset ++ (littleEndian 4 symbolCount ++
    (littleEndian 2 0 ++ littleEndian 2 0)))))

def writeSectionHeader (placed : PlacedSection) : List UInt8 :=
  placed.section_.name ++ (littleEndian 4 0 ++ (littleEndian 4 0 ++
    (littleEndian 4 placed.section_.data.length ++ (littleEndian 4 placed.rawOffset.toNat ++
    (littleEndian 4 placed.relocationOffset.toNat ++ (littleEndian 4 0 ++
    (littleEndian 2 placed.section_.relocations.length ++ (littleEndian 2 0 ++
    littleEndian 4 placed.section_.characteristics.toNat))))))))

def writeRelocation (relocation : Relocation) : List UInt8 :=
  littleEndian 4 relocation.offset.toNat ++ (littleEndian 4 relocation.symbol.toNat ++
    littleEndian 2 relocation.type.toNat)

/-- A section comes behind zeros up to its offset. -/
def writeSection (bytes : List UInt8) (placed : PlacedSection) : List UInt8 :=
  bytes ++ List.replicate (placed.rawOffset.toNat - bytes.length) 0 ++
    (placed.section_.data ++ placed.section_.relocations.flatMap writeRelocation)

def writeFile (placed : List PlacedSection) (symbolTableOffset : Nat) (symbols : List Symbol) :
    List UInt8 :=
  let (symbolBytes, strings) := writeSymbols symbols {}
  let headers := writeHeader placed.length symbolTableOffset symbols.length ++
    placed.flatMap writeSectionHeader
  placed.foldl writeSection headers ++ symbolBytes ++
    (littleEndian 4 (strings.bytes.length + 4) ++ strings.bytes)

structure ObjectEmissionStats where
  sectionCount : Nat
  symbolCount : Nat
  relocationCount : Nat
  externalSymbolCount : Nat
deriving DecidableEq, Repr

structure CoffObject where
  bytes : List UInt8
  stats : ObjectEmissionStats
deriving DecidableEq, Repr

/-- `emit_coff_x86_64`, with the sort of the relocations by their offsets. -/
def emitCoff (sort : List Relocation → List Relocation) (image : EncodedModuleImage) :
    Except Failure CoffObject := do
  let e ← prepare image
  let sections := image.sections { e with relocations := sort e.relocations }
  let (placed, cursor) ← placeAll (20 + sections.length * 40) sections
  match checkedU32 cursor with
  | none => failure "COFF symbol table offset exceeds format limits"
  | some symbolTableOffset =>
    return {
      bytes := writeFile placed symbolTableOffset.toNat e.symbols
      stats := {
        sectionCount := sections.length
        symbolCount := e.symbols.length
        relocationCount := (sort e.relocations).length
        externalSymbolCount := e.symbols.countP (·.sectionNumber == 0) } }

end Raz.Forge.Coff
