import Raz.Oblink.CoffChecked

/-!
# Static libraries, as the linker sees them

The linker keeps the bytes of an archive and the ranges of its members. The member `/` maps symbols
to the headers of their members; without it each member is looked at once for what it defines. A
member that is selected is an object or a short import whose fields are checked one by one. An
object of a GNU import library stands for an import, or for nothing.

Each access to a byte is checked, and so is each part of a span that is taken of one.
-/

namespace Raz.Oblink.LinkArchive

open Access Codec Coff

abbrev Read := Except (Fault String)

def report {α : Type} (message : String) : Read α := .error (.reported message)

/-- A failure that is caught, with nothing in its place. -/
def caught {α : Type} (read : Read (Option α)) : Read (Option α) :=
  match read with
  | .error (.reported _) => .ok none
  | outcome => outcome

/-! ## Fields -/

def spanU16 (data : List UInt8) (offset : Nat) : Read Nat :=
  if data.length < offset + 2 then report "truncated 16-bit field"
  else do return ofLittleEndian (← accesses data offset 2)

def spanU32 (data : List UInt8) (offset : Nat) : Read Nat :=
  if data.length < offset + 4 then report "truncated 32-bit field"
  else do return ofLittleEndian (← accesses data offset 4)

def spanBe32 (data : List UInt8) (offset : Nat) : Read Nat :=
  if data.length < offset + 4 then report "truncated big-endian 32-bit field"
  else do return ofLittleEndian (← accesses data offset 4).reverse

def arField (bytes : List UInt8) (off count : Nat) : Read Text := do
  return ((← accesses bytes off count).reverse.dropWhile (· == 32)).reverse

/-- The digits of a number, with blanks anywhere among them; whether there was one, and the
number. -/
def digits : Text → Bool → Nat → Read (Bool × Nat)
  | [], digit, value => return (digit, value)
  | c :: rest, digit, value =>
    if c = 32 then digits rest digit value
    else if c < 48 ∨ 57 < c then report "invalid COFF archive member size"
    else digits rest true (value * 10 + (c.toNat - 48))

def arDecimal (bytes : List UInt8) (off count : Nat) : Read Nat := do
  let (digit, value) ← digits (← accesses bytes off count) false 0
  if digit then return value
  else report "missing COFF archive member size"

/-- A part of a span; there must be such a part. -/
def subspan (bytes : List UInt8) (offset count : Nat) : Read (List UInt8) :=
  if offset + count ≤ bytes.length then return (bytes.drop offset).take count
  else .error .outside

/-- The bytes up to a zero, which must come before the end. -/
def cString (bytes : List UInt8) (offset : Nat) : Read Text := do
  let text ← Checked.shortString bytes offset bytes.length
  if bytes.length ≤ offset + text.length then
    report "unterminated Microsoft import-object string"
  else return text

/-! ## Short imports -/

structure ImportObject where
  source : String
  symbol : Text
  dll : Text
  importName : Text
  hintOrOrdinal : Nat
  type : Nat
  nameType : Nat
  byOrdinal : Bool
deriving DecidableEq, Repr

/-- `__imp_` -/
def impPrefix : Text := [95, 95, 105, 109, 112, 95]

def importIatSymbol (import_ : ImportObject) : Text :=
  if impPrefix.isPrefixOf import_.symbol then import_.symbol else impPrefix ++ import_.symbol

def importPublicSymbol (import_ : ImportObject) : Text :=
  if impPrefix.isPrefixOf import_.symbol then import_.symbol.drop 6 else import_.symbol

/-- Without the first character, if it is `_`, `@` or `?`. -/
def withoutPrefix : Text → Text
  | [] => []
  | c :: rest => if c = 95 ∨ c = 64 ∨ c = 63 then rest else c :: rest

/-- Up to an `@`, unless the name begins with `?`. -/
def undecorated : Text → Text
  | [] => []
  | c :: rest => if c = 63 then c :: rest else (c :: rest).takeWhile (· != 64)

def importNameForNameType (symbol : Text) (nameType : Nat) (exportAs : Text) : Text :=
  if nameType = 1 then symbol
  else if nameType = 2 then withoutPrefix symbol
  else if nameType = 3 then undecorated (withoutPrefix symbol)
  else if nameType = 4 ∧ exportAs ≠ [] then exportAs
  else symbol

/-- The strings of the payload. -/
def importStrings (payload : List UInt8) (nameType : Nat) : Read (Option (Text × Text × Text)) :=
  do
    let symbol ← cString payload 0
    let cursor := symbol.length + 1
    let dll ← cString payload cursor
    if symbol = [] ∨ dll = [] then return none
    else
      let cursor := cursor + dll.length + 1
      if nameType = 4 ∧ cursor < payload.length then
        return some (symbol, dll, ← cString payload cursor)
      else return some (symbol, dll, [])

def parseImportObject (member : List UInt8) (source : String) : Read (Option ImportObject) :=
  if member.length < 20 then return none
  else do
    if (← spanU16 member 0) ≠ 0 then return none
    if (← spanU16 member 2) ≠ 0xffff then return none
    if (← spanU16 member 6) ≠ machineAmd64 then return none
    let sizeOfData ← spanU32 member 12
    -- the sum is one of 32 bits
    if sizeOfData = 0 ∨ member.length < (20 + sizeOfData) % 2 ^ 32 then return none
    let typeInfo ← spanU16 member 18
    let type := typeInfo &&& 3
    let nameType := typeInfo >>> 2 &&& 7
    if 2 < type ∨ 4 < nameType then return none
    let payload ← subspan member 20 sizeOfData
    caught do
      match ← importStrings payload nameType with
      | none => return none
      | some (symbol, dll, exportAs) =>
        let byOrdinal := nameType = 0
        return some {
          source, symbol, dll, type, nameType, byOrdinal
          importName := if byOrdinal then [] else importNameForNameType symbol nameType exportAs
          hintOrOrdinal := ← spanU16 member 16 }

/-! ## Members -/

structure ArchiveMember where
  headerOffset : Nat
  dataOffset : Nat
  size : Nat
  name : Text
deriving DecidableEq, Repr

structure ArchiveInput where
  path : String
  bytes : List UInt8
  members : List ArchiveMember := []
  /-- The members by the symbols they provide, in the order they were found in. -/
  providers : List (Text × Nat) := []
  indexed : Bool := false
deriving DecidableEq, Repr

def archiveMemberBytes (archive : ArchiveInput) (member : ArchiveMember) : Read (List UInt8) :=
  if archive.bytes.length < member.dataOffset ∨
      archive.bytes.length - member.dataOffset < member.size then
    report (archive.path ++ ": archive member range is invalid")
  else return (archive.bytes.drop member.dataOffset).take member.size

/-- A member that is parsed as an object. -/
def isObject (bytes : List UInt8) : Read Bool := do
  if 2 ≤ bytes.length then
    if (← spanU16 bytes 0) = machineAmd64 then return true
  Checked.bigobjSignature bytes

/-! ## Import stubs -/

def idataHintName : Text := [46, 105, 100, 97, 116, 97, 36, 54]

def idataDllName : Text := [46, 105, 100, 97, 116, 97, 36, 55]

def idataDescriptor : Text := [46, 105, 100, 97, 116, 97, 36, 50]

/-- `.idata$` -/
def idataPrefix : Text := [46, 105, 100, 97, 116, 97, 36]

def textName : Text := [46, 116, 101, 120, 116]

def findSection (object : Object) (name : Text) : Option Section :=
  object.sections.find? (·.name == name)

/-- The members without content of an import library made by GNU tools. -/
def onlyImportDataSections (object : Object) : Bool :=
  !object.sections.isEmpty && object.sections.all fun section_ =>
    idataPrefix.isPrefixOf section_.name

/-- The bytes up to a zero, or nothing if there is none. -/
def sectionCString (section_ : Section) (offset : Nat) : Text :=
  let bytes := section_.data.drop offset
  if 0 ∈ bytes then bytes.takeWhile (· != 0) else []

/-- The first text that is not empty. -/
def firstText {α : Type} (read : α → Read Text) : List α → Read Text
  | [] => return []
  | item :: items => do
    let text ← read item
    if text ≠ [] then return text
    firstText read items

def ArchiveInput.provide (archive : ArchiveInput) (symbol : Text) : List Nat :=
  (archive.providers.filter (·.1 == symbol)).map (·.2)

/-- The DLL that a symbol leads to: in the member that provides it, or over the relocation of
its import descriptor by as many further symbols as there are levels left. -/
def resolveMingwDllName (archive : ArchiveInput) : Nat → Text → Read Text
  | 0, _ => return []
  | levels + 1, symbol =>
    firstText (fun index =>
      match archive.members[index]? with
      | none => return []
      | some member => do
        let bytes ← archiveMemberBytes archive member
        if bytes.length < 2 then return []
        if (← spanU16 bytes 0) ≠ machineAmd64 then return []
        match Checked.parse bytes archive.path with
        | .error (.reported _) => return []
        | .error .outside => .error .outside
        | .ok object =>
          let text := (findSection object idataDllName).elim [] (sectionCString · 0)
          if text ≠ [] then return text
          firstText (fun relocation =>
            if relocation.virtualAddress ≠ 12 then return []
            else match object.symbols[relocation.symbolIndex.toNat]? with
              | none => return []
              | some next =>
                if next.name = [] ∨ next.name = symbol then return []
                else resolveMingwDllName archive levels next.name)
            ((findSection object idataDescriptor).elim [] Section.relocations))
      (archive.provide symbol)

def maxDepth : Nat := 4

def mingwDllName (archive : ArchiveInput) (symbol : Text) : Read Text :=
  resolveMingwDllName archive (maxDepth + 1) symbol

/-- The symbol behind `__imp_`, of the first external symbol that is defined and begins so. -/
def importedSymbol (object : Object) : Text :=
  match object.symbols.find? fun symbol => symbol.storageClass == 2 &&
      impPrefix.isPrefixOf symbol.name && decide (0 < symbol.sectionNumber) with
  | none => []
  | some symbol => symbol.name.drop 6

/-- The import that an object of a GNU import library stands for. -/
def parseMingwImportStub (archive : ArchiveInput) (object : Object) (source : String) :
    Read (Option ImportObject) :=
  match findSection object idataHintName with
  | none => return none
  | some hintName =>
    if hintName.data.length < 3 then return none
    else do
      let dll ← firstText (fun relocation : Relocation =>
        match object.symbols[relocation.symbolIndex.toNat]? with
        | none => return []
        | some symbol => if symbol.name = [] then return [] else mingwDllName archive symbol.name)
        ((findSection object idataDllName).elim [] Section.relocations)
      let symbol := importedSymbol object
      let importName := sectionCString hintName 2
      if dll = [] ∨ symbol = [] ∨ importName = [] then return none
      else return some {
        source, symbol, dll, importName
        hintOrOrdinal := ← spanU16 hintName.data 0
        type := if (findSection object textName).any (!·.data.isEmpty) then 0 else 1
        nameType := 1
        byOrdinal := false }

/-! ## Members that are selected -/

/-- What a member has been parsed to; a stub is kept as an import as well. -/
inductive Parsed
  | object (object : Object)
  | importObject (importObject : ImportObject)
  | importStub (importObject : ImportObject)
  | inert
deriving DecidableEq, Repr

def memberSource (archive : ArchiveInput) (member : ArchiveMember) : String :=
  archive.path ++ "(" ++ String.ofList (member.name.map fun c => Char.ofNat c.toNat) ++ ")"

def parseMember (archive : ArchiveInput) (member : ArchiveMember) : Read Parsed := do
  let bytes ← archiveMemberBytes archive member
  let source := memberSource archive member
  if ← isObject bytes then
    match Checked.parse bytes source with
    | .error (.reported message) => report (source ++ ": " ++ message)
    | .error .outside => .error .outside
    | .ok object =>
      match ← parseMingwImportStub archive object source with
      | some stub => return .importStub stub
      | none => return if onlyImportDataSections object then .inert else .object object
  else
    match ← parseImportObject bytes source with
    | some imported => return .importObject imported
    | none => report (source ++ ": unsupported selected COFF archive member")

def parseArchiveMember (archive : ArchiveInput) (index : Nat) : Read Parsed :=
  match archive.members[index]? with
  | none => report "vector::at"
  | some member => parseMember archive member

/-! ## The symbols of members -/

def definedSymbol (symbol : Symbol) : Option Text :=
  if symbol.name = [] ∨ symbol.storageClass ≠ 2 then none
  else if 0 < symbol.sectionNumber ∨ symbol.sectionNumber = 0 ∧ symbol.value ≠ 0 then
    some symbol.name
  else none

/-- The symbols of a member that is not in an index. -/
def memberSymbols (bytes : List UInt8) (path : String) : Read (List Text) := do
  if ← isObject bytes then
    match Checked.parse bytes path with
    | .ok object => return object.symbols.filterMap definedSymbol
    | .error (.reported _) => return []
    | .error .outside => .error .outside
  else match ← parseImportObject bytes path with
    | some import_ => return [importPublicSymbol import_, importIatSymbol import_]
    | none => return []

def indexArchiveMemberSymbols (archive : ArchiveInput) (index : Nat) : Read ArchiveInput :=
  match archive.members[index]? with
  | none => .error .outside
  | some member => do
    let bytes ← archiveMemberBytes archive member
    let symbols ← memberSymbols bytes archive.path
    return { archive with
      providers := archive.providers ++ symbols.map fun symbol => (symbol, index) }

/-! ## The archive -/

/-- The members that can be selected, and the first index. -/
structure Members where
  members : List ArchiveMember := []
  firstLinkerMember : Option (Nat × Nat) := none
  memberByHeaderOffset : List (Nat × Nat) := []
deriving DecidableEq, Repr

/-- The symbol indices and the long names: `/`, `//`, `/SYM64/` and `/SYM64`. -/
def metadata (rawName : Text) : Bool :=
  rawName == [47] || rawName == [47, 47] || rawName == [47, 83, 89, 77, 54, 52, 47] ||
    rawName == [47, 83, 89, 77, 54, 52]

def Members.add (found : Members) (member : ArchiveMember) : Members :=
  let firstLinkerMember :=
    if member.name = [47] ∧ found.firstLinkerMember = none then
      some (member.dataOffset, member.size)
    else found.firstLinkerMember
  if !metadata member.name && member.name != [] then {
    firstLinkerMember
    members := found.members ++ [member]
    memberByHeaderOffset :=
      found.memberByHeaderOffset ++ [(member.headerOffset, found.members.length)] }
  else { found with firstLinkerMember }

/-- The member of the header at an offset. -/
def readMember (all : List UInt8) (off : Nat) (path : String) : Read ArchiveMember :=
  if all.length < off + 60 then report (path ++ ": truncated COFF archive header")
  else do
    let first ← access all (off + 58)
    let second ← access all (off + 59)
    if first ≠ 96 ∨ second ≠ 10 then report (path ++ ": invalid COFF archive member header")
    else
      let name ← arField all off 16
      let size ← arDecimal all (off + 48) 10
      let dataOffset := off + 60
      if all.length < dataOffset + size then
        report (path ++ ": truncated COFF archive member")
      else return { headerOffset := off, dataOffset, size, name }

def readMembers (all : List UInt8) (path : String) (off : Nat) : Read (List ArchiveMember) :=
  if off < all.length then do
    let member ← readMember all off path
    let next := off + 60 + member.size
    return member :: (← readMembers all path (next + next % 2))
  else return []
termination_by all.length - off

/-- The symbols of the index from one on, and whether it ends before all of them. -/
def readIndex (index : List UInt8) (members : List (Nat × Nat)) :
    Nat → Nat → Nat → List (Text × Nat) → Read (Bool × List (Text × Nat))
  | 0, _, _, providers => return (true, providers)
  | count + 1, i, names, providers => do
    let memberOffset ← spanBe32 index (4 + i * 4)
    let symbol ← Checked.shortString index names index.length
    if index.length ≤ names + symbol.length then return (false, providers)
    else
      let providers := match members.lookup memberOffset with
        | some member => if symbol ≠ [] then providers ++ [(symbol, member)] else providers
        | none => providers
      readIndex index members count (i + 1) (names + symbol.length + 1) providers

def readLinkerMember (archive : ArchiveInput) (found : Members) : Read ArchiveInput :=
  match found.firstLinkerMember with
  | none => return archive
  | some (data, size) =>
    let index := (archive.bytes.drop data).take size
    if index.length < 4 then return archive
    else do
      let count ← spanBe32 index 0
      let offsetsEnd := 4 + count * 4
      if index.length < offsetsEnd then return archive
      else
        let (valid, providers) ← readIndex index found.memberByHeaderOffset count 0 offsetsEnd []
        return { archive with providers, indexed := valid && !providers.isEmpty }

/-- A member that cannot be indexed is left out. -/
def indexMember (archive : ArchiveInput) (index : Nat) : Read ArchiveInput :=
  match indexArchiveMemberSymbols archive index with
  | .error (.reported _) => .ok archive
  | outcome => outcome

def indexMembers (archive : ArchiveInput) : Read ArchiveInput :=
  (List.range archive.members.length).foldlM indexMember { archive with providers := [] }

def readArchive (bytes : List UInt8) (path : String) : Read ArchiveInput := do
  let found := (← readMembers bytes path 8).foldl Members.add {}
  let archive ← readLinkerMember { path, bytes, members := found.members } found
  if archive.indexed then return archive
  else indexMembers archive

end Raz.Oblink.LinkArchive
