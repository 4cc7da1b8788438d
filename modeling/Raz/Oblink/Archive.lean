import Raz.Oblink.CoffChecked

/-!
# Static libraries, as the archive reader sees them

An archive is a sequence of members, each behind a header of sixty bytes and on an even offset. Two
of them are special: `/` maps symbols to members, and `//` has the names that do not fit into a
header. A member that begins as a short import does is kept as an import, any other as an object.

Each access to a byte is checked: one outside the span it is made in is an outcome of its own. A
span is a list of its own, cut out of the input once its range has been checked.
-/

namespace Raz.Oblink.ArchiveFile

open Access Codec Coff

abbrev Read := Except (Fault String)

def report {α : Type} (message : String) : Read α := .error (.reported message)

/-- An entry of a map, unless there is one. -/
def emplace {κ : Type} [DecidableEq κ] (map : List (κ × Nat)) (key : κ) (value : Nat) :
    List (κ × Nat) :=
  if (map.lookup key).isSome then map else map ++ [(key, value)]

/-! ## Fields -/

def archiveMagic : Text := [33, 60, 97, 114, 99, 104, 62, 10]

def headerSize : Nat := 60

def readU16 (bytes : List UInt8) (offset : Nat) : Read Nat := do
  return ofLittleEndian (← accesses bytes offset 2)

def readU32Le (bytes : List UInt8) (offset : Nat) : Read Nat := do
  return ofLittleEndian (← accesses bytes offset 4)

def readU32Be (bytes : List UInt8) (offset : Nat) : Read Nat := do
  return ofLittleEndian (← accesses bytes offset 4).reverse

/-- Without the blanks and zeros behind, and without the blanks in front. -/
def trim (value : Text) : Text :=
  (value.reverse.dropWhile fun c => c == 32 || c == 0).reverse.dropWhile (· == 32)

/-- The bytes up to the first zero, or to the end. -/
def readCString (bytes : List UInt8) (offset : Nat) : Read Text :=
  Checked.shortString bytes offset bytes.length

def isDigit (c : UInt8) : Bool := 48 ≤ c && c ≤ 57

def decimal (digits : Text) : Nat := digits.foldl (fun value c => value * 10 + (c.toNat - 48)) 0

/-- The number in front of a text; there must be one. -/
def fromChars (value : Text) : Option Nat :=
  match value.takeWhile isDigit with
  | [] => none
  | digits => some (decimal digits)

/-! ## Members -/

structure RawMember where
  rawName : Text
  offset : Nat
  data : List UInt8
deriving DecidableEq, Repr

/-- The members, with the special ones apart. -/
structure RawMembers where
  members : List RawMember := []
  longNames : List UInt8 := []
  firstLinker : List UInt8 := []
  secondLinker : List UInt8 := []
deriving DecidableEq, Repr

def RawMembers.add (found : RawMembers) (member : RawMember) : RawMembers :=
  if member.rawName = [47] then
    if found.firstLinker = [] then { found with firstLinker := member.data }
    else { found with secondLinker := member.data }
  else if member.rawName = [47, 47] then { found with longNames := member.data }
  else { found with members := found.members ++ [member] }

/-- The member behind the header at an offset. -/
def readRawMember (bytes : List UInt8) (cursor : Nat) (name : String) : Read RawMember := do
  let header := (bytes.drop cursor).take headerSize
  let rawName := trim (← accesses header 0 16)
  let sizeText := trim (← accesses header 48 10)
  match fromChars sizeText with
  | none => report ("archive member has an unreadable size in " ++ name)
  | some size =>
    let offset := cursor + headerSize
    if bytes.length < offset + size then
      report ("archive member extends past the end of " ++ name)
    else return { rawName, offset, data := (bytes.drop offset).take size }

def evenOffset (offset : Nat) : Nat := offset + offset % 2

theorem le_evenOffset (offset : Nat) : offset ≤ evenOffset offset := Nat.le_add_right _ _

def readRawMembers (bytes : List UInt8) (name : String) (cursor : Nat) : Read (List RawMember) :=
  if cursor + headerSize ≤ bytes.length then do
    let member ← readRawMember bytes cursor name
    let next := evenOffset (cursor + headerSize + member.data.length)
    return member :: (← readRawMembers bytes name next)
  else return []
termination_by bytes.length - cursor
decreasing_by
  have hnext := le_evenOffset (cursor + headerSize + member.data.length)
  unfold headerSize at *
  omega

/-- A name is in the header, with a slash behind it, or in the member `//`. -/
def resolveName (longNames : List UInt8) (raw : Text) : Read Text :=
  match raw with
  | 47 :: digits =>
    match fromChars digits with
    | some offset => if offset < longNames.length then readCString longNames offset else return raw
    | none => return raw
  | _ => return if raw.getLast? = some 47 then raw.dropLast else raw

/-! ## Objects and imports -/

structure ArchiveMember where
  name : Text
  offset : Nat
  bytes : List UInt8
deriving DecidableEq, Repr

structure ArchiveImport where
  symbol : Text
  dll : Text
  hint : Nat
  type : Nat
  nameType : Nat
deriving DecidableEq, Repr

structure Archive where
  name : String
  members : List ArchiveMember := []
  imports : List ArchiveImport := []
  symbolIndex : List (Text × Nat) := []
  importIndex : List (Text × Nat) := []
deriving DecidableEq, Repr

/-- The import that a member says, if it begins as a short import does. -/
def readImport (bytes : List UInt8) : Read (Option ArchiveImport) :=
  if bytes.length < 20 then return none
  else do
    if (← readU16 bytes 0) ≠ 0 then return none
    if (← readU16 bytes 2) ≠ 0xffff then return none
    let hint ← readU16 bytes 16
    let flags ← readU16 bytes 18
    let symbol ← readCString bytes 20
    let dll ← readCString bytes (20 + symbol.length + 1)
    return some { symbol, dll, hint, type := flags &&& 3, nameType := flags >>> 2 &&& 7 }

/-- What is known of the members, and the members by the offsets of their headers. -/
structure Members where
  archive : Archive
  memberByOffset : List (Nat × Nat) := []
deriving DecidableEq, Repr

def addMember (longNames : List UInt8) (found : Members) (raw : RawMember) : Read Members := do
  let name ← resolveName longNames raw.rawName
  match ← readImport raw.data with
  | some import_ => return { found with
      archive := { found.archive with
        importIndex := emplace found.archive.importIndex import_.symbol found.archive.imports.length
        imports := found.archive.imports ++ [import_] } }
  | none => return {
      archive := { found.archive with
        members := found.archive.members ++ [{ name, offset := raw.offset, bytes := raw.data }] }
      memberByOffset :=
        emplace found.memberByOffset (raw.offset - headerSize) found.archive.members.length }

/-! ## The symbol index -/

/-- A symbol of a member, if the offset is that of one. -/
def addSymbol (memberByOffset : List (Nat × Nat)) (symbolIndex : List (Text × Nat))
    (symbol : Text) (memberOffset : Nat) : List (Text × Nat) :=
  match memberByOffset.lookup memberOffset with
  | some member => emplace symbolIndex symbol member
  | none => symbolIndex

/-- The symbols of the second index from one on: each has the ordinal of its member. -/
def readSecond (linker : List UInt8) (memberByOffset : List (Nat × Nat))
    (memberCount indicesAt : Nat) :
    Nat → Nat → Nat → List (Text × Nat) → Read (List (Text × Nat))
  | 0, _, _, symbolIndex => return symbolIndex
  | count + 1, index, nameCursor, symbolIndex =>
    if linker.length ≤ nameCursor then return symbolIndex
    else do
      let symbol ← readCString linker nameCursor
      let ordinal ← readU16 linker (indicesAt + index * 2)
      if ordinal = 0 ∨ memberCount < ordinal then
        readSecond linker memberByOffset memberCount indicesAt count (index + 1)
          (nameCursor + symbol.length + 1) symbolIndex
      else
        let memberOffset ← readU32Le linker (4 + (ordinal - 1) * 4)
        readSecond linker memberByOffset memberCount indicesAt count (index + 1)
          (nameCursor + symbol.length + 1)
          (addSymbol memberByOffset symbolIndex symbol memberOffset)

/-- The symbols of the first index from one on: each has the offset of its member. -/
def readFirst (linker : List UInt8) (memberByOffset : List (Nat × Nat)) :
    Nat → Nat → Nat → List (Text × Nat) → Read (List (Text × Nat))
  | 0, _, _, symbolIndex => return symbolIndex
  | count + 1, index, nameCursor, symbolIndex =>
    if linker.length ≤ nameCursor then return symbolIndex
    else do
      let symbol ← readCString linker nameCursor
      let memberOffset ← readU32Be linker (4 + index * 4)
      readFirst linker memberByOffset count (index + 1) (nameCursor + symbol.length + 1)
        (addSymbol memberByOffset symbolIndex symbol memberOffset)

/-- The second index if there is one, or the first. -/
def readSymbols (firstLinker secondLinker : List UInt8) (memberByOffset : List (Nat × Nat)) :
    Read (List (Text × Nat)) :=
  if secondLinker ≠ [] ∧ 4 ≤ secondLinker.length then do
    let memberCount ← readU32Le secondLinker 0
    let symbolCountAt := 4 + memberCount * 4
    if symbolCountAt + 4 ≤ secondLinker.length then
      let symbolCount ← readU32Le secondLinker symbolCountAt
      let indicesAt := symbolCountAt + 4
      readSecond secondLinker memberByOffset memberCount indicesAt symbolCount 0
        (indicesAt + symbolCount * 2) []
    else return []
  else if firstLinker ≠ [] ∧ 4 ≤ firstLinker.length then do
    let symbolCount ← readU32Be firstLinker 0
    readFirst firstLinker memberByOffset symbolCount 0 (4 + symbolCount * 4) []
  else return []

/-! ## The archive -/

def readArchive (bytes : List UInt8) (name : String) : Read Archive :=
  if bytes.length < archiveMagic.length then report ("archive is too small: " ++ name)
  else do
    if (← accesses bytes 0 archiveMagic.length) ≠ archiveMagic then
      report ("not an archive: " ++ name)
    else
      let raw := (← readRawMembers bytes name archiveMagic.length).foldl RawMembers.add {}
      let found ← raw.members.foldlM (addMember raw.longNames) { archive := { name } }
      let symbolIndex ← readSymbols raw.firstLinker raw.secondLinker found.memberByOffset
      return { found.archive with symbolIndex }

end Raz.Oblink.ArchiveFile
