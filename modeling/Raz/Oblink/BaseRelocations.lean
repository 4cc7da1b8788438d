import Raz.Lib.Runs
import Raz.Oblink.Coff

/-!
# The base relocations of an image

Before the sections of an image are placed, the linker reserves a `.reloc` section for the base
relocations: twelve bytes for each absolute relocation. The sections that hold something are sorted
and get their addresses. The base relocations are known only then; they are written, page by page,
into the first section named `.reloc`.

The bytes of the output sections are those after the relocations have been applied: applying them
changes no length, and nothing before that point depends on anything else of the bytes.
-/

namespace Raz.Oblink.BaseRelocations

open Codec Coff

/-! ## Output sections -/

structure OutputSection where
  name : Text
  characteristics : UInt32
  data : List UInt8
  virtualSize : UInt32
  rva : UInt32
deriving DecidableEq, Repr

def text (literal : String) : Text := literal.toUTF8.data.toList

def alignUp (value alignment : UInt32) : UInt32 :=
  if alignment = 0 then value else (value + alignment - 1) / alignment * alignment

def priority : List Text :=
  [".text", ".rdata", ".data", ".bss", ".pdata", ".tls", ".idata", ".rsrc", ".reloc"].map text

/-- The place in the list of priorities; its length for other names. -/
def rank (name : Text) : Nat := priority.idxOf name

def comesBefore (a b : OutputSection) : Bool :=
  if rank a.name ≠ rank b.name then rank a.name < rank b.name else a.name < b.name

def isPresent (out : OutputSection) : Bool := !out.data.isEmpty || out.virtualSize != 0

/-- The sections that hold something, sorted, with their places before. -/
def order (outputs : List OutputSection) : List (OutputSection × Nat) :=
  (outputs.zipIdx.filter fun place => isPresent place.1).mergeSort
    fun a b => !comesBefore b.1 a.1

/-- What a section takes in the image. -/
def OutputSection.extent (out : OutputSection) : UInt32 :=
  max out.virtualSize (UInt32.ofNat out.data.length)

def assignRvas (alignment : UInt32) : UInt32 → List OutputSection → List OutputSection
  | _, [] => []
  | rva, out :: outs =>
    { out with rva } :: assignRvas alignment (alignUp (rva + out.extent) alignment) outs

/-! ## The reservation -/

def relocAmd64Addr64 : UInt16 := 1

def relocAmd64Addr32 : UInt16 := 2

/-- A relocation of a section that is placed. -/
structure PlacedRelocation where
  type : UInt16
  placeRva : UInt64
  targetIsAbsolute : Bool
deriving DecidableEq, Repr

def absoluteRelocationCount (relocations : List PlacedRelocation) : Nat :=
  relocations.countP fun relocation =>
    relocation.type == relocAmd64Addr64 || relocation.type == relocAmd64Addr32

def reservation (count : Nat) : OutputSection :=
  let reserve := UInt32.ofNat (count * 12)
  { name := text ".reloc"
    characteristics := 0x42000040
    data := List.replicate reserve.toNat 0
    virtualSize := reserve
    rva := 0 }

def reserve (outputs : List OutputSection) (relocations : List PlacedRelocation) :
    List OutputSection :=
  if absoluteRelocationCount relocations ≠ 0 then
    outputs ++ [reservation (absoluteRelocationCount relocations)]
  else outputs

/-! ## The payload -/

structure BaseRelocation where
  rva : UInt32
  type : UInt16
deriving DecidableEq, Repr

def imageRelBasedHighlow : UInt16 := 3

def imageRelBasedDir64 : UInt16 := 10

def baseRelocation (relocation : PlacedRelocation) : Option BaseRelocation :=
  if relocation.targetIsAbsolute then none
  else if relocation.type = relocAmd64Addr64 then
    some ⟨relocation.placeRva.toUInt32, imageRelBasedDir64⟩
  else if relocation.type = relocAmd64Addr32 then
    some ⟨relocation.placeRva.toUInt32, imageRelBasedHighlow⟩
  else none

def baseRelocations (relocations : List PlacedRelocation) : List BaseRelocation :=
  relocations.filterMap baseRelocation

def BaseRelocation.page (relocation : BaseRelocation) : UInt32 := relocation.rva &&& ~~~0xfff

def BaseRelocation.offset (relocation : BaseRelocation) : UInt32 := relocation.rva &&& 0xfff

/-- The page as a number. -/
def pageNumber (relocation : BaseRelocation) : Nat := relocation.page.toNat

def isLess (a b : BaseRelocation) : Bool :=
  if a.page ≠ b.page then a.page < b.page
  else if a.offset ≠ b.offset then a.offset < b.offset
  else a.type < b.type

def slot (relocation : BaseRelocation) : UInt16 :=
  relocation.type <<< 12 ||| relocation.offset.toUInt16

/-- The slots of a page behind its header, with one more up to a multiple of four bytes. -/
def blockBody (run : List BaseRelocation) : List UInt8 :=
  let slots := run.flatMap fun relocation => littleEndian 2 (slot relocation).toNat
  if slots.length % 4 = 0 then slots else slots ++ littleEndian 2 0

/-- A block; its size is filled in once it is complete. -/
def block (run : List BaseRelocation) : List UInt8 :=
  match run with
  | [] => []
  | first :: _ =>
    littleEndian 4 first.page.toNat ++ littleEndian 4 (8 + (blockBody run).length) ++ blockBody run

def payload (relocations : List BaseRelocation) : List UInt8 :=
  (Runs.runs pageNumber (relocations.mergeSort fun a b => !isLess b a)).flatMap block

/-- The address and the size of a directory. -/
structure Directory where
  rva : UInt32
  size : UInt32
deriving DecidableEq, Repr

def writeBaseRelocations (outputs : List OutputSection) (relocations : List BaseRelocation) :
    Except String (List OutputSection × Directory) :=
  if relocations = [] then .ok (outputs, ⟨0, 0⟩)
  else match outputs.findIdx? fun out => out.name == text ".reloc" with
    | none => .error "internal error: missing reserved .reloc section"
    | some found => match outputs[found]? with
      | none => .error "internal error: missing reserved .reloc section"
      | some out =>
        let data := payload relocations
        if out.virtualSize.toNat < data.length then
          .error "internal error: base-relocation reservation was too small"
        else .ok (outputs.set found { out with data }, ⟨out.rva, UInt32.ofNat data.length⟩)

/-- The sections of the image, in their order and with their addresses. -/
def placedOutputs (sectionAlignment : UInt32) (outputs : List OutputSection)
    (relocations : List PlacedRelocation) : List OutputSection :=
  assignRvas sectionAlignment sectionAlignment ((order (reserve outputs relocations)).map (·.1))

def link (sectionAlignment : UInt32) (outputs : List OutputSection)
    (relocations : List PlacedRelocation) : Except String (List OutputSection × Directory) :=
  let placed := placedOutputs sectionAlignment outputs relocations
  if placed = [] then .error "link produced no image sections"
  else writeBaseRelocations placed (baseRelocations relocations)

/-! ## What the loader reads -/

structure Block where
  page : UInt32
  size : Nat
  slots : List UInt16
deriving DecidableEq, Repr

def readSlots : List UInt8 → List UInt16
  | low :: high :: bytes => UInt16.ofNat (ofLittleEndian [low, high]) :: readSlots bytes
  | _ => []

/-- The blocks of a directory, up to its end. -/
def readBlocks : Nat → List UInt8 → Option (List Block)
  | _, [] => some []
  | 0, _ => none
  | fuel + 1, bytes =>
    let page := UInt32.ofNat (ofLittleEndian (bytes.take 4))
    let size := ofLittleEndian ((bytes.drop 4).take 4)
    if size < 8 ∨ bytes.length < size then none
    else (readBlocks fuel (bytes.drop size)).map
      (⟨page, size, readSlots ((bytes.take size).drop 8)⟩ :: ·)

/-- What a slot asks for; a slot of type zero is skipped. -/
def Block.entry (block : Block) (slot : UInt16) : Option BaseRelocation :=
  if slot >>> 12 = 0 then none
  else some ⟨block.page + (slot &&& 0xfff).toUInt32, slot >>> 12⟩

def Block.entries (block : Block) : List BaseRelocation := block.slots.filterMap block.entry

/-- A directory that says the relocations. -/
structure Describes (bytes : List UInt8) (relocations : List BaseRelocation)
    (blocks : List Block) : Prop where
  read : readBlocks bytes.length bytes = some blocks
  entries : (blocks.flatMap Block.entries).Perm relocations
  pages : blocks.Pairwise fun a b => a.page < b.page
  sizes : ∀ block ∈ blocks, 4 ∣ block.size
  padding : ∀ block ∈ blocks, ∀ slot ∈ block.slots, slot >>> 12 = 0 → slot = 0

/-- The reserved section has twelve bytes for each absolute relocation, the relocations are in it,
it is announced, and all else is as it was: the other sections, and the addresses of all of them. -/
def Publishes (sectionAlignment : UInt32) (outputs : List OutputSection)
    (relocations : List PlacedRelocation) : Prop :=
  let placed := placedOutputs sectionAlignment outputs relocations
  ∃ position reserved data blocks,
    (order (reserve outputs relocations))[position]?.map (·.2) = some outputs.length ∧
    placed[position]? = some reserved ∧
    reserved.virtualSize.toNat = 12 * absoluteRelocationCount relocations ∧
    link sectionAlignment outputs relocations = .ok (placed.set position { reserved with data },
      ⟨reserved.rva, UInt32.ofNat data.length⟩) ∧
    data.length < 2 ^ 32 ∧
    Describes data (baseRelocations relocations) blocks ∧
    assignRvas sectionAlignment sectionAlignment (placed.set position { reserved with data }) =
      placed.set position { reserved with data }

/-- Without base relocations no directory is announced. -/
def Announces (sectionAlignment : UInt32) (outputs : List OutputSection)
    (relocations : List PlacedRelocation) : Prop :=
  if baseRelocations relocations = [] then
    placedOutputs sectionAlignment outputs relocations ≠ [] →
      link sectionAlignment outputs relocations =
        .ok (placedOutputs sectionAlignment outputs relocations, ⟨0, 0⟩)
  else Publishes sectionAlignment outputs relocations

/-- The bytes of a block with so many entries. -/
def blockSize (entries : Nat) : Nat := 8 + 2 * (entries + entries % 2)

/-- No output section of the input objects is named `.reloc` and holds something, and the size of
the reservation fits into 32 bits. -/
def Reserves (outputs : List OutputSection) (relocations : List PlacedRelocation) : Prop :=
  (∀ out ∈ outputs, out.name = text ".reloc" → isPresent out = false) ∧
    12 * absoluteRelocationCount relocations < 2 ^ 32

end Raz.Oblink.BaseRelocations
