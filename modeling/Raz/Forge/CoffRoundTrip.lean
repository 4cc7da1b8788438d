import Raz.Forge.CoffFile
import Raz.Oblink.CoffReading

/-!
# Emitted objects read by the linker

What `emitCoff` writes, `Oblink.Coff.parse` reads: the sections of the image, its declarations and
its references, found again through the indices of their symbols.

The header of a section has sixteen bits for the number of its relocations, the header of the file
thirty-two for the number of symbols, and the string table as many for its own size. The writer
casts the three numbers; the reader has a record for more relocations, which the writer does not
write.

Result: `parse_emitCoff`: the reader agrees with the image exactly if the three numbers fit.
-/

namespace Raz.Forge.Coff

open Codec Outcome Placed List Oblink.Coff

variable {index count : Nat} {source : String} {e : Emission}

/-! ## What the reader gets -/

def Relocation.read (relocation : Relocation) : Oblink.Coff.Relocation :=
  ⟨relocation.offset, relocation.symbol, relocation.type⟩

def Section.read (section_ : Section) : Oblink.Coff.Section where
  name := section_.name.takeWhile (· != 0)
  data := section_.data
  characteristics := section_.characteristics
  relocations := section_.relocations.map Relocation.read

def Symbol.read (symbol : Symbol) : Oblink.Coff.Symbol where
  name := symbol.name
  value := symbol.value
  sectionNumber := signed 16 symbol.sectionNumber.toNat
  type := symbol.type
  storageClass := symbol.storageClass

/-- The relocation with the name of its symbol, if there is such a symbol. -/
def resolve (symbols : List Oblink.Coff.Symbol) (relocation : Oblink.Coff.Relocation) :
    Option Reference :=
  symbols[relocation.symbolIndex.toNat]?.map fun symbol =>
    ⟨relocation.virtualAddress.toNat, symbol.name, relocation.type⟩

def declarationOf (symbol : Oblink.Coff.Symbol) : Declaration where
  name := symbol.name
  value := symbol.value.toNat
  sectionNumber := symbol.sectionNumber
  storageClass := symbol.storageClass

/-- Names, characteristics and data of the sections. -/
def EncodedModuleImage.contents (image : EncodedModuleImage) :
    List (Text × UInt32 × List UInt8) :=
  [ (textName, sectionText, image.plan.code)
  , (rdataName, sectionRdata, image.readOnlyData)
  , (dataName, sectionData, image.writableData) ] ++
  if image.hasTlsSection then [(tlsName, sectionData, image.threadLocalData)] else []

/-- The object has what the image says. The order of the references is that of the sort. -/
structure EncodedModuleImage.Agrees (image : EncodedModuleImage) (object : Oblink.Coff.Object) :
    Prop where
  sections : object.sections.map (fun section_ =>
    (section_.name, section_.characteristics, section_.data)) = image.contents
  text : ∀ section_, object.sections.head? = some section_ →
    (section_.relocations.map (resolve object.symbols)).Perm (image.plan.references.map some)
  others : ∀ section_ ∈ object.sections.tail, section_.relocations = []
  symbols : object.symbols.map declarationOf = image.plan.declarations

/-- The numbers that the writer casts fit into their fields. -/
structure EncodedModuleImage.Fits (image : EncodedModuleImage) : Prop where
  references : image.plan.references.length < 2 ^ 16
  declarations : image.plan.declarations.length < 2 ^ 32
  names : namesSize (image.plan.declarations.map Declaration.name) + 4 < 2 ^ 32

/-- The names can be written as texts that end with a zero. -/
def EncodedModuleImage.Textual (image : EncodedModuleImage) : Prop :=
  ∀ declaration ∈ image.plan.declarations, declaration.name ≠ [] ∧ 0 ∉ declaration.name

/-! ## The file -/

/-- What stands in a file, and where. -/
structure Written (bytes : List UInt8) (placed : List PlacedSection) (offset : Nat)
    (symbols : List Symbol) : Prop where
  header : At bytes 0 (Oblink.Coff.fileHeader placed.length offset symbols.length)
  entries : ∀ index part, placed[index]? = some part →
    At bytes (20 + index * 40) (writeSectionHeader part)
  within : ∀ part ∈ placed, part.Within bytes ∧ part.section_.data.length < 2 ^ 32
  table : At bytes offset (writeSymbols symbols {}).1
  strings : At bytes (offset + symbols.length * 18)
    (littleEndian 4 ((writeSymbols symbols {}).2.bytes.length + 4) ++
      (writeSymbols symbols {}).2.bytes)
  sections : 20 + placed.length * 40 ≤ bytes.length

/-- The name of a section in its eight bytes, which is no number in the string table. -/
structure Section.Regular (section_ : Section) : Prop where
  length : section_.name.length = 8
  name : ∃ name zeros, section_.name = name ++ List.replicate zeros 0 ∧ 0 ∉ name ∧
    name.head? ≠ some 47
  initialized : section_.characteristics &&& 0x00000080 = 0
  comdat : section_.characteristics &&& 0x00001000 = 0
  counted : section_.characteristics &&& 0x01000000 = 0

theorem length_writeSectionHeader {placed : PlacedSection} (h : placed.section_.name.length = 8) :
    (writeSectionHeader placed).length = 40 := by
  unfold writeSectionHeader
  rw [length_append, h]
  simp [length_littleEndian]

theorem length_headers {placed : List PlacedSection}
    (h : ∀ part ∈ placed, part.section_.name.length = 8) :
    (placed.flatMap writeSectionHeader).length = placed.length * 40 := by
  induction placed with
  | nil => rfl
  | cons first placed ih =>
    rw [flatMap_cons, length_append, ih fun part hpart =>
      h part (mem_cons_of_mem _ hpart),
      length_writeSectionHeader (h first mem_cons_self), length_cons, Nat.succ_mul,
      Nat.add_comm]

theorem writeFile_written {sections : List Section} {placed : List PlacedSection} {offset : Nat}
    (symbols : List Symbol) (hregular : ∀ section_ ∈ sections, section_.Regular)
    (h : placeAll (20 + sections.length * 40) sections = .ok (placed, offset))
    (hoff : offset < 2 ^ 32) :
    placed.map PlacedSection.section_ = sections ∧
      Written (writeFile placed offset symbols) placed offset symbols := by
  have hsecs := placeAll_sections h
  have hlengths : ∀ part ∈ placed, part.section_.name.length = 8 := fun part hpart =>
    (hregular _ (hsecs ▸ mem_map_of_mem hpart)).length
  have hcount : sections.length = placed.length := hsecs ▸ length_map _
  -- the headers, the sections behind them, the symbols, the names
  let headers := writeHeader placed.length offset symbols.length ++
    placed.flatMap writeSectionHeader
  have hheaders : headers.length = 20 + sections.length * 40 := by
    rw [length_append, length_headers hlengths, hcount]
    rfl
  obtain ⟨hwithin, hbody, more, hmore⟩ := placeAll_at h hheaders (by omega)
  have hbytes : writeFile placed offset symbols =
      placed.foldl writeSection headers ++ (writeSymbols symbols {}).1 ++
        (littleEndian 4 ((writeSymbols symbols {}).2.bytes.length + 4) ++
          (writeSymbols symbols {}).2.bytes) := rfl
  have hfront : At (writeFile placed offset symbols) 0 headers := by
    rw [hbytes, hmore, append_assoc, append_assoc]
    exact (At.whole headers).append _
  have hsyms : (writeSymbols symbols {}).1.length = symbols.length * 18 := writeSymbols_at.1
  refine ⟨hsecs, ?_⟩
  constructor
  · exact hfront.left
  · intro index part hpart
    have hentries : At (writeFile placed offset symbols) 20
        (placed.flatMap writeSectionHeader) := hfront.skip rfl
    exact At.item (fun other hother => length_writeSectionHeader (hlengths other hother)) hentries
      hpart
  · intro part hpart
    have hpartWithin := hwithin part hpart
    have hle := hpartWithin.data.le
    rw [hbody] at hle
    refine ⟨?_, Nat.lt_of_le_of_lt ((Nat.le_add_left _ _).trans hle) hoff⟩
    rw [hbytes, append_assoc]
    exact hpartWithin.append _
  · rw [hbytes, ← hbody]
    exact (At.of_append _ _).append _
  · rw [hbytes, ← hbody, ← hsyms, ← length_append]
    exact At.of_append _ _
  · have hle := hfront.le
    rwa [Nat.zero_add, hheaders, hcount] at hle

/-! ## Sections, symbols and names -/

theorem parseSection_written {bytes : List UInt8} {header : Oblink.Coff.Header}
    {stringSize entry : Nat} {part : PlacedSection} (hregular : part.section_.Regular)
    (hentry : At bytes entry (writeSectionHeader part)) (hwithin : part.Within bytes)
    (hlt : part.section_.data.length < 2 ^ 32)
    (hcount : part.section_.relocations.length < 2 ^ 16) :
    Oblink.Coff.parseSection bytes header stringSize entry = .ok part.section_.read := by
  obtain ⟨name, zeros, hname, hzero, hslash⟩ := hregular.name
  have hlen := hregular.length
  rw [hname, length_append, length_replicate] at hlen
  have hrelocs : (part.section_.relocations.map Relocation.read).flatMap
      Oblink.Coff.Relocation.encoded = part.section_.relocations.flatMap writeRelocation :=
    flatMap_map ..
  have hentry' : At bytes entry (sectionEntry (name ++ List.replicate zeros 0)
      part.section_.data.length part.rawOffset part.relocationOffset
      (part.section_.relocations.map Relocation.read).length part.section_.characteristics) := by
    rw [length_map, ← hname]
    exact hentry
  rw [parseSection_at hentry' hlen hzero hslash hwithin.data hlt hwithin.offset
    (fun hne => hrelocs ▸ hwithin.relocations fun hnil => hne (hnil ▸ rfl))
    (by rwa [length_map]) hregular.initialized hregular.counted]
  unfold Section.read
  rw [hname, takeWhile_padded hzero]

theorem symbolName_written {bytes field table : List UInt8} {entry strings : Nat} {name : Text}
    (hentry : At bytes entry field)
    (hstrs : At bytes strings (littleEndian 4 (table.length + 4) ++ table))
    (hnamed : Named field table name) (hne : name ≠ []) (hzero : 0 ∉ name) :
    Oblink.Coff.symbolName bytes entry strings (table.length + 4) = .ok name := by
  rcases hnamed with ⟨hshort, rfl⟩ | ⟨offset, hlt, hat, rfl⟩
  · exact symbolName_short hentry (Nat.add_sub_cancel' hshort) hzero hne
  rw [symbolName_long hentry hlt]
  have hplace : At bytes (strings + (offset + 4)) (name ++ [0]) := by
    rw [Nat.add_comm offset, ← Nat.add_assoc]
    exact (hstrs.skip (length_littleEndian 4 _)).trans hat
  have hle := hat.le
  rw [length_append, length_singleton] at hle
  exact tableString_at hplace hzero (Nat.le_add_left 4 offset) (by omega)

/-- The header that the reader gets. -/
def objectHeader (sectionCount symbolOffset symbolCount : Nat) : Oblink.Coff.Header where
  bigobj := false
  sectionCount := sectionCount
  symbolOffset := symbolOffset
  symbolCount := symbolCount
  sectionTable := 20
  symbolSize := 18

section
variable {bytes : List UInt8} {placed : List PlacedSection} {offset : Nat} {symbols : List Symbol}

section

variable (h : Written bytes placed offset symbols)

include h

/-- Each symbol has its own entry, and only its name can be in the way of reading it. -/
theorem Written.symbolAt (stringSize : Nat) {symbol : Symbol}
    (hsym : symbols[index]? = some symbol) :
    Oblink.Coff.symbolAt bytes (objectHeader placed.length offset symbols.length) stringSize index =
      (fun name => { symbol.read with name }) <$>
        Oblink.Coff.symbolName bytes (offset + index * 18) (offset + symbols.length * 18)
          stringSize := by
  have hfields := h.table.trans (writeSymbols_at.2 index symbol hsym)
  rw [← Nat.add_assoc] at hfields
  exact parseSymbol_at rfl hfields

theorem Written.plain {stringSize : Nat} {symbol : Oblink.Coff.Symbol}
    (hlt : index < symbols.length) (hsym : Oblink.Coff.symbolAt bytes (objectHeader placed.length
    offset symbols.length) stringSize index = .ok symbol) :
    symbol.auxiliaryCount = 0 := by
  rw [h.symbolAt stringSize (List.getElem?_eq_getElem hlt)] at hsym
  cases hname : symbolName bytes (offset + index * 18)
    (offset + symbols.length * 18) stringSize with
  | error message =>
    rw [hname] at hsym
    cases hsym
  | ok name =>
    rw [hname] at hsym
    cases hsym
    rfl

theorem Written.parseHeader (hplaced : placed.length < 2 ^ 16) (hoff : offset < 2 ^ 32)
    (hsyms : symbols.length < 2 ^ 32) :
    Oblink.Coff.parseHeader bytes = .ok (objectHeader placed.length offset symbols.length) :=
  parseHeader_at h.header hplaced hoff hsyms

theorem Written.parseSymbols (stringSize : Nat) (source : String)
    (sections : List Oblink.Coff.Section) :
    Oblink.Coff.parseSymbols bytes (objectHeader placed.length offset symbols.length) stringSize
        symbols.length 0 { source, sections, symbols := List.replicate symbols.length {} } =
      (fun parsed => { source, sections, symbols := parsed }) <$>
        (List.range symbols.length).mapM (Oblink.Coff.symbolAt bytes
          (objectHeader placed.length offset symbols.length) stringSize) := by
  rw [range_eq_range']
  exact parseSymbols_plain (fun _ _ hlt => h.plain hlt) symbols.length 0
    { source, sections, symbols := List.replicate symbols.length {} } [] rfl rfl (Nat.zero_add _)

theorem parse_written (hplaced : placed.length < 2 ^ 16) (hoff : offset < 2 ^ 32)
    (hsyms : symbols.length < 2 ^ 32) (hregular : ∀ part ∈ placed, part.section_.Regular)
    (hcount : ∀ part ∈ placed, part.section_.relocations.length < 2 ^ 16)
    (hdist : (symbols.map Symbol.name).Nodup)
    (htextual : ∀ symbol ∈ symbols, symbol.name ≠ [] ∧ 0 ∉ symbol.name)
    (hnames : namesSize (symbols.map Symbol.name) + 4 < 2 ^ 32) (source : String) :
    Oblink.Coff.parse bytes source = .ok {
      source
      sections := placed.map fun part => part.section_.read
      symbols := symbols.map Symbol.read } := by
  -- the string table has all names
  have hroom : ({} : StringTable).bytes.length + 4 + namesSize (symbols.map Symbol.name) <
      2 ^ 32 := by
    rwa [Nat.add_comm _ (namesSize _)]
  obtain ⟨⟨more, hmore, hmoreSize⟩, hnamed⟩ := writeSymbols_names hdist
    (fun _ _ => not_mem_nil) hroom
  have htable : (writeSymbols symbols {}).2.bytes.length + 4 < 2 ^ 32 := by
    rw [hmore, length_append, hmoreSize]
    omega
  have hsize : (objectHeader placed.length offset symbols.length).stringSize bytes =
      .ok ((writeSymbols symbols {}).2.bytes.length + 4) :=
    stringSize_at h.sections h.strings htable (Nat.le_add_left 4 _)
      le_rfl
  have hparsedSections : (List.range placed.length).mapM (fun index =>
      parseSection bytes (objectHeader placed.length offset symbols.length)
        ((writeSymbols symbols {}).2.bytes.length + 4) (20 + index * 40)) =
      .ok (placed.map fun part => part.section_.read) := by
    rw [← length_map (fun part : PlacedSection => part.section_.read)]
    refine mapM_range_ok fun index section_ hsec => ?_
    rw [List.getElem?_map] at hsec
    obtain ⟨part, hpart, rfl⟩ := Option.map_eq_some_iff.mp hsec
    have hmem := mem_of_getElem? hpart
    obtain ⟨hwithin, hlt⟩ := h.within part hmem
    exact parseSection_written (hregular part hmem) (h.entries index part hpart) hwithin hlt
      (hcount part hmem)
  have hparsedSymbols : (List.range symbols.length).mapM (symbolAt bytes
      (objectHeader placed.length offset symbols.length)
      ((writeSymbols symbols {}).2.bytes.length + 4)) = .ok (symbols.map Symbol.read) := by
    rw [← length_map Symbol.read]
    refine mapM_range_ok fun index symbol hsym => ?_
    rw [List.getElem?_map] at hsym
    obtain ⟨written, hwrote, rfl⟩ := Option.map_eq_some_iff.mp hsym
    obtain ⟨hne, hzero⟩ := htextual written (mem_of_getElem? hwrote)
    obtain ⟨field, hfield, hfieldNamed⟩ := hnamed index written hwrote
    rw [length_map, h.symbolAt _ hwrote,
      symbolName_written (h.table.trans hfield) h.strings hfieldNamed hne hzero]
    rfl
  have hleaders (indices : List Nat) : indices.foldl (leadComdat (symbols.map Symbol.read))
        (placed.map fun part => part.section_.read) =
      placed.map fun part => part.section_.read := by
    have hplain : ∀ section_ ∈ placed.map (fun part : PlacedSection => part.section_.read),
        section_.isComdat = false := by
      intro section_ hmem
      obtain ⟨part, hpart, rfl⟩ := mem_map.mp hmem
      have hflag := (hregular part hpart).comdat
      unfold Oblink.Coff.Section.isComdat Section.read
      rw [hflag]
      rfl
    induction indices with
    | nil => rfl
    | cons index indices ih => rw [foldl_cons, leadComdat_plain hplain, ih]
  unfold parse
  rw [h.parseHeader hplaced hoff hsyms]
  change ((objectHeader placed.length offset symbols.length).stringSize bytes >>= _) = _
  rw [hsize]
  change ((List.range placed.length).mapM (fun index =>
    parseSection bytes (objectHeader placed.length offset symbols.length)
      ((writeSymbols symbols {}).2.bytes.length + 4) (20 + index * 40)) >>= _) = _
  rw [hparsedSections]
  change (parseSymbols bytes (objectHeader placed.length offset symbols.length)
    ((writeSymbols symbols {}).2.bytes.length + 4) symbols.length 0 {
      source, sections := placed.map fun part => part.section_.read
      symbols := List.replicate symbols.length {} } >>= _) = _
  rw [h.parseSymbols, hparsedSymbols]
  change Except.ok _ = Except.ok _
  rw [hleaders]

/-- A string table that is too long is not read: a name in it has no end. -/
theorem not_parse_written (hplaced : placed.length < 2 ^ 16) (hoff : offset < 2 ^ 32)
    (hsyms : symbols.length < 2 ^ 32) (hdist : (symbols.map Symbol.name).Nodup)
    (htextual : ∀ symbol ∈ symbols, 0 ∉ symbol.name)
    (hnames : 2 ^ 32 ≤ namesSize (symbols.map Symbol.name) + 4) {object : Oblink.Coff.Object} :
    Oblink.Coff.parse bytes source ≠ .ok object := by
  have hfull : 2 ^ 32 ≤ ({} : StringTable).bytes.length + 4 +
      namesSize (symbols.map Symbol.name) := by
    rwa [Nat.add_comm _ (namesSize _)]
  obtain ⟨hbehind, index, symbol, place, hsym, hplace, hfield, hname, hend⟩ :=
    writeSymbols_full hdist (fun _ _ => not_mem_nil) (by decide) hfull
  obtain ⟨hlt, _⟩ := List.getElem?_eq_some_iff.mp hsym
  intro hparse
  unfold parse at hparse
  rw [h.parseHeader hplaced hoff hsyms] at hparse
  obtain ⟨_, hheader, hparse⟩ := bind_ok hparse
  cases hheader
  obtain ⟨size, hsize, hparse⟩ := bind_ok hparse
  obtain ⟨sections, _, hparse⟩ := bind_ok hparse
  obtain ⟨parsed, hparsed, _⟩ := bind_ok hparse
  -- the symbol with that name has been read
  have hread : ∃ symbol, symbolAt bytes
      (objectHeader placed.length offset symbols.length) size index = .ok symbol := by
    have hmap := (h.parseSymbols size source sections).symm.trans hparsed
    obtain ⟨_, hmap, _⟩ := bind_ok ((bind_pure_comp ..).trans hmap)
    exact mapM_ok hmap index (List.mem_range.mpr hlt)
  obtain ⟨read, hread⟩ := hread
  -- but the table, as long as its header says, ends inside of the name
  have hcut : size ≤ place + 4 + symbol.name.length := by
    have hval : size = ((writeSymbols symbols {}).2.bytes.length + 4) % 2 ^ 32 :=
      (stringSize_value h.strings.left).value hsize
    rw [hval, hend]
    omega
  have hnameAt : At bytes (offset + symbols.length * 18 + (place + 4)) symbol.name := by
    rw [Nat.add_comm place, ← Nat.add_assoc]
    exact (h.strings.skip (length_littleEndian 4 _)).trans hname
  obtain ⟨message, hmessage⟩ := tableString_cut hnameAt
    (htextual symbol (mem_of_getElem? hsym)) hcut
  rw [h.symbolAt size hsym, symbolName_long (h.table.trans hfield) hplace, hmessage] at hread
  cases hread

end

end

/-! ## Emitted objects -/

theorem regular_padded {section_ : Section} (name : Text) (characteristics : UInt32)
    (hname : section_.name = shortName name)
    (hcharacteristics : section_.characteristics = characteristics)
    (hlen : name.length ≤ 8) (hzero : 0 ∉ name) (hslash : name.head? ≠ some 47)
    (hflags : characteristics &&& 0x00000080 = 0 ∧ characteristics &&& 0x00001000 = 0 ∧
      characteristics &&& 0x01000000 = 0) : section_.Regular := by
  subst hcharacteristics
  have hpadded : section_.name = name ++ List.replicate (8 - name.length) 0 := by
    rw [hname, shortName, take_append, take_of_length_le hlen, take_replicate,
      Nat.min_eq_left (Nat.sub_le 8 _)]
  refine ⟨?_, ⟨name, _, hpadded, hzero, hslash⟩, hflags.1, hflags.2.1, hflags.2.2⟩
  rw [hpadded, length_append, length_replicate, Nat.add_sub_cancel' hlen]

section
variable {image : EncodedModuleImage}

theorem sections_regular (e : Emission) :
    ∀ section_ ∈ image.sections e, section_.Regular := by
  unfold EncodedModuleImage.sections
  intro section_ hmem
  rcases mem_append.mp hmem with hmem | hmem
  · rcases mem_cons.mp hmem with rfl | hmem
    · exact regular_padded textName sectionText rfl rfl (by decide) (by decide)
        (by decide) (by decide)
    rcases mem_cons.mp hmem with rfl | hmem
    · exact regular_padded rdataName sectionRdata rfl rfl (by decide) (by decide)
        (by decide) (by decide)
    · obtain rfl := mem_singleton.mp hmem
      exact regular_padded dataName sectionData rfl rfl (by decide) (by decide)
        (by decide) (by decide)
  · split at hmem
    · obtain rfl := mem_singleton.mp hmem
      exact regular_padded tlsName sectionData rfl rfl (by decide) (by decide)
        (by decide) (by decide)
    · cases hmem

theorem length_sections (e : Emission) : (image.sections e).length ≤ 4 := by
  unfold EncodedModuleImage.sections
  split
  · exact le_rfl
  · exact Nat.le_succ 3

theorem EncodedModuleImage.sections_relocations (image : EncodedModuleImage) (e : Emission) :
    ∃ text others, image.sections e = text :: others ∧ text.relocations = e.relocations ∧
      ∀ section_ ∈ others, section_.relocations = [] := by
  unfold EncodedModuleImage.sections
  refine ⟨_, _, rfl, rfl, fun section_ hmem => ?_⟩
  rcases mem_cons.mp hmem with rfl | hmem
  · rfl
  rcases mem_cons.mp hmem with rfl | hmem
  · rfl
  split at hmem
  · obtain rfl := mem_singleton.mp hmem
    rfl
  · cases hmem

theorem sections_contents (hcode : e.code = image.plan.code) :
    (image.sections e).map (fun section_ => (section_.read.name, section_.read.characteristics,
      section_.read.data)) = image.contents := by
  unfold EncodedModuleImage.sections EncodedModuleImage.contents
  rw [hcode]
  split <;> rfl

theorem emitCoff_written {sort : List Relocation → List Relocation} {object : CoffObject}
    (h : emitCoff sort image = .ok object) :
    ∃ e placed offset, Realizes e image.plan ∧
      placed.map PlacedSection.section_ =
        image.sections { e with relocations := sort e.relocations } ∧
      offset < 2 ^ 32 ∧ placed.length < 2 ^ 16 ∧
      Written object.bytes placed offset e.symbols := by
  unfold emitCoff at h
  obtain ⟨e, hprepare, h⟩ := bind_ok h
  obtain ⟨⟨placed, cursor⟩, hplaced, h⟩ := bind_ok h
  dsimp only at h
  split at h
  · cases h
  rename_i offset hoff
  cases h
  have hcur := toNat_of_checkedU32 hoff
  have hlt : offset.toNat < 2 ^ 32 := offset.toNat_lt
  rw [← hcur] at hplaced
  obtain ⟨hsecs, hwrote⟩ := writeFile_written e.symbols (sections_regular _) hplaced hlt
  refine ⟨e, placed, offset.toNat, prepare_realizes hprepare, hsecs, hlt, ?_, hwrote⟩
  rw [← length_map PlacedSection.section_, hsecs]
  exact Nat.lt_of_le_of_lt (length_sections _) (by decide)

theorem emitCoff_ok (h : prepare image = .ok e)
    (hext : extent (20 + (image.sections e).length * 40) (image.sections e) ≤ 0xffffffff) :
    ∃ object, emitCoff id image = .ok object := by
  obtain ⟨placed, hplaced⟩ := placeAll_ok hext
  unfold emitCoff
  rw [h]
  change ∃ object, (placeAll (20 + (image.sections e).length * 40) (image.sections e) >>= _) =
    .ok object
  rw [hplaced]
  dsimp only [bind, Except.bind]
  rw [checkedU32_of_le hext]
  exact ⟨_, rfl⟩

theorem resolve_read {symbols : List Symbol} {relocation : Relocation} {reference : Reference}
    (hlt : symbols.length < 2 ^ 32) (h : Refers symbols relocation reference) :
    resolve (symbols.map Symbol.read) relocation.read = some reference := by
  obtain ⟨hoff, ⟨index, found, hidx, hfound, hname⟩, htype⟩ := h
  obtain ⟨hinside, _⟩ := List.getElem?_eq_some_iff.mp hfound
  have hnum : relocation.read.symbolIndex.toNat = index := by
    change relocation.symbol.toNat = index
    rw [hidx]
    exact Nat.mod_eq_of_lt (Nat.lt_trans hinside hlt)
  unfold resolve
  rw [hnum, List.getElem?_map, hfound]
  change some (Reference.mk relocation.offset.toNat found.name relocation.type) = some reference
  rw [hoff, hname, htype]

theorem resolve_all {symbols : List Symbol} {relocations : List Relocation}
    {references : List Reference} (hlt : symbols.length < 2 ^ 32)
    (h : List.Forall₂ (Refers symbols) relocations references) :
    relocations.map (fun relocation => resolve (symbols.map Symbol.read) relocation.read) =
      references.map some := by
  induction h with
  | nil => rfl
  | cons hrefers _ ih => rw [map_cons, map_cons, resolve_read hlt hrefers, ih]

/-- What the image says is what the sections and the symbols of its emission say. -/
theorem agrees_read (h : Realizes e image.plan) {relocations : List Relocation}
    (hsort : relocations.Perm e.relocations) (hlt : e.symbols.length < 2 ^ 32) :
    image.Agrees {
      source
      sections := (image.sections { e with relocations }).map Section.read
      symbols := e.symbols.map Symbol.read } := by
  obtain ⟨text, others, hsecs, htext, hothers⟩ :=
    image.sections_relocations { e with relocations }
  constructor
  · rw [map_map]
    exact sections_contents h.code
  · intro section_ hhead
    rw [hsecs] at hhead
    cases hhead
    have hread : text.read.relocations = relocations.map Relocation.read := congrArg _ htext
    rw [hread, map_map, ← resolve_all hlt h.references]
    exact hsort.map _
  · intro section_ hmem
    rw [hsecs] at hmem
    obtain ⟨other, hother, rfl⟩ := mem_map.mp hmem
    exact congrArg (List.map Relocation.read) (hothers other hother)
  · rw [map_map]
    exact h.declarations

/-- The reader has no more relocations in the code than the header counts. -/
theorem references_lt {bytes : List UInt8} {parsed : Oblink.Coff.Object}
    (hparse : Oblink.Coff.parse bytes source = .ok parsed) (h : image.Agrees parsed) :
    image.plan.references.length < 2 ^ 16 := by
  have hcounted := ((parse_limited bytes source).value hparse).1
  cases hsecs : parsed.sections with
  | nil =>
    have hempty := h.sections
    rw [hsecs] at hempty
    cases hempty
  | cons text others =>
    have hcontents := h.sections
    rw [hsecs] at hcontents
    have hflags : text.characteristics = sectionText :=
      congrArg (fun contents => contents.2.1) (List.cons.inj hcontents).1
    have hlen := (h.text text (congrArg List.head? hsecs)).length_eq
    rw [length_map, length_map] at hlen
    rw [← hlen]
    refine (hcounted text (hsecs ▸ mem_cons_self)).resolve_right fun hoverflow => ?_
    rw [hflags] at hoverflow
    exact hoverflow rfl

/-- The object that the linker reads agrees with the image exactly if its relocations, its symbols
and its names fit into their fields. -/
theorem parse_emitCoff (sort : List Relocation → List Relocation)
    (hsort : ∀ relocations, (sort relocations).Perm relocations) (image : EncodedModuleImage)
    (htextual : image.Textual) (object : CoffObject) (h : emitCoff sort image = .ok object)
    (source : String) :
    (∃ parsed, Oblink.Coff.parse object.bytes source = .ok parsed ∧ image.Agrees parsed) ↔
      image.Fits := by
  obtain ⟨e, placed, offset, hplan, hsecs, hoff, hplaced, hwrote⟩ := emitCoff_written h
  have hcount : e.symbols.length = image.plan.declarations.length := by
    rw [← hplan.declarations, length_map]
  have hnames : e.symbols.map Symbol.name = image.plan.declarations.map Declaration.name :=
    hplan.names
  have htexts : ∀ symbol ∈ e.symbols, symbol.name ≠ [] ∧ 0 ∉ symbol.name := fun symbol hsym =>
    htextual symbol.declaration (hplan.declarations ▸ mem_map_of_mem hsym)
  constructor
  · rintro ⟨parsed, hparse, hagrees⟩
    have hsyms : image.plan.declarations.length < 2 ^ 32 := by
      have hlimit := ((parse_limited object.bytes source).value hparse).2
      rwa [← hagrees.symbols, length_map]
    refine ⟨references_lt hparse hagrees, hsyms, Nat.not_le.mp fun hfull => ?_⟩
    exact not_parse_written hwrote hplaced hoff (hcount ▸ hsyms) hplan.distinct
      (fun symbol hsym => (htexts symbol hsym).2) (hnames ▸ hfull) hparse
  · intro hfits
    have hsyms : e.symbols.length < 2 ^ 32 := hcount ▸ hfits.declarations
    have hmem {part : PlacedSection} (hpart : part ∈ placed) :
        part.section_ ∈ image.sections { e with relocations := sort e.relocations } :=
      hsecs ▸ mem_map_of_mem hpart
    have hrelocs : ∀ part ∈ placed, part.section_.relocations.length < 2 ^ 16 := by
      intro part hpart
      obtain ⟨text, others, heq, htext, hothers⟩ := image.sections_relocations
        { e with relocations := sort e.relocations }
      rcases mem_cons.mp (heq ▸ hmem hpart) with rfl | hother
      · rw [htext, (hsort _).length_eq, hplan.references.length_eq]
        exact hfits.references
      · rw [hothers _ hother]
        decide
    have hparse := parse_written hwrote hplaced hoff hsyms
      (fun part hpart => sections_regular _ _ (hmem hpart)) hrelocs hplan.distinct htexts
      (hnames ▸ hfits.names) source
    have hread : placed.map (fun part => part.section_.read) =
        (image.sections { e with relocations := sort e.relocations }).map Section.read := by
      rw [← hsecs, map_map]
      rfl
    rw [hread] at hparse
    exact ⟨_, hparse, agrees_read hplan (hsort _) hsyms⟩

end

/-- A function that calls another one and uses a global and a thread-local of its own. -/
def smallImage : EncodedModuleImage where
  code := List.replicate 64 0x90
  writableData := [1, 0, 0, 0]
  threadLocalData := [2, 0, 0, 0]
  entries := [([109, 97, 105, 110], 0)]
  globals := [
    { name := [103], dataSection := .writable, dataOffset := 0, isInternal := true },
    { name := [116], dataSection := .tls, dataOffset := 0 }]
  globalRelocations := [⟨16, .writable, 0⟩]
  tlsRelocations := [⟨28, .tls, 0⟩]
  externals := [⟨[112, 114, 105, 110, 116, 95, 108, 105, 110, 101], 2⟩]

theorem parse_emitCoff_small :
    ∃ object, emitCoff id smallImage = .ok object ∧ ∃ parsed,
      Oblink.Coff.parse object.bytes "main.obj" = .ok parsed ∧ smallImage.Agrees parsed := by
  have hprepare : ∃ e, prepare smallImage = .ok e ∧
      extent (20 + (smallImage.sections e).length * 40) (smallImage.sections e) ≤ 0xffffffff :=
    ⟨_, rfl, by decide⟩
  obtain ⟨e, hprepare, hext⟩ := hprepare
  obtain ⟨object, hobject⟩ := emitCoff_ok hprepare hext
  have htextual : smallImage.Textual := by
    unfold EncodedModuleImage.Textual
    decide
  refine ⟨object, hobject, (parse_emitCoff id (fun _ => List.Perm.refl _) smallImage htextual
    object hobject "main.obj").mpr ⟨?_, ?_, ?_⟩⟩
  · decide
  · decide
  · decide

/-! ## More relocations than the header counts -/

theorem overwrite_at {code part : List UInt8} {start : Nat} (h : At code start part) :
    overwrite code start part = code := by
  obtain ⟨front, back, rfl, rfl⟩ := h
  unfold overwrite
  rw [take_left, ← drop_drop, drop_left, drop_left, append_assoc]

theorem addExternal_jump {start : Nat} (name : Text) (h : At e.code start thunkCode)
    (hlt : start + 1 ≤ 0xffffffff) :
    addExternal e ⟨name, start + 2⟩ = .ok { (requireExternal e name).2 with
      relocations := (requireExternal e name).2.relocations ++
        [⟨UInt32.ofNat (start + 1), (requireExternal e name).1, relocRel32⟩] } := by
  have hle : start + 12 ≤ e.code.length := h.le
  have hcode : { e with code := overwrite e.code start thunkCode } = e := by
    rw [overwrite_at h]
  unfold addExternal
  rw [if_neg (by change ¬ (start + 2 < 2 ∨ e.code.length ≤ start + 2 + 9); omega)]
  rw [Nat.add_sub_cancel]
  dsimp only
  rw [hcode]
  unfold pushRelocation
  rw [checkedU32_of_le hlt]
  rfl

/-- So many jumps to a function of another object. -/
def jumps (count : Nat) : EncodedModuleImage where
  code := (List.range count).flatMap fun _ => thunkCode
  externals := (List.range count).map fun index => ⟨[102], index * 12 + 2⟩

def jumpsEmission (count : Nat) (indices : List Nat) : Emission where
  code := (jumps count).code
  symbols := [⟨[102], 0, 0, 0, storageExternal⟩]
  relocations := indices.map fun index => ⟨UInt32.ofNat (index * 12 + 1), 0, relocRel32⟩

theorem jumps_at (h : index < count) : At (jumps count).code (index * 12) thunkCode := by
  have hwhole : At (jumps count).code 0 ((List.range count).flatMap fun _ => thunkCode) :=
    At.whole _
  have hitem : At (jumps count).code (0 + index * 12) thunkCode :=
    At.item (fun _ _ => rfl) hwhole (List.getElem?_range h)
  rwa [Nat.zero_add] at hitem

theorem jumps_step (indices : List Nat) (h : index < count) (hlt : index * 12 + 1 ≤ 0xffffffff) :
    addExternal (jumpsEmission count indices) ⟨[102], index * 12 + 2⟩ =
      .ok (jumpsEmission count (indices ++ [index])) := by
  rw [addExternal_jump [102] (jumps_at h) hlt]
  unfold jumpsEmission
  rw [map_append]
  rfl

theorem jumps_run (hcount : count * 12 ≤ 0xffffffff) :
    ∀ (indices before : List Nat), (∀ index ∈ indices, index < count) →
      (indices.map fun index => (⟨[102], index * 12 + 2⟩ : ExternalRelocation)).foldlM addExternal
        (jumpsEmission count before) = .ok (jumpsEmission count (before ++ indices)) := by
  intro indices
  induction indices with
  | nil =>
    intro before _
    rw [append_nil]
    rfl
  | cons index indices ih =>
    intro before h
    have hidx := h index mem_cons_self
    rw [map_cons, foldlM_cons, jumps_step before hidx (by omega)]
    change (indices.map _).foldlM addExternal (jumpsEmission count (before ++ [index])) = _
    rw [ih (before ++ [index]) fun other hother => h other (mem_cons_of_mem _ hother), append_assoc]
    rfl

theorem prepare_jumps (count : Nat) (hcount : (count + 1) * 12 ≤ 0xffffffff) :
    prepare (jumps (count + 1)) =
      .ok (jumpsEmission (count + 1) (List.range (count + 1))) := by
  have hfirst : addExternal { code := (jumps (count + 1)).code, symbols := [] } ⟨[102], 0 + 2⟩ =
      .ok (jumpsEmission (count + 1) [0]) :=
    addExternal_jump [102] (jumps_at (Nat.succ_pos count)) (by decide)
  have hrest := jumps_run hcount ((List.range count).map Nat.succ) [0] fun index hidx => by
    obtain ⟨other, hother, rfl⟩ := mem_map.mp hidx
    exact Nat.succ_lt_succ (List.mem_range.mp hother)
  have hexternals : (jumps (count + 1)).externals.foldlM addExternal
      { code := (jumps (count + 1)).code, symbols := [] } =
      .ok (jumpsEmission (count + 1) (List.range (count + 1))) := by
    change ((List.range (count + 1)).map _).foldlM addExternal _ = _
    rw [range_succ_eq_map, map_cons, foldlM_cons]
    change (addExternal _ ⟨[102], 0 + 2⟩ >>= _) = _
    rw [hfirst]
    exact hrest
  unfold prepare
  change ((jumps (count + 1)).externals.foldlM addExternal
    { code := (jumps (count + 1)).code, symbols := [] } >>= _) = _
  rw [hexternals]
  rfl

theorem length_jumpsEmission (count : Nat) (indices : List Nat) :
    (jumpsEmission count indices).relocations.length = indices.length := length_map _

theorem extent_jumps (count : Nat) (indices : List Nat) :
    extent (20 + ((jumps count).sections (jumpsEmission count indices)).length * 40)
        ((jumps count).sections (jumpsEmission count indices)) =
      alignCursor (alignCursor (alignCursor 140 + count * 12 + indices.length * 10)) := by
  have hcode : (jumpsEmission count indices).code.length = count * 12 := by
    change ((List.range count).flatMap fun _ => thunkCode).length = _
    rw [length_flatMap, map_const', sum_replicate_nat, List.length_range]
    rfl
  change alignCursor (alignCursor (alignCursor 140 + (jumpsEmission count indices).code.length +
    (jumpsEmission count indices).relocations.length * 10)) = _
  rw [hcode, length_jumpsEmission]

theorem jumps_textual {indices : List Nat}
    (h : Realizes (jumpsEmission count indices) (jumps count).plan) : (jumps count).Textual := by
  intro declaration hmem
  rw [← h.declarations] at hmem
  obtain rfl := mem_singleton.mp hmem
  exact ⟨cons_ne_nil _ _, by decide⟩

/-- With 65536 calls of functions of other objects the count in the header of the code is zero. -/
theorem not_agrees_jumps :
    ¬ ∀ (sort : List Relocation → List Relocation),
      (∀ relocations, (sort relocations).Perm relocations) →
      ∀ image : EncodedModuleImage, image.Textual →
      ∀ object, emitCoff sort image = .ok object → ∀ source,
        ∃ parsed, Oblink.Coff.parse object.bytes source = .ok parsed ∧ image.Agrees parsed := by
  intro hclaim
  have hprepare := prepare_jumps 65535 (by decide)
  have hplan := prepare_realizes hprepare
  obtain ⟨object, hobject⟩ := emitCoff_ok hprepare (by
    rw [extent_jumps, List.length_range]
    decide)
  obtain ⟨parsed, hparse, hagrees⟩ := hclaim id (fun _ => List.Perm.refl _) _
    (jumps_textual hplan) object hobject ""
  have hlt := references_lt hparse hagrees
  rw [← hplan.references.length_eq, length_jumpsEmission, List.length_range] at hlt
  exact absurd hlt (by decide)

end Raz.Forge.Coff
