import Raz.Oblink.CoffChecked

/-!
# What a COFF file says, and what the parser makes of it

The sections, symbols and COMDAT leaders of a file as its fields give them, without a parser; a
parsed object is exactly this. A symbol and the auxiliary records behind it take up their slots of
the table, and the slots of the records stay blank. A section that no symbol leads keeps no leader.

Result: `parse_correct`: the parser reads inside the input, and what it returns is what the file
says.
-/

namespace Raz.Oblink.Coff

open Access Codec Outcome Placed List Avoids Checked

variable {count entry start rounds : Nat}

/-! ## Fields -/

section
variable (bytes : List UInt8)

def numberAt (count offset : Nat) : Nat := ofLittleEndian ((bytes.drop offset).take count)

def u16At (offset : Nat) : UInt16 := UInt16.ofNat (numberAt bytes 2 offset)

def u32At (offset : Nat) : UInt32 := UInt32.ofNat (numberAt bytes 4 offset)

/-- The header that the file has, by its signature. -/
def headerOf : Header :=
  if bigobjSignature bytes then {
    bigobj := true
    sectionCount := (u32At bytes 44).toNat
    symbolOffset := (u32At bytes 48).toNat
    symbolCount := (u32At bytes 52).toNat
    sectionTable := 56
    symbolSize := 20 }
  else {
    bigobj := false
    sectionCount := (u16At bytes 2).toNat
    symbolOffset := (u32At bytes 8).toNat
    symbolCount := (u32At bytes 12).toNat
    sectionTable := 20 + (u16At bytes 16).toNat
    symbolSize := 18 }

/-! ## Sections -/

/-- The section of the entry has no bytes in the file. -/
def IsUninitialized (entry : Nat) : Prop :=
  u32At bytes (entry + 36) &&& 0x00000080 ≠ 0 ∨ u32At bytes (entry + 20) = 0

/-- The first relocation of the section has their number. -/
def IsExtended (entry : Nat) : Prop :=
  (u16At bytes (entry + 32)).toNat = 0xffff ∧ u32At bytes (entry + 36) &&& 0x01000000 ≠ 0

instance (entry : Nat) : Decidable (IsExtended bytes entry) :=
  inferInstanceAs (Decidable (_ ∧ _))

/-- The number in the overflow record counts the record itself. -/
def relocationCountOf (entry : Nat) : Nat :=
  if IsExtended bytes entry then (u32At bytes (u32At bytes (entry + 24)).toNat).toNat - 1
  else (u16At bytes (entry + 32)).toNat

def relocationStartOf (entry : Nat) : Nat :=
  if IsExtended bytes entry then (u32At bytes (entry + 24)).toNat + 10
  else (u32At bytes (entry + 24)).toNat

def relocationOf (start index : Nat) : Relocation where
  virtualAddress := u32At bytes (start + index * 10)
  symbolIndex := u32At bytes (start + index * 10 + 4)
  type := u16At bytes (start + index * 10 + 8)

/-- The data, the size and the relocations are those that the entry names. -/
structure IsSection (entry : Nat) (section_ : Section) : Prop where
  data : ¬ IsUninitialized bytes entry →
    section_.data = (bytes.drop (u32At bytes (entry + 20)).toNat).take
        (u32At bytes (entry + 16)).toNat ∧
      section_.data.length = (u32At bytes (entry + 16)).toNat ∧
      section_.virtualSize = u32At bytes (entry + 8)
  uninitialized : IsUninitialized bytes entry →
    section_.data = [] ∧ section_.virtualSize.toNat =
      max (u32At bytes (entry + 8)).toNat (u32At bytes (entry + 16)).toNat
  characteristics : section_.characteristics = u32At bytes (entry + 36)
  relocations : section_.relocations =
    (List.range (relocationCountOf bytes entry)).map
      (relocationOf bytes (relocationStartOf bytes entry))
  inside : relocationCountOf bytes entry ≠ 0 →
    relocationStartOf bytes entry + relocationCountOf bytes entry * 10 ≤ bytes.length

end

/-! ## Fields are read -/

section
variable {bytes : List UInt8} {offset : Nat}

theorem readLe_value {value : Nat} (h : readLe count bytes offset = .ok value) :
    value = numberAt bytes count offset := by
  unfold readLe at h
  split at h
  · nomatch h
  · exact (Except.ok.inj h).symm

theorem readU16_value {value : UInt16} (h : readU16 bytes offset = .ok value) :
    value = u16At bytes offset := by
  obtain ⟨number, hnum, h⟩ := bind_ok h
  obtain rfl := readLe_value hnum
  exact (Except.ok.inj h).symm

theorem readU32_value {value : UInt32} (h : readU32 bytes offset = .ok value) :
    value = u32At bytes offset := by
  obtain ⟨number, hnum, h⟩ := bind_ok h
  obtain rfl := readLe_value hnum
  exact (Except.ok.inj h).symm

theorem readU16_gives : Gives (fun value => value = u16At bytes offset) (readU16 bytes offset) := by
  cases h : readU16 bytes offset with
  | ok value => exact readU16_value h
  | error message => exact not_false

theorem readU32_gives : Gives (fun value => value = u32At bytes offset) (readU32 bytes offset) := by
  cases h : readU32 bytes offset with
  | ok value => exact readU32_value h
  | error message => exact not_false

theorem parseHeader_gives : Gives (fun header => header = headerOf bytes) (parseHeader bytes) := by
  unfold parseHeader headerOf
  refine checked_gives fun _ => ?_
  split
  · refine readU32_gives.bind ?_
    rintro _ rfl
    refine readU32_gives.bind ?_
    rintro _ rfl
    refine readU32_gives.bind ?_
    rintro _ rfl
    exact pure rfl
  · refine (trivial _).andThen fun machine => checked_gives fun _ => ?_
    refine readU16_gives.bind ?_
    rintro _ rfl
    refine readU32_gives.bind ?_
    rintro _ rfl
    refine readU32_gives.bind ?_
    rintro _ rfl
    refine readU16_gives.bind ?_
    rintro _ rfl
    exact pure rfl

/-! ## Sections are read -/

theorem relocationTable_gives :
    Gives (fun table : Nat × Nat =>
        table = (relocationCountOf bytes entry, relocationStartOf bytes entry))
      (relocationTable bytes (u32At bytes (entry + 24)).toNat (u16At bytes (entry + 32)).toNat
        (u32At bytes (entry + 36))) := by
  unfold relocationTable relocationCountOf relocationStartOf
  by_cases hextended : IsExtended bytes entry
  · rw [if_pos hextended, if_pos hextended]
    refine (if_pos hextended).symm ▸ checked_gives fun _ => ?_
    refine readU32_gives.bind ?_
    rintro _ rfl
    exact checked_gives fun _ => pure rfl
  · rw [if_neg hextended, if_neg hextended]
    exact (if_neg hextended).symm ▸ pure rfl

theorem parseRelocation_gives {index : Nat} :
    Gives (fun relocation => relocation = relocationOf bytes start index)
      (parseRelocation bytes start index) := by
  unfold parseRelocation
  refine readU32_gives.bind ?_
  rintro _ rfl
  refine readU32_gives.bind ?_
  rintro _ rfl
  refine readU16_gives.bind ?_
  rintro _ rfl
  exact pure rfl

theorem parseRelocations_gives :
    Gives (fun relocations => relocations = (List.range count).map (relocationOf bytes start) ∧
        (count ≠ 0 → start + count * 10 ≤ bytes.length))
      (parseRelocations bytes count start) := by
  unfold parseRelocations
  split
  · rename_i hzero
    exact pure ⟨by rw [hzero]; rfl, fun hne => absurd hzero hne⟩
  refine checked_gives fun hrange => ?_
  rw [not_or, Nat.not_lt, Nat.not_lt] at hrange
  cases hmapM : (List.range count).mapM (parseRelocation bytes start) with
  | error message => exact not_false
  | ok relocations =>
    have hmap := mapM_map (g := id) hmapM fun {index relocation} heq =>
      parseRelocation_gives.value heq
    rw [map_id] at hmap
    exact ⟨hmap, fun _ => by omega⟩

theorem parseData_gives :
    Gives (fun result : List UInt8 × UInt32 =>
        (¬ IsUninitialized bytes entry →
          result.1 = (bytes.drop (u32At bytes (entry + 20)).toNat).take
              (u32At bytes (entry + 16)).toNat ∧
            result.1.length = (u32At bytes (entry + 16)).toNat ∧
            result.2 = u32At bytes (entry + 8)) ∧
        (IsUninitialized bytes entry → result.1 = [] ∧
          result.2.toNat = max (u32At bytes (entry + 8)).toNat (u32At bytes (entry + 16)).toNat))
      (parseData bytes (u32At bytes (entry + 8)) (u32At bytes (entry + 16))
        (u32At bytes (entry + 20)) (u32At bytes (entry + 36))) := by
  unfold parseData
  split
  · rename_i hzero
    refine pure ⟨fun _ => ⟨?_, ?_, rfl⟩, fun _ => ⟨rfl, ?_⟩⟩
    · rw [hzero]
      rfl
    · rw [hzero]
      rfl
    · rw [hzero]
      exact (Nat.max_zero _).symm
  · split
    · rename_i huninitialized
      refine pure ⟨fun hnot => absurd huninitialized hnot, fun _ => ⟨rfl, ?_⟩⟩
      change (if _ < _ then _ else _ : UInt32).toNat = _
      split
      · rename_i hlt
        exact (Nat.max_eq_right (Nat.le_of_lt (UInt32.lt_iff_toNat_lt.mp hlt))).symm
      · rename_i hle
        rw [UInt32.lt_iff_toNat_lt, Nat.not_lt] at hle
        exact (Nat.max_eq_left hle).symm
    · rename_i hinitialized
      split
      · exact not_false
      rename_i hrange
      rw [not_or, Nat.not_lt, Nat.not_lt] at hrange
      refine pure ⟨fun _ => ⟨rfl, ?_, rfl⟩, fun h => absurd h hinitialized⟩
      rw [length_take, length_drop]
      exact Nat.min_eq_left hrange.2

/-- What the symbols say of a section is not known before they are read. -/
def Section.IsFresh (section_ : Section) : Prop :=
  section_.comdatSelection = 0 ∧ section_.comdatChecksum = 0 ∧
    section_.comdatAssociativeSection = 0 ∧ section_.comdatLeaderSymbol = 0xffffffff ∧
    section_.comdatLeaderName = []

/-- **A section is read as its entry has it.** -/
theorem parseSection_isSection {header : Header} {size : Nat} :
    Gives (fun section_ => IsSection bytes entry section_ ∧ section_.IsFresh)
      (parseSection bytes header size entry) := by
  unfold parseSection
  refine (trivial _).andThen fun name => ?_
  refine readU32_gives.bind ?_
  rintro _ rfl
  refine readU32_gives.bind ?_
  rintro _ rfl
  refine readU32_gives.bind ?_
  rintro _ rfl
  refine readU32_gives.bind ?_
  rintro _ rfl
  refine readU16_gives.bind ?_
  rintro _ rfl
  refine readU32_gives.bind ?_
  rintro _ rfl
  refine relocationTable_gives.bind ?_
  rintro _ rfl
  refine parseData_gives.bind fun result hdata => ?_
  refine parseRelocations_gives.bind fun relocations hrelocs => ?_
  exact pure ⟨⟨hdata.1, hdata.2, rfl, hrelocs.1, hrelocs.2⟩, rfl, rfl, rfl, rfl, rfl⟩

end

/-! ## Symbols -/

section
variable (bytes : List UInt8) (header : Header)

/-- The record of an index in the symbol table. -/
def recordAt (index : Nat) : Nat := header.symbolOffset + index * header.symbolSize

/-- The number of records behind that of a symbol that belong to it. -/
def auxiliaryCountAt (index : Nat) : Nat :=
  (byteAt bytes (recordAt header index + 15 + header.numberSize)).toNat

/-- The symbols from an index on, each behind the records of the one before it. -/
def recordsFrom : Nat → Nat → List Nat
  | 0, _ => []
  | rounds + 1, index =>
    if header.symbolCount ≤ index then []
    else index :: recordsFrom rounds (index + 1 + auxiliaryCountAt bytes header index)

def records : List Nat := recordsFrom bytes header header.symbolCount 0

/-- The name of the eight bytes at an offset: these up to a zero, or an entry of the string table
with a zero behind it. -/
def IsName (strings size offset : Nat) (name : Text) : Prop :=
  (u32At bytes offset ≠ 0 ∧ name = ((bytes.drop offset).take 8).takeWhile (· != 0)) ∨
    (u32At bytes offset = 0 ∧ 4 ≤ (u32At bytes (offset + 4)).toNat ∧
      (u32At bytes (offset + 4)).toNat + name.length < size ∧ 0 ∉ name ∧
      At bytes (strings + (u32At bytes (offset + 4)).toNat) (name ++ [0]))

/-- The symbol of an index, with what the record behind it says of a weak one. -/
structure IsSymbol (size index : Nat) (symbol : Symbol) : Prop where
  name : IsName bytes header.strings size (recordAt header index) symbol.name
  value : symbol.value = u32At bytes (recordAt header index + 8)
  sectionNumber : symbol.sectionNumber = signed (8 * header.numberSize)
    (numberAt bytes header.numberSize (recordAt header index + 12))
  type : symbol.type = u16At bytes (recordAt header index + 12 + header.numberSize)
  storageClass : symbol.storageClass =
    byteAt bytes (recordAt header index + 14 + header.numberSize)
  auxiliaryCount : symbol.auxiliaryCount.toNat = auxiliaryCountAt bytes header index
  weak : symbol.storageClass = 105 → symbol.auxiliaryCount ≠ 0 →
    symbol.weakDefaultIndex = u32At bytes (recordAt header (index + 1)) ∧
      symbol.weakCharacteristics = u32At bytes (recordAt header (index + 1) + 4)
  strong : ¬ (symbol.storageClass = 105 ∧ symbol.auxiliaryCount ≠ 0) →
    symbol.weakDefaultIndex = 0 ∧ symbol.weakCharacteristics = 0

end

/-- The symbol is that of a section, with the definition of the section behind it. -/
def Symbol.Defines (symbol : Symbol) (index : Nat) : Prop :=
  symbol.storageClass = 3 ∧ symbol.sectionNumber = index + 1 ∧ symbol.value = 0 ∧
    symbol.type = 0 ∧ symbol.auxiliaryCount ≠ 0

instance (symbol : Symbol) (index : Nat) : Decidable (symbol.Defines index) :=
  inferInstanceAs (Decidable (_ ∧ _))

/-- The symbol is a named external one that is defined in the section. -/
def Symbol.Leads (symbol : Symbol) (index : Nat) : Prop :=
  symbol.storageClass = 2 ∧ symbol.sectionNumber = index + 1 ∧ symbol.name ≠ []

instance (symbol : Symbol) (index : Nat) : Decidable (symbol.Leads index) :=
  inferInstanceAs (Decidable (_ ∧ _))

section
variable {bytes : List UInt8} {header : Header} {size index offset : Nat}

theorem takeWhile_append {text : List UInt8} (h : 0 ∈ text) :
    ∃ back, text = text.takeWhile (· != 0) ++ 0 :: back := by
  induction text with
  | nil => exact absurd h not_mem_nil
  | cons byte text ih =>
    by_cases hzero : byte = 0
    · exact ⟨text, by rw [hzero]; rfl⟩
    · obtain ⟨back, hback⟩ := ih ((mem_cons.mp h).resolve_left fun heq => hzero heq.symm)
      refine ⟨back, ?_⟩
      rw [takeWhile_cons, if_pos (bne_iff_ne.mpr hzero), cons_append, ← hback]

theorem tableString_gives {strings : Nat} (h : strings + size ≤ bytes.length) :
    Gives (fun name => 4 ≤ offset ∧ offset + name.length < size ∧ 0 ∉ name ∧
        At bytes (strings + offset) (name ++ [0]))
      (tableString bytes strings size offset) := by
  unfold tableString
  split
  · exact not_false
  rename_i hrange
  rw [not_or, Nat.not_lt, Nat.not_le] at hrange
  simp only
  split
  · rename_i hzero
    obtain ⟨back, hback⟩ := takeWhile_append hzero
    have hlen := congrArg List.length hback
    rw [length_append, length_cons, length_take, length_drop] at hlen
    have hinside : strings + offset ≤ bytes.length := by omega
    refine pure ⟨hrange.1, by omega, fun hmem => ?_, ?_⟩
    · exact absurd (mem_takeWhile_imp hmem) (by decide)
    refine ⟨bytes.take (strings + offset),
      back ++ (bytes.drop (strings + offset)).drop (size - offset), ?_,
      length_take_of_le hinside⟩
    calc bytes = bytes.take (strings + offset) ++ ((bytes.drop (strings + offset)).take
          (size - offset) ++ (bytes.drop (strings + offset)).drop (size - offset)) := by
          rw [take_append_drop, take_append_drop]
      _ = _ := by
          refine congrArg (bytes.take (strings + offset) ++ ·) ((congrArg
            (· ++ (bytes.drop (strings + offset)).drop (size - offset)) hback).trans ?_)
          simp
  · exact not_false

theorem symbolName_gives {strings : Nat} (h : strings + size ≤ bytes.length) :
    Gives (IsName bytes strings size offset) (symbolName bytes offset strings size) := by
  unfold symbolName
  refine readU32_gives.bind ?_
  rintro _ rfl
  by_cases hzero : u32At bytes offset ≠ 0
  · exact (if_pos hzero).symm ▸ pure (.inl ⟨hzero, rfl⟩)
  refine (if_neg hzero).symm ▸ ?_
  refine readU32_gives.bind ?_
  rintro _ rfl
  refine (tableString_gives h).mono fun name hname => .inr ⟨not_not.mp hzero, ?_⟩
  exact ⟨hname.1, hname.2.1, hname.2.2.1, hname.2.2.2⟩

theorem readLe_gives :
    Gives (fun value => value = numberAt bytes count offset) (readLe count bytes offset) := by
  cases h : readLe count bytes offset with
  | ok value => exact readLe_value h
  | error message => exact not_false

/-- **A symbol is read as its record has it.** -/
theorem parseSymbol_isSymbol (h : header.strings + size ≤ bytes.length) :
    Gives (IsSymbol bytes header size index) (symbolAt bytes header size index) := by
  have hnext : header.symbolOffset + index * header.symbolSize + header.symbolSize =
      recordAt header (index + 1) := by
    rw [recordAt, Nat.add_mul, Nat.one_mul, Nat.add_assoc]
  unfold symbolAt parseSymbol
  refine (symbolName_gives h).bind fun name hname => ?_
  refine readU32_gives.bind ?_
  rintro _ rfl
  refine readLe_gives.bind ?_
  rintro _ rfl
  refine readU16_gives.bind ?_
  rintro _ rfl
  rw [hnext]
  unfold weakExternal
  split
  · rename_i hweak
    refine checked_gives fun _ => ?_
    refine readU32_gives.bind ?_
    rintro _ rfl
    refine readU32_gives.bind ?_
    rintro _ rfl
    exact pure ⟨hname, rfl, rfl, rfl, rfl, rfl, fun _ _ => ⟨rfl, rfl⟩,
      fun hstrong => absurd hweak hstrong⟩
  · rename_i hstrong
    exact pure ⟨hname, rfl, rfl, rfl, rfl, rfl, fun hclass hcount =>
      absurd ⟨hclass, hcount⟩ hstrong, fun _ => ⟨rfl, rfl⟩⟩

/-! ## The symbol table -/

theorem le_of_mem_recordsFrom (h : index ∈ recordsFrom bytes header rounds start) :
    start ≤ index ∧ index < header.symbolCount := by
  induction rounds generalizing start with
  | zero => exact absurd h not_mem_nil
  | succ rounds ih =>
    rw [recordsFrom] at h
    split at h
    · exact absurd h not_mem_nil
    rename_i hstart
    rcases mem_cons.mp h with rfl | h
    · exact ⟨le_rfl, Nat.not_le.mp hstart⟩
    · have hrest := ih h
      exact ⟨by omega, hrest.2⟩

theorem slot_of_lt (hrounds : header.symbolCount ≤ start + rounds) (hstart : start ≤ index)
    (hidx : index < header.symbolCount) :
    index ∈ recordsFrom bytes header rounds start ∨
      ∃ other ∈ recordsFrom bytes header rounds start, other < index ∧
        index ≤ other + auxiliaryCountAt bytes header other := by
  induction rounds generalizing start with
  | zero => exact absurd (Nat.lt_of_le_of_lt hstart hidx) (Nat.not_lt.mpr hrounds)
  | succ rounds ih =>
    rw [recordsFrom, if_neg (Nat.not_le.mpr (Nat.lt_of_le_of_lt hstart hidx))]
    rcases Nat.eq_or_lt_of_le hstart with rfl | hlt
    · exact .inl mem_cons_self
    by_cases hbehind : index ≤ start + auxiliaryCountAt bytes header start
    · exact .inr ⟨start, mem_cons_self, hlt, hbehind⟩
    · refine Or.imp (mem_cons_of_mem start) ?_ (ih (by omega) (by omega))
      rintro ⟨other, hother, hrange⟩
      exact ⟨other, mem_cons_of_mem _ hother, hrange⟩

theorem not_mem_of_behind {other : Nat} (hother : other ∈ recordsFrom bytes header rounds start)
    (hlt : other < index) (hle : index ≤ other + auxiliaryCountAt bytes header other) :
    index ∉ recordsFrom bytes header rounds start := by
  induction rounds generalizing start with
  | zero => exact absurd hother not_mem_nil
  | succ rounds ih =>
    rw [recordsFrom] at hother ⊢
    split at hother
    · exact absurd hother not_mem_nil
    rename_i hstart
    rw [if_neg hstart, mem_cons, not_or]
    rcases mem_cons.mp hother with rfl | hother
    · refine ⟨Nat.ne_of_gt hlt, fun hmem => ?_⟩
      have hge := (le_of_mem_recordsFrom hmem).1
      omega
    · have hge := (le_of_mem_recordsFrom hother).1
      exact ⟨by omega, ih hother⟩

/-- What the auxiliary record of a section symbol gives the section. -/
def defineFrom (bytes : List UInt8) (header : Header) (index : Nat) (section_ : Section) :
    Section := { section_ with
  comdatChecksum := u32At bytes (recordAt header (index + 1) + 8)
  comdatAssociativeSection := (u16At bytes (recordAt header (index + 1) + 12)).toUInt32 |||
    (if header.bigobj then (u16At bytes (recordAt header (index + 1) + 16)).toUInt32 <<< 16 else 0)
  comdatSelection := byteAt bytes (recordAt header (index + 1) + 14) }

theorem sectionDefinition_gives {symbol : Symbol} {sections : List Section} :
    Gives (fun defined : List Section => ∀ k, defined[k]? = (sections[k]?).map fun section_ =>
        if symbol.Defines k then defineFrom bytes header index section_ else section_)
      (sectionDefinition bytes header (recordAt header (index + 1)) symbol sections) := by
  unfold sectionDefinition
  split
  · rename_i hsym
    have hnum : symbol.sectionNumber = (symbol.sectionNumber - 1).toNat + 1 := by omega
    have hdefines : ∀ k, symbol.Defines k ↔ k = (symbol.sectionNumber - 1).toNat := by
      refine fun k => ⟨fun h => by have := h.2.1; omega, ?_⟩
      rintro rfl
      exact ⟨hsym.1, hnum, hsym.2.2⟩
    split
    · rename_i hnone
      refine pure fun k => ?_
      by_cases hk : k = (symbol.sectionNumber - 1).toNat
      · rw [hk, hnone]
        rfl
      · simp only [mt (hdefines k).mp hk, if_false, Option.map_id']
    · rename_i section_ hsome
      refine checked_gives fun _ => ?_
      refine readU32_gives.bind ?_
      rintro _ rfl
      refine readU16_gives.bind ?_
      rintro _ rfl
      refine readU16_gives.bind ?_
      rintro _ rfl
      refine pure fun k => ?_
      rw [List.getElem?_set]
      by_cases hk : (symbol.sectionNumber - 1).toNat = k
      · obtain ⟨hlt, -⟩ := List.getElem?_eq_some_iff.mp hsome
        subst hk
        rw [if_pos rfl, if_pos hlt, hsome, Option.map_some, if_pos ((hdefines _).mpr rfl)]
        rfl
      · rw [if_neg hk]
        simp [mt (hdefines k).mp (Ne.symm hk), Option.map_id']
  · rename_i hnot
    refine pure fun k => ?_
    have hdefines : ¬ symbol.Defines k := fun h => hnot ⟨h.1, by have := h.2.1; omega, h.2.2⟩
    simp [hdefines, Option.map_id']

/-- One after the other, the symbols that define a section. -/
def defineBy (bytes : List UInt8) (header : Header) (symbols : List Symbol) (indices : List Nat)
    (k : Nat) (section_ : Section) : Section :=
  indices.foldl (fun section_ index =>
    if (symbols.getD index {}).Defines k then defineFrom bytes header index section_
    else section_) section_

/-- What the symbols from an index on make of an object. -/
structure ReadsSymbols (bytes : List UInt8) (header : Header) (size : Nat) (indices : List Nat)
    (object result : Object) : Prop where
  source : result.source = object.source
  length : result.symbols.length = object.symbols.length
  symbols : ∀ index ∈ indices, ∃ symbol, result.symbols[index]? = some symbol ∧
    IsSymbol bytes header size index symbol ∧
    (symbol.auxiliaryCount ≠ 0 →
      index + auxiliaryCountAt bytes header index < header.symbolCount)
  others : ∀ index, index ∉ indices → result.symbols[index]? = object.symbols[index]?
  sections : ∀ k, result.sections[k]? =
    (object.sections[k]?).map (defineBy bytes header result.symbols indices k)

/-- **The table of the symbols** is read record by record. -/
theorem parseSymbols_spec (h : header.strings + size ≤ bytes.length) :
    ∀ {rounds start : Nat} {object : Object}, object.symbols.length = header.symbolCount →
      Gives (ReadsSymbols bytes header size (recordsFrom bytes header rounds start) object)
        (parseSymbols bytes header size rounds start object)
  | 0, _, object, _ => ⟨rfl, rfl, fun _ hidx => absurd hidx List.not_mem_nil,
      fun _ _ => rfl, fun k => Option.map_id'.symm ▸ rfl⟩
  | rounds + 1, start, object, hlen => by
    unfold parseSymbols
    rw [recordsFrom]
    split
    · exact ⟨rfl, rfl, fun _ hidx => absurd hidx List.not_mem_nil, fun _ _ => rfl,
        fun k => Option.map_id'.symm ▸ rfl⟩
    rename_i hstart
    refine (parseSymbol_isSymbol h).bind fun symbol hsym => ?_
    refine sectionDefinition_gives.bind fun sections hsecs => ?_
    refine Checked.checked_gives fun hinside => ?_
    rw [hsym.auxiliaryCount] at hinside ⊢
    refine (parseSymbols_spec h ((List.length_set ..).trans hlen)).mono fun result hres => ?_
    have hnew : start ∉ recordsFrom bytes header rounds
        (start + 1 + auxiliaryCountAt bytes header start) := fun hmem => by
      have hge := (le_of_mem_recordsFrom hmem).1
      omega
    have hself : result.symbols[start]? = some symbol := by
      rw [hres.others start hnew, List.getElem?_set_self (hlen ▸ Nat.not_le.mp hstart)]
    refine ⟨hres.source, hres.length.trans (List.length_set ..), ?_, fun index hidx => ?_,
      fun k => ?_⟩
    · refine forall_mem_cons.mpr ⟨⟨symbol, hself, hsym, fun hcount => ?_⟩, hres.symbols⟩
      rw [not_and, Nat.not_le] at hinside
      exact hinside hcount
    · rw [mem_cons, not_or] at hidx
      rw [hres.others index hidx.2]
      exact List.getElem?_set_ne (Ne.symm hidx.1)
    have hget : result.symbols.getD start {} = symbol := by
      rw [getD_eq_getElem?_getD, hself]
      rfl
    rw [hres.sections k]
    change (sections[k]?).map _ = _
    rw [hsecs k, Option.map_map]
    refine congrArg (fun step => (object.sections[k]?).map step) (funext fun section_ => ?_)
    unfold defineBy
    rw [foldl_cons, hget]
    rfl

end

/-! ## Definitions and leaders -/

/-- Where each write covers the ones before it, the last one that is made counts. -/
theorem foldl_last {ι β : Type} (test : ι → Prop) [DecidablePred test] (write : ι → β → β)
    (hcover : ∀ i j value, write i (write j value) = write i value) (items : List ι) (value : β) :
    items.foldl (fun value i => if test i then write i value else value) value =
      match (items.filter test).getLast? with
      | none => value
      | some i => write i value := by
  induction items generalizing value with
  | nil => rfl
  | cons item items ih =>
    rw [foldl_cons, ih]
    by_cases htest : test item
    · rw [if_pos htest, filter_cons_of_pos (by simpa using htest), List.getLast?_cons]
      cases (items.filter test).getLast? with
      | none => rfl
      | some last => exact hcover last item value
    · rw [if_neg htest, filter_cons_of_neg (by simpa using htest)]

/-- The section is one of a COMDAT that is chosen by its leader. -/
def Section.MayBeLed (section_ : Section) : Prop :=
  section_.isComdat = true ∧ section_.comdatSelection ≠ comdatSelectAssociative

instance (section_ : Section) : Decidable section_.MayBeLed := inferInstanceAs (Decidable (_ ∧ _))

def leadBy (symbols : List Symbol) (index : Nat) (section_ : Section) : Section :=
  { section_ with
    comdatLeaderSymbol := UInt32.ofNat index
    comdatLeaderName := (symbols.getD index {}).name }

section
variable {symbols : List Symbol} {sections : List Section} {section_ : Section} {index k : Nat}

theorem not_led_iff : (!section_.isComdat || section_.comdatSelection == comdatSelectAssociative ||
      section_.comdatLeaderName != []) = true ↔
    ¬ (section_.MayBeLed ∧ section_.comdatLeaderName = []) := by
  unfold Section.MayBeLed
  cases section_.isComdat with
  | false => simp
  | true =>
    simp only [Bool.not_true, Bool.false_or, Bool.or_eq_true, beq_iff_eq, bne_iff_ne, ne_eq,
      true_and, not_and_or, not_not]

/-- **One step of the search for the leaders.** -/
theorem leadComdat_getElem? (symbols : List Symbol) (index : Nat)
    (hsec : sections[k]? = some section_) :
    (leadComdat symbols sections index)[k]? = some (
      if (symbols.getD index {}).Leads k ∧ section_.MayBeLed ∧ section_.comdatLeaderName = [] then
        leadBy symbols index section_
      else section_) := by
  have hblank : ¬ ({} : Symbol).Leads k := by
    rintro ⟨hclass, -⟩
    exact absurd hclass (by decide)
  unfold leadComdat
  rw [getD_eq_getElem?_getD]
  cases hsym : symbols[index]? with
  | none =>
    rw [if_neg fun h => hblank h.1]
    exact hsec
  | some symbol =>
    change (if symbol.storageClass ≠ 2 ∨ symbol.sectionNumber ≤ 0 ∨ symbol.name = [] then
      sections else _)[k]? = some (if symbol.Leads k ∧ _ then _ else _)
    split <;> rename_i hskip
    · rw [if_neg]
      · exact hsec
      rintro ⟨⟨hclass, hnum, hname⟩, -⟩
      rcases hskip with hskip | hskip | hskip
      · exact hskip hclass
      · omega
      · exact hname hskip
    · rw [not_or, not_or, not_not, Int.not_le] at hskip
      have hleads : symbol.Leads k ↔ k = (symbol.sectionNumber - 1).toNat := by
        refine ⟨fun h => by have := h.2.1; omega, ?_⟩
        rintro rfl
        exact ⟨hskip.1, by omega, hskip.2.2⟩
      by_cases hk : k = (symbol.sectionNumber - 1).toNat
      · subst hk
        obtain ⟨hlt, -⟩ := List.getElem?_eq_some_iff.mp hsec
        simp only [hsec]
        by_cases hled : section_.MayBeLed ∧ section_.comdatLeaderName = []
        · rw [if_neg (mt not_led_iff.mp (not_not_intro hled)), if_pos ⟨hleads.mpr rfl, hled⟩,
            List.getElem?_set_self hlt]
          unfold leadBy
          rw [getD_eq_getElem?_getD, hsym]
          rfl
        · rw [if_pos (not_led_iff.mpr hled), if_neg fun h => hled h.2]
          exact hsec
      · rw [if_neg fun h => hk (hleads.mp h.1)]
        split
        · exact hsec
        split
        · exact hsec
        · rw [List.getElem?_set_ne (Ne.symm hk)]
          exact hsec

theorem leadComdat_led (indices : List Nat) (hsec : sections[k]? = some section_)
    (hname : section_.comdatLeaderName ≠ []) :
    (indices.foldl (leadComdat symbols) sections)[k]? = some section_ := by
  induction indices generalizing sections with
  | nil => exact hsec
  | cons index indices ih =>
    refine ih ?_
    rw [leadComdat_getElem? symbols index hsec, if_neg fun h => hname h.2.2]

/-- **The first symbol that can lead a section leads it.** -/
theorem leadComdat_spec (indices : List Nat) (hsec : sections[k]? = some section_)
    (hname : section_.comdatLeaderName = []) :
    (indices.foldl (leadComdat symbols) sections)[k]? = some ( if section_.MayBeLed then
        match indices.find? fun index => (symbols.getD index {}).Leads k with
        | none => section_
        | some index => leadBy symbols index section_
      else section_) := by
  induction indices generalizing sections with
  | nil =>
    change sections[k]? = some (if section_.MayBeLed then section_ else section_)
    rw [ite_self]
    exact hsec
  | cons index indices ih =>
    have hstep := leadComdat_getElem? symbols index hsec
    rw [foldl_cons, List.find?_cons]
    by_cases hleads : (symbols.getD index {}).Leads k
    · by_cases hled : section_.MayBeLed
      · rw [if_pos ⟨hleads, hled, hname⟩] at hstep
        rw [if_pos hled]
        simp only [hleads, decide_true]
        exact leadComdat_led indices hstep hleads.2.2
      · rw [if_neg fun h => hled h.2.1] at hstep
        rw [ih hstep, if_neg hled, if_neg hled]
    · rw [if_neg fun h => hleads h.1] at hstep
      rw [ih hstep]
      simp only [hleads, decide_false]

end

/-! ## Objects -/

section
variable (bytes : List UInt8) (header : Header) (symbols : List Symbol) (k : Nat)
  (section_ : Section)

/-- What the last symbol that defines a section says of it. -/
def IsDefined : Prop :=
  match ((records bytes header).filter fun index => (symbols.getD index {}).Defines k).getLast? with
  | none => section_.comdatChecksum = 0 ∧ section_.comdatAssociativeSection = 0 ∧
      section_.comdatSelection = 0
  | some index => index + 1 < header.symbolCount ∧
      section_.comdatChecksum = u32At bytes (recordAt header (index + 1) + 8) ∧
      section_.comdatAssociativeSection =
        ((u16At bytes (recordAt header (index + 1) + 12)).toUInt32 |||
          if header.bigobj then (u16At bytes (recordAt header (index + 1) + 16)).toUInt32 <<< 16
          else 0) ∧
      section_.comdatSelection = byteAt bytes (recordAt header (index + 1) + 14)

/-- The leader is the first named external symbol that is defined in the section. -/
def IsLed : Prop :=
  match if section_.MayBeLed then
      (List.range symbols.length).find? fun index => (symbols.getD index {}).Leads k
    else none with
  | none => section_.comdatLeaderSymbol = 0xffffffff ∧ section_.comdatLeaderName = []
  | some index => section_.comdatLeaderSymbol.toNat = index ∧
      section_.comdatLeaderName = (symbols.getD index {}).name

/-- The object is what the file says. Every slot of the table is that of a symbol, or blank and
behind the symbol it belongs to. -/
structure IsObject (size : Nat) (object : Object) : Prop where
  sectionCount : object.sections.length = header.sectionCount
  sections : ∀ k section_, object.sections[k]? = some section_ →
    IsSection bytes (header.sectionTable + k * 40) section_ ∧
      IsDefined bytes header object.symbols k section_ ∧ IsLed object.symbols k section_
  symbolCount : object.symbols.length = header.symbolCount
  slots : ∀ index < header.symbolCount, index ∈ records bytes header ∨
    ∃ other ∈ records bytes header, other < index ∧
      index ≤ other + auxiliaryCountAt bytes header other
  symbols : ∀ index ∈ records bytes header, ∃ symbol, object.symbols[index]? = some symbol ∧
    IsSymbol bytes header size index symbol ∧
    (symbol.auxiliaryCount ≠ 0 →
      index + auxiliaryCountAt bytes header index < header.symbolCount)
  blank : ∀ other ∈ records bytes header, ∀ index, other < index →
    index ≤ other + auxiliaryCountAt bytes header other → object.symbols[index]? = some {}

end

section
variable {bytes : List UInt8} {header : Header} {size : Nat} {object result : Object}

theorem ReadsSymbols.isDefined
    (h : ReadsSymbols bytes header size (records bytes header) object result) {k : Nat}
    {section_ : Section} (hfresh : section_.IsFresh) :
    IsDefined bytes header result.symbols k
      (defineBy bytes header result.symbols (records bytes header) k section_) := by
  have hlast := foldl_last (fun index => (result.symbols.getD index {}).Defines k)
    (defineFrom bytes header) (fun _ _ _ => rfl) (records bytes header) section_
  unfold IsDefined defineBy
  rw [hlast]
  cases hdefiner : ((records bytes header).filter
      fun index => (result.symbols.getD index {}).Defines k).getLast? with
  | none => exact ⟨hfresh.2.1, hfresh.2.2.1, hfresh.1⟩
  | some index =>
    have hmem := mem_filter.mp (mem_of_getLast? hdefiner)
    obtain ⟨symbol, hsym, his, hinside⟩ := h.symbols index hmem.1
    have hdefines := of_decide_eq_true hmem.2
    rw [getD_eq_getElem?_getD, hsym] at hdefines
    have hcount : symbol.auxiliaryCount ≠ 0 := hdefines.2.2.2.2
    have hpos : auxiliaryCountAt bytes header index ≠ 0 := fun hzero =>
      hcount (UInt8.toNat_inj.mp (his.auxiliaryCount.trans hzero))
    have hlt := hinside hcount
    exact ⟨by omega, rfl, rfl, rfl⟩

theorem isSection_defineBy (header : Header) (symbols : List Symbol) (k : Nat) (indices : List Nat)
    {section_ : Section} (h : IsSection bytes entry section_)
    (hleader : section_.comdatLeaderName = [] ∧ section_.comdatLeaderSymbol = 0xffffffff) :
    IsSection bytes entry (defineBy bytes header symbols indices k section_) ∧
      (defineBy bytes header symbols indices k section_).comdatLeaderName = [] ∧
      (defineBy bytes header symbols indices k section_).comdatLeaderSymbol = 0xffffffff := by
  unfold defineBy
  induction indices generalizing section_ with
  | nil => exact ⟨h, hleader⟩
  | cons index indices ih =>
    rw [foldl_cons]
    split
    · exact ih ⟨h.data, h.uninitialized, h.characteristics, h.relocations, h.inside⟩ hleader
    · exact ih h hleader

theorem length_leadComdat (symbols : List Symbol) (indices : List Nat) (sections : List Section) :
    (indices.foldl (leadComdat symbols) sections).length = sections.length := by
  induction indices generalizing sections with
  | nil => rfl
  | cons index indices ih =>
    rw [foldl_cons, ih]
    unfold leadComdat
    split
    · rfl
    split
    · rfl
    split
    · rfl
    · split
      · rfl
      · exact List.length_set ..

/-- **The leaders are found** in the order of the table. -/
theorem isLed_of_fold {symbols : List Symbol} {sections : List Section} {k : Nat}
    {section_ led : Section} (hlen : symbols.length < 2 ^ 32)
    (hsec : sections[k]? = some section_)
    (hleader : section_.comdatLeaderName = [] ∧ section_.comdatLeaderSymbol = 0xffffffff)
    (hled : ((List.range symbols.length).foldl (leadComdat symbols) sections)[k]? = some led) :
    IsLed symbols k led ∧ (∀ entry, IsSection bytes entry section_ → IsSection bytes entry led) ∧
      (IsDefined bytes header symbols k section_ → IsDefined bytes header symbols k led) := by
  rw [leadComdat_spec _ hsec hleader.1] at hled
  cases hled
  unfold IsLed
  by_cases hmay : section_.MayBeLed
  · rw [if_pos hmay]
    cases hfind : (List.range symbols.length).find? fun index =>
        (symbols.getD index {}).Leads k with
    | none =>
      rw [if_pos hmay]
      exact ⟨⟨hleader.2, hleader.1⟩, fun _ h => h, fun h => h⟩
    | some index =>
      have hlt := List.mem_range.mp (List.mem_of_find?_eq_some hfind)
      have hmay' : (leadBy symbols index section_).MayBeLed := hmay
      rw [if_pos hmay']
      refine ⟨⟨Nat.mod_eq_of_lt (Nat.lt_trans hlt hlen), rfl⟩, fun entry h => ?_, fun h => h⟩
      exact ⟨h.data, h.uninitialized, h.characteristics, h.relocations, h.inside⟩
  · rw [if_neg hmay, if_neg hmay]
    exact ⟨⟨hleader.2, hleader.1⟩, fun _ h => h, fun h => h⟩

theorem stringSize_gives {header : Header} :
    Gives (fun size => size = (u32At bytes header.strings).toNat) (header.stringSize bytes) := by
  unfold Header.stringSize
  refine checked_gives fun _ => checked_gives fun _ => checked_gives fun _ => ?_
  refine readU32_gives.bind ?_
  rintro _ rfl
  exact checked_gives fun _ => pure rfl

end

theorem parse_isObject {bytes : List UInt8} {source : String} {object : Object}
    (h : parse bytes source = .ok object) :
    Checked.Fits bytes (headerOf bytes) (u32At bytes (headerOf bytes).strings).toNat ∧
      object.source = source ∧ IsObject bytes (headerOf bytes)
        (u32At bytes (headerOf bytes).strings).toNat object := by
  unfold parse at h
  obtain ⟨header, hheader, h⟩ := bind_ok h
  obtain rfl := parseHeader_gives.value hheader
  obtain ⟨size, hsize, h⟩ := bind_ok h
  obtain ⟨sections, hsecs, h⟩ := bind_ok h
  obtain ⟨parsed, hparsed, h⟩ := bind_ok h
  cases h
  have hfits := fits hheader hsize
  obtain rfl := stringSize_gives.value hsize
  have hcount : (headerOf bytes).symbolCount < 2 ^ 32 := by
    unfold headerOf
    split
    · exact (u32At bytes 52).toNat_lt
    · exact (u32At bytes 12).toNat_lt
  have hblank : (List.replicate (headerOf bytes).symbolCount ({} : Symbol)).length =
      (headerOf bytes).symbolCount := length_replicate
  have hreads := (parseSymbols_spec hfits.strings hblank).value hparsed
  have hsyms : parsed.symbols.length = (headerOf bytes).symbolCount := hreads.length.trans hblank
  have hlen : sections.length = (headerOf bytes).sectionCount := by
    have hunits := congrArg List.length (mapM_map (g := fun _ => ()) (k := fun _ => ()) hsecs
      fun _ => rfl)
    rwa [length_map, length_map, List.length_range] at hunits
  -- the symbols replace sections by others, and leave their number
  have hend : ∀ n, parsed.sections.length ≤ n ↔ sections.length ≤ n := fun n => by
    rw [← List.getElem?_eq_none_iff, hreads.sections n, Option.map_eq_none_iff,
      List.getElem?_eq_none_iff]
  have hparsedLength : parsed.sections.length = sections.length :=
    Nat.le_antisymm ((hend _).mpr le_rfl) ((hend _).mp le_rfl)
  refine ⟨hfits, hreads.source, ?_, fun k led hled => ?_, hsyms, fun index hidx => ?_,
    hreads.symbols, fun other hother index hlt hle => ?_⟩
  · exact (length_leadComdat _ _ _).trans (hparsedLength.trans hlen)
  · have hk : k < sections.length := by
      rw [← hparsedLength, ← length_leadComdat parsed.symbols (List.range parsed.symbols.length)]
      exact (List.getElem?_eq_some_iff.mp hled).1
    have hsec : sections[k]? = some sections[k] := List.getElem?_eq_getElem hk
    obtain ⟨item, hitem, hparse⟩ := mapM_getElem? hsecs hsec
    obtain ⟨hrange, rfl⟩ := List.getElem?_eq_some_iff.mp hitem
    rw [List.getElem_range] at hparse
    obtain ⟨his, hfresh⟩ := parseSection_isSection.value hparse
    have hdefined := hreads.isDefined (k := k) hfresh
    obtain ⟨his', hleader⟩ := isSection_defineBy (headerOf bytes) parsed.symbols k
      (records bytes (headerOf bytes)) his
      ⟨hfresh.2.2.2.2, hfresh.2.2.2.1⟩
    have hparsedSection := (hreads.sections k).trans (congrArg (Option.map _) hsec)
    obtain ⟨hisLed, hkeepsSection, hkeepsDefined⟩ :=
      isLed_of_fold (hsyms ▸ hcount) hparsedSection hleader hled
    exact ⟨hkeepsSection _ his', hkeepsDefined hdefined, hisLed⟩
  · exact slot_of_lt (Nat.le_add_left _ _) (Nat.zero_le _) hidx
  · obtain ⟨symbol, -, hsym, hinside⟩ := hreads.symbols other hother
    have hcount' : symbol.auxiliaryCount ≠ 0 := fun hzero => by
      rw [← hsym.auxiliaryCount, hzero] at hle
      exact absurd hle (Nat.not_le.mpr hlt)
    rw [hreads.others index (not_mem_of_behind hother hlt hle)]
    exact List.getElem?_replicate_of_lt (Nat.lt_of_le_of_lt hle (hinside hcount'))

/-- **The parser of object files is right.** With every access checked it does the same, so it
reads nothing outside the input; and the object it returns is what the file says. -/
theorem parse_correct (bytes : List UInt8) (source : String) :
    Checked.parse bytes source = lift (parse bytes source) ∧
      ∀ object, parse bytes source = .ok object →
        object.source = source ∧ IsObject bytes (headerOf bytes)
          (u32At bytes (headerOf bytes).strings).toNat object := by
  exact ⟨parse_eq source, fun object h => (parse_isObject h).2⟩

/-- A COMDAT section of two bytes, its section symbol with the definition behind it, and the
function that leads it. -/
def comdatObject : List UInt8 :=
  [0x64, 0x86, 1, 0, 0, 0, 0, 0, 62, 0, 0, 0, 3, 0, 0, 0, 0, 0, 0, 0] ++
  [46, 116, 0, 0, 0, 0, 0, 0, 0, 0, 0, 0, 0, 0, 0, 0, 2, 0, 0, 0, 60, 0, 0, 0, 0, 0, 0, 0,
    0, 0, 0, 0, 0, 0, 0, 0, 0x20, 0x10, 0, 0x60] ++
  [0x90, 0xc3] ++
  [46, 116, 0, 0, 0, 0, 0, 0, 0, 0, 0, 0, 1, 0, 0, 0, 3, 1] ++
  [2, 0, 0, 0, 0, 0, 0, 0, 7, 0, 0, 0, 1, 0, 2, 0, 0, 0] ++
  [102, 0, 0, 0, 0, 0, 0, 0, 0, 0, 0, 0, 1, 0, 32, 0, 2, 0] ++
  [4, 0, 0, 0]

theorem parse_correct_comdat : ∃ object, parse comdatObject "a.obj" = .ok object ∧
    object.sections.map (·.comdatLeaderName) = [[102]] ∧
    IsObject comdatObject (headerOf comdatObject)
      (u32At comdatObject (headerOf comdatObject).strings).toNat object := by
  have hleaders : (parse comdatObject "a.obj").toOption.map
      (·.sections.map (·.comdatLeaderName)) = some [[102]] := by decide +kernel
  cases hparse : parse comdatObject "a.obj" with
  | error message =>
    rw [hparse] at hleaders
    nomatch hleaders
  | ok object =>
    rw [hparse] at hleaders
    exact ⟨object, rfl, Option.some.inj hleaders,
      ((parse_correct comdatObject "a.obj").2 object hparse).2⟩

end Raz.Oblink.Coff
