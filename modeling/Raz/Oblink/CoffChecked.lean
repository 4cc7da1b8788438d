import Raz.Lib.Access
import Raz.Oblink.CoffReading
import Mathlib.Data.List.GetD

/-!
# The COFF parser reads inside its input

The parser again, with each access to a byte checked: an access outside the input is an outcome of
its own. It is not reached, as the checks that the parser makes cover every access: the section
table and the symbol table are inside the file, the string table ends inside it, and the sections
and relocations are checked range by range.

Result: `Checked.parse_eq`: with checked accesses the parser does the same.
-/

namespace Raz.Oblink.Coff

open Access Codec Outcome List

namespace Checked

abbrev Parse := Except (Fault String)

def report {α : Type} (message : String) : Parse α := .error (.reported message)

/-! ## Numbers and names -/

def readLe (count : Nat) (bytes : List UInt8) (offset : Nat) : Parse Nat :=
  if bytes.length < offset + count then report "truncated COFF input"
  else do return ofLittleEndian (← accesses bytes offset count)

def readU16 (bytes : List UInt8) (offset : Nat) : Parse UInt16 := do
  return UInt16.ofNat (← readLe 2 bytes offset)

def readU32 (bytes : List UInt8) (offset : Nat) : Parse UInt32 := do
  return UInt32.ofNat (← readLe 4 bytes offset)

/-- The bytes up to the first zero, or to the end of the input. -/
def shortString (bytes : List UInt8) (offset : Nat) : Nat → Parse Text
  | 0 => .ok []
  | count + 1 =>
    if bytes.length ≤ offset then .ok []
    else do
      let byte ← access bytes offset
      if byte = 0 then return []
      return byte :: (← shortString bytes (offset + 1) count)

/-- The bytes up to the first zero; there must be one. -/
def tableEntry (bytes : List UInt8) (offset : Nat) : Nat → Parse Text
  | 0 => report "unterminated COFF string-table entry"
  | count + 1 => do
    let byte ← access bytes offset
    if byte = 0 then return []
    return byte :: (← tableEntry bytes (offset + 1) count)

def tableString (bytes : List UInt8) (strings tableSize offset : Nat) : Parse Text :=
  if offset < 4 ∨ tableSize ≤ offset then report "invalid COFF string-table offset"
  else tableEntry bytes (strings + offset) (tableSize - offset)

def symbolName (bytes : List UInt8) (entry strings stringSize : Nat) : Parse Text := do
  if (← readU32 bytes entry) ≠ 0 then shortString bytes entry 8
  else tableString bytes strings stringSize (← readU32 bytes (entry + 4)).toNat

def sectionName (bytes : List UInt8) (header strings stringSize : Nat) : Parse Text := do
  match ← shortString bytes header 8 with
  | 47 :: first :: digits =>
    match tableOffset (first :: digits) 0 with
    | some offset => tableString bytes strings stringSize offset.toNat
    | none => .ok (47 :: first :: digits)
  | name => .ok name

/-! ## The file header -/

def bigobjSignature (bytes : List UInt8) : Parse Bool :=
  if 56 ≤ bytes.length then do
    if (← accesses bytes 0 4) ≠ [0, 0, 0xff, 0xff] then return false
    let version := ofLittleEndian (← accesses bytes 4 2)
    let machine := ofLittleEndian (← accesses bytes 6 2)
    if version < 2 ∨ machine ≠ machineAmd64 then return false
    return (← accesses bytes 12 16) == bigobjMagic
  else return false

def parseHeader (bytes : List UInt8) : Parse Header :=
  if bytes.length < 20 then report "COFF object is smaller than the file header"
  else do
    if ← bigobjSignature bytes then
      let sectionCount ← readU32 bytes 44
      let symbolOffset ← readU32 bytes 48
      let symbolCount ← readU32 bytes 52
      return {
        bigobj := true
        sectionCount := sectionCount.toNat
        symbolOffset := symbolOffset.toNat
        symbolCount := symbolCount.toNat
        sectionTable := 56
        symbolSize := 20 }
    else if (← readU16 bytes 0).toNat ≠ machineAmd64 then
      report "ObLink currently supports AMD64 COFF objects only"
    else
      let sectionCount ← readU16 bytes 2
      let symbolOffset ← readU32 bytes 8
      let symbolCount ← readU32 bytes 12
      let optionalSize ← readU16 bytes 16
      return {
        bigobj := false
        sectionCount := sectionCount.toNat
        symbolOffset := symbolOffset.toNat
        symbolCount := symbolCount.toNat
        sectionTable := 20 + optionalSize.toNat
        symbolSize := 18 }

def stringSize (header : Header) (bytes : List UInt8) : Parse Nat :=
  if bytes.length < header.sectionTable + header.sectionCount * 40 then
    report "truncated COFF section table"
  else if bytes.length < header.symbolOffset ∨
      bytes.length - header.symbolOffset < header.symbolCount * header.symbolSize then
    report "invalid COFF symbol table"
  else if bytes.length < header.strings + 4 then report "COFF string table is missing"
  else do
    let size := (← readU32 bytes header.strings).toNat
    if size < 4 ∨ bytes.length - header.strings < size then
      report "invalid COFF string table size"
    else return size

/-! ## Sections -/

def parseRelocation (bytes : List UInt8) (start index : Nat) : Parse Relocation := do
  let virtualAddress ← readU32 bytes (start + index * 10)
  let symbolIndex ← readU32 bytes (start + index * 10 + 4)
  let type ← readU16 bytes (start + index * 10 + 8)
  return { virtualAddress, symbolIndex, type }

def relocationTable (bytes : List UInt8) (offset count : Nat) (characteristics : UInt32) :
    Parse (Nat × Nat) :=
  if count = 0xffff ∧ characteristics &&& 0x01000000 ≠ 0 then
    if bytes.length < offset ∨ bytes.length - offset < 10 then
      report "truncated extended COFF relocation count"
    else do
      let extended := (← readU32 bytes offset).toNat
      if extended = 0 then report "invalid extended COFF relocation count"
      else return (extended - 1, offset + 10)
  else return (count, offset)

def parseRelocations (bytes : List UInt8) (count start : Nat) : Parse (List Relocation) :=
  if count = 0 then return []
  else if bytes.length < start ∨ bytes.length - start < count * 10 then
    report "invalid COFF relocation table range"
  else (List.range count).mapM (parseRelocation bytes start)

def parseData (bytes : List UInt8) (virtualSize rawSize rawOffset : UInt32)
    (characteristics : UInt32) : Parse (List UInt8 × UInt32) :=
  if rawSize = 0 then return ([], virtualSize)
  else if characteristics &&& 0x00000080 ≠ 0 ∨ rawOffset = 0 then
    return ([], if virtualSize < rawSize then rawSize else virtualSize)
  else if bytes.length < rawOffset.toNat ∨
      bytes.length - rawOffset.toNat < rawSize.toNat then
    report "invalid COFF section data range"
  else do return (← accesses bytes rawOffset.toNat rawSize.toNat, virtualSize)

def parseSection (bytes : List UInt8) (header : Header) (stringSize entry : Nat) :
    Parse Section := do
  let name ← sectionName bytes entry header.strings stringSize
  let virtualSize ← readU32 bytes (entry + 8)
  let rawSize ← readU32 bytes (entry + 16)
  let rawOffset ← readU32 bytes (entry + 20)
  let relocationOffset ← readU32 bytes (entry + 24)
  let relocationCount ← readU16 bytes (entry + 32)
  let characteristics ← readU32 bytes (entry + 36)
  let (count, start) ← relocationTable bytes relocationOffset.toNat relocationCount.toNat
    characteristics
  let (data, virtualSize) ← parseData bytes virtualSize rawSize rawOffset characteristics
  let relocations ← parseRelocations bytes count start
  return { name, data, virtualSize, characteristics, relocations }

/-! ## Symbols -/

def weakExternal (bytes : List UInt8) (header : Header) (auxiliary : Nat) (symbol : Symbol) :
    Parse Symbol :=
  if symbol.storageClass = 105 ∧ symbol.auxiliaryCount ≠ 0 then
    if bytes.length < auxiliary + header.symbolSize then
      report "truncated weak-external auxiliary record"
    else do
      let weakDefaultIndex ← readU32 bytes auxiliary
      let weakCharacteristics ← readU32 bytes (auxiliary + 4)
      return { symbol with weakDefaultIndex, weakCharacteristics }
  else return symbol

def parseSymbol (bytes : List UInt8) (header : Header) (stringSize entry : Nat) :
    Parse Symbol := do
  let name ← symbolName bytes entry header.strings stringSize
  let value ← readU32 bytes (entry + 8)
  let sectionNumber ← readLe header.numberSize bytes (entry + 12)
  let type ← readU16 bytes (entry + 12 + header.numberSize)
  let storageClass ← access bytes (entry + 14 + header.numberSize)
  let auxiliaryCount ← access bytes (entry + 15 + header.numberSize)
  weakExternal bytes header (entry + header.symbolSize) {
    name, value, type, storageClass, auxiliaryCount
    sectionNumber := signed (8 * header.numberSize) sectionNumber }

def sectionDefinition (bytes : List UInt8) (header : Header) (auxiliary : Nat) (symbol : Symbol)
    (sections : List Section) : Parse (List Section) :=
  if symbol.storageClass = 3 ∧ 0 < symbol.sectionNumber ∧ symbol.value = 0 ∧ symbol.type = 0 ∧
      symbol.auxiliaryCount ≠ 0 then
    match sections[(symbol.sectionNumber - 1).toNat]? with
    | none => return sections
    | some section_ =>
      if bytes.length < auxiliary + header.symbolSize then
        report "truncated section-definition auxiliary record"
      else do
        let checksum ← readU32 bytes (auxiliary + 8)
        let low ← readU16 bytes (auxiliary + 12)
        let high ← readU16 bytes (auxiliary + 16)
        let selection ← access bytes (auxiliary + 14)
        return sections.set (symbol.sectionNumber - 1).toNat { section_ with
          comdatChecksum := checksum
          comdatAssociativeSection :=
            low.toUInt32 ||| (if header.bigobj then high.toUInt32 <<< 16 else 0)
          comdatSelection := selection }
  else return sections

def symbolAt (bytes : List UInt8) (header : Header) (stringSize index : Nat) : Parse Symbol :=
  parseSymbol bytes header stringSize (header.symbolOffset + index * header.symbolSize)

def parseSymbols (bytes : List UInt8) (header : Header) (stringSize : Nat) :
    Nat → Nat → Object → Parse Object
  | 0, _, object => .ok object
  | rounds + 1, index, object =>
    if header.symbolCount ≤ index then .ok object
    else do
      let symbol ← symbolAt bytes header stringSize index
      let sections ← sectionDefinition bytes header
        (header.symbolOffset + (index + 1) * header.symbolSize) symbol object.sections
      if symbol.auxiliaryCount ≠ 0 ∧
          header.symbolCount ≤ index + symbol.auxiliaryCount.toNat then
        report "COFF auxiliary symbol exceeds table"
      else
        parseSymbols bytes header stringSize rounds (index + 1 + symbol.auxiliaryCount.toNat)
          { object with sections, symbols := object.symbols.set index symbol }

/-! ## The object -/

def parse (bytes : List UInt8) (source : String) : Parse Object := do
  let header ← parseHeader bytes
  let stringSize ← stringSize header bytes
  let sections ← (List.range header.sectionCount).mapM fun index =>
    parseSection bytes header stringSize (header.sectionTable + index * 40)
  let object ← parseSymbols bytes header stringSize header.symbolCount 0
    { source, sections, symbols := List.replicate header.symbolCount {} }
  return { object with
    sections := (List.range object.symbols.length).foldl (leadComdat object.symbols)
      object.sections }

/-! ## Names and numbers are inside -/

theorem check_lift {α : Type} {condition : Prop} {_ : Decidable condition} {message : String}
    {checked : Parse α} {rest : PUnit → Coff.Parse α}
    (h : ¬ condition → checked = lift (rest ())) :
    (if condition then report message else checked) =
      lift (if condition then throw message >>= rest else rest ()) := by
  split
  · rfl
  · rename_i hnot
    exact h hnot

theorem checked_gives {α : Type} {post : α → Prop} {condition : Prop} {_ : Decidable condition}
    {message : String} {rest : PUnit → Coff.Parse α} (h : ¬ condition → Gives post (rest ())) :
    Gives post (if condition then throw message >>= rest else rest ()) := by
  split
  · exact Avoids.throw not_false
  · rename_i hnot
    exact h hnot

section
variable {bytes : List UInt8} {offset : Nat}

theorem readLe_eq (count : Nat) :
    readLe count bytes offset = lift (Coff.readLe count bytes offset) := by
  unfold readLe Coff.readLe
  split
  · rfl
  · rename_i hle
    rw [accesses_eq (Nat.not_lt.mp hle)]
    rfl

theorem readU16_eq : readU16 bytes offset = lift (Coff.readU16 bytes offset) := by
  unfold readU16 Coff.readU16
  rw [readLe_eq]
  exact bind_lift fun _ _ => rfl

theorem readU32_eq : readU32 bytes offset = lift (Coff.readU32 bytes offset) := by
  unfold readU32 Coff.readU32
  rw [readLe_eq]
  exact bind_lift fun _ _ => rfl

theorem shortString_eq (count : Nat) :
    shortString bytes offset count = .ok (Coff.shortString bytes offset count) := by
  unfold Coff.shortString
  induction count generalizing offset with
  | zero => rfl
  | succ count ih =>
    rw [shortString]
    split
    · rename_i hend
      rw [drop_eq_nil_of_le hend]
      rfl
    rename_i hlt
    rw [access_eq (Nat.not_le.mp hlt), drop_eq_getElem_cons (Nat.not_le.mp hlt)]
    change (if bytes[offset] = 0 then _ else _) = _
    rw [take_succ_cons, takeWhile_cons, ih]
    by_cases hzero : bytes[offset] = 0
    · rw [if_pos hzero, hzero]
      rfl
    · rw [if_neg hzero, if_pos (bne_iff_ne.mpr hzero)]
      rfl

theorem tableEntry_eq {count : Nat} (h : offset + count ≤ bytes.length) :
    tableEntry bytes offset count =
      if 0 ∈ (bytes.drop offset).take count
      then .ok (((bytes.drop offset).take count).takeWhile (· != 0))
      else report "unterminated COFF string-table entry" := by
  induction count generalizing offset with
  | zero => rfl
  | succ count ih =>
    have hlt : offset < bytes.length :=
      Nat.lt_of_lt_of_le (Nat.lt_add_of_pos_right (Nat.succ_pos count)) h
    have hrest : offset + 1 + count ≤ bytes.length := by rwa [Nat.add_assoc, Nat.add_comm 1]
    rw [tableEntry, access_eq hlt, drop_eq_getElem_cons hlt, take_succ_cons]
    change (if bytes[offset] = 0 then _ else _) = _
    by_cases hzero : bytes[offset] = 0
    · rw [if_pos hzero, if_pos (hzero ▸ mem_cons_self), takeWhile_cons, hzero]
      rfl
    rw [if_neg hzero, ih hrest, takeWhile_cons, if_pos (bne_iff_ne.mpr hzero)]
    by_cases hmem : 0 ∈ (bytes.drop (offset + 1)).take count
    · rw [if_pos hmem, if_pos (mem_cons_of_mem _ hmem)]
      rfl
    · rw [if_neg hmem, if_neg fun hcons => (mem_cons.mp hcons).elim
        (fun heq => hzero heq.symm) hmem]
      rfl

section

variable {strings size : Nat} (h : strings + size ≤ bytes.length)

include h

theorem tableString_eq :
    tableString bytes strings size offset = lift (Coff.tableString bytes strings size offset) := by
  unfold tableString Coff.tableString
  split
  · rfl
  rename_i hrange
  rw [not_or, Nat.not_lt, Nat.not_le] at hrange
  rw [tableEntry_eq (by omega)]
  simp only
  split
  · rfl
  · rfl

theorem symbolName_eq :
    symbolName bytes offset strings size = lift (Coff.symbolName bytes offset strings size) := by
  unfold symbolName Coff.symbolName
  rw [readU32_eq, readU32_eq]
  refine bind_lift fun zeroes _ => ?_
  by_cases hzero : zeroes ≠ 0
  · rw [if_pos hzero, if_pos hzero, shortString_eq]
    rfl
  · rw [if_neg hzero, if_neg hzero]
    exact bind_lift fun _ _ => tableString_eq h

theorem sectionName_eq :
    sectionName bytes offset strings size = lift (Coff.sectionName bytes offset strings size) := by
  unfold sectionName Coff.sectionName
  rw [shortString_eq]
  generalize Coff.shortString bytes offset 8 = name
  by_cases hslash : ∃ first digits, name = 47 :: first :: digits
  · -- a number behind a slash
    obtain ⟨first, digits, rfl⟩ := hslash
    change (match tableOffset (first :: digits) 0 with
      | some offset => tableString bytes strings size offset.toNat
      | none => Except.ok (47 :: first :: digits)) =
      lift (match tableOffset (first :: digits) 0 with
      | some offset => Coff.tableString bytes strings size offset.toNat
      | none => .ok (47 :: first :: digits))
    cases tableOffset (first :: digits) 0 with
    | some offset => exact tableString_eq h
    | none => rfl
  · have hname : ∀ first digits, name ≠ 47 :: first :: digits :=
      fun first digits heq => hslash ⟨first, digits, heq⟩
    refine Eq.trans (?_ : _ = lift (Except.ok name)) (congrArg lift ?_)
    · change (match name with
        | 47 :: first :: digits => _
        | name => Except.ok name) = Except.ok name
      split
      · exact absurd rfl (hname _ _)
      · rfl
    · split
      · exact absurd rfl (hname _ _)
      · rfl

end

/-! ## The header is inside -/

theorem bigobjSignature_eq : bigobjSignature bytes = .ok (Coff.bigobjSignature bytes) := by
  unfold bigobjSignature Coff.bigobjSignature
  split <;> rename_i hsize
  · have hrange {offset count : Nat} (h : offset + count ≤ 56) :
        (accesses bytes offset count : Parse (List UInt8)) = .ok ((bytes.drop offset).take count) :=
      accesses_eq (Nat.le_trans h hsize)
    rw [hrange (by decide), hrange (by decide), hrange (by decide), hrange (by decide),
      decide_eq_true hsize]
    change (if bytes.take 4 ≠ [0, 0, 0xff, 0xff] then _ else _) = _
    by_cases hfront : bytes.take 4 = [0, 0, 0xff, 0xff]
    · rw [if_neg (not_not_intro hfront), hfront]
      change (if ofLittleEndian ((bytes.drop 4).take 2) < 2 ∨
        ofLittleEndian ((bytes.drop 6).take 2) ≠ machineAmd64 then _ else _) = _
      split <;> rename_i hver
      · refine congrArg Except.ok ?_
        rcases hver with hver | hmachine
        · simp [Nat.not_le.mpr hver]
        · simp [hmachine]
      · rw [not_or, Nat.not_lt, not_not] at hver
        refine congrArg Except.ok ?_
        simp [hver.1, hver.2]
    · rw [if_pos hfront]
      refine congrArg Except.ok ?_
      simp [hfront]
  · rw [decide_eq_false hsize]
    rfl

theorem parseHeader_eq : parseHeader bytes = lift (Coff.parseHeader bytes) := by
  unfold parseHeader Coff.parseHeader
  rw [bigobjSignature_eq]
  split
  · rfl
  change (if Coff.bigobjSignature bytes = true then _ else _) = _
  split
  · rw [readU32_eq, readU32_eq, readU32_eq]
    exact bind_lift fun _ _ => bind_lift fun _ _ => bind_lift fun _ _ => rfl
  rw [readU16_eq, readU16_eq, readU32_eq, readU32_eq, readU16_eq]
  refine bind_lift fun machine _ => ?_
  split
  · rfl
  · exact bind_lift fun _ _ => bind_lift fun _ _ => bind_lift fun _ _ => bind_lift fun _ _ =>
      rfl

/-! ## Sections are inside -/

theorem parseRelocation_eq {start index : Nat} :
    parseRelocation bytes start index = lift (Coff.parseRelocation bytes start index) := by
  unfold parseRelocation Coff.parseRelocation
  rw [readU32_eq, readU32_eq, readU16_eq]
  exact bind_lift fun _ _ => bind_lift fun _ _ => bind_lift fun _ _ => rfl

theorem relocationTable_eq {count : Nat} {characteristics : UInt32} :
    relocationTable bytes offset count characteristics =
      lift (Coff.relocationTable bytes offset count characteristics) := by
  unfold relocationTable Coff.relocationTable
  rw [readU32_eq]
  split
  · split
    · rfl
    · exact bind_lift fun extended _ => check_lift fun _ => rfl
  · rfl

theorem parseRelocations_eq {count start : Nat} :
    parseRelocations bytes count start = lift (Coff.parseRelocations bytes count start) := by
  unfold parseRelocations Coff.parseRelocations
  split
  · rfl
  · split
    · rfl
    · exact mapM_lift fun index _ => parseRelocation_eq

theorem parseData_eq {virtualSize rawSize rawOffset characteristics : UInt32} :
    parseData bytes virtualSize rawSize rawOffset characteristics =
      lift (Coff.parseData bytes virtualSize rawSize rawOffset characteristics) := by
  unfold parseData Coff.parseData
  split
  · rfl
  split
  · rfl
  split
  · rfl
  rename_i hrange
  rw [not_or, Nat.not_lt, Nat.not_lt] at hrange
  rw [accesses_eq (by omega)]
  rfl

theorem parseSection_eq {header : Header} {size entry : Nat}
    (h : header.strings + size ≤ bytes.length) :
    parseSection bytes header size entry = lift (Coff.parseSection bytes header size entry) := by
  unfold parseSection Coff.parseSection
  rw [sectionName_eq h, readU32_eq, readU32_eq, readU32_eq, readU32_eq, readU16_eq, readU32_eq]
  refine bind_lift fun name _ => bind_lift fun virtualSize _ => bind_lift fun rawSize _ =>
    bind_lift fun rawOffset _ => bind_lift fun relocationOffset _ =>
    bind_lift fun relocationCount _ => bind_lift fun characteristics _ => ?_
  rw [relocationTable_eq]
  refine bind_lift fun table _ => ?_
  rw [parseData_eq]
  refine bind_lift fun data _ => ?_
  rw [parseRelocations_eq]
  exact bind_lift fun _ _ => rfl

end

/-! ## Symbols are inside -/

/-- The tables that the checks of the header have found inside the input. -/
structure Fits (bytes : List UInt8) (header : Header) (size : Nat) : Prop where
  sections : header.sectionTable + header.sectionCount * 40 ≤ bytes.length
  symbols : header.symbolOffset + header.symbolCount * header.symbolSize ≤ bytes.length
  strings : header.strings + size ≤ bytes.length
  record : header.symbolSize = 16 + header.numberSize
  enough : 4 ≤ size

section
variable {bytes : List UInt8} {header : Header} {size : Nat}

theorem symbolSize_eq (h : Coff.parseHeader bytes = .ok header) :
    header.symbolSize = 16 + header.numberSize := by
  have hgives : Gives (fun header => header.symbolSize = 16 + header.numberSize)
      (Coff.parseHeader bytes) := by
    unfold Coff.parseHeader
    refine checked_gives fun _ => ?_
    split
    · exact (Avoids.trivial _).andThen fun _ => (Avoids.trivial _).andThen fun _ =>
        (Avoids.trivial _).andThen fun _ => Avoids.pure rfl
    · refine (Avoids.trivial _).andThen fun machine => checked_gives fun _ => ?_
      exact (Avoids.trivial _).andThen fun _ => (Avoids.trivial _).andThen fun _ =>
        (Avoids.trivial _).andThen fun _ => (Avoids.trivial _).andThen fun _ => Avoids.pure rfl
  exact hgives.value h

theorem fits (hheader : Coff.parseHeader bytes = .ok header)
    (hsize : header.stringSize bytes = .ok size) : Fits bytes header size := by
  have hgives : Gives (Fits bytes header) (header.stringSize bytes) := by
    unfold Header.stringSize
    refine checked_gives fun hsecs => checked_gives fun hsyms => checked_gives fun _ => ?_
    refine (Avoids.trivial _).andThen fun read => checked_gives fun hrange => Avoids.pure ?_
    rw [not_or, Nat.not_lt, Nat.not_lt] at hsyms hrange
    exact ⟨Nat.not_lt.mp hsecs, by omega, by omega, symbolSize_eq hheader, hrange.1⟩
  exact hgives.value hsize

theorem stringSize_eq : stringSize header bytes = lift (header.stringSize bytes) := by
  unfold stringSize Header.stringSize
  rw [readU32_eq]
  refine check_lift fun _ => check_lift fun _ => check_lift fun _ => ?_
  exact bind_lift fun read _ => check_lift fun _ => rfl

theorem weakExternal_eq {auxiliary : Nat} {symbol : Symbol} :
    weakExternal bytes header auxiliary symbol =
      lift (Coff.weakExternal bytes header auxiliary symbol) := by
  unfold weakExternal Coff.weakExternal
  rw [readU32_eq, readU32_eq]
  split
  · split
    · rfl
    · exact bind_lift fun _ _ => bind_lift fun _ _ => rfl
  · rfl

theorem symbolAt_eq (h : Fits bytes header size) {index : Nat}
    (hidx : index < header.symbolCount) :
    symbolAt bytes header size index = lift (Coff.symbolAt bytes header size index) := by
  have hrecord : header.symbolOffset + index * header.symbolSize + header.symbolSize ≤
      bytes.length := by
    have hcount : (index + 1) * header.symbolSize ≤ header.symbolCount * header.symbolSize :=
      Nat.mul_le_mul_right _ hidx
    rw [Nat.add_mul, Nat.one_mul] at hcount
    have hsyms := h.symbols
    omega
  have hwidth := h.record
  unfold symbolAt Coff.symbolAt parseSymbol Coff.parseSymbol
  rw [symbolName_eq h.strings, readU32_eq, readLe_eq, readU16_eq]
  refine bind_lift fun name _ => bind_lift fun value _ => bind_lift fun number _ =>
    bind_lift fun type _ => ?_
  -- the class and the count are in the record of the symbol
  have hclass : header.symbolOffset + index * header.symbolSize + 14 + header.numberSize <
      bytes.length := by omega
  have hcount : header.symbolOffset + index * header.symbolSize + 15 + header.numberSize <
      bytes.length := by omega
  rw [access_eq hclass, access_eq hcount]
  unfold byteAt
  rw [getD_eq_getElem _ _ hclass, getD_eq_getElem _ _ hcount]
  exact weakExternal_eq

theorem sectionDefinition_eq (h : Fits bytes header size) {auxiliary : Nat} {symbol : Symbol}
    {sections : List Section} :
    sectionDefinition bytes header auxiliary symbol sections =
      lift (Coff.sectionDefinition bytes header auxiliary symbol sections) := by
  unfold sectionDefinition Coff.sectionDefinition
  rw [readU32_eq, readU16_eq, readU16_eq]
  split
  · cases sections[(symbol.sectionNumber - 1).toNat]? with
    | none => rfl
    | some section_ =>
      refine check_lift fun hrange => ?_
      have hwidth := h.record
      have hselection : auxiliary + 14 < bytes.length := by omega
      refine bind_lift fun checksum _ => bind_lift fun low _ => bind_lift fun high _ => ?_
      rw [access_eq hselection]
      unfold byteAt
      rw [getD_eq_getElem _ _ hselection]
      rfl
  · rfl

theorem parseSymbols_eq (h : Fits bytes header size) : ∀ {rounds index : Nat} {object : Object},
    parseSymbols bytes header size rounds index object =
      lift (Coff.parseSymbols bytes header size rounds index object)
  | 0, _, _ => rfl
  | rounds + 1, index, object => by
    unfold parseSymbols Coff.parseSymbols
    split
    · rfl
    rename_i hidx
    rw [symbolAt_eq h (Nat.not_le.mp hidx)]
    refine bind_lift fun symbol _ => ?_
    rw [sectionDefinition_eq h]
    exact bind_lift fun sections _ => check_lift fun _ => parseSymbols_eq h

/-- **With checked accesses the parser does the same**, whatever the input. -/
theorem parse_eq (source : String) : parse bytes source = lift (Coff.parse bytes source) := by
  unfold parse Coff.parse
  rw [parseHeader_eq]
  refine bind_lift fun header hheader => ?_
  rw [stringSize_eq]
  refine bind_lift fun size hsize => ?_
  have hfits := fits hheader hsize
  rw [mapM_lift fun index _ => parseSection_eq hfits.strings]
  refine bind_lift fun sections _ => ?_
  rw [parseSymbols_eq hfits]
  exact bind_lift fun _ _ => rfl

end

end Checked

end Raz.Oblink.Coff
