import Mathlib.Data.List.TakeWhile
import Raz.Lib.Outcome
import Raz.Lib.Placed
import Raz.Oblink.Coff

/-!
# What the COFF parser reads

Each reader of the parser, from what stands in the file at its offset; and what every parsed object
satisfies, whatever the file.

Result: `parse_limited`: the limits of every parsed object.
-/

namespace Raz.Oblink.Coff

open Codec Outcome Placed List Avoids

variable {value strings size zeros stringSize : Nat} {name : List UInt8} {α : Type}
  {characteristics : UInt32} {header : Header} {sections : List Section}

/-! ## Numbers -/

section
variable {bytes : List UInt8} {offset : Nat}

theorem readLe_at {count : Nat} (h : At bytes offset (littleEndian count value)) :
    readLe count bytes offset = .ok (value % 256 ^ count) := by
  have hle := h.le
  have hslice := h.slice
  rw [length_littleEndian] at hle hslice
  unfold readLe
  rw [if_neg (Nat.not_lt.mpr hle), hslice, ofLittleEndian_littleEndian]

theorem readU32_at (h : At bytes offset (littleEndian 4 value)) :
    readU32 bytes offset = .ok (UInt32.ofNat value) := by
  have hval : UInt32.ofNat (value % 256 ^ 4) = UInt32.ofNat value :=
    UInt32.toNat_inj.mp (Nat.mod_mod value _)
  unfold readU32
  rw [readLe_at h, ← hval]
  rfl

theorem readU16_at (h : At bytes offset (littleEndian 2 value)) :
    readU16 bytes offset = .ok (UInt16.ofNat value) := by
  have hval : UInt16.ofNat (value % 256 ^ 2) = UInt16.ofNat value :=
    UInt16.toNat_inj.mp (Nat.mod_mod value _)
  unfold readU16
  rw [readLe_at h, ← hval]
  rfl

/-! ## Names -/

theorem takeWhile_name {rest : List UInt8} (h : 0 ∉ name) :
    (name ++ 0 :: rest).takeWhile (· != 0) = name := by
  rw [takeWhile_append_of_pos]
  · exact append_nil name
  · intro byte hbyte
    exact bne_iff_ne.mpr fun heq => h (heq ▸ hbyte)

theorem takeWhile_padded (h : 0 ∉ name) (zeros : Nat) :
    (name ++ List.replicate zeros 0).takeWhile (· != 0) = name := by
  cases zeros with
  | zero =>
    rw [replicate_zero, append_nil]
    exact takeWhile_eq_self_iff.mpr fun byte hbyte =>
      bne_iff_ne.mpr fun heq => h (heq ▸ hbyte)
  | succ zeros => exact takeWhile_name h

theorem shortString_at {part : List UInt8} (h : At bytes offset part) :
    shortString bytes offset part.length = part.takeWhile (· != 0) := by
  unfold shortString
  rw [h.slice]

theorem tableString_at (h : At bytes (strings + offset) (name ++ [0])) (hname : 0 ∉ name)
    (hoff : 4 ≤ offset) (hsize : offset + name.length < size) :
    tableString bytes strings size offset = .ok name := by
  obtain ⟨back, hdrop⟩ := h.drop
  obtain ⟨room, hroom⟩ := Nat.exists_eq_add_of_lt hsize
  have hentry : (bytes.drop (strings + offset)).take (size - offset) =
      name ++ 0 :: back.take room := by
    have hcount : size - offset = (name ++ [0]).length + room := by
      rw [length_append, length_singleton]
      omega
    rw [hdrop, hcount, take_length_add_append, append_assoc]
    rfl
  unfold tableString
  rw [if_neg (by omega)]
  change (if 0 ∈ (bytes.drop (strings + offset)).take (size - offset) then _ else _ :
    Parse Text) = _
  rw [hentry, if_pos (mem_append_right _ mem_cons_self), takeWhile_name hname]

/-- A name is not found in a table that ends before the zero behind it. -/
theorem tableString_cut (h : At bytes (strings + offset) name) (hname : 0 ∉ name)
    (hsize : size ≤ offset + name.length) :
    ∃ message, tableString bytes strings size offset = .error message := by
  unfold tableString
  split
  · exact ⟨_, rfl⟩
  obtain ⟨back, hdrop⟩ := h.drop
  have hentry : 0 ∉ (bytes.drop (strings + offset)).take (size - offset) := by
    rw [hdrop, take_append_of_le_length (Nat.sub_le_iff_le_add'.mpr hsize)]
    exact fun hmem => hname (mem_of_mem_take hmem)
  change ∃ message, (if 0 ∈ (bytes.drop (strings + offset)).take (size - offset) then _ else _ :
    Parse Text) = .error message
  rw [if_neg hentry]
  exact ⟨_, rfl⟩

theorem symbolName_short (h : At bytes offset (name ++ List.replicate zeros 0))
    (hlen : name.length + zeros = 8) (hname : 0 ∉ name) (hne : name ≠ []) :
    symbolName bytes offset strings size = .ok name := by
  have hsize : (name ++ List.replicate zeros 0).length = 8 := by
    rw [length_append, length_replicate, hlen]
  have hshort : shortString bytes offset 8 = name := by
    rw [← hsize, shortString_at h, takeWhile_padded hname]
  obtain ⟨first, rest, rfl⟩ := exists_cons_of_ne_nil hne
  obtain ⟨back, hdrop⟩ := h.drop
  have hfirst : first.toNat ≠ 0 := fun heq =>
    hname (UInt8.toNat_inj.mp (heq.trans rfl : first.toNat = (0 : UInt8).toNat) ▸
      mem_cons_self)
  -- the first byte alone makes the first four no number zero
  have hle := h.le
  rw [hsize] at hle
  have hread : ∃ value, readU32 bytes offset = .ok value ∧ value ≠ 0 := by
    unfold readU32 readLe
    rw [if_neg (by omega), hdrop]
    refine ⟨_, rfl, fun hzero => hfirst ?_⟩
    have hnat : (first.toNat + 256 * ofLittleEndian
        (((rest ++ List.replicate zeros 0) ++ back).take 3)) % 2 ^ 32 = 0 :=
      congrArg UInt32.toNat hzero
    have hlt := first.toNat_lt
    omega
  obtain ⟨value, hread, hval⟩ := hread
  unfold symbolName
  rw [hread]
  change (if value ≠ 0 then pure (shortString bytes offset 8) else _ : Parse Text) = _
  rw [if_pos hval, hshort]
  rfl

theorem symbolName_long {tableOffset : Nat}
    (h : At bytes offset (littleEndian 4 0 ++ littleEndian 4 tableOffset))
    (hlt : tableOffset < 2 ^ 32) :
    symbolName bytes offset strings size = tableString bytes strings size tableOffset := by
  have hzero := readU32_at h.left
  have hoff := readU32_at (h.skip (length_littleEndian _ _))
  unfold symbolName
  rw [hzero, hoff]
  change tableString bytes strings size (UInt32.ofNat tableOffset).toNat = _
  exact congrArg (tableString bytes strings size) (Nat.mod_eq_of_lt hlt)

/-! ## Relocations and data -/

theorem mapM_range_ok {f : Nat → Parse α} {items : List α}
    (h : ∀ index item, items[index]? = some item → f index = .ok item) :
    (List.range items.length).mapM f = .ok items := by
  induction items generalizing f with
  | nil => rfl
  | cons item items ih =>
    have hrest : (List.range items.length).mapM (fun index => f (index + 1)) = .ok items :=
      ih fun index other hother => h (index + 1) other hother
    rw [length_cons, range_succ_eq_map, mapM_cons, h 0 item rfl, List.mapM_map]
    change ((List.range items.length).mapM (fun index => f (index + 1)) >>= _) = _
    rw [hrest]
    rfl

def Relocation.encoded (relocation : Relocation) : List UInt8 :=
  littleEndian 4 relocation.virtualAddress.toNat ++
    (littleEndian 4 relocation.symbolIndex.toNat ++ littleEndian 2 relocation.type.toNat)

theorem Relocation.length_encoded (relocation : Relocation) : relocation.encoded.length = 10 := by
  simp [Relocation.encoded]

theorem parseRelocations_at {start : Nat} {relocations : List Relocation}
    (h : At bytes start (relocations.flatMap Relocation.encoded)) :
    parseRelocations bytes relocations.length start = .ok relocations := by
  have hle := h.le
  have hlen : (relocations.flatMap Relocation.encoded).length = relocations.length * 10 := by
    rw [length_flatMap]
    simp only [Relocation.length_encoded, map_const', sum_replicate_nat]
  rw [hlen] at hle
  unfold parseRelocations
  by_cases hzero : relocations.length = 0
  · rw [if_pos hzero, length_eq_zero_iff.mp hzero]
    rfl
  rw [if_neg hzero, if_neg (by omega)]
  refine mapM_range_ok fun index relocation hidx => ?_
  have hitem := At.item (fun other _ => Relocation.length_encoded other) h hidx
  have haddr := readU32_at hitem.left
  have hsym := readU32_at (hitem.skip (length_littleEndian _ _)).left
  have htype := readU16_at ((hitem.skip (length_littleEndian _ _)).skip (length_littleEndian _ _))
  unfold parseRelocation
  rw [haddr, hsym, htype, UInt32.ofNat_toNat, UInt32.ofNat_toNat, UInt16.ofNat_toNat]
  rfl

theorem parseData_at {data : List UInt8} {rawOffset : UInt32} (h : At bytes rawOffset.toNat data)
    (hlt : data.length < 2 ^ 32) (hoff : rawOffset ≠ 0)
    (hflag : characteristics &&& 0x00000080 = 0) :
    parseData bytes 0 (UInt32.ofNat data.length) rawOffset characteristics = .ok (data, 0) := by
  have hle := h.le
  have hsize : (UInt32.ofNat data.length).toNat = data.length := Nat.mod_eq_of_lt hlt
  unfold parseData
  by_cases hzero : data.length = 0
  · rw [length_eq_zero_iff.mp hzero]
    rfl
  have hne : UInt32.ofNat data.length ≠ 0 := fun heq =>
    hzero (hsize.symm.trans (congrArg UInt32.toNat heq))
  rw [if_neg hne, if_neg (not_or.mpr ⟨not_not_intro hflag, hoff⟩), hsize,
    if_neg (by omega), h.slice]

/-! ## Sections -/

/-- The entry of the section table of an object file. -/
def sectionEntry (name : List UInt8) (size : Nat) (rawOffset relocationOffset : UInt32)
    (relocations : Nat) (characteristics : UInt32) : List UInt8 :=
  name ++ (littleEndian 4 0 ++ (littleEndian 4 0 ++ (littleEndian 4 size ++
    (littleEndian 4 rawOffset.toNat ++ (littleEndian 4 relocationOffset.toNat ++
    (littleEndian 4 0 ++ (littleEndian 2 relocations ++ (littleEndian 2 0 ++
    littleEndian 4 characteristics.toNat))))))))

theorem sectionName_at (h : At bytes offset (name ++ List.replicate zeros 0))
    (hlen : name.length + zeros = 8) (hname : 0 ∉ name) (hslash : name.head? ≠ some 47) :
    sectionName bytes offset strings size = .ok name := by
  have hsize : (name ++ List.replicate zeros 0).length = 8 := by
    rw [length_append, length_replicate, hlen]
  have hshort : shortString bytes offset 8 = name := by
    rw [← hsize, shortString_at h, takeWhile_padded hname]
  unfold sectionName
  rw [hshort]
  split
  · exact absurd rfl hslash
  · rfl

/-- A section of which the entry, the data and the relocations stand where the entry says. -/
theorem parseSection_at {entry : Nat} {data : List UInt8} {rawOffset relocationOffset : UInt32}
    {relocations : List Relocation} (hentry : At bytes entry (sectionEntry (name ++ List.replicate
      zeros 0) data.length rawOffset relocationOffset relocations.length characteristics))
    (hlen : name.length + zeros = 8) (hname : 0 ∉ name) (hslash : name.head? ≠ some 47)
    (hdata : At bytes rawOffset.toNat data) (hlt : data.length < 2 ^ 32) (hoff : rawOffset ≠ 0)
    (hrelocs : relocations ≠ [] → At bytes relocationOffset.toNat (relocations.flatMap
      Relocation.encoded)) (hcount : relocations.length < 2 ^ 16)
    (hflag : characteristics &&& 0x00000080 = 0) (hoverflow : characteristics &&& 0x01000000 = 0) :
    parseSection bytes header stringSize entry =
      .ok { name, data, characteristics, relocations } := by
  have hsize : (name ++ List.replicate zeros 0).length = 8 := by
    rw [length_append, length_replicate, hlen]
  unfold sectionEntry at hentry
  have h8 := hentry.skip hsize
  have h12 := h8.skip (length_littleEndian 4 _)
  have h16 := h12.skip (length_littleEndian 4 _)
  have h20 := h16.skip (length_littleEndian 4 _)
  have h24 := h20.skip (length_littleEndian 4 _)
  have h28 := h24.skip (length_littleEndian 4 _)
  have h32 := h28.skip (length_littleEndian 4 _)
  have h34 := h32.skip (length_littleEndian 2 _)
  have h36 := h34.skip (length_littleEndian 2 _)
  have htable : relocationTable bytes relocationOffset.toNat relocations.length characteristics =
      .ok (relocations.length, relocationOffset.toNat) := by
    unfold relocationTable
    rw [if_neg fun h => h.2 hoverflow]
    rfl
  have hparsed : parseRelocations bytes relocations.length relocationOffset.toNat =
      .ok relocations := by
    by_cases hnil : relocations = []
    · rw [hnil]
      rfl
    · exact parseRelocations_at (hrelocs hnil)
  have hcast : (UInt16.ofNat relocations.length).toNat = relocations.length :=
    Nat.mod_eq_of_lt hcount
  unfold parseSection
  rw [sectionName_at hentry.left hlen hname hslash, readU32_at h8.left, readU32_at h16.left,
    readU32_at h20.left, readU32_at h24.left, readU16_at h32.left, readU32_at h36,
    UInt32.ofNat_toNat, UInt32.ofNat_toNat, UInt32.ofNat_toNat]
  change (relocationTable bytes relocationOffset.toNat (UInt16.ofNat relocations.length).toNat
    characteristics >>= _) = _
  rw [hcast, htable]
  change (parseData bytes 0 (UInt32.ofNat data.length) rawOffset characteristics >>= _) = _
  rw [parseData_at hdata hlt hoff hflag]
  change (parseRelocations bytes relocations.length relocationOffset.toNat >>= _) = _
  rw [hparsed]
  rfl

/-! ## Symbols -/

/-- The entry of a symbol without auxiliary records, behind its name. -/
def symbolEntry (value : UInt32) (sectionNumber type : UInt16) (storageClass : UInt8) :
    List UInt8 :=
  littleEndian 4 value.toNat ++ (littleEndian 2 sectionNumber.toNat ++
    (littleEndian 2 type.toNat ++ [storageClass, 0]))

/-- A symbol of which the name is read, and the rest stands behind it. -/
theorem parseSymbol_at {entry : Nat} {value : UInt32} {sectionNumber type : UInt16}
    {storageClass : UInt8} (hsmall : header.bigobj = false)
    (hentry : At bytes (entry + 8) (symbolEntry value sectionNumber type storageClass)) :
    parseSymbol bytes header stringSize entry =
      (fun name : Text => { name, value, type, storageClass
                            sectionNumber := signed 16 sectionNumber.toNat : Symbol }) <$>
        symbolName bytes entry header.strings stringSize := by
  have hwidth : header.numberSize = 2 := by
    unfold Header.numberSize
    rw [hsmall]
    rfl
  unfold symbolEntry at hentry
  have h12 := hentry.skip (length_littleEndian 4 _)
  have h14 := h12.skip (length_littleEndian 2 _)
  have h16 := h14.skip (length_littleEndian 2 _)
  have h17 : At bytes (entry + 16) ([storageClass] ++ [0]) := h16
  have hclass : byteAt bytes (entry + 16) = storageClass := h16.getD 0
  have hcount : byteAt bytes (entry + 17) = 0 := h17.right.getD 0
  have hmod : sectionNumber.toNat % 256 ^ 2 = sectionNumber.toNat :=
    Nat.mod_eq_of_lt sectionNumber.toNat_lt
  have hnum := readLe_at h12.left
  rw [hmod] at hnum
  have hplain (symbol : Symbol) (hzero : symbol.auxiliaryCount = 0) :
      weakExternal bytes header (entry + header.symbolSize) symbol = .ok symbol := by
    unfold weakExternal
    rw [if_neg fun h => h.2 hzero]
    rfl
  unfold parseSymbol
  rw [hwidth, readU32_at hentry.left, UInt32.ofNat_toNat]
  cases symbolName bytes entry header.strings stringSize with
  | error message => rfl
  | ok name =>
    change (readLe 2 bytes (entry + 12) >>= fun number =>
      readU16 bytes (entry + 14) >>= fun type =>
      weakExternal bytes header (entry + header.symbolSize) {
        name, value, type
        sectionNumber := signed 16 number
        storageClass := byteAt bytes (entry + 16)
        auxiliaryCount := byteAt bytes (entry + 17) }) = _
    rw [hnum, readU16_at h14.left, UInt16.ofNat_toNat, hclass, hcount]
    exact hplain _ rfl

/-- Without auxiliary records the table is read entry by entry. -/
theorem parseSymbols_plain (hplain : ∀ index symbol, index < header.symbolCount → symbolAt bytes
      header stringSize index = .ok symbol → symbol.auxiliaryCount = 0) :
    ∀ (rounds index : Nat) (object : Object) (done : List Symbol),
      object.symbols = done ++ List.replicate rounds ({} : Symbol) → done.length = index →
      index + rounds = header.symbolCount →
      parseSymbols bytes header stringSize rounds index object =
        (fun rest => { object with symbols := done ++ rest }) <$>
          (List.range' index rounds).mapM (symbolAt bytes header stringSize) := by
  intro rounds
  induction rounds with
  | zero =>
    intro index object done hsyms _ _
    rw [replicate_zero] at hsyms
    change Except.ok object = Except.ok { object with symbols := done ++ [] }
    rw [← hsyms]
  | succ rounds ih =>
    intro index object done hsyms hdone hcount
    have hlt : index < header.symbolCount := hcount ▸ Nat.lt_add_of_pos_right (Nat.succ_pos rounds)
    rw [range'_succ, mapM_cons]
    unfold parseSymbols
    rw [if_neg (Nat.not_le.mpr hlt)]
    cases hsym : symbolAt bytes header stringSize index with
    | error message => rfl
    | ok symbol =>
      have hzero := hplain index symbol hlt hsym
      have hsecs : sectionDefinition bytes header
          (header.symbolOffset + (index + 1) * header.symbolSize) symbol object.sections =
          .ok object.sections := by
        unfold sectionDefinition
        rw [if_neg fun h => h.2.2.2.2 hzero]
        rfl
      have hset : object.symbols.set index symbol =
          (done ++ [symbol]) ++ List.replicate rounds ({} : Symbol) := by
        rw [hsyms, replicate_succ, set_append_right _ _ (Nat.le_of_eq hdone), hdone,
          Nat.sub_self, append_assoc]
        rfl
      have hrest := ih (index + 1) { object with symbols := object.symbols.set index symbol }
        (done ++ [symbol]) hset (by rw [length_append, hdone]; rfl)
        (by rw [← hcount, Nat.add_assoc, Nat.add_comm 1])
      change (sectionDefinition bytes header
        (header.symbolOffset + (index + 1) * header.symbolSize) symbol object.sections >>= _) = _
      rw [hsecs]
      change (if symbol.auxiliaryCount ≠ 0 ∧
        header.symbolCount ≤ index + symbol.auxiliaryCount.toNat then _ else _ : Parse Object) = _
      rw [if_neg fun h => h.1 hzero, hzero]
      change parseSymbols bytes header stringSize rounds (index + 1)
        { object with symbols := object.symbols.set index symbol } = _
      rw [hrest]
      change _ = (fun rest => { object with symbols := done ++ rest }) <$>
        ((List.range' (index + 1) rounds).mapM (symbolAt bytes header stringSize) >>=
          fun rest => Except.ok (symbol :: rest))
      cases (List.range' (index + 1) rounds).mapM (symbolAt bytes header stringSize) with
      | error message => rfl
      | ok rest =>
        change Except.ok { object with symbols := (done ++ [symbol]) ++ rest } =
          Except.ok { object with symbols := done ++ symbol :: rest }
        rw [append_assoc]
        rfl

/-! ## Leaders -/

theorem leadComdat_plain {symbols : List Symbol}
    (h : ∀ section_ ∈ sections, section_.isComdat = false) (index : Nat) :
    leadComdat symbols sections index = sections := by
  unfold leadComdat
  split
  · rfl
  split
  · rfl
  split
  · rfl
  · rename_i section_ hget
    rw [h section_ (mem_of_getElem? hget)]
    rfl

/-! ## The file header -/

/-- The header of an object file without an optional header. -/
def fileHeader (sectionCount symbolOffset symbolCount : Nat) : List UInt8 :=
  littleEndian 2 machineAmd64 ++ (littleEndian 2 sectionCount ++ (littleEndian 4 0 ++
    (littleEndian 4 symbolOffset ++ (littleEndian 4 symbolCount ++
    (littleEndian 2 0 ++ littleEndian 2 0)))))

theorem parseHeader_at {sectionCount symbolOffset symbolCount : Nat}
    (h : At bytes 0 (fileHeader sectionCount symbolOffset symbolCount))
    (hsecs : sectionCount < 2 ^ 16) (hoff : symbolOffset < 2 ^ 32)
    (hsyms : symbolCount < 2 ^ 32) :
    parseHeader bytes = .ok {
      bigobj := false, sectionCount, symbolOffset, symbolCount, sectionTable := 20
      symbolSize := 18 } := by
  have hle : 20 ≤ bytes.length := h.le
  unfold fileHeader at h
  have h2 := h.skip (length_littleEndian 2 _)
  have h4 := h2.skip (length_littleEndian 2 _)
  have h8 := h4.skip (length_littleEndian 4 _)
  have h12 := h8.skip (length_littleEndian 4 _)
  have h16 := h12.skip (length_littleEndian 4 _)
  have hmachine := readU16_at h.left
  have hcount := readU16_at h2.left
  have htable := readU32_at h8.left
  have hnum := readU32_at h12.left
  have hoptional := readU16_at h16.left
  -- the first byte is that of the machine, and a big object starts with a zero
  have hsmall : bigobjSignature bytes = false := by
    obtain ⟨back, hdrop⟩ := h.left.drop
    rw [drop_zero] at hdrop
    unfold bigobjSignature
    rw [hdrop]
    exact Bool.and_false _
  unfold parseHeader
  rw [hsmall, hmachine, hcount, hnum, hoptional, if_neg (Nat.not_lt.mpr hle)]
  change (readU32 bytes 8 >>= fun offset => .ok ({
      bigobj := false
      sectionCount := sectionCount % 2 ^ 16
      symbolOffset := offset.toNat
      symbolCount := symbolCount % 2 ^ 32
      sectionTable := 20
      symbolSize := 18 } : Header)) = _
  rw [htable, Nat.mod_eq_of_lt hsecs, Nat.mod_eq_of_lt hsyms]
  change Except.ok ({
      bigobj := false
      sectionCount := sectionCount
      symbolOffset := symbolOffset % 2 ^ 32
      symbolCount := symbolCount
      sectionTable := 20
      symbolSize := 18 } : Header) = _
  rw [Nat.mod_eq_of_lt hoff]

theorem stringSize_at {strings : List UInt8}
    (hsecs : header.sectionTable + header.sectionCount * 40 ≤ bytes.length)
    (h : At bytes header.strings (littleEndian 4 size ++ strings)) (hlt : size < 2 ^ 32)
    (hmin : 4 ≤ size) (hmax : size ≤ strings.length + 4) :
    header.stringSize bytes = .ok size := by
  have hle := h.le
  rw [length_append, length_littleEndian] at hle
  have hread := readU32_at h.left
  have hstrs : header.strings = header.symbolOffset + header.symbolCount * header.symbolSize :=
    rfl
  unfold Header.stringSize
  rw [if_neg (Nat.not_lt.mpr hsecs), if_neg (by omega), if_neg (by omega), hread]
  change (if size % 2 ^ 32 < 4 ∨ bytes.length - header.strings < size % 2 ^ 32 then _ else
    .ok (size % 2 ^ 32) : Parse Nat) = _
  rw [Nat.mod_eq_of_lt hlt, if_neg (by omega)]

/-! ## Limits of parsed objects -/

/-- More than 65535 relocations come with the flag of the overflow record. -/
def Section.Counted (section_ : Section) : Prop :=
  section_.relocations.length < 2 ^ 16 ∨ section_.characteristics &&& 0x01000000 ≠ 0

/-- Whatever the bytes, if there is a value it satisfies this. -/
abbrev Gives (post : α → Prop) (x : Parse α) : Prop := Avoids (fun _ => False) post x

theorem check_gives {post : α → Prop} {condition : Prop} {_ : Decidable condition}
    {message : String} {rest : PUnit → Parse α} (h : Gives post (rest ())) :
    Gives post (if condition then throw message >>= rest else rest ()) := by
  split
  · exact throw not_false
  · exact h

theorem mapM_gives {β : Type} {f : β → Parse α} {post : α → Prop} {items : List β}
    (h : ∀ item, Gives post (f item)) :
    Gives (fun values => ∀ value ∈ values, post value) (items.mapM f) := by
  induction items with
  | nil => exact pure (forall_mem_nil post)
  | cons item items ih =>
    rw [mapM_cons]
    refine (h item).bind fun value hval => ?_
    exact ih.bind fun values hvals => pure (forall_mem_cons.mpr ⟨hval, hvals⟩)

/-- The size is what stands in front of the table, cut to its field. -/
theorem stringSize_value (h : At bytes header.strings (littleEndian 4 size)) :
    Gives (fun parsed => parsed = size % 2 ^ 32) (header.stringSize bytes) := by
  unfold Header.stringSize
  refine check_gives (check_gives (check_gives ?_))
  rw [readU32_at h]
  change Gives _ (if size % 2 ^ 32 < 4 ∨ bytes.length - header.strings < size % 2 ^ 32 then
    throw _ >>= fun _ => pure (size % 2 ^ 32) else pure (size % 2 ^ 32) : Parse Nat)
  split
  · exact throw not_false
  · exact pure rfl

theorem relocationTable_count {offset count : Nat} (hcount : count < 2 ^ 16) :
    Gives (fun table : Nat × Nat => table.1 < 2 ^ 16 ∨ characteristics &&& 0x01000000 ≠ 0)
      (relocationTable bytes offset count characteristics) := by
  unfold relocationTable
  split
  · rename_i hflag
    split
    · exact throw not_false
    refine (trivial _).andThen fun extended => ?_
    change Gives _ (if extended.toNat = 0 then _ else _ : Parse (Nat × Nat))
    split
    · exact throw not_false
    · exact pure (.inr hflag.2)
  · exact pure (.inl hcount)

theorem parseRelocations_length (count start : Nat) :
    Gives (fun relocations : List Relocation => relocations.length = count)
      (parseRelocations bytes count start) := by
  unfold parseRelocations
  split
  · rename_i hzero
    exact pure hzero.symm
  split
  · exact throw not_false
  · refine (mapM fun index _ => trivial _).mono fun relocations hlen => ?_
    rw [hlen, List.length_range]

theorem parseSection_counted (header : Header) (stringSize entry : Nat) :
    Gives Section.Counted (parseSection bytes header stringSize entry) := by
  unfold parseSection
  refine (trivial _).andThen fun name => ?_
  refine (trivial _).andThen fun virtualSize => ?_
  refine (trivial _).andThen fun rawSize => ?_
  refine (trivial _).andThen fun rawOffset => ?_
  refine (trivial _).andThen fun relocationOffset => ?_
  refine (trivial _).andThen fun relocationCount => ?_
  refine (trivial _).andThen fun characteristics => ?_
  refine (relocationTable_count relocationCount.toNat_lt).bind fun table htable => ?_
  refine (trivial _).andThen fun data => ?_
  refine (parseRelocations_length _ _).bind fun relocations hlen => ?_
  exact pure (htable.imp_left fun hlt => hlen ▸ hlt)

theorem Section.Counted.set {section_ other : Section} {index : Nat}
    (h : ∀ section_ ∈ sections, section_.Counted) (hget : sections[index]? = some section_)
    (hsame : section_.Counted → other.Counted) :
    ∀ section_ ∈ sections.set index other, section_.Counted := by
  intro section_ hmem
  rcases mem_or_eq_of_mem_set hmem with hold | rfl
  · exact h section_ hold
  · exact hsame (h _ (mem_of_getElem? hget))

theorem sectionDefinition_counted {auxiliary : Nat} {symbol : Symbol}
    (h : ∀ section_ ∈ sections, section_.Counted) :
    Gives (fun sections : List Section => ∀ section_ ∈ sections, section_.Counted)
      (sectionDefinition bytes header auxiliary symbol sections) := by
  unfold sectionDefinition
  split
  · split
    · exact pure h
    rename_i section_ hget
    refine check_gives ?_
    refine (trivial _).andThen fun checksum => ?_
    refine (trivial _).andThen fun low => ?_
    refine (trivial _).andThen fun high => ?_
    exact pure (Section.Counted.set h hget id)
  · exact pure h

/-- What a parse of the symbols keeps of the object. -/
structure Object.Limited (object : Object) (symbolCount : Nat) : Prop where
  sections : ∀ section_ ∈ object.sections, section_.Counted
  symbols : object.symbols.length = symbolCount

theorem parseSymbols_limited {symbolCount : Nat} :
    ∀ (rounds index : Nat) (object : Object), object.Limited symbolCount →
      Gives (fun object : Object => object.Limited symbolCount)
        (parseSymbols bytes header stringSize rounds index object) := by
  intro rounds
  induction rounds with
  | zero =>
    intro index object h
    exact pure h
  | succ rounds ih =>
    intro index object h
    unfold parseSymbols
    split
    · exact pure h
    refine (trivial _).andThen fun symbol => ?_
    refine (sectionDefinition_counted h.sections).bind fun sections hsecs => ?_
    split
    · exact throw not_false
    · exact ih _ _ ⟨hsecs, (List.length_set ..).trans h.symbols⟩

theorem leadComdat_counted {symbols : List Symbol} :
    ∀ (indices : List Nat) {sections : List Section}, (∀ section_ ∈ sections, section_.Counted) →
      ∀ section_ ∈ indices.foldl (leadComdat symbols) sections, section_.Counted := by
  intro indices
  induction indices with
  | nil => exact fun h => h
  | cons index indices ih =>
    intro sections h
    refine ih ?_
    unfold leadComdat
    split
    · exact h
    split
    · exact h
    split
    · exact h
    rename_i section_ hget
    split
    · exact h
    · exact Section.Counted.set h hget id

theorem parseHeader_symbolCount :
    Gives (fun header : Header => header.symbolCount < 2 ^ 32) (parseHeader bytes) := by
  unfold parseHeader
  refine check_gives ?_
  split
  · refine (trivial _).andThen fun sectionCount => ?_
    refine (trivial _).andThen fun symbolOffset => ?_
    refine (trivial _).andThen fun symbolCount => ?_
    exact pure symbolCount.toNat_lt
  · refine (trivial _).andThen fun machine => ?_
    refine check_gives ?_
    refine (trivial _).andThen fun sectionCount => ?_
    refine (trivial _).andThen fun symbolOffset => ?_
    refine (trivial _).andThen fun symbolCount => ?_
    refine (trivial _).andThen fun optional => ?_
    exact pure symbolCount.toNat_lt

theorem parse_limited (bytes : List UInt8) (source : String) :
    Gives (fun object : Object =>
        (∀ section_ ∈ object.sections, section_.Counted) ∧ object.symbols.length < 2 ^ 32)
      (parse bytes source) := by
  unfold parse
  refine parseHeader_symbolCount.bind fun header hheader => ?_
  refine (trivial _).andThen fun stringSize => ?_
  refine (mapM_gives fun index => parseSection_counted header stringSize _).bind
    fun sections hsecs => ?_
  refine (parseSymbols_limited _ _ _ ⟨hsecs, length_replicate⟩).bind fun object h => ?_
  exact pure ⟨leadComdat_counted _ h.sections, h.symbols ▸ hheader⟩

end

end Raz.Oblink.Coff
