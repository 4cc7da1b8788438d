import Raz.Oblink.Archive
import Raz.Oblink.LinkArchive

/-!
# Archives are read inside their bytes

Both readers check the range of a member before they look at it, and the tables of the symbol
indices before they follow them. The payload of a short import is the exception: the linker adds its
size to that of the header in 32 bits, so that it may be taken for longer than the member is.

Results:
1. `ArchiveFile.readArchive_stays`: the archive reader stays inside.
2. `parse_stays_iff`: when the parser of short imports does.
3. `readArchive_stays`, `parseMember_stays`: the linker does, if that parser does.
-/

namespace Raz.Oblink

open Access Codec Outcome Coff List LinkArchive

variable {offset : Nat} {rest symbol dll : Text}

/-- No access outside, and what there is in the end. -/
abbrev Stays {α : Type} (post : α → Prop) (x : Except (Fault String) α) : Prop :=
  Avoids (· = Fault.outside) post x

namespace Stays

variable {α : Type}

theorem of_ok {post : α → Prop} {x : Except (Fault String) α} {value : α} (hx : x = .ok value)
    (h : post value) : Stays post x := by
  rw [hx]
  exact h

theorem report {post : α → Prop} {message : String} :
    Stays post (.error (.reported message)) := fun h => nomatch h

theorem accesses {bytes : List UInt8} {count : Nat} (h : offset + count ≤ bytes.length) :
    Stays (fun _ => True) (Access.accesses bytes offset count) :=
  of_ok (accesses_eq h) True.intro

end Stays

/-! ## The archive reader -/

namespace ArchiveFile

variable {bytes : List UInt8} {name : String}

theorem readCString_eq (offset : Nat) : readCString bytes offset =
    .ok (((bytes.drop offset).take bytes.length).takeWhile (· != 0)) :=
  Checked.shortString_eq bytes.length

theorem readCString_stays (offset : Nat) :
    Stays (fun _ => True) (readCString bytes offset) :=
  Stays.of_ok (readCString_eq offset) True.intro

theorem readU16_stays (h : offset + 2 ≤ bytes.length) :
    Stays (fun _ => True) (readU16 bytes offset) :=
  (Stays.accesses h).andThen fun _ => Avoids.pure True.intro

theorem readU32Le_stays (h : offset + 4 ≤ bytes.length) :
    Stays (fun _ => True) (readU32Le bytes offset) :=
  (Stays.accesses h).andThen fun _ => Avoids.pure True.intro

theorem readU32Be_stays (h : offset + 4 ≤ bytes.length) :
    Stays (fun _ => True) (readU32Be bytes offset) :=
  (Stays.accesses h).andThen fun _ => Avoids.pure True.intro

/-- A range of the input, and the bytes of it. -/
structure InRange (bytes : List UInt8) (offset : Nat) (data : List UInt8) : Prop where
  within : offset + data.length ≤ bytes.length
  bytes : data = (bytes.drop offset).take data.length

theorem readRawMember_stays {cursor : Nat} (h : cursor + headerSize ≤ bytes.length) :
    Stays (fun member : RawMember => InRange bytes member.offset member.data)
      (readRawMember bytes cursor name) := by
  have hheader : ((bytes.drop cursor).take headerSize).length = headerSize := by
    rw [length_take, length_drop]
    omega
  unfold readRawMember
  refine (Stays.accesses (by rw [hheader]; decide)).andThen fun rawName => ?_
  refine (Stays.accesses (by rw [hheader]; decide)).andThen fun sizeText => ?_
  dsimp only
  split
  · exact Stays.report
  rename_i size _
  change Stays _ (if _ then _ else _)
  split
  · exact Stays.report
  rename_i hfits
  have hlen : ((bytes.drop (cursor + headerSize)).take size).length = size := by
    rw [length_take, length_drop]
    omega
  exact ⟨by rw [hlen]; exact Nat.not_lt.mp hfits, by rw [hlen]⟩

theorem mem_of_add {raws : List RawMember} {raw : RawMember} : ∀ {found : RawMembers},
    raw ∈ (raws.foldl RawMembers.add found).members → raw ∈ found.members ∨ raw ∈ raws := by
  induction raws with
  | nil => exact .inl
  | cons first raws ih =>
    intro found h
    rcases ih h with hadd | hrest
    · unfold RawMembers.add at hadd
      split at hadd
      · split at hadd <;> exact .inl hadd
      · split at hadd
        · exact .inl hadd
        · exact (mem_append.mp hadd).imp id fun hlast => by
            rw [mem_singleton.mp hlast]
            exact mem_cons_self
    · exact .inr (mem_cons_of_mem _ hrest)

theorem readRawMembers_stays (cursor : Nat) :
    Stays (fun raws : List RawMember => ∀ raw ∈ raws, InRange bytes raw.offset raw.data)
      (readRawMembers bytes name cursor) := by
  induction cursor using readRawMembers.induct bytes with
  | case1 cursor hmore ih =>
    rw [readRawMembers, if_pos hmore]
    exact (readRawMember_stays hmore).bind fun member hmem =>
      (ih member).bind fun raws hraws => forall_mem_cons.mpr ⟨hmem, hraws⟩
  | case2 cursor hend =>
    rw [readRawMembers, if_neg hend]
    exact forall_mem_nil _

theorem resolveName_stays (longNames : List UInt8) (raw : Text) :
    Stays (fun _ => True) (resolveName longNames raw) := by
  unfold resolveName
  split
  · split
    · split
      · exact readCString_stays _
      · exact True.intro
    · exact True.intro
  · exact True.intro

theorem readImport_stays (data : List UInt8) : Stays (fun _ => True) (readImport data) := by
  unfold readImport
  split
  · exact True.intro
  rename_i hsize
  have hfield {offset : Nat} (h : offset + 2 ≤ 20) :
      Stays (fun _ => True) (readU16 data offset) :=
    readU16_stays (h.trans (Nat.not_lt.mp hsize))
  refine (hfield (by decide)).andThen fun first => ?_
  split
  · exact True.intro
  refine (hfield (by decide)).andThen fun second => ?_
  split
  · exact True.intro
  refine (hfield (by decide)).andThen fun hint => ?_
  refine (hfield (by decide)).andThen fun flags => ?_
  refine (readCString_stays _).andThen fun symbol => ?_
  exact (readCString_stays _).andThen fun dll => True.intro

/-- The members of the archive are ranges of the input. -/
def Archive.Within (bytes : List UInt8) (archive : Archive) : Prop :=
  ∀ member ∈ archive.members, InRange bytes member.offset member.bytes

theorem addMember_stays {longNames : List UInt8} {found : Members} {raw : RawMember}
    (h : found.archive.Within bytes) (hraw : InRange bytes raw.offset raw.data) :
    Stays (fun all : Members => all.archive.Within bytes) (addMember longNames found raw) := by
  unfold addMember
  refine (resolveName_stays longNames raw.rawName).andThen fun name => ?_
  refine (readImport_stays raw.data).andThen fun import_ => ?_
  cases import_ with
  | some import_ => exact h
  | none => exact forall_mem_append.mpr ⟨h, forall_mem_singleton.mpr hraw⟩

theorem readSecond_stays {linker : List UInt8} {memberByOffset : List (Nat × Nat)}
    {memberCount indicesAt : Nat} (hmembers : 4 + memberCount * 4 ≤ indicesAt) :
    ∀ (count index nameCursor : Nat) (symbolIndex : List (Text × Nat)),
      indicesAt + (index + count) * 2 ≤ nameCursor →
      Stays (fun _ => True)
        (readSecond linker memberByOffset memberCount indicesAt count index nameCursor symbolIndex)
  | 0, _, _, _, _ => True.intro
  | count + 1, index, nameCursor, symbolIndex, hcur => by
    unfold readSecond
    split
    · exact True.intro
    rename_i hmore
    refine (readCString_stays _).andThen fun symbol => ?_
    refine (readU16_stays (by omega)).andThen fun ordinal => ?_
    split
    · exact readSecond_stays hmembers count _ _ _ (by omega)
    · refine (readU32Le_stays (by omega)).andThen fun memberOffset => ?_
      exact readSecond_stays hmembers count _ _ _ (by omega)

theorem readFirst_stays {linker : List UInt8} {memberByOffset : List (Nat × Nat)} :
    ∀ (count index nameCursor : Nat) (symbolIndex : List (Text × Nat)),
      4 + (index + count) * 4 ≤ nameCursor →
      Stays (fun _ => True) (readFirst linker memberByOffset count index nameCursor symbolIndex)
  | 0, _, _, _, _ => True.intro
  | count + 1, index, nameCursor, symbolIndex, hcur => by
    unfold readFirst
    split
    · exact True.intro
    rename_i hmore
    refine (readCString_stays _).andThen fun symbol => ?_
    refine (readU32Be_stays (by omega)).andThen fun memberOffset => ?_
    exact readFirst_stays count _ _ _ (by omega)

theorem readSymbols_stays (firstLinker secondLinker : List UInt8)
    (memberByOffset : List (Nat × Nat)) :
    Stays (fun _ => True) (readSymbols firstLinker secondLinker memberByOffset) := by
  unfold readSymbols
  split
  · rename_i hsecond
    refine (readU32Le_stays hsecond.2).andThen fun memberCount => ?_
    change Stays _ (if _ then _ else _)
    split
    · rename_i hcounts
      refine (readU32Le_stays hcounts).andThen fun symbolCount => ?_
      exact readSecond_stays (Nat.le_add_right _ _) _ _ _ _ (by omega)
    · exact True.intro
  · split
    · rename_i hfirst
      refine (readU32Be_stays hfirst.2).andThen fun symbolCount => ?_
      exact readFirst_stays _ _ _ _ (by omega)
    · exact True.intro

/-- The archive reader stays inside its input, and so do the members it finds. -/
theorem readArchive_stays : Stays (Archive.Within bytes) (readArchive bytes name) := by
  unfold readArchive
  split
  · exact Stays.report
  rename_i hsize
  have hmagic : 0 + archiveMagic.length ≤ bytes.length := by
    rw [Nat.zero_add]
    exact Nat.not_lt.mp hsize
  refine (Stays.accesses hmagic).andThen fun magic => ?_
  split
  · exact Stays.report
  refine (readRawMembers_stays _).bind fun raws hraws => ?_
  have hfound : Stays (fun all : Members => all.archive.Within bytes)
      ((raws.foldl RawMembers.add {}).members.foldlM
        (addMember (raws.foldl RawMembers.add {}).longNames) { archive := { name } }) :=
    Avoids.foldlM (forall_mem_nil _) fun member hmem found hfound =>
      addMember_stays hfound (hraws member ((mem_of_add hmem).resolve_left not_mem_nil))
  refine hfound.bind fun found hfound => ?_
  exact (readSymbols_stays _ _ _).andThen fun symbolIndex => hfound

end ArchiveFile

/-! ## Short imports -/

namespace LinkArchive

variable {bytes member : List UInt8}

/-- A number of so many bytes in a record. -/
def field (record : List UInt8) (offset count : Nat) : Nat :=
  ofLittleEndian ((record.drop offset).take count)

theorem spanU16_eq (h : offset + 2 ≤ bytes.length) :
    spanU16 bytes offset = .ok (field bytes offset 2) := by
  unfold spanU16
  rw [if_neg (Nat.not_lt.mpr h), accesses_eq h]
  rfl

theorem spanU32_eq (h : offset + 4 ≤ bytes.length) :
    spanU32 bytes offset = .ok (field bytes offset 4) := by
  unfold spanU32
  rw [if_neg (Nat.not_lt.mpr h), accesses_eq h]
  rfl

/-! ### Strings -/

theorem cString_eq (offset : Nat) : cString bytes offset =
    if bytes.length ≤ offset + ((bytes.drop offset).takeWhile (· != 0)).length then
      report "unterminated Microsoft import-object string"
    else .ok ((bytes.drop offset).takeWhile (· != 0)) := by
  have htake : Coff.shortString bytes offset bytes.length =
      (bytes.drop offset).takeWhile (· != 0) := by
    rw [Coff.shortString, take_of_length_le]
    rw [length_drop]
    exact Nat.sub_le _ _
  unfold cString
  rw [Checked.shortString_eq, htake]
  rfl

theorem cString_stays (offset : Nat) : Stays (fun _ => True) (cString bytes offset) := by
  rw [cString_eq]
  split
  · exact Stays.report
  · exact True.intro

/-- A string is read exactly if it is there with a zero behind it. -/
theorem cString_iff {text : Text} : cString bytes offset = .ok text ↔
    0 ∉ text ∧ ∃ rest, bytes.drop offset = text ++ 0 :: rest := by
  rw [cString_eq]
  constructor
  · intro h
    split at h
    · cases h
    rename_i hends
    obtain rfl := Except.ok.inj h
    refine ⟨fun hmem => absurd (mem_takeWhile_imp hmem) (by decide), ?_⟩
    have hsplit := takeWhile_append_dropWhile (p := (· != (0 : UInt8))) (l := bytes.drop offset)
    have hhead := head?_dropWhile_not (· != (0 : UInt8)) (bytes.drop offset)
    cases hback : (bytes.drop offset).dropWhile (· != 0) with
    | nil =>
      rw [hback, append_nil] at hsplit
      rw [hsplit, length_drop] at hends
      omega
    | cons last rest =>
      rw [hback] at hhead hsplit
      have hlast : last = 0 := by simpa using hhead
      rw [hlast] at hsplit
      exact ⟨rest, hsplit.symm⟩
  · rintro ⟨hzero, rest, hrest⟩
    have hlen := congrArg List.length hrest
    rw [length_drop, length_append, length_cons] at hlen
    rw [hrest, takeWhile_name hzero, if_neg (by omega)]

/-! ### The header -/

/-- A member that begins as a short import does. -/
def ImportSignature (member : List UInt8) : Prop :=
  20 ≤ member.length ∧ field member 0 2 = 0 ∧ field member 2 2 = 0xffff

/-- A member whose payload the linker looks at. -/
structure ImportHeader (member : List UInt8) : Prop where
  signature : ImportSignature member
  machine : field member 6 2 = machineAmd64
  sizeOfData : field member 12 4 ≠ 0
  fits : (20 + field member 12 4) % 2 ^ 32 ≤ member.length
  type : field member 18 2 &&& 3 ≤ 2
  nameType : field member 18 2 >>> 2 &&& 7 ≤ 4

/-- The import with these strings. -/
def importOf (member : List UInt8) (source : String) :
    Option (Text × Text × Text) → Option ImportObject
  | none => none
  | some (symbol, dll, exportAs) =>
    let nameType := field member 18 2 >>> 2 &&& 7
    some {
      source, symbol, dll, nameType
      type := field member 18 2 &&& 3
      byOrdinal := nameType = 0
      importName :=
        if nameType = 0 then [] else importNameForNameType symbol nameType exportAs
      hintOrOrdinal := field member 16 2 }

/-- What is read of the payload, with the fields of the header. -/
def payloadImport (member : List UInt8) (source : String) (payload : List UInt8) :
    Read (Option ImportObject) :=
  caught ((importStrings payload (field member 18 2 >>> 2 &&& 7)).map (importOf member source))

theorem parseImportObject_eq (source : String) (h : 20 ≤ member.length) :
    parseImportObject member source =
      if field member 0 2 ≠ 0 then .ok none
      else if field member 2 2 ≠ 0xffff then .ok none
      else if field member 6 2 ≠ machineAmd64 then .ok none
      else if field member 12 4 = 0 ∨ member.length < (20 + field member 12 4) % 2 ^ 32 then
        .ok none
      else if 2 < field member 18 2 &&& 3 ∨ 4 < field member 18 2 >>> 2 &&& 7 then .ok none
      else subspan member 20 (field member 12 4) >>= payloadImport member source := by
  have hat {offset : Nat} (hoff : offset + 2 ≤ 20) :
      spanU16 member offset = .ok (field member offset 2) := spanU16_eq (hoff.trans h)
  have hsize : spanU32 member 12 = .ok (field member 12 4) :=
    spanU32_eq (Nat.le_trans (by decide) h)
  unfold parseImportObject
  rw [if_neg (Nat.not_lt.mpr h), hat (by decide), hat (by decide), hat (by decide), hsize,
    hat (by decide), hat (by decide)]
  change (if _ then _ else _) = _
  split
  · rfl
  change (if _ then _ else _) = _
  split
  · rfl
  change (if _ then _ else _) = _
  split
  · rfl
  change (if _ then _ else _) = _
  split
  · rfl
  change (if _ then _ else _) = _
  split
  · rfl
  change (subspan _ _ _ >>= _) = _
  refine congrArg _ (funext fun payload => congrArg caught ?_)
  generalize importStrings payload _ = strings
  cases strings with
  | error failure => rfl
  | ok strings =>
    cases strings with
    | none => rfl
    | some strings => rfl

theorem parse_of_header (source : String) (h : ImportHeader member) :
    parseImportObject member source =
      subspan member 20 (field member 12 4) >>= payloadImport member source := by
  rw [parseImportObject_eq source h.signature.1, if_neg (not_not_intro h.signature.2.1),
    if_neg (not_not_intro h.signature.2.2), if_neg (not_not_intro h.machine),
    if_neg (not_or.mpr ⟨h.sizeOfData, Nat.not_lt.mpr h.fits⟩),
    if_neg (not_or.mpr ⟨Nat.not_lt.mpr h.type, Nat.not_lt.mpr h.nameType⟩)]

theorem parse_of_not_header (source : String) (h : ¬ ImportHeader member) :
    parseImportObject member source = .ok none := by
  by_cases hsize : member.length < 20
  · unfold parseImportObject
    rw [if_pos hsize]
    rfl
  rw [parseImportObject_eq source (Nat.not_lt.mp hsize)]
  split
  · rfl
  rename_i hfirst
  split
  · rfl
  rename_i hsecond
  split
  · rfl
  rename_i hmachine
  split
  · rfl
  rename_i hfields
  split
  · rfl
  rename_i htypes
  rw [not_or, Nat.not_lt] at hfields
  rw [not_or, Nat.not_lt, Nat.not_lt] at htypes
  exact absurd {
    signature := ⟨Nat.not_lt.mp hsize, not_not.mp hfirst, not_not.mp hsecond⟩
    machine := not_not.mp hmachine
    sizeOfData := hfields.1
    fits := hfields.2
    type := htypes.1
    nameType := htypes.2 } h

/-! ### The payload -/

/-- The payload that a short import claims is there. -/
def PayloadInside (member : List UInt8) : Prop :=
  ImportHeader member → 20 + field member 12 4 ≤ member.length

theorem subspan_eq {count : Nat} (h : offset + count ≤ bytes.length) :
    subspan bytes offset count = .ok ((bytes.drop offset).take count) := if_pos h

theorem subspan_outside {count : Nat} (h : ¬ offset + count ≤ bytes.length) :
    subspan bytes offset count = .error .outside := if_neg h

theorem importStrings_stays (payload : List UInt8) (nameType : Nat) :
    Stays (fun _ => True) (importStrings payload nameType) := by
  unfold importStrings
  refine (cString_stays 0).andThen fun symbol => ?_
  refine (cString_stays _).andThen fun dll => ?_
  split
  · exact True.intro
  dsimp only
  split
  · exact (cString_stays _).andThen fun exportAs => True.intro
  · exact True.intro

theorem payloadImport_stays (source : String) (payload : List UInt8) :
    Stays (fun _ => True) (payloadImport member source payload) := by
  have hstrs := importStrings_stays payload (field member 18 2 >>> 2 &&& 7)
  unfold payloadImport
  generalize importStrings payload _ = strings at hstrs
  cases strings with
  | ok strings => exact True.intro
  | error failure =>
    cases failure with
    | reported message => exact True.intro
    | outside => exact absurd rfl hstrs

/-- The parser of short imports stays inside exactly if the payload is there. -/
theorem parse_stays_iff : (∀ source, Stays (fun _ => True) (parseImportObject member source)) ↔
    PayloadInside member := by
  constructor
  · intro h hheader
    by_contra hout
    have hstays := h ""
    rw [parse_of_header "" hheader, subspan_outside hout] at hstays
    exact hstays rfl
  · intro h source
    by_cases hheader : ImportHeader member
    · rw [parse_of_header source hheader, subspan_eq (h hheader)]
      exact payloadImport_stays source _
    · rw [parse_of_not_header source hheader]
      exact True.intro

/-! ### Objects -/

theorem isObject_eq : isObject bytes =
    .ok (decide (2 ≤ bytes.length ∧ field bytes 0 2 = machineAmd64) || bigobjSignature bytes) := by
  unfold isObject
  rw [Checked.bigobjSignature_eq]
  by_cases hsize : 2 ≤ bytes.length
  · rw [if_pos hsize, spanU16_eq hsize]
    change (if field bytes 0 2 = machineAmd64 then _ else _) = _
    by_cases hmachine : field bytes 0 2 = machineAmd64
    · rw [if_pos hmachine, decide_eq_true ⟨hsize, hmachine⟩]
      rfl
    · rw [if_neg hmachine, decide_eq_false fun h => hmachine h.2]
      rfl
  · rw [if_neg hsize, decide_eq_false fun h => hsize h.1]
    rfl

theorem spanU16_stays (offset : Nat) : Stays (fun _ => True) (spanU16 bytes offset) := by
  unfold spanU16
  split
  · exact Stays.report
  · rename_i hfits
    exact (Stays.accesses (Nat.not_lt.mp hfits)).andThen fun _ => True.intro

theorem archiveMemberBytes_stays (archive : ArchiveInput) (entry : ArchiveMember) :
    Stays (fun member => member = (archive.bytes.drop entry.dataOffset).take entry.size)
      (archiveMemberBytes archive entry) := by
  unfold archiveMemberBytes
  split
  · exact Stays.report
  · rfl

theorem firstText_stays {α : Type} {read : α → Read Text} (h : ∀ item, Stays (fun _ => True)
    (read item)) : ∀ items : List α, Stays (fun _ => True) (firstText read items)
  | [] => True.intro
  | item :: items => by
    unfold firstText
    refine (h item).andThen fun text => ?_
    change Stays _ (if _ then _ else _)
    split
    · exact True.intro
    · exact firstText_stays h items

theorem resolve_stays (archive : ArchiveInput) : ∀ (levels : Nat) (symbol : Text),
    Stays (fun _ => True) (resolveMingwDllName archive levels symbol)
  | 0, _ => True.intro
  | levels + 1, symbol => by
    unfold resolveMingwDllName
    refine firstText_stays (fun index => ?_) _
    split
    · exact True.intro
    rename_i entry _
    refine (archiveMemberBytes_stays archive entry).bind fun bytes _ => ?_
    change Stays _ (if _ then _ else _)
    split
    · exact True.intro
    refine (spanU16_stays 0).andThen fun machine => ?_
    change Stays _ (if _ then _ else _)
    split
    · exact True.intro
    rw [Checked.parse_eq]
    cases Coff.parse bytes archive.path with
    | error message => exact True.intro
    | ok object =>
      dsimp only [lift]
      change Stays _ (if _ then _ else _)
      split
      · exact True.intro
      refine firstText_stays (fun relocation => ?_) _
      split
      · exact True.intro
      split
      · exact True.intro
      split
      · exact True.intro
      · exact resolve_stays archive levels _

theorem stub_stays (archive : ArchiveInput) (object : Object) (source : String) :
    Stays (fun _ => True) (parseMingwImportStub archive object source) := by
  unfold parseMingwImportStub
  split
  · exact True.intro
  split
  · exact True.intro
  refine Avoids.andThen (firstText_stays (fun relocation => ?_) _) fun dll => ?_
  · split
    · exact True.intro
    split
    · exact True.intro
    · exact resolve_stays archive _ _
  dsimp only
  split
  · exact True.intro
  · exact (spanU16_stays 0).andThen fun hint => True.intro

section

variable {archive : ArchiveInput} {entry : ArchiveMember}
  (h : PayloadInside ((archive.bytes.drop entry.dataOffset).take entry.size))

include h

theorem parseMember_stays : Stays (fun _ => True) (parseMember archive entry) := by
  unfold parseMember
  refine (archiveMemberBytes_stays archive entry).bind fun member hmem => ?_
  subst hmem
  rw [isObject_eq]
  change Stays _ (if _ then _ else _)
  split
  · rw [Checked.parse_eq]
    cases Coff.parse _ (memberSource archive entry) with
    | error message => exact Stays.report
    | ok object =>
      refine (stub_stays archive object _).andThen fun stub => ?_
      cases stub with
      | some stub => exact True.intro
      | none => exact True.intro
  · refine (parse_stays_iff.mpr h _).andThen fun imported => ?_
    cases imported with
    | some imported => exact True.intro
    | none => exact Stays.report

theorem memberSymbols_stays : Stays (fun _ => True)
    (memberSymbols ((archive.bytes.drop entry.dataOffset).take entry.size) archive.path) := by
  unfold memberSymbols
  rw [isObject_eq]
  change Stays _ (if _ then _ else _)
  split
  · rw [Checked.parse_eq]
    cases Coff.parse _ archive.path with
    | ok object => exact True.intro
    | error failure => exact True.intro
  · refine (parse_stays_iff.mpr h _).andThen fun import_ => ?_
    cases import_ with
    | some import_ => exact True.intro
    | none => exact True.intro

end

/-- The same file with the same members. -/
structure SameInput (archive next : ArchiveInput) : Prop where
  path : next.path = archive.path
  bytes : next.bytes = archive.bytes
  members : next.members = archive.members

theorem index_stays {archive : ArchiveInput} {index : Nat} {entry : ArchiveMember}
    (hentry : archive.members[index]? = some entry)
    (h : PayloadInside ((archive.bytes.drop entry.dataOffset).take entry.size)) :
    Stays (SameInput archive) (indexArchiveMemberSymbols archive index) := by
  unfold indexArchiveMemberSymbols
  rw [hentry]
  refine (archiveMemberBytes_stays archive entry).bind fun member hmem => ?_
  subst hmem
  exact (memberSymbols_stays h).andThen fun symbols => ⟨rfl, rfl, rfl⟩

/-! ## The archive -/

theorem digits_stays : ∀ (text : Text) (digit : Bool) (value : Nat),
    Stays (fun _ => True) (digits text digit value)
  | [], _, _ => True.intro
  | c :: rest, digit, value => by
    unfold digits
    split
    · exact digits_stays rest digit value
    · split
      · exact Stays.report
      · exact digits_stays rest true _

/-- The member is a range of the input. -/
def Within (bytes : List UInt8) (member : ArchiveMember) : Prop :=
  member.dataOffset + member.size ≤ bytes.length

theorem readMember_stays (off : Nat) (path : String) :
    Stays (Within bytes) (readMember bytes off path) := by
  unfold readMember
  split
  · exact Stays.report
  rename_i hheader
  refine (Stays.of_ok (access_eq (by omega)) True.intro).andThen fun first => ?_
  refine (Stays.of_ok (access_eq (by omega)) True.intro).andThen fun second => ?_
  split
  · exact Stays.report
  have hname : Stays (fun _ => True) (arField bytes off 16) :=
    (Stays.accesses (by omega)).andThen fun _ => True.intro
  have hsize : Stays (fun _ => True) (arDecimal bytes (off + 48) 10) := by
    refine (Stays.accesses (by omega)).andThen fun text => ?_
    refine (digits_stays text false 0).andThen fun result => ?_
    change Stays _ (if _ then _ else _)
    split
    · exact True.intro
    · exact Stays.report
  refine hname.andThen fun name => hsize.andThen fun size => ?_
  change Stays _ (if _ then _ else _)
  split
  · exact Stays.report
  · rename_i hfits
    exact Nat.not_lt.mp hfits

theorem mem_of_add {entries : List ArchiveMember} {entry : ArchiveMember} : ∀ {found : Members},
    entry ∈ (entries.foldl Members.add found).members ↔ entry ∈ found.members ∨
      entry ∈ entries ∧ metadata entry.name = false ∧ entry.name ≠ [] := by
  induction entries with
  | nil => exact fun {found} => ⟨.inl, fun h => h.resolve_right fun hnil => not_mem_nil hnil.1⟩
  | cons first entries ih =>
    intro found
    rw [foldl_cons, ih]
    unfold Members.add
    dsimp only
    split
    · rename_i hkept
      simp only [Bool.and_eq_true, Bool.not_eq_true', bne_iff_ne] at hkept
      constructor
      · rintro (hadd | ⟨hmem, hrest⟩)
        · refine (mem_append.mp hadd).imp id fun hlast => ?_
          obtain rfl := mem_singleton.mp hlast
          exact ⟨mem_cons_self, hkept⟩
        · exact .inr ⟨mem_cons_of_mem _ hmem, hrest⟩
      · rintro (hold | ⟨hmem, hrest⟩)
        · exact .inl (mem_append_left _ hold)
        · rcases mem_cons.mp hmem with rfl | hmem
          · exact .inl (mem_append_right _ mem_cons_self)
          · exact .inr ⟨hmem, hrest⟩
    · rename_i hleft
      simp only [Bool.and_eq_true, Bool.not_eq_true', bne_iff_ne] at hleft
      constructor
      · exact Or.imp id fun ⟨hmem, hrest⟩ => ⟨mem_cons_of_mem _ hmem, hrest⟩
      · refine Or.imp id fun ⟨hmem, hrest⟩ => ⟨?_, hrest⟩
        rcases mem_cons.mp hmem with rfl | hmem
        · exact absurd hrest hleft
        · exact hmem

theorem readMembers_stays (path : String) (off : Nat) :
    Stays (fun entries : List ArchiveMember => ∀ entry ∈ entries, Within bytes entry)
      (readMembers bytes path off) := by
  induction off using readMembers.induct bytes with
  | case1 off hmore ih =>
    rw [readMembers, if_pos hmore]
    exact (readMember_stays off path).bind fun member hmem =>
      (ih member).bind fun entries hentries => forall_mem_cons.mpr ⟨hmem, hentries⟩
  | case2 off hend =>
    rw [readMembers, if_neg hend]
    exact forall_mem_nil _

/-- The index is followed to its end: its offsets are inside. -/
theorem readIndex_ok (index : List UInt8) (members : List (Nat × Nat)) :
    ∀ (count i names : Nat) (providers : List (Text × Nat)),
      4 + (i + count) * 4 ≤ index.length →
        ∃ result, readIndex index members count i names providers = .ok result
  | 0, _, _, _, _ => ⟨_, rfl⟩
  | count + 1, i, names, providers, hfits => by
    unfold readIndex spanBe32
    rw [if_neg (by omega), accesses_eq (by omega), Checked.shortString_eq]
    dsimp only [bind, Except.bind, pure, Except.pure]
    split
    · exact ⟨_, rfl⟩
    · exact readIndex_ok index members count _ _ _ (by omega)

theorem readLinkerMember_ok (archive : ArchiveInput) (found : Members) :
    ∃ next, readLinkerMember archive found = .ok next ∧ SameInput archive next := by
  unfold readLinkerMember
  split
  · exact ⟨_, rfl, rfl, rfl, rfl⟩
  rename_i data size _
  dsimp only
  generalize (archive.bytes.drop data).take size = index
  split
  · exact ⟨_, rfl, rfl, rfl, rfl⟩
  rename_i hsize
  unfold spanBe32
  rw [if_neg hsize, accesses_eq (Nat.not_lt.mp hsize)]
  dsimp only [bind, Except.bind, pure, Except.pure]
  generalize ofLittleEndian _ = count
  split
  · exact ⟨_, rfl, rfl, rfl, rfl⟩
  rename_i hfits
  obtain ⟨result, hresult⟩ := readIndex_ok index found.memberByHeaderOffset count 0 (4 + count * 4)
    [] (by omega)
  rw [hresult]
  exact ⟨_, rfl, rfl, rfl, rfl⟩

/-- A member that the linker finds in the bytes. -/
def Found (bytes : List UInt8) (entry : ArchiveMember) : Prop :=
  ∃ path entries, readMembers bytes path 8 = .ok entries ∧ entry ∈ entries

/-- A member that may be selected: neither an index, nor the long names, nor without a name. -/
def Selectable (entry : ArchiveMember) : Prop := metadata entry.name = false ∧ entry.name ≠ []

def dataOf (bytes : List UInt8) (entry : ArchiveMember) : List UInt8 :=
  (bytes.drop entry.dataOffset).take entry.size

/-- Each member that may be selected has the payload that it claims. -/
def PayloadsInside (bytes : List UInt8) : Prop :=
  ∀ entry, Found bytes entry → Selectable entry → PayloadInside (dataOf bytes entry)

/-- The archive before its symbols are known. -/
def inputOf (bytes : List UInt8) (path : String) (entries : List ArchiveMember) : ArchiveInput :=
  { path, bytes, members := (entries.foldl Members.add {}).members }

theorem indexMember_cases {archive next : ArchiveInput} (h : SameInput archive next) (index : Nat) :
    (∃ last, indexMember next index = .ok last ∧ SameInput archive last) ∨
      indexMember next index = .error .outside := by
  unfold indexMember
  cases hstep : indexArchiveMemberSymbols next index with
  | ok last =>
    refine .inl ⟨last, rfl, ?_⟩
    unfold indexArchiveMemberSymbols at hstep
    split at hstep
    · cases hstep
    obtain ⟨member, _, hstep⟩ := bind_ok hstep
    obtain ⟨symbols, _, hlast⟩ := bind_ok hstep
    cases hlast
    exact ⟨h.path, h.bytes, h.members⟩
  | error failure =>
    cases failure with
    | reported message => exact .inl ⟨next, rfl, h⟩
    | outside => exact .inr rfl

/-- The members are indexed, unless the payload of one is missing. -/
theorem indexMembers_cases (archive : ArchiveInput) :
    (∃ next, indexMembers archive = .ok next ∧ SameInput archive next) ∨
      indexMembers archive = .error .outside := by
  have hrest (indices : List Nat) : ∀ next, SameInput archive next →
      (∃ last, indices.foldlM indexMember next = .ok last ∧ SameInput archive last) ∨
        indices.foldlM indexMember next = .error .outside := by
    induction indices with
    | nil => exact fun next hsame => .inl ⟨next, rfl, hsame⟩
    | cons index indices ih =>
      intro next hsame
      rw [foldlM_cons]
      rcases indexMember_cases hsame index with ⟨last, hlast, hsame⟩ | hout
      · rw [hlast]
        exact ih last hsame
      · rw [hout]
        exact .inr rfl
  exact hrest _ _ ⟨rfl, rfl, rfl⟩

theorem readArchive_eq {path : String} {entries : List ArchiveMember}
    (h : readMembers bytes path 8 = .ok entries) : ∃ next,
      SameInput (inputOf bytes path entries) next ∧
      readArchive bytes path = if next.indexed then .ok next else indexMembers next := by
  obtain ⟨next, hnext, hsame⟩ := readLinkerMember_ok (inputOf bytes path entries)
    (entries.foldl Members.add {})
  refine ⟨next, hsame, ?_⟩
  unfold readArchive
  rw [h]
  change (readLinkerMember (inputOf bytes path entries) _ >>= _) = _
  rw [hnext]
  rfl

theorem readArchive_cases {path : String} {entries : List ArchiveMember}
    (h : readMembers bytes path 8 = .ok entries) :
    (∃ archive, readArchive bytes path = .ok archive ∧
        SameInput (inputOf bytes path entries) archive) ∨
      readArchive bytes path = .error .outside := by
  obtain ⟨next, hsame, hread⟩ := readArchive_eq h
  rw [hread]
  split
  · exact .inl ⟨next, rfl, hsame⟩
  · refine (indexMembers_cases next).imp (fun ⟨last, hlast, hnext⟩ => ⟨last, hlast, ?_⟩) id
    exact ⟨hnext.path.trans hsame.path, hnext.bytes.trans hsame.bytes,
      hnext.members.trans hsame.members⟩

theorem indexMembers_stays {archive : ArchiveInput}
    (h : ∀ entry ∈ archive.members, PayloadInside (dataOf archive.bytes entry)) :
    Stays (SameInput archive) (indexMembers archive) := by
  unfold indexMembers
  refine Avoids.foldlM ⟨rfl, rfl, rfl⟩ fun index hidx next hsame => ?_
  have hlt : index < next.members.length := by
    rw [hsame.members]
    exact List.mem_range.mp hidx
  have hentry := List.getElem?_eq_getElem hlt
  have hstep := index_stays hentry (by
    rw [hsame.bytes]
    exact h _ (hsame.members ▸ getElem_mem hlt))
  unfold indexMember
  generalize indexArchiveMemberSymbols next index = outcome at hstep
  cases outcome with
  | ok last =>
    exact ⟨hstep.path.trans hsame.path, hstep.bytes.trans hsame.bytes,
      hstep.members.trans hsame.members⟩
  | error failure =>
    cases failure with
    | reported failure => exact hsame
    | outside => exact absurd rfl hstep

theorem selectable_of_input {path : String} {entries : List ArchiveMember} {entry : ArchiveMember}
    (h : entry ∈ (inputOf bytes path entries).members) : entry ∈ entries ∧ Selectable entry := by
  rcases mem_of_add.mp h with hnone | hmem
  · exact absurd hnone not_mem_nil
  · exact hmem

/-- What the linker makes of the bytes: the members are ranges of them. -/
structure Reads (input : List UInt8) (archive : ArchiveInput) : Prop where
  bytes : archive.bytes = input
  members : ∀ entry ∈ archive.members, Found input entry ∧ Selectable entry
  within : ∀ entry ∈ archive.members, Within input entry

theorem reads_of_same {path : String} {entries : List ArchiveMember} {archive : ArchiveInput}
    (hentries : readMembers bytes path 8 = .ok entries)
    (hsame : SameInput (inputOf bytes path entries) archive) : Reads bytes archive where
  bytes := hsame.bytes
  members := fun _ hmem =>
    have hsel := selectable_of_input (hsame.members ▸ hmem)
    ⟨⟨path, entries, hentries, hsel.1⟩, hsel.2⟩
  within := fun entry hmem => (readMembers_stays path 8).value hentries entry
    (selectable_of_input (hsame.members ▸ hmem)).1

theorem readArchive_stays {path : String} (h : PayloadsInside bytes) :
    Stays (Reads bytes) (readArchive bytes path) := by
  cases hentries : readMembers bytes path 8 with
  | error failure =>
    have hread : readArchive bytes path = .error failure := by
      unfold readArchive
      rw [hentries]
      rfl
    rw [hread]
    exact (readMembers_stays path 8).failure hentries
  | ok entries =>
    obtain ⟨next, hsame, hread⟩ := readArchive_eq hentries
    rw [hread]
    split
    · exact reads_of_same hentries hsame
    have hnext := reads_of_same hentries hsame
    refine (indexMembers_stays fun entry hentry => ?_).mono fun last hlast =>
      reads_of_same hentries {
        path := hlast.path.trans hsame.path
        bytes := hlast.bytes.trans hsame.bytes
        members := hlast.members.trans hsame.members }
    obtain ⟨hin, hsel⟩ := hnext.members entry hentry
    rw [hnext.bytes]
    exact h entry hin hsel

end LinkArchive

end Raz.Oblink
