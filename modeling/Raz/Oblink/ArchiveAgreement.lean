import Raz.Oblink.ArchiveSafety

/-!
# Two readers of one archive

The archive reader takes every member for a short import that begins as one, also a big object,
which begins so too, and every other member for an object. The linker looks at more: at the fields
of a short import, at the header of an object, and at the sections of the objects of a GNU import
library. The two also read the headers of the members in their own ways.

Result: `wellRead_iff`: when both are safe and agree.
-/

namespace Raz.Oblink

open Access Codec Outcome Coff List LinkArchive

variable {bytes member : List UInt8} {offset : Nat} {rest symbol dll : Text}

/-! ## What a member is -/

inductive MemberClass
  | metadata
  | shortImport (symbol dll : Text) (hint type : Nat)
  | object
  | importStub
  | inert
deriving DecidableEq, Repr

/-- What the archive reader takes a member for. -/
def ArchiveFile.classify (raw : ArchiveFile.RawMember) : ArchiveFile.Read MemberClass :=
  if raw.rawName = [47] ∨ raw.rawName = [47, 47] then return .metadata
  else do
    match ← readImport raw.data with
    | some import_ =>
      return .shortImport import_.symbol import_.dll import_.hint import_.type
    | none => return .object

/-- What the linker takes a member for, once it is selected. -/
def LinkArchive.classify (archive : ArchiveInput) (entry : ArchiveMember) :
    LinkArchive.Read MemberClass :=
  if metadata entry.name ∨ entry.name = [] then return .metadata
  else do
    match ← parseMember archive entry with
    | .object _ => return .object
    | .importObject import_ =>
      return .shortImport import_.symbol import_.dll import_.hintOrOrdinal import_.type
    | .importStub _ => return .importStub
    | .inert => return .inert

/-- The lists of the archive reader are by these classes. -/
theorem ArchiveFile.addMember_classify {longNames : List UInt8} {found next : ArchiveFile.Members}
    {raw : ArchiveFile.RawMember} (hname : ¬ (raw.rawName = [47] ∨ raw.rawName = [47, 47]))
    (h : ArchiveFile.addMember longNames found raw = .ok next) :
    (∃ import_ : ArchiveFile.ArchiveImport,
      next.archive.imports = found.archive.imports ++ [import_] ∧
      next.archive.members = found.archive.members ∧ classify raw =
        .ok (.shortImport import_.symbol import_.dll import_.hint import_.type)) ∨
    ∃ name, next.archive.members = found.archive.members ++ [⟨name, raw.offset, raw.data⟩] ∧
      next.archive.imports = found.archive.imports ∧ classify raw = .ok .object := by
  unfold addMember at h
  obtain ⟨name, _, h⟩ := bind_ok h
  obtain ⟨import_, hread, h⟩ := bind_ok h
  unfold classify
  rw [if_neg hname, hread]
  cases import_ with
  | some import_ =>
    cases h
    exact .inl ⟨import_, rfl, rfl, rfl⟩
  | none =>
    cases h
    exact .inr ⟨name, rfl, rfl, rfl⟩

/-! ## Short imports -/

/-- A short import of a symbol from a library: its header, and the strings of its payload. -/
structure ShortImport (member : List UInt8) (symbol dll rest : Text) : Prop where
  header : ImportHeader member
  inside : 20 + field member 12 4 ≤ member.length
  payload : (member.drop 20).take (field member 12 4) = symbol ++ 0 :: (dll ++ 0 :: rest)
  named : 0 ∉ symbol ∧ symbol ≠ []
  supplied : 0 ∉ dll ∧ dll ≠ []
  exportAs : field member 18 2 >>> 2 &&& 7 = 4 → rest ≠ [] → 0 ∈ rest

theorem drop_behind {payload front rest : List UInt8} {offset : Nat}
    (h : payload.drop offset = front ++ 0 :: rest) :
    payload.drop (offset + front.length + 1) = rest := by
  rw [Nat.add_assoc, ← drop_drop, h, ← drop_drop, drop_left]
  rfl

theorem importStrings_eq {payload : List UInt8} {nameType : Nat}
    (hpayload : payload = symbol ++ 0 :: (dll ++ 0 :: rest)) (hnamed : 0 ∉ symbol ∧ symbol ≠ [])
    (hsupplied : 0 ∉ dll ∧ dll ≠ []) (hexport : nameType = 4 → rest ≠ [] → 0 ∈ rest) :
    ∃ exportAs, importStrings payload nameType = .ok (some (symbol, dll, exportAs)) := by
  have hsym : payload.drop 0 = symbol ++ 0 :: (dll ++ 0 :: rest) := hpayload
  have hdll : payload.drop (symbol.length + 1) = dll ++ 0 :: rest := by
    simpa using drop_behind hsym
  have hlast := drop_behind hdll
  unfold importStrings
  rw [cString_iff.mpr ⟨hnamed.1, _, hsym⟩]
  dsimp only [bind, Except.bind]
  rw [cString_iff.mpr ⟨hsupplied.1, _, hdll⟩]
  dsimp only
  rw [if_neg (not_or.mpr ⟨hnamed.2, hsupplied.2⟩)]
  split
  · rename_i hmore
    have hrest : rest ≠ [] := by
      rintro rfl
      exact absurd (drop_eq_nil_iff.mp hlast) (Nat.not_le.mpr hmore.2)
    obtain ⟨front, back, hsplit, hfront⟩ := eq_append_cons_of_mem (hexport hmore.1 hrest)
    have hthird := cString_iff.mpr ⟨hfront, back, hlast.trans hsplit⟩
    rw [hthird]
    exact ⟨front, rfl⟩
  · exact ⟨[], rfl⟩

theorem of_importStrings {payload : List UInt8} {nameType : Nat} {exportAs : Text}
    (h : importStrings payload nameType = .ok (some (symbol, dll, exportAs))) :
    (0 ∉ symbol ∧ symbol ≠ []) ∧ (0 ∉ dll ∧ dll ≠ []) ∧
      ∃ rest, payload = symbol ++ 0 :: (dll ++ 0 :: rest) ∧
        (nameType = 4 → rest ≠ [] → 0 ∈ rest) := by
  unfold importStrings at h
  obtain ⟨first, hsym, h⟩ := bind_ok h
  obtain ⟨hfirst, behind, hpayload⟩ := cString_iff.mp hsym
  obtain ⟨second, hdll, h⟩ := bind_ok h
  obtain ⟨hsecond, rest, hrest⟩ := cString_iff.mp hdll
  have hbehind := drop_behind hpayload
  have hlast := drop_behind hrest
  rw [Nat.zero_add] at hbehind
  rw [hbehind] at hrest
  rw [drop_zero] at hpayload
  dsimp only at h
  split at h
  · cases h
  rename_i hnames
  obtain ⟨hne, hne'⟩ := not_or.mp hnames
  split at h
  · rename_i hmore
    obtain ⟨third, hthird, h⟩ := bind_ok h
    obtain ⟨-, back, hback⟩ := cString_iff.mp hthird
    cases h
    refine ⟨⟨hfirst, hne⟩, ⟨hsecond, hne'⟩, rest, by rw [hpayload, hrest], fun _ _ => ?_⟩
    rw [← hlast, hback]
    exact mem_append_right _ mem_cons_self
  · rename_i hnone
    cases h
    refine ⟨⟨hfirst, hne⟩, ⟨hsecond, hne'⟩, rest, by rw [hpayload, hrest], fun htype hne => ?_⟩
    refine absurd ⟨htype, Nat.lt_of_not_le fun hend => hne ?_⟩ hnone
    rw [← hlast, drop_eq_nil_of_le hend]

theorem parse_of_shortImport (source : String) (h : ShortImport member symbol dll rest) :
    ∃ import_ : ImportObject, parseImportObject member source = .ok (some import_) ∧
      import_.symbol = symbol ∧ import_.dll = dll ∧
      import_.hintOrOrdinal = field member 16 2 ∧ import_.type = field member 18 2 &&& 3 := by
  obtain ⟨exportAs, hstrs⟩ := importStrings_eq h.payload h.named h.supplied h.exportAs
  rw [parse_of_header source h.header, subspan_eq h.inside]
  change ∃ import_, payloadImport member source _ = _ ∧ _
  unfold payloadImport
  rw [hstrs]
  exact ⟨_, rfl, rfl, rfl, rfl, rfl⟩

theorem shortImport_of_parse {source : String} {import_ : ImportObject}
    (h : parseImportObject member source = .ok (some import_)) :
    ∃ rest, ShortImport member import_.symbol import_.dll rest := by
  by_cases hheader : ImportHeader member
  · rw [parse_of_header source hheader] at h
    obtain ⟨payload, hpayload, h⟩ := bind_ok h
    have hinside : 20 + field member 12 4 ≤ member.length := by
      by_contra hout
      rw [subspan_outside hout] at hpayload
      cases hpayload
    rw [subspan_eq hinside] at hpayload
    obtain rfl := Except.ok.inj hpayload
    unfold payloadImport at h
    cases hstrs : importStrings ((member.drop 20).take (field member 12 4))
        (field member 18 2 >>> 2 &&& 7) with
    | error failure =>
      rw [hstrs] at h
      cases failure <;> cases h
    | ok strings =>
      rw [hstrs] at h
      cases strings with
      | none => cases h
      | some strings =>
        obtain ⟨symbol, dll, exportAs⟩ := strings
        obtain ⟨hnamed, hsupplied, rest, hpayload, hexport⟩ := of_importStrings hstrs
        cases h
        exact ⟨rest, hheader, hinside, hpayload, hnamed, hsupplied, hexport⟩
  · rw [parse_of_not_header source hheader] at h
    cases h

theorem readU16_eq (h : offset + 2 ≤ member.length) :
    ArchiveFile.readU16 member offset = .ok (field member offset 2) := by
  unfold ArchiveFile.readU16
  rw [accesses_eq h]
  rfl

theorem readImport_of_not (h : ¬ ImportSignature member) :
    ArchiveFile.readImport member = .ok none := by
  unfold ArchiveFile.readImport
  split
  · rfl
  rename_i hsize
  rw [readU16_eq (Nat.le_trans (by decide) (Nat.not_lt.mp hsize)),
    readU16_eq (Nat.le_trans (by decide) (Nat.not_lt.mp hsize))]
  change (if _ then _ else _) = _
  split
  · rfl
  rename_i hfirst
  change (if _ then _ else _) = _
  split
  · rfl
  · rename_i hsecond
    exact absurd ⟨Nat.not_lt.mp hsize, not_not.mp hfirst, not_not.mp hsecond⟩ h

/-- Whatever is behind the signature, the archive reader takes an import from it. -/
theorem readImport_of_signature (h : ImportSignature member) :
    ∃ import_ : ArchiveFile.ArchiveImport, ArchiveFile.readImport member = .ok (some import_) ∧
      import_.symbol = (member.drop 20).takeWhile (· != 0) ∧
      import_.dll = (member.drop (20 + import_.symbol.length + 1)).takeWhile (· != 0) ∧
      import_.hint = field member 16 2 ∧ import_.type = field member 18 2 &&& 3 := by
  obtain ⟨hsize, hfirst, hsecond⟩ := h
  have hat {offset : Nat} (hoff : offset + 2 ≤ 20) :
      ArchiveFile.readU16 member offset = .ok (field member offset 2) :=
    readU16_eq (hoff.trans hsize)
  have htext (offset : Nat) : ArchiveFile.readCString member offset =
      .ok ((member.drop offset).takeWhile (· != 0)) := by
    rw [ArchiveFile.readCString_eq, take_of_length_le]
    rw [length_drop]
    exact Nat.sub_le _ _
  unfold ArchiveFile.readImport
  rw [if_neg (Nat.not_lt.mpr hsize), hat (by decide), hat (by decide), hat (by decide),
    hat (by decide), htext]
  dsimp only [bind, Except.bind]
  rw [if_neg (not_not_intro hfirst), if_neg (not_not_intro hsecond), htext]
  exact ⟨_, rfl, rfl, rfl, rfl, rfl⟩

theorem strings_of_payload (h : ShortImport member symbol dll rest) :
    (member.drop 20).takeWhile (· != 0) = symbol ∧
      (member.drop (20 + symbol.length + 1)).takeWhile (· != 0) = dll := by
  have hdrop : member.drop 20 =
      symbol ++ 0 :: (dll ++ 0 :: (rest ++ (member.drop 20).drop (field member 12 4))) := by
    conv => lhs; rw [← take_append_drop (field member 12 4) (member.drop 20), h.payload]
    rw [append_assoc, cons_append, append_assoc, cons_append]
  rw [drop_behind hdrop]
  conv => lhs; rw [hdrop]
  exact ⟨takeWhile_name h.named.1, takeWhile_name h.supplied.1⟩

/-! ## Big objects -/

theorem signature_of_bigobj (h : bigobjSignature member = true) : ImportSignature member := by
  unfold bigobjSignature at h
  obtain ⟨hsize, hrest⟩ := Bool.and_eq_true_iff.mp h
  obtain ⟨hfront, -⟩ := Bool.and_eq_true_iff.mp hrest
  have hfirst : (member.drop 0).take 2 = [0, 0] := by
    have htake := congrArg (List.take 2) (eq_of_beq hfront)
    rwa [take_take] at htake
  have hsecond : (member.drop 2).take 2 = [0xff, 0xff] := by
    have hdrop := congrArg (List.drop 2) (eq_of_beq hfront)
    rwa [drop_take] at hdrop
  refine ⟨Nat.le_trans (by decide) (of_decide_eq_true hsize), ?_, ?_⟩
  · rw [field, hfirst]
    rfl
  · rw [field, hsecond]
    rfl

/-- The class of a big object stands where a short import has the size of its payload: the sum does
not wrap. -/
theorem payloadInside_of_bigobj (h : bigobjSignature member = true) : PayloadInside member := by
  intro hheader
  unfold bigobjSignature at h
  simp only [Bool.and_eq_true] at h
  have hclass : (member.drop 12).take 4 = [0xc7, 0xa1, 0xba, 0xd1] := by
    have htake := congrArg (List.take 4) (eq_of_beq h.2.2.2.2)
    rwa [take_take] at htake
  have hsize : field member 12 4 = 0xd1baa1c7 := by
    rw [field, hclass]
    rfl
  have hfits := hheader.fits
  rwa [hsize] at hfits ⊢

theorem isObject_of_signature (h : ImportSignature member) :
    LinkArchive.isObject member = .ok (bigobjSignature member) := by
  rw [isObject_eq, decide_eq_false, Bool.false_or]
  rintro ⟨-, hmachine⟩
  rw [h.2.1] at hmachine
  exact absurd hmachine (by decide)

/-! ## Members that both read alike -/

/-- An object that the parser accepts, with content and of no GNU import library. -/
structure PlainObject (archive : ArchiveInput) (entry : ArchiveMember) (member : List UInt8) :
    Prop where
  signature : ¬ ImportSignature member
  machine : 2 ≤ member.length ∧ field member 0 2 = machineAmd64
  parsed : ∃ object, Coff.parse member (memberSource archive entry) = .ok object ∧
    parseMingwImportStub archive object (memberSource archive entry) = .ok none ∧
    onlyImportDataSections object = false

/-- A member that is a short import in all its fields, or such an object. -/
def Unambiguous (archive : ArchiveInput) (entry : ArchiveMember) (member : List UInt8) : Prop :=
  (bigobjSignature member = false ∧ ∃ symbol dll rest, ShortImport member symbol dll rest) ∨
    PlainObject archive entry member

section

variable {archive : ArchiveInput} {entry : ArchiveMember} {raw : ArchiveFile.RawMember}

theorem bytes_of_within (h : Within archive.bytes entry) :
    archiveMemberBytes archive entry = .ok (dataOf archive.bytes entry) := by
  unfold archiveMemberBytes
  rw [if_neg]
  · rfl
  · unfold Within at h
    omega

theorem not_metadata_of_selectable (h : Selectable entry) :
    ¬ (metadata entry.name = true ∨ entry.name = []) :=
  not_or.mpr ⟨Bool.not_eq_true _ ▸ h.1, h.2⟩

/-- The linker takes a member for an import if the parser of short imports does, and it is no
object; or if it is a stub. -/
theorem classify_of_signature (hwithin : Within archive.bytes entry) (hsel : Selectable entry)
    (hsig : ImportSignature (dataOf archive.bytes entry))
    (hbig : bigobjSignature (dataOf archive.bytes entry) = false) :
    LinkArchive.classify archive entry =
      (parseImportObject (dataOf archive.bytes entry) (memberSource archive entry) >>= fun found =>
        match found with
        | some import_ => .ok (.shortImport import_.symbol import_.dll import_.hintOrOrdinal
            import_.type)
        | none => report (memberSource archive entry ++
            ": unsupported selected COFF archive member")) := by
  unfold LinkArchive.classify parseMember
  rw [if_neg (not_metadata_of_selectable hsel), bytes_of_within hwithin]
  dsimp only [bind, Except.bind]
  rw [isObject_of_signature hsig, hbig]
  dsimp only
  generalize parseImportObject _ _ = outcome
  cases outcome with
  | error failure => rfl
  | ok found =>
    cases found with
    | none => rfl
    | some import_ => rfl

theorem classify_of_object (hwithin : Within archive.bytes entry) (hsel : Selectable entry)
    (hobject : isObject (dataOf archive.bytes entry) = .ok true) :
    LinkArchive.classify archive entry = .ok .object ↔ ∃ object,
      Coff.parse (dataOf archive.bytes entry) (memberSource archive entry) = .ok object ∧
      parseMingwImportStub archive object (memberSource archive entry) = .ok none ∧
      onlyImportDataSections object = false := by
  unfold LinkArchive.classify parseMember
  rw [if_neg (not_metadata_of_selectable hsel), bytes_of_within hwithin]
  dsimp only [bind, Except.bind]
  rw [hobject, Checked.parse_eq]
  cases Coff.parse (dataOf archive.bytes entry) (memberSource archive entry) with
  | error message => simp [lift, report]
  | ok object =>
    dsimp only [lift]
    cases hstub : parseMingwImportStub archive object (memberSource archive entry) with
    | error failure => simp [hstub]
    | ok stub =>
      cases stub with
      | some stub => simp [hstub, pure, Except.pure]
      | none =>
        cases hinert : onlyImportDataSections object <;>
          simp [hstub, hinert, pure, Except.pure]

/-- An object is no short import to the linker. -/
theorem not_shortImport_of_object (hwithin : Within archive.bytes entry) (hsel : Selectable entry)
    (hobject : isObject (dataOf archive.bytes entry) = .ok true) {hint type : Nat} :
    LinkArchive.classify archive entry ≠ .ok (.shortImport symbol dll hint type) := by
  unfold LinkArchive.classify parseMember
  rw [if_neg (not_metadata_of_selectable hsel), bytes_of_within hwithin]
  dsimp only [bind, Except.bind]
  rw [hobject, Checked.parse_eq]
  cases Coff.parse (dataOf archive.bytes entry) (memberSource archive entry) with
  | error message => simp [lift, report]
  | ok object =>
    dsimp only [lift]
    cases parseMingwImportStub archive object (memberSource archive entry) with
    | error failure => simp
    | ok stub =>
      cases stub with
      | some stub => simp [pure, Except.pure]
      | none =>
        cases onlyImportDataSections object <;> simp [pure, Except.pure]

theorem classify_archive (hname : ¬ (raw.rawName = [47] ∨ raw.rawName = [47, 47]))
    (hsig : ImportSignature raw.data) : ∃ hint type,
    ArchiveFile.classify raw = .ok (.shortImport ((raw.data.drop 20).takeWhile (· != 0))
      ((raw.data.drop (20 + ((raw.data.drop 20).takeWhile (· != 0)).length + 1)).takeWhile
        (· != 0)) hint type) ∧
      hint = field raw.data 16 2 ∧ type = field raw.data 18 2 &&& 3 := by
  obtain ⟨import_, hread, hsym, hdll, hhint, htype⟩ := readImport_of_signature hsig
  refine ⟨import_.hint, import_.type, ?_, hhint, htype⟩
  unfold ArchiveFile.classify
  rw [if_neg hname, hread, ← hsym, ← hdll]
  rfl

/-- Both take a member for the same exactly if it is unambiguous. -/
theorem alike_iff (hwithin : Within archive.bytes entry) (hsel : Selectable entry)
    (hname : ¬ (raw.rawName = [47] ∨ raw.rawName = [47, 47]))
    (hdata : raw.data = dataOf archive.bytes entry) :
    (∃ class_, ArchiveFile.classify raw = .ok class_ ∧
      LinkArchive.classify archive entry = .ok class_) ↔
        Unambiguous archive entry (dataOf archive.bytes entry) := by
  by_cases hsig : ImportSignature (dataOf archive.bytes entry)
  · obtain ⟨hint, type, harchive, hhint, htype⟩ := classify_archive hname (hdata ▸ hsig)
    rw [hdata] at harchive hhint htype
    have hplain (h : PlainObject archive entry (dataOf archive.bytes entry)) : False :=
      h.signature hsig
    cases hbig : bigobjSignature (dataOf archive.bytes entry) with
    | true =>
      have hobject := (isObject_of_signature hsig).trans (congrArg Except.ok hbig)
      constructor
      · rintro ⟨class_, hfirst, hsecond⟩
        obtain rfl := Except.ok.inj (harchive.symm.trans hfirst)
        exact absurd hsecond (not_shortImport_of_object hwithin hsel hobject)
      · rintro (⟨hno, -⟩ | hobj)
        · rw [hbig] at hno
          cases hno
        · exact (hplain hobj).elim
    | false =>
      rw [classify_of_signature hwithin hsel hsig hbig]
      constructor
      · rintro ⟨class_, hfirst, hsecond⟩
        obtain rfl := Except.ok.inj (harchive.symm.trans hfirst)
        obtain ⟨found, hparse, hclass⟩ := bind_ok hsecond
        cases found with
        | none => cases hclass
        | some import_ =>
          obtain ⟨rest, hshort⟩ := shortImport_of_parse hparse
          exact .inl ⟨hbig, _, _, rest, hshort⟩
      · rintro (⟨-, symbol, dll, rest, hshort⟩ | hobj)
        · obtain ⟨import_, hparse, rfl, rfl, hhint', htype'⟩ :=
            parse_of_shortImport (memberSource archive entry) hshort
          obtain ⟨hsym, hdll⟩ := strings_of_payload hshort
          rw [hsym, hdll] at harchive
          refine ⟨_, harchive, ?_⟩
          rw [hparse, hhint, htype, ← hhint', ← htype']
          rfl
        · exact (hplain hobj).elim
  · have hbig : bigobjSignature (dataOf archive.bytes entry) = false :=
      Bool.eq_false_iff.mpr (mt signature_of_bigobj hsig)
    have harchive : ArchiveFile.classify raw = .ok .object := by
      unfold ArchiveFile.classify
      rw [if_neg hname, hdata, readImport_of_not hsig]
      rfl
    have hobject : isObject (dataOf archive.bytes entry) = _ := isObject_eq
    rw [hbig, Bool.or_false] at hobject
    by_cases hmachine : 2 ≤ (dataOf archive.bytes entry).length ∧
        field (dataOf archive.bytes entry) 0 2 = machineAmd64
    · rw [decide_eq_true hmachine] at hobject
      have hlink := classify_of_object hwithin hsel hobject
      constructor
      · rintro ⟨class_, hfirst, hsecond⟩
        obtain rfl := Except.ok.inj (harchive.symm.trans hfirst)
        exact .inr ⟨hsig, hmachine, hlink.mp hsecond⟩
      · rintro (⟨-, symbol, dll, rest, hshort⟩ | hobj)
        · exact absurd hshort.header.signature hsig
        · exact ⟨_, harchive, hlink.mpr hobj.parsed⟩
    · rw [decide_eq_false hmachine] at hobject
      constructor
      · rintro ⟨class_, -, hsecond⟩
        unfold LinkArchive.classify parseMember at hsecond
        rw [if_neg (not_metadata_of_selectable hsel), bytes_of_within hwithin] at hsecond
        dsimp only [bind, Except.bind] at hsecond
        rw [hobject, parse_of_not_header _ (mt ImportHeader.signature hsig)] at hsecond
        cases hsecond
      · rintro (⟨-, symbol, dll, rest, hshort⟩ | hobj)
        · exact absurd hshort.header.signature hsig
        · exact absurd hobj.machine hmachine

end

/-! ## Headers that both read alike -/

/-- The bytes of a field of the header of a member. -/
def headerField (bytes : List UInt8) (entry : ArchiveMember) (offset count : Nat) : Text :=
  (bytes.drop (entry.headerOffset + offset)).take count

/-- Both read the same size, and both or neither take the name for that of a special member. -/
structure Plain (bytes : List UInt8) (entry : ArchiveMember) : Prop where
  size : ArchiveFile.fromChars (ArchiveFile.trim (headerField bytes entry 48 10)) = some entry.size
  name : (ArchiveFile.trim (headerField bytes entry 0 16) = [47] ∨
    ArchiveFile.trim (headerField bytes entry 0 16) = [47, 47]) ↔ ¬ Selectable entry

/-- The member that the archive reader has found is that of the linker, and of the same class. -/
structure SameMember (archive : ArchiveInput) (raw : ArchiveFile.RawMember)
    (entry : ArchiveMember) : Prop where
  offset : raw.offset = entry.dataOffset
  size : raw.data.length = entry.size
  alike : ∃ class_, ArchiveFile.classify raw = .ok class_ ∧
    LinkArchive.classify archive entry = .ok class_

/-- The header at an offset, as the archive reader takes it. -/
structure RawAt (bytes : List UInt8) (cursor : Nat) (raw : ArchiveFile.RawMember) : Prop where
  name : raw.rawName = ArchiveFile.trim ((bytes.drop cursor).take 16)
  offset : raw.offset = cursor + 60
  size : ArchiveFile.fromChars (ArchiveFile.trim ((bytes.drop (cursor + 48)).take 10)) =
    some raw.data.length
  data : raw.data = (bytes.drop (cursor + 60)).take raw.data.length

theorem rawAt_of_read {cursor : Nat} {name : String} {raw : ArchiveFile.RawMember}
    (hfits : cursor + 60 ≤ bytes.length)
    (h : ArchiveFile.readRawMember bytes cursor name = .ok raw) : RawAt bytes cursor raw := by
  have hpart {offset count : Nat} (hin : offset + count ≤ 60) :
      (accesses ((bytes.drop cursor).take ArchiveFile.headerSize) offset count :
        ArchiveFile.Read Text) = .ok ((bytes.drop (cursor + offset)).take count) := by
    have hlen : ((bytes.drop cursor).take ArchiveFile.headerSize).length = 60 := by
      rw [length_take, length_drop, ArchiveFile.headerSize]
      omega
    rw [accesses_eq (by rw [hlen]; exact hin), drop_take, take_take, drop_drop,
      Nat.min_eq_left (by unfold ArchiveFile.headerSize; omega)]
  unfold ArchiveFile.readRawMember at h
  dsimp only at h
  rw [hpart (by decide), hpart (by decide)] at h
  dsimp only [bind, Except.bind] at h
  split at h
  · cases h
  rename_i size hsize
  split at h
  · cases h
  rename_i hend
  unfold ArchiveFile.headerSize at h hend
  cases h
  have hlen : ((bytes.drop (cursor + 60)).take size).length = size := by
    rw [length_take, length_drop]
    omega
  exact ⟨rfl, rfl, by rw [hlen]; exact hsize, by rw [hlen]⟩

/-- The header at an offset, as the linker takes it. -/
structure EntryAt (bytes : List UInt8) (off : Nat) (entry : ArchiveMember) : Prop where
  fits : off + 60 ≤ bytes.length
  headerOffset : entry.headerOffset = off
  dataOffset : entry.dataOffset = off + 60
  within : Within bytes entry

theorem entryAt_of_read {off : Nat} {path : String} {entry : ArchiveMember}
    (h : LinkArchive.readMember bytes off path = .ok entry) : EntryAt bytes off entry := by
  unfold LinkArchive.readMember at h
  split at h
  · cases h
  rename_i hfits
  obtain ⟨first, _, h⟩ := bind_ok h
  obtain ⟨second, _, h⟩ := bind_ok h
  split at h
  · cases h
  obtain ⟨name, _, h⟩ := bind_ok h
  obtain ⟨size, _, h⟩ := bind_ok h
  dsimp only at h
  split at h
  · cases h
  rename_i hend
  cases h
  exact ⟨Nat.not_lt.mp hfits, rfl, rfl, Nat.not_lt.mp hend⟩

section

variable {archive : ArchiveInput} {entry : ArchiveMember} {raw : ArchiveFile.RawMember}
  {off : Nat}

theorem metadata_of_not_selectable (h : ¬ Selectable entry) :
    LinkArchive.classify archive entry = .ok .metadata := by
  unfold LinkArchive.classify
  rw [if_pos]
  · rfl
  · by_contra hno
    obtain ⟨hmeta, hname⟩ := not_or.mp hno
    exact h ⟨Bool.eq_false_iff.mpr hmeta, hname⟩

/-- A member that may be selected is of no class of its own. -/
theorem classify_ne_metadata (hsel : Selectable entry) :
    LinkArchive.classify archive entry ≠ .ok .metadata := by
  unfold LinkArchive.classify
  rw [if_neg (not_metadata_of_selectable hsel)]
  cases parseMember archive entry with
  | error failure => exact fun h => nomatch h
  | ok parsed => cases parsed <;> exact fun h => nomatch h

theorem archive_ne_metadata (hname : ¬ (raw.rawName = [47] ∨ raw.rawName = [47, 47])) :
    ArchiveFile.classify raw ≠ .ok .metadata := by
  unfold ArchiveFile.classify
  rw [if_neg hname]
  cases ArchiveFile.readImport raw.data with
  | error failure => exact fun h => nomatch h
  | ok found => cases found <;> exact fun h => nomatch h

/-- At one offset the two find the same member exactly if its header is plain and it is unambiguous,
or special. -/
theorem sameMember_iff (hraw : RawAt archive.bytes off raw)
    (hentry : EntryAt archive.bytes off entry) :
    SameMember archive raw entry ↔ Plain archive.bytes entry ∧
      (Selectable entry → Unambiguous archive entry (dataOf archive.bytes entry)) := by
  have hname : ArchiveFile.trim (headerField archive.bytes entry 0 16) = raw.rawName := by
    rw [hraw.name, headerField, hentry.headerOffset]
    rfl
  have hsize : ArchiveFile.fromChars (ArchiveFile.trim (headerField archive.bytes entry 48 10)) =
      some raw.data.length := by
    rw [← hraw.size, headerField, hentry.headerOffset]
  have hdata (hlen : raw.data.length = entry.size) : raw.data = dataOf archive.bytes entry := by
    rw [hraw.data, hlen, dataOf, hentry.dataOffset]
  constructor
  · rintro ⟨-, hlen, class_, hfirst, hsecond⟩
    have hkind : (raw.rawName = [47] ∨ raw.rawName = [47, 47]) ↔ ¬ Selectable entry := by
      constructor
      · intro hspecial hsel
        have hclass : ArchiveFile.classify raw = .ok .metadata := by
          unfold ArchiveFile.classify
          rw [if_pos hspecial]
          rfl
        obtain rfl := Except.ok.inj (hclass.symm.trans hfirst)
        exact classify_ne_metadata hsel hsecond
      · intro hno
        by_contra hspecial
        rw [metadata_of_not_selectable hno] at hsecond
        obtain rfl := Except.ok.inj hsecond
        exact archive_ne_metadata hspecial hfirst
    refine ⟨⟨by rw [hsize, hlen], by rwa [hname]⟩, fun hsel => ?_⟩
    exact (alike_iff hentry.within hsel (mt hkind.mp (not_not_intro hsel)) (hdata hlen)).mp
      ⟨class_, hfirst, hsecond⟩
  · rintro ⟨hplain, hmember⟩
    have hlen := Option.some.inj (hsize.symm.trans hplain.size)
    have hkind := hplain.name
    rw [hname] at hkind
    refine ⟨hraw.offset.trans hentry.dataOffset.symm, hlen, ?_⟩
    by_cases hsel : Selectable entry
    · exact (alike_iff hentry.within hsel (mt hkind.mp (not_not_intro hsel)) (hdata hlen)).mpr
        (hmember hsel)
    · refine ⟨.metadata, ?_, metadata_of_not_selectable hsel⟩
      unfold ArchiveFile.classify
      rw [if_pos (hkind.mpr hsel)]
      rfl

/-- **From one header to the next**: the walks of both stay together as long as the headers are
plain. -/
theorem members_iff {name path : String} :
    ∀ {raws : List ArchiveFile.RawMember} {entries : List ArchiveMember},
    ArchiveFile.readRawMembers archive.bytes name off = .ok raws →
    LinkArchive.readMembers archive.bytes path off = .ok entries →
    (Forall₂ (SameMember archive) raws entries ↔ ∀ entry ∈ entries, Plain archive.bytes entry ∧
      (Selectable entry → Unambiguous archive entry (dataOf archive.bytes entry))) := by
  induction off using LinkArchive.readMembers.induct archive.bytes with
  | case2 off hend =>
    intro raws entries hraws hentries
    rw [readMembers, if_neg hend] at hentries
    rw [ArchiveFile.readRawMembers, if_neg (by unfold ArchiveFile.headerSize; omega)] at hraws
    cases hentries
    cases hraws
    exact ⟨fun _ => forall_mem_nil _, fun _ => .nil⟩
  | case1 off hmore ih =>
    intro raws entries hraws hentries
    rw [readMembers, if_pos hmore] at hentries
    obtain ⟨entry, hentry, hentries⟩ := bind_ok hentries
    obtain ⟨entries, hrest, hlast⟩ := bind_ok hentries
    cases hlast
    have hat := entryAt_of_read hentry
    rw [ArchiveFile.readRawMembers, if_pos (by unfold ArchiveFile.headerSize; exact hat.fits)]
      at hraws
    obtain ⟨raw, hraw, hraws⟩ := bind_ok hraws
    obtain ⟨raws, hrest', hlast⟩ := bind_ok hraws
    cases hlast
    have hhead := sameMember_iff (rawAt_of_read hat.fits hraw) hat
    have htail (hsize : raw.data.length = entry.size) : _ ↔ _ :=
      @ih entry raws entries (by rw [← hsize]; exact hrest') hrest
    rw [forall₂_cons, forall_mem_cons, hhead]
    refine and_congr_right fun hplain => htail ?_
    exact (hhead.mpr hplain).size

end

/-! ## Reading well -/

/-- Both readers accept the bytes, and these are the members that each of them walks over. -/
structure BothRead (bytes : List UInt8) (archive : ArchiveInput)
    (raws : List ArchiveFile.RawMember) (entries : List ArchiveMember) : Prop where
  accepted : ∃ name found, ArchiveFile.readArchive bytes name = .ok found ∧
    ArchiveFile.readRawMembers bytes name ArchiveFile.archiveMagic.length = .ok raws
  linked : ∃ path, LinkArchive.readArchive bytes path = .ok archive ∧
    LinkArchive.readMembers bytes path 8 = .ok entries

/-- The two find the same members, and take each for the same. -/
def Agree (bytes : List UInt8) : Prop :=
  ∀ archive raws entries, BothRead bytes archive raws entries →
    Forall₂ (SameMember archive) raws entries

/-- Each header is plain, and each member that may be selected is unambiguous. -/
def Regular (bytes : List UInt8) : Prop :=
  ∀ archive raws entries, BothRead bytes archive raws entries → ∀ entry ∈ entries,
    Plain bytes entry ∧ (Selectable entry → Unambiguous archive entry (dataOf bytes entry))

/-- Bytes are read inside, as an archive and as a member of one, with the members they have as an
archive; and both readers make the same of these. -/
structure WellRead (bytes : List UInt8) : Prop where
  archive : ∀ name, Stays (ArchiveFile.Archive.Within bytes) (ArchiveFile.readArchive bytes name)
  link : ∀ path, Stays (fun archive : ArchiveInput => archive.bytes = bytes ∧
    ∀ entry ∈ archive.members, Within bytes entry) (LinkArchive.readArchive bytes path)
  select : ∀ path archive, LinkArchive.readArchive bytes path = .ok archive → ∀ index,
    Stays (fun _ => True) (parseArchiveMember archive index)
  member : ∀ source, Stays (fun _ => True) (parseImportObject bytes source)
  index : ∀ (archive : ArchiveInput) (index : Nat) (entry : ArchiveMember),
    archive.members[index]? = some entry → archiveMemberBytes archive entry = .ok bytes →
    Stays (fun _ => True) (indexArchiveMemberSymbols archive index)
  agree : Agree bytes

theorem sameInput_of_read {path : String} {archive : ArchiveInput}
    (h : LinkArchive.readArchive bytes path = .ok archive) : ∃ entries,
    readMembers bytes path 8 = .ok entries ∧ SameInput (inputOf bytes path entries) archive := by
  have hread := h
  unfold LinkArchive.readArchive at hread
  obtain ⟨entries, hentries, -⟩ := bind_ok hread
  refine ⟨entries, hentries, ?_⟩
  rcases readArchive_cases hentries with ⟨next, hnext, hsame⟩ | hout
  · rwa [Except.ok.inj (h.symm.trans hnext)]
  · rw [hout] at h
    cases h

theorem agree_iff : Agree bytes ↔ Regular bytes := by
  refine forall_congr' fun archive => forall_congr' fun raws => forall_congr' fun entries => ?_
  refine forall_congr' fun h => ?_
  obtain ⟨name, found, -, hraws⟩ := h.accepted
  obtain ⟨path, hread, hentries⟩ := h.linked
  obtain ⟨_, -, hsame⟩ := sameInput_of_read hread
  obtain rfl : archive.bytes = bytes := hsame.bytes
  exact members_iff hraws hentries

/-- A member that is selected is read inside only if its payload is. -/
theorem payloadInside_of_parse {archive : ArchiveInput} {entry : ArchiveMember}
    (hwithin : Within archive.bytes entry)
    (h : Stays (fun _ => True) (parseMember archive entry)) :
    PayloadInside (dataOf archive.bytes entry) := by
  cases hbig : bigobjSignature (dataOf archive.bytes entry) with
  | true => exact payloadInside_of_bigobj hbig
  | false =>
    intro hheader
    by_contra hout
    have hobject := isObject_of_signature hheader.signature
    rw [hbig] at hobject
    unfold parseMember at h
    rw [bytes_of_within hwithin] at h
    dsimp only [bind, Except.bind] at h
    rw [hobject, parse_of_header _ hheader, subspan_outside hout] at h
    exact h rfl

/-- Bytes are read well exactly if the payloads of short imports are there, and both readers, where
they accept the bytes as an archive, meet plain headers and unambiguous members only. -/
theorem wellRead_iff (bytes : List UInt8) :
    WellRead bytes ↔ PayloadInside bytes ∧ PayloadsInside bytes ∧ Regular bytes := by
  constructor
  · intro h
    refine ⟨parse_stays_iff.mp h.member, ?_, agree_iff.mp h.agree⟩
    rintro entry ⟨path, entries, hentries, hmem⟩ hsel
    rcases readArchive_cases hentries with ⟨archive, hread, hsame⟩ | hout
    · have hlisted : entry ∈ archive.members := by
        rw [hsame.members]
        exact mem_of_add.mpr (.inr ⟨hmem, hsel⟩)
      obtain ⟨index, hidx⟩ := mem_iff_getElem?.mp hlisted
      have hstays := h.select path archive hread index
      unfold parseArchiveMember at hstays
      rw [hidx] at hstays
      have hwithin := (readMembers_stays path 8).value hentries entry hmem
      obtain rfl : archive.bytes = bytes := hsame.bytes
      exact payloadInside_of_parse hwithin hstays
    · exact absurd rfl ((h.link path).failure hout)
  · rintro ⟨hmember, hmembers, hregular⟩
    exact {
      archive := fun name => ArchiveFile.readArchive_stays
      link := fun path => (LinkArchive.readArchive_stays hmembers).mono fun archive hreads =>
        ⟨hreads.bytes, hreads.within⟩
      select := by
        intro path archive hread index
        have hreads := (LinkArchive.readArchive_stays hmembers).value hread
        unfold parseArchiveMember
        split
        · exact Stays.report
        rename_i entry hentry
        obtain ⟨hfound, hsel⟩ := hreads.members entry (mem_of_getElem? hentry)
        refine parseMember_stays ?_
        rw [hreads.bytes]
        exact hmembers entry hfound hsel
      member := parse_stays_iff.mpr hmember
      index := by
        intro archive index entry hentry hbytes
        obtain rfl := (archiveMemberBytes_stays archive entry).value hbytes
        exact (index_stays hentry hmember).mono fun _ _ => True.intro
      agree := agree_iff.mpr hregular }

/-! ## Where the readers go wrong -/

/-- A short import whose payload claims `2 ^ 32 - 16` bytes, of which there are four. -/
def overrun : List UInt8 :=
  [0, 0, 0xff, 0xff, 0, 0, 0x64, 0x86, 0, 0, 0, 0, 0xf0, 0xff, 0xff, 0xff, 0, 0, 4, 0] ++
    [97, 98, 99, 100]

/-- A big object without sections and symbols: its header, and the size of its strings. -/
def bigObject : List UInt8 :=
  [0, 0, 0xff, 0xff, 2, 0, 0x64, 0x86, 0, 0, 0, 0] ++ bigobjMagic ++ List.replicate 20 0 ++
    [56, 0, 0, 0, 0, 0, 0, 0, 4, 0, 0, 0]

/-- An archive of it: a name, blanks, the size, and the two bytes at the end of the header. -/
def bigObjectArchive : List UInt8 :=
  ArchiveFile.archiveMagic ++ [98, 47] ++ List.replicate 46 32 ++ [54, 48] ++
    List.replicate 8 32 ++ [96, 10] ++ bigObject

def bigObjectRaw : ArchiveFile.RawMember := ⟨[98, 47], 68, bigObject⟩

def bigObjectEntry : ArchiveMember := ⟨8, 68, 60, [98, 47]⟩

def bigObjectInput : ArchiveInput :=
  { path := "", bytes := bigObjectArchive, members := [bigObjectEntry] }

/-- What the archive reader finds: an import of a part of the class of big objects. -/
def bigObjectFound : ArchiveFile.Archive :=
  { name := "", imports := [⟨bigobjMagic.drop 8, [], 0xbaee, 1, 2⟩]
    importIndex := [(bigobjMagic.drop 8, 0)] }

theorem bigObject_bothRead :
    BothRead bigObjectArchive bigObjectInput [bigObjectRaw] [bigObjectEntry] := by
  have hraws : ArchiveFile.readRawMembers bigObjectArchive "" 8 = .ok [bigObjectRaw] := by
    have hread : ArchiveFile.readRawMember bigObjectArchive 8 "" = .ok bigObjectRaw := by
      decide +kernel
    rw [ArchiveFile.readRawMembers, if_pos (by decide +kernel), hread]
    change (ArchiveFile.readRawMembers bigObjectArchive "" 128 >>= _) = _
    rw [ArchiveFile.readRawMembers, if_neg (by decide +kernel)]
    rfl
  have hentries : readMembers bigObjectArchive "" 8 = .ok [bigObjectEntry] := by
    have hread : readMember bigObjectArchive 8 "" = .ok bigObjectEntry := by decide +kernel
    rw [readMembers, if_pos (by decide +kernel), hread]
    change (readMembers bigObjectArchive "" 128 >>= _) = _
    rw [readMembers, if_neg (by decide +kernel)]
    rfl
  refine ⟨⟨"", bigObjectFound, ?_, hraws⟩, "", ?_, hentries⟩
  · unfold ArchiveFile.readArchive
    rw [if_neg (by decide +kernel), accesses_eq (by decide +kernel)]
    dsimp only [bind, Except.bind]
    rw [if_neg (by decide +kernel)]
    change (ArchiveFile.readRawMembers bigObjectArchive "" 8 >>= _) = _
    rw [hraws]
    decide +kernel
  · unfold LinkArchive.readArchive
    rw [hentries]
    decide +kernel

/-- The linker reads behind the one, and the archive reader takes the other for a short import. -/
theorem not_wellRead_overrun :
    (parseImportObject overrun "" = .error .outside ∧ ¬ WellRead overrun) ∧
      (LinkArchive.classify bigObjectInput bigObjectEntry = .ok .object ∧
        ¬ WellRead bigObjectArchive) := by
  have houtside : parseImportObject overrun "" = .error .outside := by decide +kernel
  have hlink : LinkArchive.classify bigObjectInput bigObjectEntry = .ok .object := by
    decide +kernel
  refine ⟨⟨houtside, fun h => (h.member "").failure houtside rfl⟩, hlink, fun h => ?_⟩
  obtain ⟨class_, hfirst, hsecond⟩ :=
    ((forall₂_cons.mp (h.agree _ _ _ bigObject_bothRead)).1).alike
  rw [hlink] at hsecond
  obtain rfl := Except.ok.inj hsecond
  exact absurd hfirst (by decide +kernel)

end Raz.Oblink
