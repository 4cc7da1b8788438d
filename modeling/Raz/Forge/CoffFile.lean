import Raz.Lib.Placed
import Raz.Forge.CoffPlan

/-!
# The layout of the COFF file

Where the writer puts the sections, the entries of the symbols and the long names.

Result: `writeSymbols_full`: a string table that grows out of its field has a name at its end.
-/

namespace Raz.Forge.Coff

open Codec Outcome Placed List StringTable

variable {placed : PlacedSection} {sections : List Section} {name : Text} {strings : StringTable}
  {symbols : List Symbol}

/-! ## Sections -/

theorem le_alignCursor (value : Nat) : value ≤ alignCursor value := by
  unfold alignCursor
  omega

/-- Data and relocations of a section stand where its header says. -/
structure PlacedSection.Within (bytes : List UInt8) (placed : PlacedSection) : Prop where
  data : At bytes placed.rawOffset.toNat placed.section_.data
  relocations : placed.section_.relocations ≠ [] →
    At bytes placed.relocationOffset.toNat (placed.section_.relocations.flatMap writeRelocation)
  offset : placed.rawOffset ≠ 0

theorem PlacedSection.Within.append {bytes : List UInt8} (h : placed.Within bytes)
    (more : List UInt8) : placed.Within (bytes ++ more) :=
  ⟨h.data.append more, fun hne => (h.relocations hne).append more, h.offset⟩

theorem length_writeRelocation (relocation : Relocation) :
    (writeRelocation relocation).length = 10 := by
  simp [writeRelocation]

theorem length_relocations (relocations : List Relocation) :
    (relocations.flatMap writeRelocation).length = relocations.length * 10 := by
  rw [length_flatMap]
  simp [length_writeRelocation]

theorem place_section {cursor next : Nat} {section_ : Section}
    (h : place cursor section_ = .ok (placed, next)) : placed.section_ = section_ := by
  unfold place at h
  split at h
  · cases h
  dsimp only at h
  split at h
  · obtain ⟨rfl, _⟩ := Prod.mk.inj (Except.ok.inj h)
    rfl
  split at h
  · cases h
  · obtain ⟨rfl, _⟩ := Prod.mk.inj (Except.ok.inj h)
    rfl

theorem placeAll_sections :
    ∀ {cursor last : Nat} {placed : List PlacedSection},
      placeAll cursor sections = .ok (placed, last) →
      placed.map PlacedSection.section_ = sections := by
  induction sections with
  | nil =>
    intro cursor last placed h
    obtain ⟨rfl, _⟩ := Prod.mk.inj (Except.ok.inj h)
    rfl
  | cons section_ sections ih =>
    intro cursor last placed h
    unfold placeAll at h
    obtain ⟨⟨first, next⟩, hfirst, h⟩ := bind_ok h
    obtain ⟨⟨rest, stop⟩, hrest, h⟩ := bind_ok h
    obtain ⟨rfl, _⟩ := Prod.mk.inj (Except.ok.inj h)
    rw [map_cons, place_section hfirst, ih hrest]

/-- Writing a section at the cursor brings the file to the next cursor. -/
theorem place_at {cursor next : Nat} {section_ : Section} {bytes : List UInt8}
    (h : place cursor section_ = .ok (placed, next)) (hcur : bytes.length = cursor)
    (hpos : 0 < cursor) :
    placed.Within (writeSection bytes placed) ∧
      (writeSection bytes placed).length = next ∧ 0 < next ∧
      ∃ more, writeSection bytes placed = bytes ++ more := by
  have hle := le_alignCursor cursor
  unfold place at h
  cases hraw : checkedU32 (alignCursor cursor) with
  | none =>
    rw [hraw] at h
    cases h
  | some rawOffset =>
    have hoff := toNat_of_checkedU32 hraw
    have hne : rawOffset ≠ 0 := by
      rintro rfl
      exact Nat.ne_of_gt (Nat.lt_of_lt_of_le hpos hle) hoff.symm
    -- the bytes up to the data
    have hfront : (bytes ++ List.replicate (rawOffset.toNat - bytes.length) 0).length =
        rawOffset.toNat := by
      rw [length_append, length_replicate, hoff, hcur]
      exact Nat.add_sub_cancel' hle
    have hwrote (relocationOffset : UInt32) :
        At (writeSection bytes { section_, rawOffset, relocationOffset }) rawOffset.toNat
          (section_.data ++ section_.relocations.flatMap writeRelocation) :=
      hfront ▸ At.of_append _ _
    have hlen (relocationOffset : UInt32) :
        (writeSection bytes { section_, rawOffset, relocationOffset }).length =
          alignCursor cursor + section_.data.length + section_.relocations.length * 10 := by
      unfold writeSection
      rw [length_append, hfront, length_append, length_relocations, hoff, Nat.add_assoc]
    have hmore (relocationOffset : UInt32) :
        ∃ more, writeSection bytes { section_, rawOffset, relocationOffset } = bytes ++ more :=
      ⟨_, append_assoc ..⟩
    rw [hraw] at h
    dsimp only at h
    split at h
    · rename_i hnil
      cases h
      have hsize := hlen 0
      rw [hnil] at hsize
      refine ⟨⟨(hwrote 0).left, fun hne => absurd hnil hne, hne⟩, hsize, ?_, hmore 0⟩
      omega
    · rename_i hrelocs
      cases hreloc : checkedU32 (alignCursor cursor + section_.data.length) with
      | none =>
        rw [hreloc] at h
        cases h
      | some relocationOffset =>
        rw [hreloc] at h
        cases h
        have hstart : rawOffset.toNat + section_.data.length = relocationOffset.toNat := by
          rw [toNat_of_checkedU32 hreloc, hoff]
        refine ⟨⟨(hwrote _).left, fun _ => hstart ▸ (hwrote _).right, hne⟩,
          hlen _, ?_, hmore _⟩
        omega

/-- So does writing all of them, and what was written before stays. -/
theorem placeAll_at :
    ∀ {cursor last : Nat} {placed : List PlacedSection} {bytes : List UInt8},
      placeAll cursor sections = .ok (placed, last) → bytes.length = cursor → 0 < cursor →
      (∀ part ∈ placed, part.Within (placed.foldl writeSection bytes)) ∧
      (placed.foldl writeSection bytes).length = last ∧
      ∃ more, placed.foldl writeSection bytes = bytes ++ more := by
  induction sections with
  | nil =>
    intro cursor last placed bytes h hcur _
    cases h
    exact ⟨forall_mem_nil _, hcur, [], (append_nil _).symm⟩
  | cons section_ sections ih =>
    intro cursor last placed bytes h hcur hpos
    unfold placeAll at h
    obtain ⟨⟨first, next⟩, hfirst, h⟩ := bind_ok h
    obtain ⟨⟨rest, stop⟩, hrest, h⟩ := bind_ok h
    cases h
    obtain ⟨hwithin, hnext, hnextPos, front, hfront⟩ := place_at hfirst hcur hpos
    obtain ⟨hall, hlen, back, hback⟩ := ih hrest hnext hnextPos
    refine ⟨?_, hlen, front ++ back, ?_⟩
    · intro part hpart
      rw [foldl_cons]
      rcases mem_cons.mp hpart with rfl | hpart
      · rw [hback]
        exact hwithin.append back
      · exact hall part hpart
    · rw [foldl_cons, hback, hfront, append_assoc]

/-- Where the file is after the sections, if no offset is too large for its field. -/
def extent (cursor : Nat) (sections : List Section) : Nat :=
  sections.foldl (fun cursor section_ =>
    alignCursor cursor + section_.data.length + section_.relocations.length * 10) cursor

theorem le_extent (sections : List Section) : ∀ cursor, cursor ≤ extent cursor sections := by
  induction sections with
  | nil => exact fun cursor => Nat.le_refl cursor
  | cons section_ sections ih =>
    intro cursor
    refine Nat.le_trans (le_alignCursor cursor) (Nat.le_trans ?_ (ih _))
    exact Nat.le_trans (Nat.le_add_right _ _) (Nat.le_add_right _ _)

theorem checkedU32_of_le {value : Nat} (h : value ≤ 0xffffffff) :
    checkedU32 value = some (UInt32.ofNat value) := if_pos h

theorem placeAll_ok :
    ∀ {cursor : Nat}, extent cursor sections ≤ 0xffffffff →
      ∃ placed, placeAll cursor sections = .ok (placed, extent cursor sections) := by
  induction sections with
  | nil => exact fun _ => ⟨[], rfl⟩
  | cons section_ sections ih =>
    intro cursor h
    have hnext := Nat.le_trans (le_extent sections _) h
    have hraw := checkedU32_of_le (Nat.le_trans (Nat.le_trans (Nat.le_add_right _ _)
      (Nat.le_add_right _ _)) hnext)
    have hrelocs := checkedU32_of_le (Nat.le_trans (Nat.le_add_right _ _) hnext)
    obtain ⟨rest, hrest⟩ := ih h
    have hplace : ∃ placed, place cursor section_ = .ok (placed, alignCursor cursor +
        section_.data.length + section_.relocations.length * 10) := by
      unfold place
      rw [hraw]
      dsimp only
      split
      · rename_i hnil
        rw [hnil]
        exact ⟨_, rfl⟩
      · rw [hrelocs]
        exact ⟨_, rfl⟩
    obtain ⟨placed, hplaced⟩ := hplace
    unfold placeAll
    rw [hplaced]
    change ∃ result, (placeAll _ sections >>= _) = .ok (result, extent _ sections)
    rw [hrest]
    exact ⟨_, rfl⟩

/-! ## Names -/

/-- What a name takes of the string table. -/
def nameSize (name : Text) : Nat := if name.length ≤ 8 then 0 else name.length + 1

def namesSize (names : List Text) : Nat := (names.map nameSize).sum

/-- The field has the name, or the offset at which it stands in the table. -/
def Named (field table : List UInt8) (name : Text) : Prop :=
  (name.length ≤ 8 ∧ field = name ++ List.replicate (8 - name.length) 0) ∨
  ∃ offset, offset + 4 < 2 ^ 32 ∧ At table offset (name ++ [0]) ∧
    field = littleEndian 4 0 ++ littleEndian 4 (offset + 4)

theorem Named.append {field table : List UInt8} (h : Named field table name) (more : List UInt8) :
    Named field (table ++ more) name := by
  rcases h with hshort | ⟨offset, hlt, hat, hfield⟩
  · exact .inl hshort
  · exact .inr ⟨offset, hlt, hat.append more, hfield⟩

/-- The table with one more name. -/
def StringTable.push (strings : StringTable) (name : Text) : StringTable where
  bytes := strings.bytes ++ (name ++ [0])
  offsets := strings.offsets ++ [(name, UInt32.ofNat (strings.bytes.length + 4))]

def StringTable.names (strings : StringTable) : List Text := strings.offsets.map Prod.fst

theorem StringTable.names_push (strings : StringTable) (name : Text) :
    (strings.push name).names = strings.names ++ [name] := map_append

theorem writeName_short (strings : StringTable) (h : name.length ≤ 8) :
    writeName name strings = (name ++ List.replicate (8 - name.length) 0, strings) := by
  unfold writeName
  rw [if_pos h]

theorem writeName_long (h : ¬ name.length ≤ 8) (hfresh : name ∉ strings.names)
    (hroom : strings.bytes.length + 4 < 2 ^ 32) :
    writeName name strings =
      (littleEndian 4 0 ++ littleEndian 4 (strings.bytes.length + 4), strings.push name) := by
  have hnone : strings.offsets.find? (·.1 == name) = none := by
    refine List.find?_eq_none.mpr fun entry hentry heq => hfresh ?_
    exact mem_map.mpr ⟨entry, hentry, eq_of_beq heq⟩
  have hadd : strings.add name = (UInt32.ofNat (strings.bytes.length + 4), strings.push name) := by
    unfold add push
    rw [hnone]
    rw [if_neg (by omega), append_assoc]
  have hoff : (UInt32.ofNat (strings.bytes.length + 4)).toNat = strings.bytes.length + 4 :=
    Nat.mod_eq_of_lt hroom
  unfold writeName
  rw [if_neg h, hadd]
  dsimp only
  rw [hoff]

/-- A table that is behind the range of its offsets does not grow. -/
theorem writeName_full (name : Text) (hfull : 2 ^ 32 ≤ strings.bytes.length + 4) :
    (writeName name strings).2 = strings := by
  have hadd : (strings.add name).2 = strings := by
    unfold add
    split
    · rfl
    · rw [if_pos (by omega)]
  unfold writeName
  split
  · rfl
  · exact hadd

theorem length_writeName (name : Text) (strings : StringTable) :
    (writeName name strings).1.length = 8 := by
  unfold writeName
  split
  · rename_i h
    rw [length_append, length_replicate, Nat.add_sub_cancel' h]
  · rfl

/-! ## Symbols -/

/-- The entry of a symbol behind its name. -/
def Symbol.fields (symbol : Symbol) : List UInt8 :=
  littleEndian 4 symbol.value.toNat ++ (littleEndian 2 symbol.sectionNumber.toNat ++
    (littleEndian 2 symbol.type.toNat ++ [symbol.storageClass, 0]))

theorem writeSymbols_cons (symbol : Symbol) (symbols : List Symbol) (strings : StringTable) :
    writeSymbols (symbol :: symbols) strings =
      ((writeName symbol.name strings).1 ++ symbol.fields ++
        (writeSymbols symbols (writeName symbol.name strings).2).1,
        (writeSymbols symbols (writeName symbol.name strings).2).2) := rfl

theorem length_entry (symbol : Symbol) (strings : StringTable) :
    ((writeName symbol.name strings).1 ++ symbol.fields).length = 18 := by
  rw [length_append, length_writeName]
  rfl

theorem at_entry {front entries part : List UInt8} (index offset : Nat)
    (hfront : front.length = 18) (h : At entries (index * 18 + offset) part) :
    At (front ++ entries) ((index + 1) * 18 + offset) part := by
  have hat := (hfront ▸ At.of_append front entries).trans h
  have hidx : 18 + (index * 18 + offset) = (index + 1) * 18 + offset := by
    rw [Nat.succ_mul, Nat.add_comm (index * 18) 18, Nat.add_assoc]
  exact hidx ▸ hat

theorem writeSymbols_at :
    ∀ {strings : StringTable},
      (writeSymbols symbols strings).1.length = symbols.length * 18 ∧
      ∀ index symbol, symbols[index]? = some symbol →
        At (writeSymbols symbols strings).1 (index * 18 + 8) symbol.fields := by
  induction symbols with
  | nil =>
    intro strings
    refine ⟨rfl, fun index symbol hsym => ?_⟩
    rw [List.getElem?_nil] at hsym
    cases hsym
  | cons first symbols ih =>
    intro strings
    obtain ⟨hlen, hat⟩ := @ih (writeName first.name strings).2
    have hentry := length_entry first strings
    rw [writeSymbols_cons]
    refine ⟨?_, fun index symbol hsym => ?_⟩
    · rw [length_append, hentry, hlen, length_cons, Nat.succ_mul, Nat.add_comm]
    cases index with
    | zero =>
      cases hsym
      have hwhole := (At.whole ((writeName first.name strings).1 ++ first.fields)).skip
        (length_writeName _ _)
      exact hwhole.append _
    | succ index => exact at_entry index 8 hentry (hat index symbol hsym)

/-- Names that are all different fit into the table with their sizes. -/
theorem writeSymbols_names :
    ∀ {strings : StringTable}, (symbols.map Symbol.name).Nodup →
      (∀ symbol ∈ symbols, symbol.name ∉ strings.names) →
      strings.bytes.length + 4 + namesSize (symbols.map Symbol.name) < 2 ^ 32 →
      (∃ more, (writeSymbols symbols strings).2.bytes = strings.bytes ++ more ∧
        more.length = namesSize (symbols.map Symbol.name)) ∧
      ∀ index symbol, symbols[index]? = some symbol →
        ∃ field, At (writeSymbols symbols strings).1 (index * 18) field ∧
          Named field (writeSymbols symbols strings).2.bytes symbol.name := by
  induction symbols with
  | nil =>
    intro strings _ _ _
    refine ⟨⟨[], (append_nil _).symm, rfl⟩, fun index symbol hsym => ?_⟩
    rw [List.getElem?_nil] at hsym
    cases hsym
  | cons first symbols ih =>
    intro strings hnodup hfresh hroom
    obtain ⟨hfirst, hrest⟩ := nodup_cons.mp hnodup
    have hnew := hfresh first mem_cons_self
    have hsize : namesSize ((first :: symbols).map Symbol.name) =
        nameSize first.name + namesSize (symbols.map Symbol.name) := sum_cons
    rw [hsize] at hroom
    -- the name of the first symbol is in the table behind it
    have hname : (writeName first.name strings).2.names ⊆ strings.names ++ [first.name] ∧
        (∃ more, (writeName first.name strings).2.bytes = strings.bytes ++ more ∧
          more.length = nameSize first.name) ∧
        Named (writeName first.name strings).1 (writeName first.name strings).2.bytes
          first.name := by
      unfold nameSize
      by_cases hshort : first.name.length ≤ 8
      · rw [writeName_short strings hshort, if_pos hshort]
        exact ⟨subset_append_left _ _, ⟨[], (append_nil _).symm, rfl⟩, .inl ⟨hshort, rfl⟩⟩
      have hlt : strings.bytes.length + 4 < 2 ^ 32 := by omega
      rw [writeName_long hshort hnew hlt, if_neg hshort]
      refine ⟨?_, ⟨first.name ++ [0], rfl, length_append⟩, .inr ⟨_, hlt, ?_, rfl⟩⟩
      · exact fun _ hmem => names_push strings first.name ▸ hmem
      · exact At.of_append _ _
    obtain ⟨hnames, ⟨front, hfront, hfrontSize⟩, hnamed⟩ := hname
    have hother : ∀ symbol ∈ symbols, symbol.name ∉ (writeName first.name strings).2.names := by
      intro symbol hsym hmem
      rcases mem_append.mp (hnames hmem) with hold | heq
      · exact hfresh symbol (mem_cons_of_mem _ hsym) hold
      · exact hfirst (mem_singleton.mp heq ▸ mem_map_of_mem hsym)
    have hrestRoom : (writeName first.name strings).2.bytes.length + 4 +
        namesSize (symbols.map Symbol.name) < 2 ^ 32 := by
      rw [hfront, length_append, hfrontSize]
      omega
    obtain ⟨⟨back, hback, hbackSize⟩, hat⟩ := ih hrest hother hrestRoom
    rw [writeSymbols_cons, hsize]
    refine ⟨⟨front ++ back, ?_, ?_⟩, fun index symbol hsym => ?_⟩
    · rw [hback, hfront, append_assoc]
    · rw [length_append, hfrontSize, hbackSize]
    cases index with
    | zero =>
      cases hsym
      have hfield := (At.whole ((writeName first.name strings).1 ++ first.fields)).left
      have hkept := hnamed.append back
      rw [← hback] at hkept
      exact ⟨(writeName first.name strings).1, hfield.append _, hkept⟩
    | succ index =>
      obtain ⟨field, hfield, hnamed⟩ := hat index symbol hsym
      exact ⟨field, at_entry index 0 (length_entry first strings) hfield, hnamed⟩

theorem writeSymbols_stay (hfull : 2 ^ 32 ≤ strings.bytes.length + 4) :
    (writeSymbols symbols strings).2 = strings := by
  induction symbols with
  | nil => rfl
  | cons first symbols ih =>
    rw [writeSymbols_cons, writeName_full first.name hfull]
    exact ih

/-- If they do not fit, one of the names ends where the table ends, behind the range of sizes. -/
theorem writeSymbols_full :
    ∀ {strings : StringTable}, (symbols.map Symbol.name).Nodup →
      (∀ symbol ∈ symbols, symbol.name ∉ strings.names) →
      strings.bytes.length + 4 < 2 ^ 32 →
      2 ^ 32 ≤ strings.bytes.length + 4 + namesSize (symbols.map Symbol.name) →
      2 ^ 32 ≤ (writeSymbols symbols strings).2.bytes.length + 4 ∧
      ∃ index symbol offset, symbols[index]? = some symbol ∧ offset + 4 < 2 ^ 32 ∧
        At (writeSymbols symbols strings).1 (index * 18)
          (littleEndian 4 0 ++ littleEndian 4 (offset + 4)) ∧
        At (writeSymbols symbols strings).2.bytes offset symbol.name ∧
        (writeSymbols symbols strings).2.bytes.length = offset + symbol.name.length + 1 := by
  induction symbols with
  | nil =>
    intro strings _ _ hlt hfull
    exact absurd hlt (Nat.not_lt.mpr hfull)
  | cons first symbols ih =>
    intro strings hnodup hfresh hlt hfull
    obtain ⟨hfirst, hrest⟩ := nodup_cons.mp hnodup
    have hnew := hfresh first mem_cons_self
    have hsize : namesSize ((first :: symbols).map Symbol.name) =
        nameSize first.name + namesSize (symbols.map Symbol.name) := sum_cons
    rw [hsize] at hfull
    rw [writeSymbols_cons]
    by_cases hshort : first.name.length ≤ 8
    · have hzero : nameSize first.name = 0 := if_pos hshort
      rw [hzero, Nat.zero_add] at hfull
      rw [writeName_short strings hshort]
      have hother : ∀ symbol ∈ symbols, symbol.name ∉ strings.names :=
        fun symbol hsym => hfresh symbol (mem_cons_of_mem _ hsym)
      obtain ⟨hbehind, index, symbol, offset, hsym, hoff, hfield, hat, hend⟩ :=
        ih hrest hother hlt hfull
      refine ⟨hbehind, index + 1, symbol, offset, hsym, hoff, ?_, hat, hend⟩
      have hentry := length_entry first strings
      rw [writeName_short strings hshort] at hentry
      exact at_entry index 0 hentry hfield
    · have hadded : nameSize first.name = first.name.length + 1 := if_neg hshort
      have hpushed : (strings.push first.name).bytes.length =
          strings.bytes.length + first.name.length + 1 := by
        unfold push
        rw [length_append, length_append, length_singleton, Nat.add_assoc]
      have hentry := length_entry first strings
      rw [writeName_long hshort hnew hlt] at hentry
      rw [writeName_long hshort hnew hlt]
      by_cases hmore : (strings.push first.name).bytes.length + 4 < 2 ^ 32
      · have hother : ∀ symbol ∈ symbols, symbol.name ∉ (strings.push first.name).names := by
          intro symbol hsym hmem
          rw [names_push] at hmem
          rcases mem_append.mp hmem with hold | heq
          · exact hfresh symbol (mem_cons_of_mem _ hsym) hold
          · exact hfirst (mem_singleton.mp heq ▸ mem_map_of_mem hsym)
        obtain ⟨hbehind, index, symbol, offset, hsym, hoff, hfield, hat, hend⟩ :=
          ih hrest hother hmore (by omega)
        exact ⟨hbehind, index + 1, symbol, offset, hsym, hoff,
          at_entry index 0 hentry hfield, hat, hend⟩
      · -- this is the name: none is added behind it
        have hstay : (writeSymbols symbols (strings.push first.name)).2 = strings.push first.name :=
          writeSymbols_stay (Nat.not_lt.mp hmore)
        have hfield := (At.whole ((littleEndian 4 0 ++
          littleEndian 4 (strings.bytes.length + 4)) ++ first.fields)).left
        have hname : At (strings.push first.name).bytes strings.bytes.length first.name :=
          (At.of_append strings.bytes (first.name ++ [0])).left
        rw [hstay]
        exact ⟨Nat.not_lt.mp hmore, 0, first, strings.bytes.length, rfl, hlt, hfield.append _,
          hname, hpushed⟩

end Raz.Forge.Coff
