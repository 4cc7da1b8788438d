import Raz.Oblink.BaseRelocations
import Mathlib.Algebra.BigOperators.Group.List.Basic
import Mathlib.Data.Nat.Bitwise

/-!
# The base relocations describe the absolute addresses

The payload is read block by block: a slot gives back its relocation, the filler is skipped, and
the pages increase as the relocations are sorted. The block of a page with `n` entries takes at most
`12 * n` bytes (`length_payload_le`), so that the reservation is enough while its size fits into
32 bits.

The section is found again by its name. If an input object brings a section `.reloc`, that one
comes first, as the sort is stable and the reserved section was added last.

Result: `announces_iff`: when the reserved section is the one that is announced.
-/

namespace Raz.Oblink.BaseRelocations

open Codec Coff List

variable {relocation : BaseRelocation} {run : List BaseRelocation} {out : OutputSection}
  {index position : Nat}

/-! ## Slots -/

theorem toNat_offset (relocation : BaseRelocation) :
    relocation.offset.toNat = relocation.rva.toNat % 4096 := by
  rw [BaseRelocation.offset, UInt32.toNat_and]
  exact Nat.and_two_pow_sub_one_eq_mod _ 12

theorem toNat_page (relocation : BaseRelocation) :
    relocation.page.toNat = relocation.rva.toNat / 4096 * 4096 := by
  have hmask : (~~~(0xfff : UInt32)).toNat = (2 ^ 20 - 1) <<< 12 := by decide
  have hshift : relocation.rva.toNat / 4096 * 4096 = relocation.rva.toNat >>> 12 <<< 12 := by
    rw [Nat.shiftRight_eq_div_pow, Nat.shiftLeft_eq]
  rw [BaseRelocation.page, UInt32.toNat_and, hmask, hshift]
  refine Nat.eq_of_testBit_eq fun bit => ?_
  rw [Nat.testBit_and, Nat.testBit_shiftLeft, Nat.testBit_shiftLeft, Nat.testBit_two_pow_sub_one,
    Nat.testBit_shiftRight]
  by_cases hlow : 12 ≤ bit
  · rw [Nat.add_sub_cancel' hlow]
    by_cases hhigh : bit < 32
    · have hrange : bit - 12 < 20 := by omega
      simp [hlow, hrange]
    have hzero : relocation.rva.toNat.testBit bit = false :=
      Nat.testBit_lt_two_pow (lt_of_lt_of_le relocation.rva.toNat_lt
        (Nat.pow_le_pow_right (by decide) (Nat.le_of_not_lt hhigh)))
    simp [hzero]
  · simp [hlow]

theorem page_add_offset (relocation : BaseRelocation) :
    relocation.page + relocation.offset = relocation.rva := by
  refine UInt32.toNat_inj.mp ?_
  rw [UInt32.toNat_add, toNat_page, toNat_offset, Nat.div_add_mod']
  exact Nat.mod_eq_of_lt relocation.rva.toNat_lt

/-- The types that are written: neither is the type of the filler. -/
def IsWritten (relocation : BaseRelocation) : Prop :=
  relocation.type = imageRelBasedHighlow ∨ relocation.type = imageRelBasedDir64

theorem isWritten_of_mem {relocations : List PlacedRelocation}
    (h : relocation ∈ baseRelocations relocations) : IsWritten relocation := by
  obtain ⟨placed, -, hplaced⟩ := mem_filterMap.mp h
  unfold baseRelocation at hplaced
  split at hplaced
  · cases hplaced
  split at hplaced
  · exact .inr (congrArg BaseRelocation.type (Option.some.inj hplaced)).symm
  · split at hplaced
    · exact .inl (congrArg BaseRelocation.type (Option.some.inj hplaced)).symm
    · cases hplaced

section

variable (h : relocation.type.toNat < 16)

include h

theorem toNat_slot :
    (slot relocation).toNat = relocation.type.toNat * 4096 + relocation.rva.toNat % 4096 := by
  have hoff : relocation.offset.toUInt16.toNat = relocation.rva.toNat % 4096 := by
    rw [UInt32.toNat_toUInt16, toNat_offset]
    exact Nat.mod_eq_of_lt (lt_trans (Nat.mod_lt _ (by decide)) (by decide))
  have htype : (relocation.type <<< 12).toNat = relocation.type.toNat <<< 12 := by
    rw [UInt16.toNat_shiftLeft]
    refine Nat.mod_eq_of_lt ?_
    change relocation.type.toNat <<< 12 < 65536
    rw [Nat.shiftLeft_eq]
    omega
  rw [slot, UInt16.toNat_or, htype, hoff,
    ← Nat.shiftLeft_add_eq_or_of_lt (Nat.mod_lt _ (by decide)), Nat.shiftLeft_eq]

theorem type_of_slot :
    slot relocation >>> 12 = relocation.type := by
  refine UInt16.toNat_inj.mp ?_
  rw [UInt16.toNat_shiftRight, toNat_slot h]
  change (relocation.type.toNat * 4096 + relocation.rva.toNat % 4096) >>> 12 = _
  rw [Nat.shiftRight_eq_div_pow]
  omega

theorem offset_of_slot :
    (slot relocation &&& 0xfff).toUInt32 = relocation.offset := by
  refine UInt32.toNat_inj.mp ?_
  rw [UInt16.toNat_toUInt32, UInt16.toNat_and, toNat_slot h, toNat_offset]
  change (relocation.type.toNat * 4096 + relocation.rva.toNat % 4096) &&& (2 ^ 12 - 1) = _
  rw [Nat.and_two_pow_sub_one_eq_mod]
  omega

end

theorem IsWritten.type_lt (h : IsWritten relocation) : relocation.type.toNat < 16 := by
  rcases h with h | h <;> rw [h] <;> decide

theorem IsWritten.type_ne (h : IsWritten relocation) : relocation.type ≠ 0 := by
  rcases h with h | h <;> rw [h] <;> decide

theorem entry_slot {block : Block} {relocation : BaseRelocation} (h : IsWritten relocation)
    (hpage : block.page = relocation.page) : block.entry (slot relocation) = some relocation := by
  rw [Block.entry, type_of_slot h.type_lt, if_neg h.type_ne, offset_of_slot h.type_lt, hpage,
    page_add_offset]

/-! ## Blocks -/

/-- The slots of a page, the filler among them. -/
def pageSlots (run : List BaseRelocation) : List UInt16 :=
  run.map slot ++ List.replicate (run.length % 2) 0

/-- The block of a page as it is read. -/
def pageBlock (run : List BaseRelocation) : Block where
  page := (run.head?.map BaseRelocation.page).getD 0
  size := blockSize run.length
  slots := pageSlots run

theorem ofNat_ofLittleEndian_slot (value : UInt16) :
    UInt16.ofNat (ofLittleEndian (littleEndian 2 value.toNat)) = value := by
  rw [ofLittleEndian_of_lt value.toNat_lt, UInt16.ofNat_toNat]

theorem readSlots_append (value : UInt16) (bytes : List UInt8) :
    readSlots (littleEndian 2 value.toNat ++ bytes) = value :: readSlots bytes :=
  congrArg (· :: readSlots bytes) (ofNat_ofLittleEndian_slot value)

theorem readSlots_slots (slots : List UInt16) :
    readSlots (slots.flatMap fun slot => littleEndian 2 slot.toNat) = slots := by
  induction slots with
  | nil => rfl
  | cons slot slots ih => rw [flatMap_cons, readSlots_append, ih]

theorem length_slotBytes (slots : List UInt16) :
    (slots.flatMap fun slot => littleEndian 2 slot.toNat).length = 2 * slots.length := by
  induction slots with
  | nil => rfl
  | cons slot slots ih =>
    rw [flatMap_cons, length_append, length_littleEndian, ih, length_cons]
    omega

theorem blockBody_eq (run : List BaseRelocation) :
    blockBody run = (pageSlots run).flatMap fun slot => littleEndian 2 slot.toNat := by
  have hslots : (run.flatMap fun relocation => littleEndian 2 (slot relocation).toNat) =
      (run.map slot).flatMap fun slot => littleEndian 2 slot.toNat := by
    rw [flatMap_map]
  unfold blockBody pageSlots
  simp only [hslots, length_slotBytes, length_map]
  rw [flatMap_append]
  by_cases heven : run.length % 2 = 0
  · rw [if_pos (by omega), heven, replicate_zero, flatMap_nil, append_nil]
  · rw [if_neg (by omega), Nat.mod_two_ne_zero.mp heven]
    rfl

theorem length_blockBody (run : List BaseRelocation) :
    8 + (blockBody run).length = blockSize run.length := by
  rw [blockBody_eq, length_slotBytes, pageSlots, length_append, length_map,
    length_replicate, blockSize]

theorem length_block (h : run ≠ []) : (block run).length = blockSize run.length := by
  obtain ⟨first, rest, rfl⟩ := exists_cons_of_ne_nil h
  rw [block, length_append, length_append, length_littleEndian, length_littleEndian,
    length_blockBody]

theorem readBlocks_block (h : run ≠ []) (hsize : blockSize run.length < 2 ^ 32) (fuel : Nat)
    (bytes : List UInt8) :
    readBlocks (fuel + 1) (block run ++ bytes) =
      (readBlocks fuel bytes).map (pageBlock run :: ·) := by
  have hlen := length_block h
  obtain ⟨first, rest, rfl⟩ := exists_cons_of_ne_nil h
  generalize hrun : first :: rest = run at *
  have hblock : block run = littleEndian 4 first.page.toNat ++
      (littleEndian 4 (blockSize run.length) ++ blockBody run) := by
    rw [← hrun, block, length_blockBody, append_assoc]
  have hpage : (block run ++ bytes).take 4 = littleEndian 4 first.page.toNat := by
    rw [hblock, append_assoc]
    exact take_left' (length_littleEndian 4 _)
  have hbehind : (block run ++ bytes).drop 4 =
      littleEndian 4 (blockSize run.length) ++ (blockBody run ++ bytes) := by
    rw [hblock, append_assoc, append_assoc]
    exact drop_left' (length_littleEndian 4 _)
  have hfield : ofLittleEndian (((block run ++ bytes).drop 4).take 4) = blockSize run.length := by
    rw [hbehind, take_left' (length_littleEndian 4 _)]
    exact ofLittleEndian_of_lt hsize
  have hfront : (block run ++ bytes).take (blockSize run.length) = block run := take_left' hlen
  have hrest : (block run ++ bytes).drop (blockSize run.length) = bytes := drop_left' hlen
  have hbody : (block run).drop 8 = blockBody run := by
    rw [hblock, ← append_assoc]
    exact drop_left' rfl
  have hne : block run ++ bytes ≠ [] := by
    rw [hblock]
    exact cons_ne_nil _ _
  obtain ⟨byte, tail, hcons⟩ := exists_cons_of_ne_nil hne
  rw [hcons, readBlocks, ← hcons]
  · simp only [hfield, hfront, hrest, hbody, hpage]
    rw [if_neg]
    · have hhead : UInt32.ofNat (ofLittleEndian (littleEndian 4 first.page.toNat)) =
          first.page := by
        rw [ofLittleEndian_of_lt first.page.toNat_lt, UInt32.ofNat_toNat]
      rw [hhead, blockBody_eq, readSlots_slots, pageBlock, ← hrun]
      rfl
    · rw [length_append, hlen]
      exact fun hor => hor.elim (fun hlt => by unfold blockSize at hlt; omega) (by omega)
  · exact cons_ne_nil _ _

theorem readBlocks_blocks {runs : List (List BaseRelocation)}
    (hne : ∀ run ∈ runs, run ≠ []) (hsize : ∀ run ∈ runs, blockSize run.length < 2 ^ 32) :
    ∀ {fuel : Nat}, runs.length ≤ fuel →
      readBlocks fuel (runs.flatMap block) = some (runs.map pageBlock) := by
  induction runs with
  | nil => exact fun _ => by unfold readBlocks; rfl
  | cons run runs ih =>
    intro fuel hfuel
    obtain ⟨fuel, rfl⟩ := Nat.exists_eq_add_one.mpr (Nat.lt_of_lt_of_le (Nat.succ_pos _) hfuel)
    rw [flatMap_cons, readBlocks_block (hne run mem_cons_self) (hsize run mem_cons_self),
      ih (fun other hother => hne other (mem_cons_of_mem _ hother))
      (fun other hother => hsize other (mem_cons_of_mem _ hother))
      (Nat.le_of_succ_le_succ hfuel)]
    rfl

theorem entries_pageBlock (hwrote : ∀ relocation ∈ run, IsWritten relocation)
    (hpage : ∀ relocation ∈ run, (pageBlock run).page = relocation.page) :
    (pageBlock run).entries = run := by
  have hslots : (run.map slot).filterMap (pageBlock run).entry = run := by
    rw [filterMap_map]
    have hsome : run.filterMap ((pageBlock run).entry ∘ slot) = run.filterMap some :=
      filterMap_congr fun relocation hmem =>
        entry_slot (hwrote relocation hmem) (hpage relocation hmem)
    rw [hsome, filterMap_some]
  have hfiller : (List.replicate (run.length % 2) (0 : UInt16)).filterMap
      (pageBlock run).entry = [] := by
    refine filterMap_eq_nil_iff.mpr fun slot hslot => ?_
    rw [eq_of_mem_replicate hslot]
    rfl
  change (pageSlots run).filterMap _ = run
  rw [pageSlots, filterMap_append, hslots, hfiller, append_nil]

/-! ## The payload -/

/-- The order is that of the addresses, and of the types at one address. -/
theorem isLess_iff {a b : BaseRelocation} : isLess a b = true ↔
    a.rva.toNat < b.rva.toNat ∨ a.rva.toNat = b.rva.toNat ∧ a.type.toNat < b.type.toNat := by
  have hpages : a.page = b.page ↔ a.rva.toNat / 4096 * 4096 = b.rva.toNat / 4096 * 4096 := by
    rw [← UInt32.toNat_inj, toNat_page, toNat_page]
  have hoffsets : a.offset = b.offset ↔ a.rva.toNat % 4096 = b.rva.toNat % 4096 := by
    rw [← UInt32.toNat_inj, toNat_offset, toNat_offset]
  unfold isLess
  split <;> rename_i hpage
  · rw [decide_eq_true_iff, UInt32.lt_iff_toNat_lt, toNat_page, toNat_page]
    rw [ne_eq, hpages] at hpage
    omega
  · rw [ne_eq, not_not, hpages] at hpage
    split <;> rename_i hoff
    · rw [decide_eq_true_iff, UInt32.lt_iff_toNat_lt, toNat_offset, toNat_offset]
      rw [ne_eq, hoffsets] at hoff
      omega
    · rw [decide_eq_true_iff, UInt16.lt_iff_toNat_lt]
      rw [ne_eq, not_not, hoffsets] at hoff
      omega

/-- The relocations as they are written. -/
def sorted (relocations : List BaseRelocation) : List BaseRelocation :=
  relocations.mergeSort fun a b => !isLess b a

theorem sorted_perm (relocations : List BaseRelocation) : (sorted relocations).Perm relocations :=
  mergeSort_perm _ _

theorem sorted_pages (relocations : List BaseRelocation) :
    (sorted relocations).Pairwise fun a b => pageNumber a ≤ pageNumber b := by
  have htrans (a b c : BaseRelocation) (hab : (!isLess b a) = true) (hbc : (!isLess c b) = true) :
      (!isLess c a) = true := by
    rw [Bool.not_eq_true', ← Bool.not_eq_true, isLess_iff] at *
    omega
  have htotal (a b : BaseRelocation) : (!isLess b a || !isLess a b) = true := by
    rw [Bool.or_eq_true, Bool.not_eq_true', Bool.not_eq_true', ← Bool.not_eq_true,
      ← Bool.not_eq_true, isLess_iff, isLess_iff]
    omega
  refine (pairwise_mergeSort htrans htotal relocations).imp fun {a b} hab => ?_
  rw [Bool.not_eq_true', ← Bool.not_eq_true, isLess_iff] at hab
  rw [pageNumber, pageNumber, toNat_page, toNat_page]
  have hle : a.rva.toNat ≤ b.rva.toNat := by omega
  exact Nat.mul_le_mul_right _ (Nat.div_le_div_right hle)

/-- The relocations of a page each. -/
def pages (relocations : List BaseRelocation) : List (List BaseRelocation) :=
  Runs.runs pageNumber (sorted relocations)

theorem pages_flatten (relocations : List BaseRelocation) :
    (pages relocations).flatten.Perm relocations := by
  rw [pages, Runs.flatten_runs]
  exact sorted_perm relocations

/-- A page of one entry takes twelve bytes, and one of more entries less for each of them. -/
theorem blockSize_le {entries : Nat} (h : 0 < entries) : blockSize entries ≤ 12 * entries := by
  unfold blockSize
  omega

theorem length_blocks_le {runs : List (List BaseRelocation)} (hne : ∀ run ∈ runs, run ≠ []) :
    (runs.flatMap block).length ≤ 12 * runs.flatten.length := by
  induction runs with
  | nil => exact Nat.le_refl 0
  | cons run runs ih =>
    have hrun := hne run mem_cons_self
    rw [flatMap_cons, flatten_cons, length_append, length_append, Nat.mul_add, length_block hrun]
    exact Nat.add_le_add (blockSize_le (length_pos_of_ne_nil hrun))
      (ih fun other hother => hne other (mem_cons_of_mem _ hother))

/-- **However the relocations fall into pages, twelve bytes for each of them are enough.** -/
theorem length_payload_le (relocations : List BaseRelocation) :
    (payload relocations).length ≤ 12 * relocations.length := by
  have hlen := length_blocks_le fun run (hrun : run ∈ pages relocations) => Runs.ne_nil hrun
  rwa [(pages_flatten relocations).length_eq] at hlen

theorem page_of_mem {relocations : List BaseRelocation} (hrun : run ∈ pages relocations)
    (h : relocation ∈ run) :
    (pageBlock run).page = relocation.page := by
  obtain ⟨first, rest, rfl⟩ := exists_cons_of_ne_nil (Runs.ne_nil hrun)
  exact (UInt32.toNat_inj.mp (Runs.key_eq_head hrun h)).symm

theorem describes_payload {relocations : List BaseRelocation}
    (hwrote : ∀ relocation ∈ relocations, IsWritten relocation)
    (hsize : (payload relocations).length < 2 ^ 32) :
    Describes (payload relocations) relocations ((pages relocations).map pageBlock) := by
  have hruns : ∀ run ∈ pages relocations, run ≠ [] := fun run hrun => Runs.ne_nil hrun
  have hall : ∀ run ∈ pages relocations, ∀ relocation ∈ run, IsWritten relocation :=
    fun run hrun relocation hmem => hwrote relocation
      ((pages_flatten relocations).mem_iff.mp (mem_flatten.mpr ⟨run, hrun, hmem⟩))
  constructor
  case read =>
    refine readBlocks_blocks hruns (fun run hrun => ?_) ?_
    · -- a block is no longer than all of them
      rw [← length_block (hruns run hrun)]
      exact Nat.lt_of_le_of_lt (List.Sublist.length_le
        (sublist_flatten_of_mem (mem_map_of_mem hrun))) hsize
    · change (pages relocations).length ≤ ((pages relocations).flatMap block).length
      have hcount : (pages relocations).length =
          ((pages relocations).map fun run => (block run).length).length := (length_map _).symm
      rw [length_flatMap, hcount]
      refine length_le_sum_of_one_le _ fun size hmem => ?_
      obtain ⟨run, hrun, rfl⟩ := mem_map.mp hmem
      rw [length_block (hruns run hrun)]
      exact Nat.le_trans (by decide) (Nat.le_add_right 8 _)
  case entries =>
    have hentries : ((pages relocations).map pageBlock).flatMap Block.entries =
        (pages relocations).flatten := by
      rw [flatMap_map, flatMap_def]
      refine congrArg List.flatten ?_
      have heach : (pages relocations).map (fun run => (pageBlock run).entries) =
          (pages relocations).map id :=
        map_congr_left fun run hrun =>
          entries_pageBlock (hall run hrun) fun _ hmem => page_of_mem hrun hmem
      rw [heach, map_id]
    rw [hentries]
    exact pages_flatten relocations
  case pages =>
    rw [pairwise_map]
    refine (Runs.pairwise_lt (sorted_pages relocations)).imp_of_mem fun {r s} hr hs hlt => ?_
    obtain ⟨a, ha⟩ := exists_mem_of_ne_nil r (Runs.ne_nil hr)
    obtain ⟨b, hb⟩ := exists_mem_of_ne_nil s (Runs.ne_nil hs)
    rw [page_of_mem hr ha, page_of_mem hs hb]
    exact UInt32.lt_iff_toNat_lt.mpr (hlt a ha b hb)
  case sizes =>
    intro block hblock
    obtain ⟨run, -, rfl⟩ := mem_map.mp hblock
    change 4 ∣ 8 + 2 * (run.length + run.length % 2)
    omega
  case padding =>
    intro block hblock value hval hzero
    obtain ⟨run, hrun, rfl⟩ := mem_map.mp hblock
    rcases mem_append.mp hval with hslot | hfiller
    · obtain ⟨relocation, hmem, rfl⟩ := mem_map.mp hslot
      have hof := hall run hrun relocation hmem
      rw [type_of_slot hof.type_lt] at hzero
      exact absurd hzero hof.type_ne
    · exact eq_of_mem_replicate hfiller

theorem length_baseRelocations_le (relocations : List PlacedRelocation) :
    (baseRelocations relocations).length ≤ absoluteRelocationCount relocations := by
  rw [baseRelocations, length_filterMap_eq_countP]
  refine countP_mono_left fun relocation _ hsome => ?_
  rw [baseRelocation] at hsome
  split at hsome
  · cases hsome
  split at hsome
  · rename_i htype
    rw [htype]
    rfl
  split at hsome
  · rename_i htype
    rw [htype]
    rfl
  · cases hsome

/-! ## The order of the sections -/

theorem not_comesBefore {a b : OutputSection} : (!comesBefore b a) = true ↔
    rank a.name < rank b.name ∨ rank a.name = rank b.name ∧ a.name ≤ b.name := by
  unfold comesBefore
  rw [Bool.not_eq_true']
  split
  · rw [decide_eq_false_iff_not]
    omega
  rename_i hrank
  rw [decide_eq_false_iff_not]
  have heq : rank a.name = rank b.name := (not_not.mp hrank).symm
  exact ⟨fun hle => .inr ⟨heq, hle⟩, fun h => h.elim (fun hlt => absurd heq (ne_of_lt hlt))
    fun hle => hle.2⟩

theorem comesBefore_trans (a b c : OutputSection) (hab : (!comesBefore b a) = true)
    (hbc : (!comesBefore c b) = true) : (!comesBefore c a) = true := by
  rw [not_comesBefore] at *
  rcases hab with hab | ⟨hab, hnames⟩
  · rcases hbc with hbc | ⟨hbc, -⟩
    · exact .inl (hab.trans hbc)
    · exact .inl (hbc ▸ hab)
  · rcases hbc with hbc | ⟨hbc, hother⟩
    · exact .inl (hab ▸ hbc)
    · exact .inr ⟨hab.trans hbc, List.le_trans hnames hother⟩

theorem comesBefore_total (a b : OutputSection) :
    (!comesBefore b a || !comesBefore a b) = true := by
  rw [Bool.or_eq_true, not_comesBefore, not_comesBefore]
  rcases Nat.lt_trichotomy (rank a.name) (rank b.name) with hlt | heq | hgt
  · exact .inl (.inl hlt)
  · exact (List.le_total a.name b.name).imp (fun h => .inr ⟨heq, h⟩) fun h => .inr ⟨heq.symm, h⟩
  · exact .inr (.inl hgt)

theorem mem_order {outputs : List OutputSection} :
    (out, index) ∈ order outputs ↔ outputs[index]? = some out ∧ isPresent out = true := by
  rw [order, mem_mergeSort, mem_filter, mem_zipIdx_iff_getElem?]

theorem order_nodup (outputs : List OutputSection) : ((order outputs).map (·.2)).Nodup := by
  have hperm := (mergeSort_perm (outputs.zipIdx.filter fun place => isPresent place.1)
    fun a b => !comesBefore b.1 a.1).map Prod.snd
  refine hperm.nodup_iff.mpr (List.Nodup.sublist (filter_sublist.map Prod.snd) ?_)
  rw [zipIdx_map_snd]
  exact nodup_range'

theorem order_position {outputs : List OutputSection} {other : Nat} {last : OutputSection}
    (h : (order outputs)[position]? = some (out, index))
    (hother : (order outputs)[other]? = some (last, index)) : position = other := by
  refine (List.getElem?_inj ?_ (order_nodup outputs)).mp ?_
  · rw [length_map]
    exact (List.getElem?_eq_some_iff.mp h).1
  · rw [List.getElem?_map, List.getElem?_map, h, hother]
    rfl

/-- Of two sections with one name the one that was there first comes first. -/
theorem order_stable {outputs : List OutputSection} {last : OutputSection}
    (hout : outputs[index]? = some out) (hpresent : isPresent out = true)
    (hlast : isPresent last = true) (hname : out.name = last.name) :
    [(out, index), (last, outputs.length)].Sublist (order (outputs ++ [last])) := by
  refine sublist_mergeSort (fun a b c => comesBefore_trans a.1 b.1 c.1)
    (fun a b => comesBefore_total a.1 b.1) ?_ ?_
  · refine pairwise_pair.mpr (not_comesBefore.mpr (.inr ⟨congrArg rank hname, ?_⟩))
    exact hname ▸ List.le_refl _
  have hzip : [(out, index), (last, outputs.length)].Sublist (outputs ++ [last]).zipIdx := by
    rw [zipIdx_append, Nat.zero_add]
    exact List.Sublist.append (singleton_sublist.mpr (mem_zipIdx_iff_getElem?.mpr hout))
      (List.Sublist.refl _)
  have hboth : [(out, index), (last, outputs.length)].filter (fun place => isPresent place.1) =
      [(out, index), (last, outputs.length)] := by simp [hpresent, hlast]
  rw [← hboth]
  exact hzip.filter _

/-! ## The addresses -/

theorem assignRvas_getElem? (alignment : UInt32) (outs : List OutputSection) :
    ∀ (rva : UInt32) (index : Nat), ∃ address, (assignRvas alignment rva outs)[index]? =
      outs[index]?.map fun out => { out with rva := address } := by
  induction outs with
  | nil => exact fun _ index => ⟨0, rfl⟩
  | cons out outs ih =>
    intro rva index
    cases index with
    | zero => exact ⟨rva, rfl⟩
    | succ index => exact ih _ index

theorem assignRvas_again (alignment : UInt32) (outs : List OutputSection) :
    ∀ rva, assignRvas alignment rva (assignRvas alignment rva outs) =
      assignRvas alignment rva outs := by
  induction outs with
  | nil => exact fun _ => rfl
  | cons out outs ih => exact fun rva => congrArg (_ :: ·) (ih _)

theorem assignRvas_set (alignment : UInt32) {data : List UInt8}
    (hext : { out with data }.extent = out.extent) (outs : List OutputSection) :
    ∀ (rva : UInt32) (index : Nat), (assignRvas alignment rva outs)[index]? = some out →
      assignRvas alignment rva ((assignRvas alignment rva outs).set index { out with data }) =
        (assignRvas alignment rva outs).set index { out with data } := by
  induction outs with
  | nil => exact fun _ _ h => by cases h
  | cons first outs ih =>
    intro rva index h
    cases index with
    | zero =>
      obtain rfl : { first with rva } = out := Option.some.inj h
      change _ :: assignRvas alignment (alignUp (rva + OutputSection.extent _) alignment) _ = _
      rw [hext]
      exact congrArg (_ :: ·) (assignRvas_again alignment outs _)
    | succ index => exact congrArg (_ :: ·) (ih _ index h)

/-! ## The section that is announced -/

section

variable {sectionAlignment : UInt32} {outputs : List OutputSection}
  {relocations : List PlacedRelocation}

theorem reservation_size (count : Nat) :
    (reservation count).virtualSize.toNat = 12 * count % 2 ^ 32 := by
  rw [Nat.mul_comm]
  rfl

variable (outputs) in
theorem reserve_of_ne (h : baseRelocations relocations ≠ []) : reserve outputs relocations =
    outputs ++ [reservation (absoluteRelocationCount relocations)] := by
  have hlen := length_baseRelocations_le relocations
  have hpos := length_pos_of_ne_nil h
  exact if_pos (by omega)

variable (sectionAlignment) in
theorem placedOutputs_getElem?
    (h : (order (reserve outputs relocations))[position]? = some (out, index)) :
    ∃ address, (placedOutputs sectionAlignment outputs relocations)[position]? =
      some { out with rva := address } := by
  obtain ⟨address, haddr⟩ := assignRvas_getElem? sectionAlignment
    ((order (reserve outputs relocations)).map (·.1)) sectionAlignment position
  refine ⟨address, haddr.trans ?_⟩
  rw [List.getElem?_map, h]
  rfl

theorem order_getElem?
    (h : (placedOutputs sectionAlignment outputs relocations)[position]? = some out) :
    ∃ place address, (order (reserve outputs relocations))[position]? = some place ∧
      out = { place.1 with rva := address } := by
  obtain ⟨address, haddr⟩ := assignRvas_getElem? sectionAlignment
    ((order (reserve outputs relocations)).map (·.1)) sectionAlignment position
  rw [placedOutputs, haddr, List.getElem?_map, Option.map_map, Option.map_eq_some_iff] at h
  obtain ⟨place, hplace, rfl⟩ := h
  exact ⟨place, address, hplace, rfl⟩

theorem link_found {position : Nat} {out : OutputSection}
    (hrelocations : baseRelocations relocations ≠ [])
    (hfound : (placedOutputs sectionAlignment outputs relocations).findIdx?
      (fun out => out.name == text ".reloc") = some position)
    (hout : (placedOutputs sectionAlignment outputs relocations)[position]? = some out) :
    link sectionAlignment outputs relocations =
      if out.virtualSize.toNat < (payload (baseRelocations relocations)).length then
        .error "internal error: base-relocation reservation was too small"
      else .ok ((placedOutputs sectionAlignment outputs relocations).set position
          { out with data := payload (baseRelocations relocations) },
        ⟨out.rva, UInt32.ofNat (payload (baseRelocations relocations)).length⟩) := by
  have hplaced : placedOutputs sectionAlignment outputs relocations ≠ [] := by
    intro hnil
    rw [hnil] at hout
    cases hout
  unfold link writeBaseRelocations
  simp only [if_neg hplaced, if_neg hrelocations, hfound, hout]

variable (sectionAlignment) in
/-- With no other section of its name the reserved one is found. -/
theorem findIdx?_reserved (hrelocations : baseRelocations relocations ≠ [])
    (h : Reserves outputs relocations) : ∃ position address,
      (order (reserve outputs relocations))[position]? =
        some (reservation (absoluteRelocationCount relocations), outputs.length) ∧
      (placedOutputs sectionAlignment outputs relocations)[position]? =
        some { reservation (absoluteRelocationCount relocations) with rva := address } ∧
      (placedOutputs sectionAlignment outputs relocations).findIdx?
        (fun out => out.name == text ".reloc") = some position := by
  obtain ⟨hnames, hsize⟩ := h
  have hpresent : isPresent (reservation (absoluteRelocationCount relocations)) = true := by
    have hlen := length_baseRelocations_le relocations
    have hpos := length_pos_of_ne_nil hrelocations
    have hvirtual := reservation_size (absoluteRelocationCount relocations)
    have hne : (reservation (absoluteRelocationCount relocations)).virtualSize ≠ 0 := by
      intro hzero
      rw [hzero, Nat.mod_eq_of_lt hsize] at hvirtual
      exact absurd hvirtual (by simp; omega)
    simp [isPresent, hne]
  have hmem : (reservation (absoluteRelocationCount relocations), outputs.length) ∈
      order (reserve outputs relocations) := by
    rw [mem_order, reserve_of_ne outputs hrelocations]
    exact ⟨List.getElem?_concat_length, hpresent⟩
  obtain ⟨position, hposition⟩ := mem_iff_getElem?.mp hmem
  obtain ⟨address, haddr⟩ := placedOutputs_getElem? sectionAlignment hposition
  obtain ⟨hbound, hat⟩ := List.getElem?_eq_some_iff.mp haddr
  refine ⟨position, address, hposition, haddr, List.findIdx?_eq_some_iff_getElem.mpr
    ⟨hbound, by rw [hat]; exact beq_self_eq_true _, fun other hother hname => ?_⟩⟩
  have hother' := List.getElem?_eq_getElem (hother.trans hbound)
  obtain ⟨⟨out, index⟩, address', hplace, hout⟩ := order_getElem? hother'
  rw [hout] at hname
  obtain ⟨hidx, hpresent'⟩ := mem_order.mp (mem_of_getElem? hplace)
  rw [reserve_of_ne outputs hrelocations] at hidx
  rcases Nat.lt_or_ge index outputs.length with hlt | hge
  · rw [List.getElem?_append_left hlt] at hidx
    have hempty := hnames out (mem_of_getElem? hidx) (eq_of_beq hname)
    rw [hempty] at hpresent'
    cases hpresent'
  · have hlast : index = outputs.length := by
      have hbound' := (List.getElem?_eq_some_iff.mp hidx).1
      rw [length_append, length_singleton] at hbound'
      exact Nat.le_antisymm (Nat.le_of_lt_succ hbound') hge
    rw [hlast] at hplace
    exact absurd (order_position hplace hposition) (ne_of_lt hother)

theorem extent_of_le (out : OutputSection) (h : out.data.length ≤ out.virtualSize.toNat) :
    out.extent = out.virtualSize := by
  have hle : UInt32.ofNat out.data.length ≤ out.virtualSize := by
    rw [UInt32.le_iff_toNat_le,
      UInt32.toNat_ofNat_of_lt' (lt_of_le_of_lt h out.virtualSize.toNat_lt)]
    exact h
  unfold OutputSection.extent
  rcases UInt32.le_iff_lt_or_eq.mp hle with hlt | heq
  · exact if_neg (UInt32.not_le.mpr hlt)
  · rw [heq]
    exact ite_self _

theorem publishes_of_reserves (hrelocations : baseRelocations relocations ≠ [])
    (h : Reserves outputs relocations) : Publishes sectionAlignment outputs relocations := by
  obtain ⟨position, address, hpos, haddr, hfound⟩ :=
    findIdx?_reserved sectionAlignment hrelocations h
  obtain ⟨reserved, hreserved⟩ : ∃ reserved : OutputSection,
    reserved = { reservation (absoluteRelocationCount relocations) with rva := address } :=
    ⟨_, rfl⟩
  rw [← hreserved] at haddr
  have hvirtual : reserved.virtualSize.toNat = 12 * absoluteRelocationCount relocations := by
    rw [hreserved, ← Nat.mod_eq_of_lt h.2, ← reservation_size]
  have hdata : reserved.data.length = reserved.virtualSize.toNat := by
    rw [hreserved]
    exact length_replicate
  have hfits : (payload (baseRelocations relocations)).length ≤ reserved.virtualSize.toNat := by
    rw [hvirtual]
    exact (length_payload_le _).trans (Nat.mul_le_mul_left 12 (length_baseRelocations_le _))
  have hsize := lt_of_le_of_lt hfits (UInt32.toNat_lt _)
  refine ⟨position, reserved, payload (baseRelocations relocations), _, ?_, haddr, hvirtual, ?_,
    hsize, describes_payload (fun _ => isWritten_of_mem) hsize, ?_⟩
  · rw [hpos]
    rfl
  · rw [link_found hrelocations hfound haddr]
    exact if_neg (Nat.not_lt.mpr hfits)
  · have hext := (extent_of_le { reserved with data := payload _ } hfits).trans
      (extent_of_le reserved (Nat.le_of_eq hdata)).symm
    exact assignRvas_set _ hext _ _ _ haddr

theorem not_describes_zeros {count : Nat} {relocations : List BaseRelocation}
    {blocks : List Block} (h : Describes (List.replicate count 0) relocations blocks) :
    relocations = [] := by
  have hread := h.read
  have hzeros : ∀ size, ofLittleEndian (List.replicate size 0) = 0 := fun size => by
    induction size with
    | zero => rfl
    | succ size ih => rw [replicate_succ, ofLittleEndian, ih]; rfl
  cases count with
  | zero =>
    have hnil : blocks = [] := (Option.some.inj hread).symm
    have hentries := h.entries
    rw [hnil] at hentries
    exact hentries.nil_eq.symm
  | succ count =>
    rw [length_replicate, replicate_succ, readBlocks, ← replicate_succ,
      drop_replicate, take_replicate, hzeros, if_pos (.inl (by decide))] at hread
    · cases hread
    · exact cons_ne_nil _ _

section

variable (hrelocations : baseRelocations relocations ≠ [])

include hrelocations

theorem not_found_behind (hout : outputs[index]? = some out) (hpresent : isPresent out = true)
    (hname : out.name = text ".reloc") (hpos : (order (reserve outputs relocations))[position]?
      = some (reservation (absoluteRelocationCount relocations), outputs.length)) :
    (placedOutputs sectionAlignment outputs relocations).findIdx?
      (fun out => out.name == text ".reloc") ≠ some position := by
  intro hfound
  have hreserve := reserve_of_ne outputs hrelocations
  have hlast : isPresent (reservation (absoluteRelocationCount relocations)) = true :=
    (mem_order.mp (mem_of_getElem? hpos)).2
  obtain ⟨front, back, hsplit, hfront, hback⟩ :=
    cons_sublist_iff.mp (order_stable hout hpresent hlast hname)
  rw [← hreserve] at hsplit
  obtain ⟨before, hbefore⟩ := mem_iff_getElem?.mp hfront
  obtain ⟨behind, hbehind⟩ := mem_iff_getElem?.mp (singleton_sublist.mp hback)
  have hshort : before < front.length := (List.getElem?_eq_some_iff.mp hbefore).1
  have hfirst : (order (reserve outputs relocations))[before]? = some (out, index) := by
    rw [hsplit, List.getElem?_append_left hshort, hbefore]
  have hsecond : (order (reserve outputs relocations))[front.length + behind]? =
      some (reservation (absoluteRelocationCount relocations), outputs.length) := by
    rw [hsplit, List.getElem?_append_right (Nat.le_add_right _ _), Nat.add_sub_cancel_left, hbehind]
  have hat : position = front.length + behind := order_position hpos hsecond
  obtain ⟨address, haddr⟩ := placedOutputs_getElem? sectionAlignment hfirst
  obtain ⟨hbound, hplaced⟩ := List.getElem?_eq_some_iff.mp haddr
  obtain ⟨_, _, hnone⟩ := List.findIdx?_eq_some_iff_getElem.mp hfound
  refine hnone before (by omega) ?_
  rw [hplaced]
  exact beq_iff_eq.mpr hname

theorem reserves_of_publishes (h : Publishes sectionAlignment outputs relocations) :
    Reserves outputs relocations := by
  obtain ⟨position, reserved, data, blocks, hidx, hreserved, hvirtual, hlink, -, hdescribes, -⟩ := h
  obtain ⟨⟨last, index⟩, hplace, rfl⟩ := Option.map_eq_some_iff.mp hidx
  have hlast := (mem_order.mp (mem_of_getElem? hplace)).1
  rw [reserve_of_ne outputs hrelocations, List.getElem?_concat_length] at hlast
  cases hlast
  obtain ⟨address, haddr⟩ := placedOutputs_getElem? sectionAlignment hplace
  obtain rfl := Option.some.inj (hreserved.symm.trans haddr)
  -- the section that is found, which has the name
  obtain ⟨found, hfound⟩ : ∃ found, (placedOutputs sectionAlignment outputs relocations).findIdx?
      (fun out => out.name == text ".reloc") = some found := by
    refine Option.ne_none_iff_exists'.mp fun hnone => ?_
    have hno := List.findIdx?_eq_none_iff.mp hnone _ (mem_of_getElem? haddr)
    exact absurd (beq_self_eq_true (text ".reloc")) (ne_true_of_eq_false hno)
  obtain ⟨hbound, -, -⟩ := List.findIdx?_eq_some_iff_getElem.mp hfound
  have hout := List.getElem?_eq_getElem hbound
  rw [link_found hrelocations hfound hout] at hlink
  split at hlink
  · cases hlink
  have hset := (Prod.mk.inj (Except.ok.inj hlink)).1
  have hsame : found = position := by
    by_contra hne
    have hat := congrArg (fun outs : List OutputSection => outs[position]?) hset
    simp only [List.getElem?_set_ne hne, haddr,
      List.getElem?_set_self (List.getElem?_eq_some_iff.mp haddr).1] at hat
    have hdata : data = List.replicate _ 0 :=
      (congrArg OutputSection.data (Option.some.inj hat)).symm
    rw [hdata] at hdescribes
    exact hrelocations (not_describes_zeros hdescribes)
  subst hsame
  constructor
  · intro out hmem hname
    rw [← Bool.not_eq_true]
    intro hpresent
    obtain ⟨index, hidx⟩ := mem_iff_getElem?.mp hmem
    exact not_found_behind hrelocations hidx hpresent hname hplace hfound
  · rw [← hvirtual]
    exact UInt32.toNat_lt _

end

/-- The base relocations are published in the section that is reserved for them, and nothing else
is touched, exactly if no input object brings a section `.reloc` that holds something and the
reservation of twelve bytes for each absolute relocation has a size of 32 bits. -/
theorem announces_iff : Announces sectionAlignment outputs relocations ↔
    baseRelocations relocations = [] ∨ Reserves outputs relocations := by
  unfold Announces
  split
  · rename_i hnone
    refine ⟨fun _ => .inl hnone, fun _ hplaced => ?_⟩
    unfold link writeBaseRelocations
    simp only [if_neg hplaced, if_pos hnone]
  · rename_i hrelocations
    exact ⟨fun h => .inr (reserves_of_publishes hrelocations h), fun h =>
      publishes_of_reserves hrelocations (h.resolve_left hrelocations)⟩

end

/-! ## A section `.reloc` of an input object -/

/-- Four bytes of code, and a section `.reloc` of four bytes. -/
def contributed : List OutputSection :=
  [{ name := text ".text", characteristics := 0x60000020, data := [0x90, 0x90, 0x90, 0xc3]
     virtualSize := 4, rva := 0 },
   { name := text ".reloc", characteristics := 0x42000040, data := [1, 2, 3, 4]
     virtualSize := 4, rva := 0 }]

/-- One absolute address of 64 bits in the code. -/
def pointer : PlacedRelocation where
  type := relocAmd64Addr64
  placeRva := 0x1000
  targetIsAbsolute := false

/-- The payload goes to the section of the input object, and does not fit there. -/
theorem not_announces_contributed :
    link 0x1000 contributed [pointer] =
        .error "internal error: base-relocation reservation was too small" ∧
      ¬ Announces 0x1000 contributed [pointer] := by
  have horder : order (reserve contributed [pointer]) =
      (reserve contributed [pointer]).zipIdx := mergeSort_of_pairwise (by decide)
  have hplaced : placedOutputs 0x1000 contributed [pointer] = assignRvas 0x1000 0x1000
      (contributed ++ [reservation 1]) := by
    unfold placedOutputs
    rw [horder]
    rfl
  have hpayload : payload (baseRelocations [pointer]) =
      [0, 0x10, 0, 0, 12, 0, 0, 0, 0, 0xa0, 0, 0] := by
    change (Runs.runs pageNumber (List.mergeSort [⟨0x1000, imageRelBasedDir64⟩] _)).flatMap block
      = _
    rw [mergeSort_singleton]
    decide
  have hlink : link 0x1000 contributed [pointer] =
      .error "internal error: base-relocation reservation was too small" := by
    unfold link writeBaseRelocations
    rw [hplaced, hpayload]
    rfl
  refine ⟨hlink, fun hannounces => ?_⟩
  rw [Announces, if_neg (by decide)] at hannounces
  obtain ⟨position, reserved, data, blocks, -, -, -, hok, -⟩ := hannounces
  rw [hlink] at hok
  cases hok

end Raz.Oblink.BaseRelocations
