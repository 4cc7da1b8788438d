import Raz.Rxe.Reference

/-!
# Safety of the reference heap

A handle is an integer. What makes the heap safe is how its cells are divided into blocks: a cell
knows the first cell of its block, which knows the length of the block and whether it is alive.

Result: `heap_safe`: what holds after any operations.
-/

namespace Raz.Rxe

open ReferenceState List Arena Option

/-! ## Operations -/

/-- The instructions that the heap is used by, with the values of their operands. -/
inductive HeapOp
  | alloc (immediate : Int)
  | free (handle : Int)
  | loadRef (handle : Int)
  | storeRef (handle value : Int)
  | indexLoad (handle offset : Int)
  | indexStore (handle offset value : Int)
  | indexRef (handle offset : Int)
  | sliceLoad (slice index : Int)
  | sliceStore (slice index value : Int)
  | sliceRef (slice index : Int)
  | memCopy (destination source count : Int)
  deriving DecidableEq, Repr

/-- What an operation gives and leaves, none where it fails. -/
def HeapOp.run (m : RxeModule) (state : ReferenceState) : HeapOp → Option (Int × ReferenceState)
  | .alloc immediate => state.alloc (Word.land immediate 65535)
  | .free handle => (state.free handle).map fun state => (handle, state)
  | .loadRef handle => (state.loadRef m handle).map fun value => (value, state)
  | .storeRef handle value => (state.storeRef m handle value).map fun state => (value, state)
  | .indexLoad handle offset =>
      (state.heapIndex handle offset).map fun cell => (state.heapValue cell, state)
  | .indexStore handle offset value =>
      (state.heapIndex handle offset).map fun cell => (value, state.setHeapValue cell value)
  | .indexRef handle offset =>
      (state.heapIndex handle offset).map fun cell => (heapBase + cell, state)
  | .sliceLoad slice index =>
      (state.sliceElement slice index).map fun cell => (state.heapValue cell, state)
  | .sliceStore slice index value =>
      (state.sliceElement slice index).map fun cell => (value, state.setHeapValue cell value)
  | .sliceRef slice index =>
      (state.sliceElement slice index).map fun cell => (heapBase + cell, state)
  | .memCopy destination source count =>
      (state.memCopy destination source count).map fun state => (destination, state)

/-- The state behind an operation. -/
def HeapOp.step (m : RxeModule) (state : ReferenceState) (op : HeapOp) : ReferenceState :=
  match op.run m state with
  | none => state
  | some (_, state) => state

/-! ## Blocks -/

def ownerOf (state : ReferenceState) (cell : Int) : Int := (Arena.get state.heap cell).owner

def lengthOf (state : ReferenceState) (cell : Int) : Int := (Arena.get state.heap cell).length

def aliveOf (state : ReferenceState) (cell : Int) : Int := (Arena.get state.heap cell).alive

/-- The cells of an allocation, alive or freed. -/
structure Allocated (state : ReferenceState) (base length : Int) : Prop where
  start : 0 ≤ base
  positive : 0 < length
  stop : base + length ≤ state.heap.length
  owned : ∀ cell, base ≤ cell → cell < base + length → ownerOf state cell = base
  extent : lengthOf state base = length

def Live (state : ReferenceState) (base length : Int) : Prop :=
  Allocated state base length ∧ aliveOf state base ≠ 0

def Freed (state : ReferenceState) (base length : Int) : Prop :=
  Allocated state base length ∧ aliveOf state base = 0

/-- The handle points to a cell of the range. -/
def Points (handle base length : Int) : Prop :=
  heapBase + base ≤ handle ∧ handle < heapBase + base + length

/-- Every cell in use is in an allocation. -/
structure Partitioned (state : ReferenceState) : Prop where
  bound : state.heap.length ≤ heapCapacity
  covered : ∀ cell : Int, 0 ≤ cell → cell < state.heap.length →
    ∃ base length, Allocated state base length ∧ base ≤ cell ∧ cell < base + length

section

variable {state state' : ReferenceState} {base base' length length' : Int}

/-- **A cell is in one allocation.** -/
theorem Allocated.unique (h : Allocated state base length) (h' : Allocated state base' length')
    {cell : Int} (hcell : base ≤ cell ∧ cell < base + length)
    (hcell' : base' ≤ cell ∧ cell < base' + length') : base = base' ∧ length = length' := by
  have hbase := (h.owned cell hcell.1 hcell.2).symm.trans (h'.owned cell hcell'.1 hcell'.2)
  subst hbase
  exact ⟨rfl, h.extent.symm.trans h'.extent⟩

theorem Allocated.apart (h : Allocated state base length) (h' : Allocated state base' length')
    (hne : base ≠ base') : base + length ≤ base' ∨ base' + length' ≤ base := by
  have hpos := h.positive
  have hpos' := h'.positive
  refine Decidable.byContradiction fun hoverlap => ?_
  rcases Int.le_total base base' with hle | hle
  · exact hne (h.unique h' ⟨hle, by omega⟩ ⟨Int.le_refl _, by omega⟩).1
  · exact hne (h.unique h' ⟨Int.le_refl _, by omega⟩ ⟨hle, by omega⟩).1

/-- The two states divide their heaps alike. -/
structure SameBlocks (state state' : ReferenceState) : Prop where
  count : state'.heap.length = state.heap.length
  owner : ∀ cell, ownerOf state' cell = ownerOf state cell
  length : ∀ cell, lengthOf state' cell = lengthOf state cell

theorem SameBlocks.allocated (h : SameBlocks state state') :
    Allocated state' base length ↔ Allocated state base length := by
  refine ⟨fun hblock => ⟨hblock.start, hblock.positive, ?_, fun cell hlo hhi => ?_, ?_⟩,
    fun hblock => ⟨hblock.start, hblock.positive, ?_, fun cell hlo hhi => ?_, ?_⟩⟩
  · exact h.count ▸ hblock.stop
  · exact (h.owner cell).symm.trans (hblock.owned cell hlo hhi)
  · exact (h.length base).symm.trans hblock.extent
  · exact h.count ▸ hblock.stop
  · exact (h.owner cell).trans (hblock.owned cell hlo hhi)
  · exact (h.length base).trans hblock.extent

theorem SameBlocks.partitioned (h : SameBlocks state state') (hstate : Partitioned state) :
    Partitioned state' := by
  refine ⟨h.count ▸ hstate.bound, fun cell hlo hhi => ?_⟩
  obtain ⟨base, length, hblock, hcell⟩ := hstate.covered cell hlo (h.count ▸ hhi)
  exact ⟨base, length, h.allocated.mpr hblock, hcell⟩

/-- Only values differ. -/
structure SameTables (state state' : ReferenceState) : Prop where
  blocks : SameBlocks state state'
  alive : ∀ cell, aliveOf state' cell = aliveOf state cell

theorem SameTables.refl (state : ReferenceState) : SameTables state state :=
  ⟨⟨rfl, fun _ => rfl, fun _ => rfl⟩, fun _ => rfl⟩

theorem SameTables.trans {state'' : ReferenceState} (h : SameTables state state')
    (h' : SameTables state' state'') : SameTables state state'' :=
  ⟨⟨h'.blocks.count.trans h.blocks.count,
    fun cell => (h'.blocks.owner cell).trans (h.blocks.owner cell),
    fun cell => (h'.blocks.length cell).trans (h.blocks.length cell)⟩,
    fun cell => (h'.alive cell).trans (h.alive cell)⟩

theorem get_modify_field {β : Type} {heap : List HeapCell} {cell : Int}
    {change : HeapCell → HeapCell} {field : HeapCell → β} (hfield : ∀ c, field (change c) = field c)
    (other : Int) :
    field (Arena.get (Arena.modify heap cell change) other) = field (Arena.get heap other) := by
  unfold Arena.modify
  rcases Decidable.em (cell = other) with rfl | hne
  · rcases Decidable.em (0 ≤ cell ∧ cell < heap.length) with ⟨hlo, hhi⟩ | hout
    · rw [get_set_self hlo hhi, hfield]
    have hsame : set heap cell (change (get heap cell)) = heap := by
      unfold Arena.set
      split
      · exact set_eq_of_length_le (by omega)
      · rfl
    rw [hsame]
  · rw [get_set_ne hne]

theorem sameTables_setHeapValue (cell value : Int) :
    SameTables state (state.setHeapValue cell value) := by
  have hfield {β : Type} {field : HeapCell → β}
      (h : ∀ c : HeapCell, field { c with value } = field c) (other : Int) :
      field (get (state.setHeapValue cell value).heap other) =
        field (get state.heap other) := get_modify_field h other
  have hcount : (state.setHeapValue cell value).heap.length = state.heap.length := by
    exact length_modify state.heap cell fun c => { c with value }
  exact ⟨⟨hcount, hfield fun _ => rfl, hfield fun _ => rfl⟩, hfield fun _ => rfl⟩

theorem heapValue_setHeapValue {cell : Int} (hlo : 0 ≤ cell) (hhi : cell < state.heap.length)
    (value other : Int) : (state.setHeapValue cell value).heapValue other =
      if other = cell then value else state.heapValue other := by
  unfold setHeapValue heapValue Arena.modify
  rw [get_set hlo hhi]
  split
  · rfl
  · rfl

/-! ## Handles -/

variable {handle offset cell : Int}

/-- **Which handles are accepted**: those that point to a live allocation. -/
theorem heapCell_iff (h : Partitioned state) : state.heapCell handle = some cell ↔
    handle = heapBase + cell ∧
      ∃ base length, Live state base length ∧ Points handle base length := by
  have hbound := h.bound
  unfold heapCapacity at hbound
  unfold heapCell
  constructor
  · intro hsome
    split at hsome
    · nomatch hsome
    dsimp only at hsome
    split at hsome
    · nomatch hsome
    obtain ⟨base, length, hblock, hlo, hhi⟩ := h.covered (handle - heapBase) (by omega) (by omega)
    have howner := hblock.owned _ hlo hhi
    unfold ownerOf at howner
    split at hsome
    · nomatch hsome
    rename_i halive
    split at hsome
    · nomatch hsome
    cases hsome
    rw [howner] at halive
    refine ⟨by omega, base, length, ⟨hblock, ?_⟩, ?_⟩
    · exact fun hdead => halive (.inr (.inr hdead))
    · unfold Points
      omega
  · rintro ⟨rfl, base, length, ⟨hblock, halive⟩, hpoints⟩
    unfold Points at hpoints
    have hstart := hblock.start
    have hstop := hblock.stop
    have hext := hblock.extent
    have howner := hblock.owned cell (by omega) (by omega)
    unfold ownerOf at howner
    unfold lengthOf at hext
    unfold aliveOf at halive
    have hcell : heapBase + cell - heapBase = cell := by omega
    rw [if_neg (by unfold tagSpan; omega)]
    dsimp only
    rw [hcell, if_neg (by omega), howner, hext,
      if_neg (not_or.mpr ⟨by omega, not_or.mpr ⟨by omega, halive⟩⟩), if_neg (by omega)]

/-- **Which offsets are accepted**: those that stay in the allocation. -/
theorem heapIndex_iff (h : Partitioned state) : state.heapIndex handle offset = some cell ↔
    0 ≤ offset ∧ handle + offset = heapBase + cell ∧
      ∃ base length, Live state base length ∧ Points handle base length ∧
        Points (heapBase + cell) base length := by
  unfold heapIndex
  have hread {start base length : Int} (hblock : Allocated state base length)
      (hlo : base ≤ start) (hhi : start < base + length) :
      (get state.heap start).owner = base ∧ (get state.heap base).length = length :=
    ⟨hblock.owned start hlo hhi, hblock.extent⟩
  unfold Points
  constructor
  · intro hsome
    split at hsome
    · nomatch hsome
    rename_i start hstart
    obtain ⟨rfl, base, length, hlive, hpoints⟩ := (heapCell_iff h).mp hstart
    unfold Points at hpoints
    obtain ⟨howner, hext⟩ := @hread start base length hlive.1 (by omega) (by omega)
    dsimp only at hsome
    rw [howner, hext] at hsome
    split at hsome
    · nomatch hsome
    cases hsome
    exact ⟨by omega, by omega, base, length, hlive, by omega, by omega⟩
  · rintro ⟨hoff, htarget, base, length, hlive, hpoints, hpoints'⟩
    obtain ⟨howner, hext⟩ := @hread (handle - heapBase) base length hlive.1 (by omega) (by omega)
    have hcell : state.heapCell handle = some (handle - heapBase) :=
      (heapCell_iff h).mpr ⟨by omega, base, length, hlive, hpoints⟩
    rw [hcell]
    dsimp only
    rw [howner, hext, if_neg (by omega)]
    exact congrArg some (by omega)

/-- Where the element of a slice is: the first cell of the slice is a handle. -/
theorem sliceElement_spec (h : Partitioned state) {slice index : Int}
    (hsome : state.sliceElement slice index = some cell) :
    (∃ base length, Live state base length ∧ Points slice base length) ∧
      state.heapIndex (state.heapValue (slice - heapBase)) index = some cell := by
  unfold sliceElement at hsome
  split at hsome
  · nomatch hsome
  split at hsome
  · nomatch hsome
  rename_i start hstart
  obtain ⟨rfl, hlive⟩ := (heapCell_iff h).mp hstart
  dsimp only at hsome
  split at hsome
  · nomatch hsome
  split at hsome
  · nomatch hsome
  have hslice : heapBase + start - heapBase = start := by omega
  rw [hslice]
  exact ⟨hlive, hsome⟩

/-! ## Copies -/

theorem copy_spec {destination source : Int} : ∀ {offsets : List Int} {state : ReferenceState},
    offsets.Pairwise (fun offset later =>
      offset ≠ later ∧ destination + offset ≠ source + later) →
    (∀ offset ∈ offsets, 0 ≤ destination + offset ∧
      destination + offset < state.heap.length) →
    SameTables state (offsets.foldl (copyCell destination source) state) ∧
      (∀ offset ∈ offsets, (offsets.foldl (copyCell destination source) state).heapValue
        (destination + offset) = state.heapValue (source + offset)) ∧
      ∀ cell, (∀ offset ∈ offsets, cell ≠ destination + offset) →
        (offsets.foldl (copyCell destination source) state).heapValue cell =
          state.heapValue cell := by
  intro offsets
  induction offsets with
  | nil => exact fun {state} _ _ => ⟨SameTables.refl state, nofun, fun _ _ => rfl⟩
  | cons offset offsets ih =>
    intro state hpairwise hrange
    obtain ⟨hlater, hpairwise⟩ := pairwise_cons.mp hpairwise
    obtain ⟨⟨hlo, hhi⟩, hrange⟩ := forall_mem_cons.mp hrange
    have hfirst := @sameTables_setHeapValue state (destination + offset)
      (state.heapValue (source + offset))
    have hval := heapValue_setHeapValue hlo hhi (state.heapValue (source + offset))
    have hrest := @ih (copyCell destination source state offset) hpairwise
      (hfirst.blocks.count.symm ▸ hrange)
    rw [foldl_cons]
    generalize offsets.foldl (copyCell destination source)
      (copyCell destination source state offset) = state' at hrest ⊢
    obtain ⟨hsame, hcopied, hkept⟩ := hrest
    unfold copyCell at hcopied hkept
    refine ⟨hfirst.trans hsame, forall_mem_cons.mpr ⟨?_, fun later hmem => ?_⟩,
      fun cell hcell => ?_⟩
    · rw [hkept _ fun later hmem heq => (hlater later hmem).1 (Int.add_left_cancel heq), hval,
        if_pos rfl]
    · rw [hcopied later hmem, hval, if_neg (hlater later hmem).2.symm]
    · obtain ⟨hhere, hcell⟩ := forall_mem_cons.mp hcell
      rw [hkept cell hcell, hval, if_neg hhere]

theorem range_pairwise (count : Int) : (Arena.range 0 count).Pairwise (· < ·) := by
  unfold Arena.range
  rw [pairwise_map]
  exact pairwise_lt_range.imp fun hlt => by omega

/-- All cells of the range have the values that the source had before. -/
def CopiedAtOnce (state state' : ReferenceState) (destination source count : Int) : Prop :=
  ∀ cell, state'.heapValue cell =
    if destination ≤ cell ∧ cell < destination + count then
      state.heapValue (source + (cell - destination))
    else state.heapValue cell

/-- The handle and the one behind `count` cells from it on point into one live allocation. -/
def Spans (state : ReferenceState) (handle count base length : Int) : Prop :=
  Live state base length ∧ Points handle base length ∧ Points (handle + (count - 1)) base length

/-- **A copy is one at once**, for every overlap. -/
theorem memCopy_spec (h : Partitioned state) {destination source count : Int}
    (hsome : state.memCopy destination source count = some state') :
    count = 0 ∧ state' = state ∨
    0 < count ∧ (∃ base length, Spans state destination count base length) ∧
      (∃ base length, Spans state source count base length) ∧ SameTables state state' ∧
      CopiedAtOnce state state' (destination - heapBase) (source - heapBase) count := by
  unfold memCopy at hsome
  split at hsome
  · nomatch hsome
  split at hsome
  · exact .inl ⟨‹_›, (some.inj hsome).symm⟩
  split at hsome
  · rename_i last last' cell origin hlast hlast' hcell horigin
    obtain ⟨-, htarget, base, length, hlive, hpoints, hend⟩ := (heapIndex_iff h).mp hlast
    obtain ⟨-, htarget', base', length', hlive', hpoints', hend'⟩ := (heapIndex_iff h).mp hlast'
    obtain ⟨rfl, -⟩ := (heapCell_iff h).mp hcell
    obtain ⟨rfl, -⟩ := (heapCell_iff h).mp horigin
    rw [← htarget] at hend
    rw [← htarget'] at hend'
    refine .inr ⟨by omega, ⟨base, length, hlive, hpoints, hend⟩,
      ⟨base', length', hlive', hpoints', hend'⟩, ?_⟩
    have hcell' : heapBase + cell - heapBase = cell := by omega
    have horigin' : heapBase + origin - heapBase = origin := by omega
    rw [hcell', horigin']
    have hin (offset : Int) (hlo : 0 ≤ offset) (hhi : offset < count) :
        0 ≤ cell + offset ∧ cell + offset < state.heap.length := by
      have hstart := hlive.1.start
      have hstop := hlive.1.stop
      unfold Points at hpoints hend
      omega
    have hcopied {offsets : List Int}
        (hoffsets : ∀ offset, offset ∈ offsets ↔ 0 ≤ offset ∧ offset < count)
        (hpairwise : offsets.Pairwise fun offset later =>
          offset ≠ later ∧ cell + offset ≠ origin + later)
        (heq : offsets.foldl (copyCell cell origin) state = state') :
        SameTables state state' ∧ CopiedAtOnce state state' cell origin count := by
      obtain ⟨hsame, hvals, hkept⟩ := copy_spec hpairwise fun offset hmem => by
        obtain ⟨hlo, hhi⟩ := (hoffsets offset).mp hmem
        exact hin offset hlo hhi
      rw [heq] at hsame hvals hkept
      refine ⟨hsame, fun other => ?_⟩
      split
      · have hval := hvals (other - cell) ((hoffsets _).mpr (by omega))
        have hother : cell + (other - cell) = other := by omega
        rwa [hother] at hval
      · refine hkept other fun offset hmem => ?_
        have hoff := (hoffsets offset).mp hmem
        omega
    split at hsome
    · -- downward, so that the cells at the end are read first
      refine @hcopied (range 0 count).reverse (fun offset => ?_) ?_ (some.inj hsome)
      · rw [mem_reverse, Arena.mem_range]
      · rw [pairwise_reverse]
        exact (range_pairwise count).imp fun hlt => ⟨by omega, by omega⟩
    · refine hcopied (fun offset => mem_range) ?_ (some.inj hsome)
      refine (pairwise_iff_getElem.mpr fun i j hi hj hlt => ?_)
      have hless := pairwise_iff_getElem.mp (range_pairwise count) i j hi hj hlt
      have hfirst := mem_range.mp (getElem_mem hi)
      have hlater := mem_range.mp (getElem_mem hj)
      exact ⟨by omega, by omega⟩
  · nomatch hsome

/-! ## Allocations -/

/-- The cells in use stay as they are. -/
structure Extends (state state' : ReferenceState) : Prop where
  count : state.heap.length ≤ state'.heap.length
  cell : ∀ cell : Int, 0 ≤ cell → cell < state.heap.length →
    Arena.get state'.heap cell = Arena.get state.heap cell

theorem Extends.allocated (h : Extends state state') (hblock : Allocated state base length) :
    Allocated state' base length := by
  have hstart := hblock.start
  have hpos := hblock.positive
  have hstop := hblock.stop
  have hcount := h.count
  refine ⟨hstart, hpos, by omega, fun cell hlo hhi => ?_, ?_⟩
  · unfold ownerOf
    rw [h.cell cell (by omega) (by omega)]
    exact hblock.owned cell hlo hhi
  · unfold lengthOf
    rw [h.cell base (by omega) (by omega)]
    exact hblock.extent

theorem Extends.alive (h : Extends state state') (hblock : Allocated state base length) :
    aliveOf state' base = aliveOf state base := by
  have hstart := hblock.start
  have hpos := hblock.positive
  have hstop := hblock.stop
  unfold aliveOf
  rw [h.cell base (by omega) (by omega)]

/-- **A new allocation** is behind the cells in use. -/
theorem alloc_spec (h : Partitioned state) {count : Int}
    (hsome : state.alloc count = some (handle, state')) :
    0 < count ∧ handle = heapBase + state.heap.length ∧ Partitioned state' ∧
      Extends state state' ∧ Live state' state.heap.length count ∧
      ∀ base length, Allocated state' base length →
        Allocated state base length ∨ base = state.heap.length ∧ length = count := by
  unfold ReferenceState.alloc at hsome
  split at hsome
  · nomatch hsome
  obtain ⟨rfl, hstate⟩ := Prod.mk.inj (some.inj hsome)
  have hcount : (state'.heap.length : Int) = state.heap.length + count := by
    rw [← hstate, length_append, length_cons, length_replicate]
    omega
  have hextends : Extends state state' := by
    refine ⟨by omega, fun cell hlo hhi => ?_⟩
    rw [← hstate]
    exact get_of_isPrefix (prefix_append _ _) hlo hhi
  -- the cells of the new block
  have hhead : get state'.heap state.heap.length =
      { owner := state.heap.length, length := count, alive := 1 } := by
    rw [← hstate]
    refine get_eq_some (Int.natCast_nonneg _) ?_
    rw [Int.toNat_natCast, List.getElem?_append_right (Nat.le_refl _), Nat.sub_self]
    rfl
  have hnew : Allocated state' state.heap.length count := by
    refine ⟨Int.natCast_nonneg _, by omega, by omega, fun cell hlo hhi => ?_, ?_⟩
    · rcases Decidable.em (cell = state.heap.length) with rfl | hne
      · unfold ownerOf
        rw [hhead]
      have hget : get state'.heap cell = { owner := state.heap.length } := by
        rw [← hstate]
        refine get_eq_some (by omega) ?_
        have hsucc : cell.toNat - state.heap.length =
            (cell.toNat - state.heap.length - 1) + 1 := by omega
        rw [List.getElem?_append_right (by omega), hsucc, List.getElem?_cons_succ,
          List.getElem?_replicate_of_lt (by omega)]
      unfold ownerOf
      rw [hget]
    · unfold lengthOf
      rw [hhead]
  have hlive : Live state' state.heap.length count := by
    refine ⟨hnew, ?_⟩
    unfold aliveOf
    rw [hhead]
    exact Int.one_ne_zero
  have hcovered (cell : Int) (hlo : 0 ≤ cell) (hhi : cell < state'.heap.length) :
      (∃ base length, Allocated state base length ∧ base ≤ cell ∧ cell < base + length) ∨
        state.heap.length ≤ cell ∧ cell < state.heap.length + count := by
    rcases Int.lt_or_le cell state.heap.length with hold | hge
    · exact .inl (h.covered cell hlo hold)
    · exact .inr ⟨hge, by omega⟩
  refine ⟨by omega, rfl, ⟨by omega, fun cell hlo hhi => ?_⟩, hextends, hlive,
    fun base length hblock => ?_⟩
  · obtain ⟨base, length, hblock, hcell⟩ | hcell := hcovered cell hlo hhi
    · exact ⟨base, length, hextends.allocated hblock, hcell⟩
    · exact ⟨_, _, hnew, hcell⟩
  have hpos := hblock.positive
  have hstop := hblock.stop
  have hbase : base ≤ base ∧ base < base + length := ⟨Int.le_refl _, by omega⟩
  obtain ⟨base', length', hold, hcell⟩ | hcell := hcovered base hblock.start (by omega)
  · obtain ⟨rfl, rfl⟩ := (hextends.allocated hold).unique hblock hcell hbase
    exact .inl hold
  · obtain ⟨rfl, rfl⟩ := hnew.unique hblock hcell hbase
    exact .inr ⟨rfl, rfl⟩

/-- **An allocation is freed** by the handle to its first cell. -/
theorem free_spec (h : Partitioned state) (hsome : state.free handle = some state') :
    ∃ base length, handle = heapBase + base ∧ Live state base length ∧ SameBlocks state state' ∧
      (∀ cell, state'.heapValue cell = state.heapValue cell) ∧
      ∀ cell, aliveOf state' cell = if cell = base then 0 else aliveOf state cell := by
  unfold ReferenceState.free at hsome
  split at hsome
  · nomatch hsome
  rename_i cell hcell
  obtain ⟨rfl, base, length, hlive, hpoints⟩ := (heapCell_iff h).mp hcell
  unfold Points at hpoints
  have howner : (get state.heap cell).owner = base := hlive.1.owned cell (by omega) (by omega)
  rw [howner] at hsome
  split at hsome
  · nomatch hsome
  rename_i hfirst
  obtain rfl := Decidable.not_not.mp hfirst
  have hstate := (some.inj hsome).symm
  have hfield {β : Type} {field : HeapCell → β}
      (hfield : ∀ c : HeapCell, field { c with alive := 0 } = field c) (other : Int) :
      field (get state'.heap other) = field (get state.heap other) := by
    rw [hstate]
    exact get_modify_field hfield other
  have hcount : state'.heap.length = state.heap.length := by
    rw [hstate]
    exact length_modify state.heap cell fun c => { c with alive := 0 }
  have hstart := hlive.1.start
  have hstop := hlive.1.stop
  refine ⟨cell, length, rfl, hlive, ⟨hcount, hfield fun _ => rfl, hfield fun _ => rfl⟩,
    hfield fun _ => rfl, fun other => ?_⟩
  rw [hstate]
  unfold aliveOf Arena.modify
  rw [get_set (by omega) (by omega)]
  split
  · rfl
  · rfl

end

/-! ## Any operations -/

/-- The handles that an operation goes through. A slice has another one in its first cell. -/
def HeapOp.handles (state : ReferenceState) : HeapOp → List Int
  | .alloc _ => []
  | .free handle | .loadRef handle | .storeRef handle _ | .indexLoad handle _
  | .indexStore handle _ _ | .indexRef handle _ => [handle]
  | .sliceLoad slice _ | .sliceStore slice _ _ | .sliceRef slice _ =>
      [slice, state.heapValue (slice - heapBase)]
  | .memCopy destination source _ => [destination, source]

/-- The handle that cells are written through. -/
def HeapOp.target (state : ReferenceState) : HeapOp → Option Int
  | .storeRef handle _ => if isGlobalHandle handle then none else some handle
  | .indexStore handle _ _ => some handle
  | .sliceStore slice _ _ => some (state.heapValue (slice - heapBase))
  | .memCopy destination _ count => if count = 0 then none else some destination
  | _ => none

/-- A copy of no cells, for which no handle is looked at. -/
def HeapOp.copiesNothing : HeapOp → Bool
  | .memCopy _ _ count => count = 0
  | _ => false

/-- Only cells of the one live allocation that the handle points into may differ. -/
def Confined (state state' : ReferenceState) (handle : Int) : Prop :=
  ∃ base length, Live state base length ∧ Points handle base length ∧
    (∀ base' length', Live state base' length' → Points handle base' length' →
      base' = base ∧ length' = length) ∧
    ∀ cell, ¬ (base ≤ cell ∧ cell < base + length) →
      state'.heapValue cell = state.heapValue cell

/-- What an operation that is done has changed. -/
def Effect (state : ReferenceState) (op : HeapOp) (result : Int) (state' : ReferenceState) : Prop :=
  match op with
  | .alloc immediate =>
      result = heapBase + state.heap.length ∧ Extends state state' ∧
        ∀ base length, Live state' base length ↔
          Live state base length ∨ base = state.heap.length ∧ length = Word.land immediate 65535
  | .free handle =>
      (∀ cell, state'.heapValue cell = state.heapValue cell) ∧
        (∃ base length, handle = heapBase + base ∧ Live state base length) ∧
        ∀ base length, Live state' base length ↔
          Live state base length ∧ handle ≠ heapBase + base
  | _ =>
      SameTables state state' ∧
        match op.target state with
        | none => ∀ cell, state'.heapValue cell = state.heapValue cell
        | some handle => Confined state state' handle

/-- The heap is safe for every next operation. -/
structure Safe (m : RxeModule) (state : ReferenceState) : Prop where
  apart : ∀ base length base' length', Live state base length → Live state base' length' →
    base ≠ base' → base + length ≤ base' ∨ base' + length' ≤ base
  effect : ∀ (op : HeapOp) result state', op.run m state = some (result, state') →
    Effect state op result state'
  copied : ∀ destination source count result state',
    HeapOp.run m state (.memCopy destination source count) = some (result, state') →
    CopiedAtOnce state state' (destination - heapBase) (source - heapBase) count
  rejected : ∀ (op : HeapOp) handle base length, op.copiesNothing = false →
    handle ∈ op.handles state → Freed state base length → Points handle base length →
    op.run m state = none
  freed : ∀ (op : HeapOp) base length, Freed state base length → Freed (op.step m state) base length
  failed : ∀ op : HeapOp, op.run m state = none → op.step m state = state

/-- The state behind operations, from one without allocations on. -/
def runOps (m : RxeModule) (globals : List Int) (ops : List HeapOp) : ReferenceState :=
  ops.foldl (HeapOp.step m) { globals }

section

variable {m : RxeModule} {state state' : ReferenceState} {result : Int}

theorem Live.unique {handle base length base' length' : Int} (h : Live state base length)
    (h' : Live state base' length') (hpoints : Points handle base length)
    (hpoints' : Points handle base' length') : base' = base ∧ length' = length := by
  unfold Points at hpoints hpoints'
  exact @Allocated.unique _ _ _ _ _ h'.1 h.1 (handle - heapBase) (by omega) (by omega)

theorem confined_set {handle cell value base length : Int} (hlive : Live state base length)
    (hpoints : Points handle base length) (hcell : Points (heapBase + cell) base length) :
    SameTables state (state.setHeapValue cell value) ∧
      Confined state (state.setHeapValue cell value) handle := by
  have hstart := hlive.1.start
  have hstop := hlive.1.stop
  refine ⟨sameTables_setHeapValue cell value, base, length, hlive, hpoints,
    fun base' length' hlive' hpoints' => hlive.unique hlive' hpoints hpoints',
    fun other hother => ?_⟩
  unfold Points at hcell
  rw [heapValue_setHeapValue (by omega) (by omega), if_neg (by omega)]

section

variable (h : Partitioned state)

include h

/-- **What an operation changes.** -/
theorem effect_run {op : HeapOp}
    (hrun : op.run m state = some (result, state')) :
    Effect state op result state' ∧ Partitioned state' := by
  -- what is only read, and what is stored
  have hread (htarget : op.target state = none) (hstate : state' = state) :
      (SameTables state state' ∧
        match op.target state with
        | none => ∀ cell, state'.heapValue cell = state.heapValue cell
        | some handle => Confined state state' handle) ∧ Partitioned state' := by
    rw [hstate, htarget]
    exact ⟨⟨SameTables.refl state, fun _ => rfl⟩, h⟩
  have hwrote {handle : Int} (htarget : op.target state = some handle)
      (hstate : SameTables state state' ∧ Confined state state' handle) :
      (SameTables state state' ∧
        match op.target state with
        | none => ∀ cell, state'.heapValue cell = state.heapValue cell
        | some handle => Confined state state' handle) ∧ Partitioned state' := by
    rw [htarget]
    exact ⟨hstate, hstate.1.blocks.partitioned h⟩
  cases op with
  | alloc immediate =>
    obtain ⟨-, hres, hpartitioned, hextends, hnew, hblocks⟩ := alloc_spec h hrun
    refine ⟨⟨hres, hextends, fun base length => ⟨fun hlive => ?_, ?_⟩⟩, hpartitioned⟩
    · obtain hold | hsame := hblocks base length hlive.1
      · exact .inl ⟨hold, hextends.alive hold ▸ hlive.2⟩
      · exact .inr hsame
    · rintro (hlive | ⟨rfl, rfl⟩)
      · exact ⟨hextends.allocated hlive.1, (hextends.alive hlive.1).symm ▸ hlive.2⟩
      · exact hnew
  | free handle =>
    obtain ⟨freed, hfree, heq⟩ := map_eq_some_iff.mp hrun
    obtain ⟨-, rfl⟩ := Prod.mk.inj heq
    obtain ⟨base, length, rfl, hlive, hsame, hvals, halive⟩ := free_spec h hfree
    refine ⟨⟨hvals, ⟨base, length, rfl, hlive⟩, fun base' length' => ?_⟩, hsame.partitioned h⟩
    unfold Live
    rw [hsame.allocated, halive]
    have hbase : heapBase + base ≠ heapBase + base' ↔ base' ≠ base :=
      not_congr ⟨fun heq => (Int.add_left_cancel heq).symm, fun heq => heq ▸ rfl⟩
    rw [hbase, and_assoc]
    refine and_congr_right fun _ => ?_
    split
    · rename_i heq
      exact ⟨fun hne => absurd rfl hne, fun hne => absurd heq hne.2⟩
    · rename_i hne
      exact ⟨fun hlive => ⟨hlive, hne⟩, And.left⟩
  | loadRef _ | indexLoad _ _ | indexRef _ _ | sliceLoad _ _ | sliceRef _ _ =>
    obtain ⟨_, -, heq⟩ := map_eq_some_iff.mp hrun
    exact hread rfl (Prod.mk.inj heq).2.symm
  | storeRef handle value =>
    obtain ⟨stored, hstore, heq⟩ := map_eq_some_iff.mp hrun
    obtain ⟨-, rfl⟩ := Prod.mk.inj heq
    unfold ReferenceState.storeRef at hstore
    split at hstore
    · rename_i hglobal
      dsimp only at hstore
      split at hstore
      · nomatch hstore
      obtain rfl := some.inj hstore
      have htarget : HeapOp.target state (.storeRef handle value) = none := if_pos hglobal
      unfold Effect
      rw [htarget]
      have htables : SameTables state { state with
          globals := set state.globals (handle - globalBase) value } :=
        ⟨⟨rfl, fun _ => rfl, fun _ => rfl⟩, fun _ => rfl⟩
      exact ⟨⟨htables, fun _ => rfl⟩, htables.blocks.partitioned h⟩
    · rename_i hglobal
      obtain ⟨cell, hcell, rfl⟩ := map_eq_some_iff.mp hstore
      obtain ⟨rfl, base, length, hlive, hpoints⟩ := (heapCell_iff h).mp hcell
      exact hwrote (if_neg hglobal) (confined_set hlive hpoints hpoints)
  | indexStore handle offset value =>
    obtain ⟨cell, hcell, heq⟩ := map_eq_some_iff.mp hrun
    obtain ⟨-, rfl⟩ := Prod.mk.inj heq
    obtain ⟨-, -, base, length, hlive, hpoints, hpoints'⟩ := (heapIndex_iff h).mp hcell
    exact hwrote rfl (confined_set hlive hpoints hpoints')
  | sliceStore slice index value =>
    obtain ⟨cell, hcell, heq⟩ := map_eq_some_iff.mp hrun
    obtain ⟨-, rfl⟩ := Prod.mk.inj heq
    obtain ⟨-, hidx⟩ := sliceElement_spec h hcell
    obtain ⟨-, -, base, length, hlive, hpoints, hpoints'⟩ := (heapIndex_iff h).mp hidx
    exact hwrote rfl (confined_set hlive hpoints hpoints')
  | memCopy destination source count =>
    obtain ⟨copied, hcopy, heq⟩ := map_eq_some_iff.mp hrun
    obtain ⟨-, rfl⟩ := Prod.mk.inj heq
    obtain ⟨hzero, hstate⟩ | ⟨hpos, ⟨base, length, hlive, hpoints, hend⟩, -, htables,
      hcopied⟩ := memCopy_spec h hcopy
    · exact hread (if_pos hzero) hstate
    refine hwrote (if_neg (by omega)) ⟨htables, base, length, hlive, hpoints,
      fun base' length' hlive' hpoints' => hlive.unique hlive' hpoints hpoints',
      fun cell hcell => ?_⟩
    unfold Points at hpoints hend
    rw [hcopied, if_neg (by omega)]

/-- **A handle into a freed allocation** is not accepted. -/
theorem dangling {handle base length : Int}
    (hfreed : Freed state base length) (hpoints : Points handle base length) :
    isGlobalHandle handle = false ∧ state.heapCell handle = none ∧
      ∀ offset, state.heapIndex handle offset = none := by
  have hdead {base' length' : Int} (hlive : Live state base' length')
      (hpoints' : Points handle base' length') : False := by
    unfold Points at hpoints hpoints'
    obtain ⟨rfl, -⟩ := @Allocated.unique _ _ _ _ _ hlive.1 hfreed.1 (handle - heapBase)
      (by omega) (by omega)
    exact hlive.2 hfreed.2
  refine ⟨?_, ?_, fun offset => ?_⟩
  · have hstart := hfreed.1.start
    unfold Points heapBase at hpoints
    unfold isGlobalHandle globalBase tagSpan
    exact decide_eq_false (by omega)
  · refine eq_none_iff_forall_ne_some.mpr fun cell hcell => ?_
    obtain ⟨-, base', length', hlive, hpoints'⟩ := (heapCell_iff h).mp hcell
    exact hdead hlive hpoints'
  · refine eq_none_iff_forall_ne_some.mpr fun cell hcell => ?_
    obtain ⟨-, -, base', length', hlive, hpoints', -⟩ := (heapIndex_iff h).mp hcell
    exact hdead hlive hpoints'

theorem run_rejected {op : HeapOp} {handle base length : Int}
    (hcells : op.copiesNothing = false) (hmem : handle ∈ op.handles state)
    (hfreed : Freed state base length) (hpoints : Points handle base length) :
    op.run m state = none := by
  obtain ⟨hglobal, hcell, hidx⟩ := dangling h hfreed hpoints
  have hslice {slice index : Int}
      (hmem : handle = slice ∨ handle = state.heapValue (slice - heapBase)) :
      state.sliceElement slice index = none := by
    refine eq_none_iff_forall_ne_some.mpr fun cell hsome => ?_
    obtain ⟨⟨base', length', hlive, hpoints'⟩, hdata⟩ := sliceElement_spec h hsome
    obtain rfl | rfl := hmem
    · have hslice := (heapCell_iff h).mpr
        (show handle = heapBase + (handle - heapBase) ∧ _ from ⟨by omega, _, _, hlive, hpoints'⟩)
      exact nomatch hcell.symm.trans hslice
    · exact nomatch (hidx index).symm.trans hdata
  cases op with
  | alloc => nomatch hmem
  | free =>
    obtain rfl := mem_singleton.mp hmem
    rw [HeapOp.run, ReferenceState.free, hcell]
    rfl
  | loadRef =>
    obtain rfl := mem_singleton.mp hmem
    rw [HeapOp.run, ReferenceState.loadRef, hglobal, hcell]
    rfl
  | storeRef =>
    obtain rfl := mem_singleton.mp hmem
    rw [HeapOp.run, ReferenceState.storeRef, hglobal, hcell]
    rfl
  | indexLoad | indexStore | indexRef =>
    obtain rfl := mem_singleton.mp hmem
    rw [HeapOp.run, hidx]
    rfl
  | sliceLoad | sliceStore | sliceRef =>
    rw [HeapOp.run, hslice (by simpa [HeapOp.handles] using hmem)]
    rfl
  | memCopy destination source count =>
    have hzero : ¬ count = 0 := of_decide_eq_false hcells
    have hmem : handle = destination ∨ handle = source := by simpa [HeapOp.handles] using hmem
    rw [HeapOp.run, ReferenceState.memCopy, if_neg hzero]
    split
    · rfl
    obtain rfl | rfl := hmem
    · rw [hidx]
      rfl
    rw [hidx]
    split
    · rename_i hnone _ _
      nomatch hnone
    · rfl

theorem freed_step (op : HeapOp) {base length : Int}
    (hfreed : Freed state base length) : Freed (op.step m state) base length := by
  unfold HeapOp.step
  cases hrun : op.run m state with
  | none => exact hfreed
  | some outcome =>
    obtain ⟨heffect, -⟩ := effect_run h hrun
    cases op with
    | alloc =>
      obtain ⟨-, hextends, -⟩ := heffect
      exact ⟨hextends.allocated hfreed.1, (hextends.alive hfreed.1).trans hfreed.2⟩
    | free =>
      obtain ⟨freed, hfree, heq⟩ := map_eq_some_iff.mp hrun
      cases heq
      obtain ⟨_, _, -, -, hsame, -, halive⟩ := free_spec h hfree
      refine ⟨hsame.allocated.mpr hfreed.1, (halive base).trans ?_⟩
      split
      · rfl
      · exact hfreed.2
    | _ =>
      obtain ⟨htables, -⟩ := heffect
      exact ⟨htables.blocks.allocated.mpr hfreed.1, (htables.alive base).trans hfreed.2⟩

theorem Partitioned.step (op : HeapOp) : Partitioned (op.step m state) := by
  unfold HeapOp.step
  cases hrun : op.run m state with
  | none => exact h
  | some => exact (effect_run h hrun).2

theorem Partitioned.safe : Safe m state := by
  refine ⟨fun base length base' length' hlive hlive' => hlive.1.apart hlive'.1,
    fun op result state' hrun => (effect_run h hrun).1,
    fun destination source count result state' hrun => ?_,
    fun op handle base length => run_rejected h, fun op base length => freed_step h op,
    fun op hrun => ?_⟩
  · obtain ⟨copied, hcopy, heq⟩ := map_eq_some_iff.mp hrun
    cases heq
    obtain ⟨rfl, rfl⟩ | ⟨-, -, -, -, hcopied⟩ := memCopy_spec h hcopy
    · exact fun cell => (if_neg (by omega)).symm
    · exact hcopied
  · unfold HeapOp.step
    rw [hrun]

end

theorem partitioned_runOps (m : RxeModule) (globals : List Int) (ops : List HeapOp) :
    Partitioned (runOps m globals ops) := by
  have hrun : ∀ {ops : List HeapOp} {state : ReferenceState}, Partitioned state →
      Partitioned (ops.foldl (HeapOp.step m) state) := by
    intro ops
    induction ops with
    | nil => exact fun h => h
    | cons op ops ih => exact fun h => ih (h.step op)
  refine hrun ⟨(by decide : (0 : Int) ≤ heapCapacity), fun cell hlo hhi => ?_⟩
  exact absurd hhi (Int.not_lt.mpr hlo)

end

/-- **The heap is safe after any operations**: allocations are apart, a store or a copy changes
cells of the allocation that its handle points into, and a copy is one at once. Only a copy of no
cells accepts a handle into a freed allocation. -/
theorem heap_safe (m : RxeModule) (globals : List Int) (ops : List HeapOp) :
    Safe m (runOps m globals ops) := (partitioned_runOps m globals ops).safe

/-- A copy of no cells to and from a freed allocation. -/
theorem freed_handle_copied :
    ¬ ∀ (m : RxeModule) (globals : List Int) (ops : List HeapOp) (op : HeapOp)
      (handle base length : Int), handle ∈ op.handles (runOps m globals ops) →
      Freed (runOps m globals ops) base length → Points handle base length →
      op.run m (runOps m globals ops) = none := by
  intro h
  have hstate : runOps {} [] [.alloc 1, .free heapBase] =
      { globals := [], heap := [{ owner := 0, length := 1, alive := 0 }] } := by decide
  have hfreed : Freed (runOps {} [] [.alloc 1, .free heapBase]) 0 1 := by
    rw [hstate]
    refine ⟨⟨by decide, by decide, by decide, fun cell hlo hhi => ?_, rfl⟩, rfl⟩
    obtain rfl : cell = 0 := by omega
    rfl
  have hnone := h {} [] [.alloc 1, .free heapBase] (.memCopy heapBase heapBase 0) heapBase 0 1
    (mem_cons_self) hfreed ⟨by decide, by decide⟩
  nomatch hnone

end Raz.Rxe
