import Raz.Lib.Blocks
import Raz.Path.Buf

/-!
# Ranges of a string

Translation of what `alloc::string` does to ranges of bytes, over a heap of blocks: the bytes that
are put in may be bytes of the string itself, whose block the allocator moves when it grows.

Result: `splice_spec`: bytes take the place of others.
-/

namespace Raz.Alloc.Ranges

open Memory Blocks Raz.Path List Heap
open Raz.Path.Storage (allocationSize growthCapacity)

variable {source : Nat}

abbrev Heap := Blocks.Heap UInt8

abbrev Allocator := Blocks.Allocator UInt8

/-- Whether it is done, the heap and the string. -/
abbrev Outcome := Bool × Heap × Storage

def writeTerminator (heap : Heap) (value : Storage) : Heap :=
  if value.data ≠ 0 then heap.write (value.data + value.length) 0 else heap

/-- A string keeps its capacity where the allocator refuses the block. -/
def withCapacity (allocator : Allocator) (heap : Heap) (capacity : Int) : Heap × Storage :=
  if capacity < 0 then (heap, ⟨0, 0, 0⟩)
  else
    match allocationSize capacity.toNat with
    | none => (heap, ⟨0, 0, 0⟩)
    | some size =>
        match Heap.allocate allocator heap size with
        | none => (heap, ⟨0, 0, capacity.toNat⟩)
        | some (data, heap) => (heap.write data 0, ⟨data, 0, capacity.toNat⟩)

def reserveExact (allocator : Allocator) (heap : Heap) (value : Storage) (capacity : Nat) :
    Outcome :=
  if capacity ≤ value.capacity then (true, heap, value)
  else
    match allocationSize capacity with
    | none => (false, heap, value)
    | some size =>
        match Heap.resize allocator heap value.data size with
        | none => (false, heap, value)
        | some (replacement, heap) =>
            let value : Storage := ⟨replacement, value.length, capacity⟩
            (true, writeTerminator heap value, value)

def reserve (allocator : Allocator) (heap : Heap) (value : Storage) (capacity : Nat) : Outcome :=
  reserveExact allocator heap value (growthCapacity value.capacity capacity)

/-- The source is in the bytes of the string. -/
def inside (value : Storage) (source : Nat) : Bool :=
  value.data ≠ 0 && source ≥ value.data && source < value.data + value.length

/-- The end of `append_bytes`, with the block that was made for the bytes, if there is one. -/
def appendFrom (allocator : Allocator) (heap : Heap) (value : Storage) (length temporary : Nat)
    (stableSource : Storage → Nat) : Outcome :=
  match reserve allocator heap value (value.length + length) with
  | (false, heap, value) => (false, heap.release allocator temporary, value)
  | (true, heap, value) =>
      let heap := heap.copy (value.data + value.length) (stableSource value) length
      let heap := heap.release allocator temporary
      let value := { value with length := value.length + length }
      (true, writeTerminator heap value, value)

def appendBytes (allocator : Allocator) (heap : Heap) (value : Storage) (source : Nat)
    (length : Int) : Outcome :=
  if length ≤ 0 then (length = 0, heap, value)
  else if source = 0 ∨ value.length > 9223372036854775807 - length then (false, heap, value)
  else
    let length := length.toNat
    if inside value source then
      if length ≤ value.length ∧ source ≤ value.data + value.length - length then
        let aliasOffset := source - value.data
        appendFrom allocator heap value length 0 fun value => value.data + aliasOffset
      else
        match heap.allocate allocator length with
        | none => (false, heap, value)
        | some (temporary, heap) =>
            appendFrom allocator (heap.copy temporary source length) value length temporary
              fun _ => temporary
    else appendFrom allocator heap value length 0 fun _ => source

/-- Bytes of the string itself are copied to a block of their own: the block, which is null where
there is none, and the place of the bytes. -/
def stabilize (allocator : Allocator) (heap : Heap) (value : Storage) (source length : Nat) :
    Option (Nat × Nat × Heap) :=
  if length > 0 ∧ inside value source = true then
    match heap.allocate allocator length with
    | none => none
    | some (temporary, heap) => some (temporary, temporary, heap.copy temporary source length)
  else some (0, source, heap)

/-- The bytes behind the `length` bytes at an index are moved behind a gap. -/
def moveTail (heap : Heap) (value : Storage) (index length replacementLength tail : Nat) : Heap :=
  if tail > 0 ∧ replacementLength ≠ length then
    heap.move (value.data + index + replacementLength) (value.data + index + length) tail
  else heap

def putIn (heap : Heap) (value : Storage) (index source length : Nat) : Heap :=
  if length > 0 then heap.copy (value.data + index) source length else heap

/-- What `replace_range_bytes` and `insert_bytes`, which removes nothing, do once their arguments
have been checked. -/
def splice (allocator : Allocator) (heap : Heap) (value : Storage) (index length source
    replacementLength : Nat) : Outcome :=
  match stabilize allocator heap value source replacementLength with
  | none => (false, heap, value)
  | some (temporary, stableReplacement, heap) =>
      let newLength := value.length - length + replacementLength
      match reserve allocator heap value newLength with
      | (false, heap, value) => (false, heap.release allocator temporary, value)
      | (true, heap, value) =>
          let tail := value.length - index - length
          let heap := moveTail heap value index length replacementLength tail
          let heap := putIn heap value index stableReplacement replacementLength
          let heap := heap.release allocator temporary
          let value := { value with length := newLength }
          (true, writeTerminator heap value, value)

def replaceRangeBytes (allocator : Allocator) (heap : Heap) (value : Storage) (index length : Int)
    (replacement : Nat) (replacementLength : Int) : Outcome :=
  if index < 0 ∨ length < 0 ∨ replacementLength < 0 ∨ index > value.length ∨
      length > value.length - index then (false, heap, value)
  else if replacementLength > 0 ∧ replacement = 0 then (false, heap, value)
  else if value.length - length > 9223372036854775807 - replacementLength then (false, heap, value)
  else
    splice allocator heap value index.toNat length.toNat replacement replacementLength.toNat

def insertBytes (allocator : Allocator) (heap : Heap) (value : Storage) (index : Int)
    (source : Nat) (length : Int) : Outcome :=
  if index < 0 ∨ index > value.length ∨ length < 0 ∨ (length > 0 ∧ source = 0) then
    (false, heap, value)
  else if length = 0 then (true, heap, value)
  else if value.length > 9223372036854775807 - length then (false, heap, value)
  else splice allocator heap value index.toNat 0 source length.toNat

def removeRange (heap : Heap) (value : Storage) (index length : Int) : Outcome :=
  if index < 0 ∨ length < 0 ∨ index > value.length ∨ length > value.length - index then
    (false, heap, value)
  else if length = 0 then (true, heap, value)
  else
    let tail := value.length - index.toNat - length.toNat
    let heap := moveTail heap value index.toNat length.toNat 0 tail
    let value := { value with length := value.length - length.toNat }
    (true, writeTerminator heap value, value)

/-! ## What a string owns -/

/-- The text stands in the block of the string, with a zero behind it; a null string has no text. -/
structure Owns (heap : Heap) (value : Storage) (text : List UInt8) : Prop where
  tidy : heap.Tidy
  length : value.length = text.length
  fits : text.length ≤ value.capacity
  limit : value.capacity < 9223372036854775807
  place : value.data = 0 ∧ text = [] ∨ value.data ≠ 0 ∧
    ⟨value.data, value.capacity + 1⟩ ∈ heap.blocks ∧ Stands heap.memory value.data (text ++ [0])

/-- The block of a string that is not null. -/
def blockOf (value : Storage) : Block := ⟨value.data, value.capacity + 1⟩

/-- The text stands in the block, and there is room for a zero. -/
structure Filled (heap : Heap) (value : Storage) (text : List UInt8) : Prop where
  tidy : heap.Tidy
  fits : text.length ≤ value.capacity
  limit : value.capacity < 9223372036854775807
  null : value.data ≠ 0
  block : blockOf value ∈ heap.blocks
  stands : Stands heap.memory value.data text

section

variable {allocator : Allocator} {heap heap' : Heap} {value : Storage}
  {text front cut back bytes : List UInt8} {memory : Bytes} {address count : Nat}

section

variable (h : Filled heap value text)

include h

/-- What is written in the block of the string leaves the others alone. -/
theorem Filled.aside (hframe : Frame address count heap.memory memory)
    (hge : value.data ≤ address) (hle : address + count ≤ value.data + (value.capacity + 1)) :
    Aside heap value.data ⟨memory, heap.blocks⟩ value.data :=
  ⟨fun _ => id, agrees_frame (fun _ hother => h.tidy.others_apart h.block hother) hframe hge hle⟩

theorem Filled.write {text' : List UInt8}
    (hstands : Stands memory value.data text') (hfits : text'.length ≤ value.capacity) :
    Filled ⟨memory, heap.blocks⟩ value text' :=
  ⟨⟨h.tidy.apart, h.tidy.used⟩, hfits, h.limit, h.null, h.block, hstands⟩

theorem Filled.terminate :
    Owns (writeTerminator heap { value with length := text.length })
      { value with length := text.length } text ∧
    Aside heap value.data (writeTerminator heap { value with length := text.length })
      value.data := by
  have hfits := h.fits
  have hframe := @frame_store _ heap.memory (value.data + text.length) 0
  unfold writeTerminator
  rw [if_pos h.null]
  refine ⟨⟨⟨h.tidy.apart, h.tidy.used⟩, rfl, h.fits, h.limit, .inr ⟨h.null, h.block, ?_⟩⟩,
    h.aside hframe (Nat.le_add_right _ _) (by omega)⟩
  exact Stands.append_iff.mpr ⟨h.stands.frame hframe (.inl le_rfl), stands_store _ _⟩

end

section

variable (h : Owns heap value text)

include h

theorem Owns.filled (hnull : value.data ≠ 0) :
    Filled heap value text := by
  obtain ⟨hzero, -⟩ | ⟨-, hblock, hstands⟩ := h.place
  · exact absurd hzero hnull
  · exact ⟨h.tidy, h.fits, h.limit, hnull, hblock, (Stands.append_iff.mp hstands).1⟩

theorem Owns.empty (hnull : value.data = 0) : text = [] := by
  obtain ⟨-, hempty⟩ | ⟨hne, -⟩ := h.place
  · exact hempty
  · exact absurd hnull hne

theorem Owns.of_aside {pointer pointer' : Nat} (htidy : heap'.Tidy)
    (haside : Aside heap pointer heap' pointer') (hne : value.data ≠ pointer) :
    Owns heap' value text := by
  refine ⟨htidy, h.length, h.fits, h.limit, h.place.imp id ?_⟩
  rintro ⟨hnull, hblock, hstands⟩
  have hother : ⟨value.data, value.capacity + 1⟩ ∈ heap.others pointer :=
    mem_others.mpr ⟨hblock, hne⟩
  refine ⟨hnull, (mem_others.mp (haside.kept _ hother)).1, ?_⟩
  refine haside.stands (Covers.single hother le_rfl ?_) hstands
  have hfits := h.fits
  rw [length_append, length_singleton]
  dsimp only
  omega

end

/-! ## Room -/

/-- The room is there or is made. -/
def Roomy (allocator : Allocator) (heap : Heap) (value : Storage) (required : Nat) : Prop :=
  required ≤ value.capacity ∨ growthCapacity value.capacity required < 9223372036854775807 ∧
    (heap.resize allocator value.data (growthCapacity value.capacity required + 1)).isSome = true

/-- **Room is made, or nothing is changed.** A null string whose capacity is enough stays null. -/
theorem reserve_spec (h : Owns heap value text) (hsound : Sound allocator) (required : Nat) :
    (¬ Roomy allocator heap value required ∧
      reserve allocator heap value required = (false, heap, value)) ∨
    (Roomy allocator heap value required ∧ ∃ heap' value',
      reserve allocator heap value required = (true, heap', value') ∧ Owns heap' value' text ∧
      required ≤ value'.capacity ∧ Aside heap value.data heap' value'.data ∧
      (value'.data = 0 → value.data = 0 ∧ required ≤ value.capacity ∧ heap' = heap ∧
        value' = value) ∧ (required ≤ value.capacity → value' = value)) := by
  unfold Roomy reserve reserveExact
  by_cases hroom : required ≤ value.capacity
  · have hsame : growthCapacity value.capacity required = value.capacity := if_pos hroom
    rw [hsame, if_pos le_rfl]
    exact .inr ⟨.inl hroom, heap, value, rfl, h, hroom, Aside.refl _ _,
      fun hnull => ⟨hnull, hroom, rfl, rfl⟩, fun _ => rfl⟩
  have hle := (le_growthCapacity value.capacity required).1
  rw [if_neg (by omega)]
  unfold allocationSize
  by_cases hlimit : growthCapacity value.capacity required < 9223372036854775807
  · rw [if_pos hlimit]
    dsimp only
    cases hresize : heap.resize allocator value.data
      (growthCapacity value.capacity required + 1) with
    | none => exact .inl ⟨fun hroomy => by simp [hroom] at hroomy, rfl⟩
    | some answer =>
      obtain ⟨replacement, heap'⟩ := answer
      have hsize : 0 < growthCapacity value.capacity required + 1 := Nat.succ_pos _
      obtain ⟨hfilled, haside⟩ : Filled heap'
          ⟨replacement, value.length, growthCapacity value.capacity required⟩ text ∧
          Aside heap value.data heap' replacement := by
        have hfits := Nat.le_trans h.fits (le_growthCapacity value.capacity required).2
        by_cases hnull : value.data = 0
        · obtain rfl := h.empty hnull
          have hmake : heap.allocate allocator (growthCapacity value.capacity required + 1) =
              some (replacement, heap') := by
            rw [← hresize, resize, if_pos hnull]
          obtain ⟨htidy, hplace, hblocks, hne, hagrees⟩ := hsound.allocate h.tidy hsize hmake
          refine ⟨⟨htidy, hfits, hlimit, hplace, ?_, trivial⟩, fun block hblock => ?_,
            hagrees.mono fun block hblock => (mem_others.mp hblock).1⟩
          · exact hblocks ▸ mem_cons_self
          · have hold := (mem_others.mp hblock).1
            exact mem_others.mpr ⟨hblocks ▸ mem_cons_of_mem _ hold, hne block hold⟩
        · obtain ⟨htidy, hplace, hblocks, haside, hkept⟩ := hsound.resize h.tidy hsize hnull hresize
          have hold := h.filled hnull
          refine ⟨⟨htidy, hfits, hlimit, hplace, hblocks ▸ mem_cons_self, ?_⟩, haside⟩
          refine hold.stands.moved fun index hidx => hkept _ hold.block rfl index ?_ ?_
          · exact Nat.lt_succ_of_lt (Nat.lt_of_lt_of_le hidx h.fits)
          · exact Nat.lt_succ_of_lt (Nat.lt_of_lt_of_le hidx hfits)
      obtain ⟨howns, hrest⟩ := hfilled.terminate
      rw [← h.length] at howns hrest
      exact .inr ⟨.inr ⟨hlimit, rfl⟩, _, _, rfl, howns, hle, haside.trans hrest,
        fun hnull => absurd hnull hfilled.null, fun hle => absurd hle hroom⟩
  · rw [if_neg hlimit]
    exact .inl ⟨fun hroomy => hroomy.elim hroom fun hgrowth => hlimit hgrowth.1, rfl⟩

/-! ## Bytes that are put in -/

/-- Where bytes come from: they are bytes of the string, or they stand in other blocks. -/
def Sourced (heap : Heap) (value : Storage) (text : List UInt8) (source : Nat)
    (bytes : List UInt8) : Prop :=
  bytes = [] ∨
    (∃ front back, text = front ++ bytes ++ back ∧ source = value.data + front.length) ∨
    (Covers (heap.others value.data) source bytes.length ∧ Stands heap.memory source bytes)

/-- Bytes that stand apart from the string, and stay. -/
structure Stable (heap : Heap) (value : Storage) (source : Nat) (bytes : List UInt8) : Prop where
  covers : Covers (heap.others value.data) source bytes.length
  stands : Stands heap.memory source bytes

theorem Stable.empty (heap : Heap) (value : Storage) (source : Nat) :
    Stable heap value source [] := ⟨fun _ hidx => absurd hidx (Nat.not_lt_zero _), trivial⟩

theorem Stable.aside {value' : Storage} (h : Stable heap value source bytes)
    (haside : Aside heap value.data heap' value'.data) : Stable heap' value' source bytes :=
  ⟨haside.covers h.covers, haside.stands h.covers h.stands⟩

theorem Stable.null (h : Stable heap value source bytes) (htidy : heap.Tidy) (hbytes : bytes ≠ []) :
    source ≠ 0 :=
  (h.covers.mono fun _ hblock => (mem_others.mp hblock).1).ne_null htidy (length_pos_iff.mpr hbytes)

theorem Sourced.stands (h : Sourced heap value text source bytes) (howns : Owns heap value text)
    (hbytes : bytes ≠ []) :
    Covers heap.blocks source bytes.length ∧ Stands heap.memory source bytes := by
  rcases h with hempty | ⟨front, back, rfl, rfl⟩ | ⟨hcovers, hstands⟩
  · exact absurd hempty hbytes
  · have hnull : value.data ≠ 0 := fun hnull => hbytes (by
      have hempty := howns.empty hnull
      rw [append_eq_nil_iff, append_eq_nil_iff] at hempty
      exact hempty.1.2)
    have hfilled := howns.filled hnull
    have hfits := hfilled.fits
    rw [length_append, length_append] at hfits
    refine ⟨Covers.single hfilled.block (Nat.le_add_right _ _) ?_, ?_⟩
    · unfold blockOf
      dsimp only
      omega
    · exact (Stands.append_iff.mp (Stands.append_iff.mp hfilled.stands).1).2
  · exact ⟨hcovers.mono fun block hblock => (mem_others.mp hblock).1, hstands⟩

theorem Sourced.stable (h : Sourced heap value text source bytes) (howns : Owns heap value text)
    (houtside : inside value source = false) :
    Stable heap value source bytes := by
  rcases h with rfl | ⟨front, back, rfl, rfl⟩ | ⟨hcovers, hstands⟩
  · exact Stable.empty heap value source
  · by_cases hbytes : bytes = []
    · rw [hbytes]
      exact Stable.empty heap value _
    have hnull : value.data ≠ 0 := fun hnull => hbytes (by
      have hempty := howns.empty hnull
      rw [append_eq_nil_iff, append_eq_nil_iff] at hempty
      exact hempty.1.2)
    have hlen := howns.length
    have hpos := length_pos_iff.mpr hbytes
    rw [length_append, length_append] at hlen
    simp [inside, hnull] at houtside
    omega
  · exact ⟨hcovers, hstands⟩

/-- **Bytes of the string are put aside**: the string and the other blocks stay as they are. -/
theorem stabilize_spec {temporary stable : Nat} (h : Owns heap value text)
    (hsound : Sound allocator) (hsourced : Sourced heap value text source bytes)
    (hrun : stabilize allocator heap value source bytes.length = some (temporary, stable, heap')) :
    Owns heap' value text ∧ Stable heap' value stable bytes ∧
      Aside heap value.data heap' value.data ∧
      (∀ block ∈ heap.blocks, block.start ≠ temporary) ∧
      (temporary = 0 ∨ ∃ block ∈ heap'.others value.data, block.start = temporary) := by
  unfold stabilize at hrun
  split at hrun
  · rename_i hinside
    have hbytes : bytes ≠ [] := length_pos_iff.mp hinside.1
    cases hallocate : heap.allocate allocator bytes.length with
    | none =>
      rw [hallocate] at hrun
      nomatch hrun
    | some answer =>
      obtain ⟨place, heap₁⟩ := answer
      rw [hallocate] at hrun
      obtain ⟨rfl, hpair⟩ := Prod.mk.inj (Option.some.inj hrun)
      obtain ⟨rfl, rfl⟩ := Prod.mk.inj hpair
      obtain ⟨hcovers, hstands⟩ := hsourced.stands h hbytes
      obtain ⟨htidy, hblocks, hne, hagrees, hcopied⟩ :=
        hsound.copied h.tidy hinside.1 hcovers hstands hallocate
      have haside (pointer : Nat) :
          Aside heap pointer (heap₁.copy place source bytes.length) pointer := by
        refine ⟨fun block hblock => ?_, hagrees.mono fun block hblock =>
          (mem_others.mp hblock).1⟩
        obtain ⟨hmem, hstart⟩ := mem_others.mp hblock
        exact mem_others.mpr ⟨hblocks ▸ mem_cons_of_mem _ hmem, hstart⟩
      have hdata : value.data ≠ 0 := fun hnull => by simp [inside, hnull] at hinside
      have hfilled := h.filled hdata
      have hnew : ⟨place, bytes.length⟩ ∈
          (heap₁.copy place source bytes.length).others value.data :=
        mem_others.mpr ⟨hblocks ▸ mem_cons_self, Ne.symm (hne _ hfilled.block)⟩
      exact ⟨h.of_aside htidy (haside place) (hne _ hfilled.block),
        ⟨Covers.single hnew le_rfl le_rfl, hcopied⟩, haside _, hne,
        .inr ⟨_, hnew, rfl⟩⟩
  · rename_i houtside
    obtain ⟨rfl, hpair⟩ := Prod.mk.inj (Option.some.inj hrun)
    obtain ⟨rfl, rfl⟩ := Prod.mk.inj hpair
    refine ⟨h, ?_, Aside.refl _ _, fun block hblock => (h.tidy.used block hblock).1, .inl rfl⟩
    by_cases hbytes : bytes = []
    · rw [hbytes]
      exact Stable.empty heap value source
    · exact hsourced.stable h (Bool.of_not_eq_true fun hinside =>
        houtside ⟨length_pos_iff.mpr hbytes, hinside⟩)

/-! ## Bytes in the place of others -/

theorem Filled.widen (h : Filled heap value text) (hroom : text.length + count ≤ value.capacity) :
    ∃ gap : List UInt8, gap.length = count ∧ Filled heap value (text ++ gap) := by
  obtain ⟨gap, hgap, hstands⟩ := exists_standing heap.memory (value.data + text.length) count
  refine ⟨gap, hgap, h.tidy, ?_, h.limit, h.null, h.block,
    Stands.append_iff.mpr ⟨h.stands, hstands⟩⟩
  rwa [length_append, hgap]

theorem Filled.moveTail (h : Filled heap value (front ++ cut ++ back)) (count : Nat)
    (hroom : front.length + count + back.length ≤ value.capacity) :
    ∃ gap : List UInt8, gap.length = count ∧
      Filled (moveTail heap value front.length cut.length count back.length) value
        (front ++ gap ++ back) ∧
      Aside heap value.data (moveTail heap value front.length cut.length count back.length)
        value.data := by
  have hfits := h.fits
  have hnull := h.null
  rw [length_append, length_append] at hfits
  obtain ⟨hfirst, hback⟩ := Stands.append_iff.mp h.stands
  obtain ⟨hfront, hcut⟩ := Stands.append_iff.mp hfirst
  rw [length_append, ← Nat.add_assoc] at hback
  unfold Ranges.moveTail
  split
  · unfold Heap.move
    rw [if_neg (by omega)]
    have hmoved := @stands_move _ heap.memory (value.data + front.length + cut.length) back
      (value.data + front.length + count) hback
    have hframe := @frame_move _ heap.memory (value.data + front.length + cut.length) back.length
      (value.data + front.length + count)
    obtain ⟨gap, hgap, hstands⟩ := exists_standing (Memory.move heap.memory
      (value.data + front.length + count) (value.data + front.length + cut.length) back.length)
      (value.data + front.length) count
    refine ⟨gap, hgap, h.write ?_ ?_, h.aside hframe (by omega) (by omega)⟩
    · refine Stands.append_iff.mpr ⟨Stands.append_iff.mpr ⟨?_, hstands⟩, ?_⟩
      · exact hfront.frame hframe (.inl (Nat.le_add_right _ _))
      · rwa [length_append, hgap, ← Nat.add_assoc]
    · rw [length_append, length_append, hgap]
      exact hroom
  · rename_i hstay
    by_cases hback : back = []
    · subst hback
      obtain ⟨gap, hgap, hfilled⟩ := @Filled.widen heap value front count
        ⟨h.tidy, by omega, h.limit, h.null, h.block, hfront⟩ hroom
      exact ⟨gap, hgap, by rwa [append_nil], Aside.refl _ _⟩
    · have hpos := length_pos_iff.mpr hback
      exact ⟨cut, by omega, h, Aside.refl _ _⟩

theorem Filled.putIn {gap : List UInt8} (h : Filled heap value (front ++ gap ++ back))
    (hgap : gap.length = bytes.length) (hstands : Stands heap.memory source bytes)
    (hnull : bytes ≠ [] → source ≠ 0) (hapart : value.data + front.length ≤ source ∨ source +
      bytes.length ≤ value.data + front.length) :
    Filled (putIn heap value front.length source bytes.length) value (front ++ bytes ++ back) ∧
      Aside heap value.data (putIn heap value front.length source bytes.length) value.data := by
  have hfits := h.fits
  have hdata := h.null
  rw [length_append, length_append] at hfits
  obtain ⟨hfirst, hback⟩ := Stands.append_iff.mp h.stands
  obtain ⟨hfront, -⟩ := Stands.append_iff.mp hfirst
  rw [length_append, ← Nat.add_assoc] at hback
  unfold Ranges.putIn
  split
  · rename_i hpos
    have hsrc := hnull (length_pos_iff.mp hpos)
    unfold copy
    rw [if_neg (by omega)]
    have hcopied := @stands_copyUp _ bytes heap.memory (value.data + front.length) source hstands
      hapart
    have hframe := @frame_copyUp _ bytes.length heap.memory (value.data + front.length) source
    refine ⟨h.write ?_ ?_, h.aside hframe (by omega) (by omega)⟩
    · refine Stands.append_iff.mpr ⟨Stands.append_iff.mpr ⟨?_, hcopied⟩, ?_⟩
      · exact hfront.frame hframe (.inl le_rfl)
      · rw [length_append, ← Nat.add_assoc, ← hgap]
        rw [← hgap] at hframe
        exact hback.frame hframe (.inr le_rfl)
    · rw [length_append, length_append, ← hgap]
      exact hfits
  · rename_i hnone
    obtain rfl := eq_nil_of_length_eq_zero (Nat.le_zero.mp (Nat.not_lt.mp hnone))
    obtain rfl := eq_nil_of_length_eq_zero hgap
    exact ⟨h, Aside.refl _ _⟩

/-! ## What a call does -/

theorem Filled.release {temporary : Nat} (h : Filled heap value text) (hsound : Sound allocator)
    (hne : value.data ≠ temporary) : Filled (heap.release allocator temporary) value text := by
  obtain ⟨htidy, hkept, hagrees⟩ := hsound.release h.tidy temporary
  have hblock : blockOf value ∈ heap.others temporary := mem_others.mpr ⟨h.block, hne⟩
  refine ⟨htidy, h.fits, h.limit, h.null, hkept _ hblock, hagrees.stands ?_ h.stands⟩
  refine Covers.single hblock le_rfl ?_
  have hfits := h.fits
  unfold blockOf
  dsimp only
  omega

theorem Owns.release {temporary : Nat} (h : Owns heap value text) (hsound : Sound allocator)
    (hne : value.data ≠ temporary ∨ temporary = 0) :
    Owns (heap.release allocator temporary) value text := by
  by_cases hnull : temporary = 0
  · unfold Heap.release
    rwa [if_pos hnull]
  obtain ⟨htidy, hkept, hagrees⟩ := hsound.release h.tidy temporary
  have haside : Aside heap temporary (heap.release allocator temporary) temporary :=
    ⟨fun block hblock => mem_others.mpr ⟨hkept block hblock, (mem_others.mp hblock).2⟩, hagrees⟩
  exact h.of_aside htidy haside (hne.resolve_right hnull)

/-- A null string that seems to have room for what is written. -/
def Unbacked (value : Storage) (required count : Nat) : Prop :=
  value.data = 0 ∧ 0 < count ∧ required ≤ value.capacity

/-- What a call does to the string and to the rest: it answers whether what it needs is granted; the
string has the new text then, and is as it was otherwise, but for a null string with a capacity. -/
structure Does (heap : Heap) (value : Storage) (text text' : List UInt8) (granted unbacked : Prop)
    (outcome : Outcome) : Prop where
  answer : outcome.1 = true ↔ granted
  kept : outcome.1 = false → outcome.2.2 = value ∧ Owns outcome.2.1 value text
  done : outcome.1 = true → ¬ unbacked → Owns outcome.2.1 outcome.2.2 text'
  lost : outcome.1 = true → unbacked → ¬ Owns outcome.2.1 outcome.2.2 text'
  aside : Aside heap value.data outcome.2.1 outcome.2.2.data

/-- What `splice` needs of the allocator. -/
def Granted (allocator : Allocator) (heap : Heap) (value : Storage) (length source
    replacementLength : Nat) : Prop :=
  ∃ temporary stable heap',
    stabilize allocator heap value source replacementLength = some (temporary, stable, heap') ∧
    Roomy allocator heap' value (value.length - length + replacementLength)

theorem null_steps (hnull : value.data = 0) (hlen : value.length = 0)
    (length replacementLength stable count newLength temporary : Nat) :
    writeTerminator ((putIn (moveTail heap value 0 length replacementLength
      (value.length - 0 - length)) value 0 stable count).release allocator temporary)
      { value with length := newLength } = heap.release allocator temporary := by
  have hmove : moveTail heap value 0 length replacementLength (value.length - 0 - length) =
      heap := by
    unfold moveTail
    rw [if_neg (by omega)]
  have hput : putIn heap value 0 stable count = heap := by
    unfold putIn copy
    split
    · rw [if_pos (.inl (by omega))]
    · rfl
  unfold writeTerminator
  rw [if_neg (fun hne => hne hnull), hmove, hput]

/-- **Bytes take the place of others**, or nothing is changed. -/
theorem splice_spec (h : Owns heap value (front ++ cut ++ back)) (hsound : Sound allocator)
    (hsourced : Sourced heap value (front ++ cut ++ back) source bytes) :
    Does heap value (front ++ cut ++ back) (front ++ bytes ++ back)
      (Granted allocator heap value cut.length source bytes.length)
      (Unbacked value (value.length - cut.length + bytes.length) bytes.length)
      (splice allocator heap value front.length cut.length source bytes.length) := by
  unfold splice Granted
  cases hstabilize : stabilize allocator heap value source bytes.length with
  | none => exact ⟨by simp, fun _ => ⟨rfl, h⟩, nofun, nofun, Aside.refl _ _⟩
  | some answer =>
    obtain ⟨temporary, stable, heap₁⟩ := answer
    obtain ⟨howns, hstable, haside, hne, hmade⟩ := stabilize_spec h hsound hsourced hstabilize
    have hothers : ∀ block ∈ heap.others value.data, block.start ≠ temporary :=
      fun block hblock => hne block (mem_others.mp hblock).1
    have htemporary : value.data ≠ temporary ∨ temporary = 0 := by
      by_cases hdata : value.data = 0
      · rw [hdata]
        exact (eq_or_ne temporary 0).symm.imp Ne.symm id
      · exact .inl (hne _ (h.filled hdata).block)
    dsimp only
    obtain ⟨hroomy, hreserve⟩ |
      ⟨hroomy, heap₂, value₂, hreserve, howns₂, hroom, haside₂, hnull, hstay⟩ :=
      reserve_spec howns hsound (value.length - cut.length + bytes.length)
    · rw [hreserve]
      refine ⟨⟨nofun, ?_⟩, fun _ => ⟨rfl, howns.release hsound htemporary⟩, nofun, nofun,
        haside.release hsound howns.tidy hothers⟩
      rintro ⟨temporary', stable', heap', hsome, hroomy'⟩
      obtain ⟨-, hpair⟩ := Prod.mk.inj (Option.some.inj hsome)
      cases hpair
      exact absurd hroomy' hroomy
    · rw [hreserve]
      dsimp only
      have hgranted : ∃ temporary' stable' heap', some (temporary, stable, heap₁) =
          some (temporary', stable', heap') ∧
          Roomy allocator heap' value (value.length - cut.length + bytes.length) :=
        ⟨_, _, _, rfl, hroomy⟩
      have hlen := howns₂.length
      rw [length_append, length_append] at hlen
      by_cases hdata : value₂.data = 0
      · obtain ⟨hzero, hcap, rfl, rfl⟩ := hnull hdata
        have hempty := h.empty hzero
        have hnothing := h.length
        rw [hempty, length_nil] at hnothing
        rw [append_eq_nil_iff, append_eq_nil_iff] at hempty
        obtain ⟨⟨rfl, rfl⟩, rfl⟩ := hempty
        have hstate := @null_steps allocator heap₂ value₂ hzero hnothing 0 bytes.length stable
          bytes.length (value₂.length - 0 + bytes.length) temporary
        have hkept := howns.release hsound htemporary
        rw [length_nil, hstate]
        refine ⟨⟨fun _ => hgranted, fun _ => rfl⟩, nofun, fun _ hbacked => ?_,
          fun _ hunbacked hlost => ?_, haside.release hsound howns.tidy hothers⟩
        · have hbytes : bytes = [] := eq_nil_of_length_eq_zero (Nat.eq_zero_of_not_pos
            fun hpos => hbacked ⟨hzero, hpos, hcap⟩)
          subst hbytes
          exact ⟨hkept.tidy, hnothing, hkept.fits, hkept.limit, .inl ⟨hzero, rfl⟩⟩
        · have hlen' := hlost.length
          rw [hlost.empty hzero] at hlen'
          have hpos := hunbacked.2.1
          dsimp only [length_nil] at hlen'
          omega
      · have hlen' := h.length
        rw [length_append, length_append] at hlen'
        have htail : value₂.length - front.length - cut.length = back.length := by omega
        have hnew : value.length - cut.length + bytes.length = (front ++ bytes ++ back).length := by
          rw [length_append, length_append]
          omega
        rw [hnew] at hgranted ⊢
        rw [hnew, length_append, length_append] at hroom
        rw [htail]
        obtain ⟨gap, hgap, hmoved, haside₃⟩ := (howns₂.filled hdata).moveTail bytes.length hroom
        have hstable₃ := (hstable.aside haside₂).aside haside₃
        have hapart : value₂.data + front.length ≤ stable ∨
            stable + bytes.length ≤ value₂.data + front.length := by
          by_cases hbytes : bytes = []
          · subst hbytes
            exact Nat.le_total _ _
          have hrange := hstable₃.covers.apart (length_pos_iff.mpr hbytes)
            (Nat.succ_pos _) fun _ hother => hmoved.tidy.others_apart hmoved.block hother
          unfold blockOf at hrange
          dsimp only at hrange
          omega
        obtain ⟨hput, haside₄⟩ := hmoved.putIn hgap hstable₃.stands
          (hstable₃.null hmoved.tidy) hapart
        have hplace : value₂.data ≠ temporary := by
          rcases hmade with rfl | ⟨block, hblock, rfl⟩
          · exact hdata
          · exact Ne.symm (mem_others.mp (haside₂.kept block hblock)).2
        obtain ⟨hfinal, haside₅⟩ := (hput.release hsound hplace).terminate
        have hrest := (((haside.trans haside₂).trans haside₃).trans haside₄).release hsound
          hput.tidy hothers
        exact ⟨⟨fun _ => hgranted, fun _ => rfl⟩, nofun, fun _ _ => hfinal,
          fun _ hunbacked => absurd (hstay (hnew ▸ hunbacked.2.2) ▸ hunbacked.1) hdata,
          hrest.trans haside₅⟩

end

end Raz.Alloc.Ranges
