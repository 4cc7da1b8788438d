import Mathlib.Data.List.Pairwise
import Raz.Lib.Memory

/-!
# Memory in blocks

A heap is a memory with the blocks of it that are in use. An allocator may refuse a block, may place
it wherever no other one is, and may do anything to what is in no block: bytes of a block that was
given back, or that has moved, are lost.

Results:
1. `Sound.allocate`, `Sound.resize`, `Sound.release`: what an allocator does to the blocks.
2. `agrees_frame`: writing inside one block.
-/

namespace Blocks

open Memory

variable {block other : Block}

variable {α : Type}

structure Block where
  start : Nat
  size : Nat
deriving DecidableEq, Repr

namespace Block

def Holds (block : Block) (address : Nat) : Prop :=
  block.start ≤ address ∧ address < block.start + block.size

def Apart (block other : Block) : Prop :=
  block.start + block.size ≤ other.start ∨ other.start + other.size ≤ block.start

theorem Apart.symm (h : block.Apart other) : other.Apart block := Or.symm h

instance : Std.Symm Apart := ⟨fun _ _ => Apart.symm⟩

theorem Apart.not_holds (h : block.Apart other) {address : Nat} (hholds : block.Holds address) :
    ¬ other.Holds address := by
  unfold Apart at h
  unfold Holds at *
  omega

end Block

structure Heap (α : Type) where
  memory : Nat → α
  blocks : List Block

/-- The answers of an allocator, with the memory that it leaves: none where it refuses. -/
structure Allocator (α : Type) where
  alloc : Heap α → Nat → Option (Nat × (Nat → α))
  realloc : Heap α → Nat → Nat → Option (Nat × (Nat → α))
  dealloc : Heap α → Nat → Nat → α

namespace Heap

/-- The blocks but the one that starts at the pointer. -/
def others (heap : Heap α) (pointer : Nat) : List Block :=
  heap.blocks.filter fun block => block.start ≠ pointer

def allocate (allocator : Allocator α) (heap : Heap α) (size : Nat) : Option (Nat × Heap α) :=
  match allocator.alloc heap size with
  | none => none
  | some (pointer, memory) => some (pointer, ⟨memory, ⟨pointer, size⟩ :: heap.blocks⟩)

/-- A null pointer is not a block. -/
def release (allocator : Allocator α) (heap : Heap α) (pointer : Nat) : Heap α :=
  if pointer = 0 then heap else ⟨allocator.dealloc heap pointer, heap.others pointer⟩

/-- Another size for a block; for a null pointer a block is made. -/
def resize (allocator : Allocator α) (heap : Heap α) (pointer size : Nat) :
    Option (Nat × Heap α) :=
  if pointer = 0 then allocate allocator heap size
  else
    match allocator.realloc heap pointer size with
    | none => none
    | some (replacement, memory) =>
        some (replacement, ⟨memory, ⟨replacement, size⟩ :: heap.others pointer⟩)

/-- A copy, one cell after the other; with a null pointer nothing is done. -/
def copy (heap : Heap α) (destination source count : Nat) : Heap α :=
  if destination = 0 ∨ source = 0 then heap
  else { heap with memory := copyUp heap.memory destination source count }

/-- A copy between ranges that may overlap. -/
def move (heap : Heap α) (destination source count : Nat) : Heap α :=
  if destination = 0 ∨ source = 0 then heap
  else { heap with memory := Memory.move heap.memory destination source count }

def write (heap : Heap α) (address : Nat) (value : α) : Heap α :=
  { heap with memory := store heap.memory address value }

/-- No two blocks overlap, none is empty, and the null address is in none. -/
structure Tidy (heap : Heap α) : Prop where
  apart : heap.blocks.Pairwise Block.Apart
  used : ∀ block ∈ heap.blocks, block.start ≠ 0 ∧ 0 < block.size

theorem mem_others {heap : Heap α} {pointer : Nat} :
    block ∈ heap.others pointer ↔ block ∈ heap.blocks ∧ block.start ≠ pointer := by
  unfold others
  rw [List.mem_filter, decide_eq_true_iff]

end Heap

/-! ## Blocks that are left alone -/

/-- What is in the blocks is the same in both memories. -/
def Agrees (blocks : List Block) (memory memory' : Nat → α) : Prop :=
  ∀ block ∈ blocks, ∀ address, block.Holds address → memory' address = memory address

/-- The range is in the blocks. -/
def Covers (blocks : List Block) (address count : Nat) : Prop :=
  ∀ index < count, ∃ block ∈ blocks, block.Holds (address + index)

section

variable {blocks blocks' : List Block} {memory memory' memory'' : Nat → α} {address count : Nat}
  {items : List α}

theorem Agrees.refl (blocks : List Block) (memory : Nat → α) : Agrees blocks memory memory :=
  fun _ _ _ _ => rfl

theorem Agrees.trans (h : Agrees blocks memory memory') (h' : Agrees blocks memory' memory'') :
    Agrees blocks memory memory'' := fun block hblock address hholds =>
  (h' block hblock address hholds).trans (h block hblock address hholds)

theorem Agrees.mono (h : Agrees blocks memory memory')
    (hsub : ∀ block ∈ blocks', block ∈ blocks) : Agrees blocks' memory memory' :=
  fun block hblock => h block (hsub block hblock)

theorem Covers.mono (h : Covers blocks address count)
    (hsub : ∀ block ∈ blocks, block ∈ blocks') : Covers blocks' address count := by
  intro index hidx
  obtain ⟨block, hblock, hholds⟩ := h index hidx
  exact ⟨block, hsub block hblock, hholds⟩

theorem Covers.single (hblock : block ∈ blocks) (hge : block.start ≤ address)
    (hle : address + count ≤ block.start + block.size) : Covers blocks address count :=
  fun index hidx => ⟨block, hblock, by unfold Block.Holds; omega⟩

/-- A range in other blocks is on one side of a block. -/
theorem Covers.apart (h : Covers blocks address count) (hcount : 0 < count) (hsize : 0 < block.size)
    (hapart : ∀ other ∈ blocks, block.Apart other) :
    address + count ≤ block.start ∨ block.start + block.size ≤ address := by
  have hout : ∀ index < count, ¬ block.Holds (address + index) := by
    intro index hidx
    obtain ⟨other, hother, hholds⟩ := h index hidx
    exact (hapart other hother).symm.not_holds hholds
  by_contra hboth
  rcases Nat.lt_or_ge address block.start with hlt | hge
  · refine hout (block.start - address) (by omega) ?_
    unfold Block.Holds
    omega
  · refine hout 0 hcount ?_
    unfold Block.Holds
    omega

/-- **What stands in blocks that are left alone** stands there still. -/
theorem Agrees.stands (h : Agrees blocks memory memory') :
    ∀ {items : List α} {address : Nat}, Covers blocks address items.length →
      Stands memory address items → Stands memory' address items
  | [], _, _, _ => trivial
  | item :: items, address, hcovers, hstands => by
    obtain ⟨block, hblock, hholds⟩ := hcovers 0 (Nat.succ_pos _)
    have hrest : Covers blocks (address + 1) items.length := by
      intro index hidx
      obtain ⟨other, hother, hin⟩ := hcovers (index + 1) (Nat.succ_lt_succ hidx)
      exact ⟨other, hother, by rwa [Nat.add_assoc, Nat.add_comm 1]⟩
    exact ⟨(h block hblock address hholds).trans hstands.1, Agrees.stands h hrest hstands.2⟩

/-- Writing in one block leaves the blocks alone that are apart from it. -/
theorem agrees_frame (hapart : ∀ other ∈ blocks, block.Apart other)
    (hframe : Frame address count memory memory') (hge : block.start ≤ address)
    (hle : address + count ≤ block.start + block.size) : Agrees blocks memory memory' := by
  intro other hother place hholds
  refine hframe place ?_
  have hother := hapart other hother
  unfold Block.Apart at hother
  unfold Block.Holds at hholds
  omega

end

/-! ## Allocators -/

/-- The new block is apart from those that are in use, which are left alone; a block that gets
another size keeps its items as far as it goes. -/
structure Sound (allocator : Allocator α) : Prop where
  alloc : ∀ {heap size pointer memory}, allocator.alloc heap size = some (pointer, memory) →
    pointer ≠ 0 ∧ (∀ block ∈ heap.blocks, Block.Apart ⟨pointer, size⟩ block) ∧
      Agrees heap.blocks heap.memory memory
  realloc : ∀ {heap pointer size replacement memory},
    allocator.realloc heap pointer size = some (replacement, memory) →
      replacement ≠ 0 ∧
      (∀ block ∈ heap.others pointer, Block.Apart ⟨replacement, size⟩ block) ∧
      Agrees (heap.others pointer) heap.memory memory ∧
      ∀ block ∈ heap.blocks, block.start = pointer → ∀ index, index < block.size → index < size →
        memory (replacement + index) = heap.memory (pointer + index)
  dealloc : ∀ {heap pointer},
    Agrees (heap.others pointer) heap.memory (allocator.dealloc heap pointer)

/-- What a call has done to the other blocks: nothing. -/
structure Aside (heap : Heap α) (pointer : Nat) (heap' : Heap α) (pointer' : Nat) : Prop where
  kept : ∀ block ∈ heap.others pointer, block ∈ heap'.others pointer'
  agrees : Agrees (heap.others pointer) heap.memory heap'.memory

section

variable {allocator : Allocator α} {heap heap' heap'' : Heap α}
  {pointer pointer' pointer'' size address count : Nat} {items : List α}

theorem Aside.refl (heap : Heap α) (pointer : Nat) : Aside heap pointer heap pointer :=
  ⟨fun _ => id, Agrees.refl _ _⟩

theorem Aside.trans (h : Aside heap pointer heap' pointer')
    (h' : Aside heap' pointer' heap'' pointer'') : Aside heap pointer heap'' pointer'' :=
  ⟨fun block hblock => h'.kept block (h.kept block hblock), h.agrees.trans (h'.agrees.mono h.kept)⟩

theorem Heap.Tidy.ne_start (h : heap.Tidy) (hapart : ∀ other ∈ heap.blocks, block.Apart other)
    (hsize : 0 < block.size) (hother : other ∈ heap.blocks) : other.start ≠ block.start := by
  have hused := (h.used other hother).2
  have hboth := hapart other hother
  unfold Block.Apart at hboth
  omega

theorem Heap.Tidy.others_apart (h : heap.Tidy) (hblock : block ∈ heap.blocks)
    (hother : other ∈ heap.others block.start) : block.Apart other := by
  obtain ⟨hmem, hne⟩ := Heap.mem_others.mp hother
  exact h.apart.forall hblock hmem fun heq => hne (congrArg Block.start heq).symm

/-- A new block in front of those that are kept. -/
theorem Heap.Tidy.cons {memory : Nat → α} {blocks : List Block} {block : Block}
    (h : Heap.Tidy ⟨heap.memory, blocks⟩) (hapart : ∀ other ∈ blocks, block.Apart other)
    (hstart : block.start ≠ 0) (hsize : 0 < block.size) :
    Heap.Tidy ⟨memory, block :: blocks⟩ :=
  ⟨List.pairwise_cons.mpr ⟨hapart, h.apart⟩, List.forall_mem_cons.mpr ⟨⟨hstart, hsize⟩, h.used⟩⟩

theorem Heap.Tidy.others (h : heap.Tidy) (memory : Nat → α) (pointer : Nat) :
    Heap.Tidy ⟨memory, heap.others pointer⟩ :=
  ⟨h.apart.filter _, fun block hblock => h.used block (Heap.mem_others.mp hblock).1⟩

/-- **A block is made.** -/
theorem Sound.allocate (h : Sound allocator) (htidy : heap.Tidy) (hsize : 0 < size)
    (hrun : Heap.allocate allocator heap size = some (pointer, heap')) :
    heap'.Tidy ∧ pointer ≠ 0 ∧ heap'.blocks = ⟨pointer, size⟩ :: heap.blocks ∧
      (∀ block ∈ heap.blocks, block.start ≠ pointer) ∧
      Agrees heap.blocks heap.memory heap'.memory := by
  unfold Heap.allocate at hrun
  cases hanswer : allocator.alloc heap size with
  | none =>
    rw [hanswer] at hrun
    nomatch hrun
  | some answer =>
    rw [hanswer] at hrun
    cases hrun
    obtain ⟨hnull, hapart, hagrees⟩ := h.alloc hanswer
    exact ⟨Heap.Tidy.cons htidy hapart hnull hsize, hnull, rfl,
      fun block hblock => htidy.ne_start hapart hsize hblock, hagrees⟩

theorem Covers.ne_null (htidy : heap.Tidy) (h : Covers heap.blocks address count)
    (hcount : 0 < count) : address ≠ 0 := by
  obtain ⟨block, hblock, hholds⟩ := h 0 hcount
  have hused := (htidy.used block hblock).1
  unfold Block.Holds at hholds
  omega

/-- **Items are copied to a block that is made for them.** -/
theorem Sound.copied (h : Sound allocator) (htidy : heap.Tidy) (hitems : 0 < items.length)
    (hcovers : Covers heap.blocks address items.length) (hstands : Stands heap.memory address items)
    (hrun : Heap.allocate allocator heap items.length = some (pointer, heap')) :
    (heap'.copy pointer address items.length).Tidy ∧
      (heap'.copy pointer address items.length).blocks = ⟨pointer, items.length⟩ :: heap.blocks ∧
      (∀ block ∈ heap.blocks, block.start ≠ pointer) ∧
      Agrees heap.blocks heap.memory (heap'.copy pointer address items.length).memory ∧
      Stands (heap'.copy pointer address items.length).memory pointer items := by
  obtain ⟨htidy', hnull, hblocks, hne, hagrees⟩ := h.allocate htidy hitems hrun
  have hnew : ⟨pointer, items.length⟩ ∈ heap'.blocks := hblocks ▸ List.mem_cons_self
  have hapart : ∀ block ∈ heap.blocks, Block.Apart ⟨pointer, items.length⟩ block :=
    fun block hblock => htidy'.others_apart hnew
      (Heap.mem_others.mpr ⟨hblocks ▸ List.mem_cons_of_mem _ hblock, hne block hblock⟩)
  have hcopy : heap'.copy pointer address items.length =
      ⟨copyUp heap'.memory pointer address items.length, heap'.blocks⟩ := by
    unfold Heap.copy
    rw [if_neg (not_or.mpr ⟨hnull, hcovers.ne_null htidy hitems⟩)]
  have hrange := hcovers.apart hitems hitems hapart
  rw [hcopy]
  refine ⟨⟨htidy'.apart, htidy'.used⟩, hblocks, hne, hagrees.trans ?_, ?_⟩
  · exact agrees_frame hapart frame_copyUp (Nat.le_refl _) (Nat.le_refl _)
  · refine stands_copyUp (hagrees.stands hcovers hstands) (hrange.symm.imp ?_ id)
    exact Nat.le_trans (Nat.le_add_right _ _)

/-- **A block gets another size**, and keeps its items as far as it goes. -/
theorem Sound.resize (h : Sound allocator) (htidy : heap.Tidy) (hsize : 0 < size)
    (hnull : pointer ≠ 0)
    (hrun : Heap.resize allocator heap pointer size = some (pointer', heap')) :
    heap'.Tidy ∧ pointer' ≠ 0 ∧ heap'.blocks = ⟨pointer', size⟩ :: heap.others pointer ∧
      Aside heap pointer heap' pointer' ∧
      ∀ block ∈ heap.blocks, block.start = pointer → ∀ index, index < block.size → index < size →
        heap'.memory (pointer' + index) = heap.memory (pointer + index) := by
  unfold Heap.resize at hrun
  rw [if_neg hnull] at hrun
  cases hanswer : allocator.realloc heap pointer size with
  | none =>
    rw [hanswer] at hrun
    nomatch hrun
  | some answer =>
    rw [hanswer] at hrun
    cases hrun
    obtain ⟨hplace, hapart, hagrees, hkept⟩ := h.realloc hanswer
    have hothers := htidy.others heap.memory pointer
    refine ⟨Heap.Tidy.cons hothers hapart hplace hsize, hplace, rfl, ⟨fun block hblock => ?_,
      hagrees⟩, hkept⟩
    exact Heap.mem_others.mpr ⟨List.mem_cons_of_mem _ hblock, hothers.ne_start hapart hsize hblock⟩

/-- **A block is given back.** -/
theorem Sound.release (h : Sound allocator) (htidy : heap.Tidy) (pointer : Nat) :
    (Heap.release allocator heap pointer).Tidy ∧
      (∀ block ∈ heap.others pointer, block ∈ (Heap.release allocator heap pointer).blocks) ∧
      Agrees (heap.others pointer) heap.memory (Heap.release allocator heap pointer).memory := by
  unfold Heap.release
  split
  · exact ⟨htidy, fun block hblock => (Heap.mem_others.mp hblock).1, Agrees.refl _ _⟩
  · exact ⟨htidy.others _ _, fun _ => id, h.dealloc⟩

section

variable (h : Aside heap pointer heap' pointer')

include h

/-- A block of its own is given back. -/
theorem Aside.release (hsound : Sound allocator)
    (htidy : heap'.Tidy) {temporary : Nat}
    (hne : ∀ block ∈ heap.others pointer, block.start ≠ temporary) :
    Aside heap pointer (heap'.release allocator temporary) pointer' := by
  obtain ⟨-, hkept, hagrees⟩ := hsound.release htidy temporary
  have hsub : ∀ block ∈ heap.others pointer, block ∈ heap'.others temporary := fun block hblock =>
    Heap.mem_others.mpr ⟨(Heap.mem_others.mp (h.kept block hblock)).1, hne block hblock⟩
  refine ⟨fun block hblock => Heap.mem_others.mpr ⟨hkept block (hsub block hblock), ?_⟩,
    h.agrees.trans (hagrees.mono hsub)⟩
  exact (Heap.mem_others.mp (h.kept block hblock)).2

/-- What stands in the other blocks. -/
theorem Aside.stands (hcovers : Covers (heap.others pointer) address items.length)
    (hstands : Stands heap.memory address items) : Stands heap'.memory address items :=
  h.agrees.stands hcovers hstands

theorem Aside.covers (hcovers : Covers (heap.others pointer) address count) :
    Covers (heap'.others pointer') address count := hcovers.mono h.kept

end

end

end Blocks
