import Raz.Forge.EdgeCopies
import Mathlib.Tactic.Common

/-!
# What the copies of an edge do

The effect of the instructions of a copy, of an exchange, of a rotation and of a snapshot on the
cells of the machine. `Copies` says that some copies have happened at once: each destination has
what its source held before, and no other cell has changed but scratch ones.

Result: `exchange_spec`, `rotation_spec`, `snapshot_spec`: the three ways to resolve a cycle.
-/

namespace Raz.Forge.EdgeCopies

open List AllocationLocation

variable {location : AllocationLocation} {cell : Cell} {floating : Bool}

/-! ## Locations -/

namespace AllocationLocation

/-- The cell of a location, unless it is a constant. -/
def cell? (location : AllocationLocation) : Option Cell :=
  match location.kind with
  | .physicalRegister => some (.register (physicalRegister location.physical))
  | .floatingRegister => some (.xmm (floatingRegister location.floating))
  | .stackSlot => some (.frame location.stackOffset)
  | .rematerializedInteger | .rematerializedFloating => none

/-- The bytes that a location stands for. -/
def value (location : AllocationLocation) (m : Machine) : Nat → UInt8 :=
  match location.cell? with
  | some cell => m.cells cell
  | none => immediateByte location.rematerializedImmediate

theorem value_of_cell (h : location.cell? = some cell) (m : Machine) :
    location.value m = m.cells cell := by
  rw [value, h]

end AllocationLocation

/-- The kinds of location that a register of a class is given. -/
def IsTyped (registerClass : RegisterClass) (location : AllocationLocation) : Prop :=
  match registerClass with
  | .integer => location.kind = .physicalRegister ∨ location.kind = .stackSlot ∨
      location.kind = .rematerializedInteger
  | .floating => location.kind = .floatingRegister ∨ location.kind = .stackSlot ∨
      location.kind = .rematerializedFloating
  | .vector => location.kind = .floatingRegister ∨ location.kind = .stackSlot

instance : (registerClass : RegisterClass) → (location : AllocationLocation) →
    Decidable (IsTyped registerClass location)
  | .integer, location => inferInstanceAs (Decidable (location.kind = .physicalRegister ∨
      location.kind = .stackSlot ∨ location.kind = .rematerializedInteger))
  | .floating, location => inferInstanceAs (Decidable (location.kind = .floatingRegister ∨
      location.kind = .stackSlot ∨ location.kind = .rematerializedFloating))
  | .vector, location => inferInstanceAs (Decidable (location.kind = .floatingRegister ∨
      location.kind = .stackSlot))

/-- The cells that no location is in: the scratch registers and the stack below the frame. -/
def IsScratch : Cell → Prop
  | .register r => r = .eax ∨ r = .ecx
  | .xmm r => r = .xmm0 ∨ r = .xmm1
  | .frame _ => False
  | .below _ => True

theorem not_isScratch (h : location.cell? = some cell) : ¬ IsScratch cell := by
  unfold cell? at h
  split at h
  · cases h
    cases location.physical <;> simp [IsScratch, physicalRegister]
  · cases h
    cases location.floating <;> simp [IsScratch, floatingRegister]
  · cases h
    exact id
  all_goals nomatch h

theorem physicalRegister_injective {a b : PhysicalRegister}
    (h : physicalRegister a = physicalRegister b) : a = b := by
  cases a <;> cases b <;> first | rfl | nomatch h

theorem floatingRegister_injective {a b : FloatingPhysicalRegister}
    (h : floatingRegister a = floatingRegister b) : a = b := by
  cases a <;> cases b <;> first | rfl | nomatch h

theorem sameAllocationLocation_iff {left right : AllocationLocation} (h : left.cell? = some cell) :
    sameAllocationLocation left right = true ↔ right.cell? = some cell := by
  obtain ⟨kind, physical, floating, offset, immediate⟩ := left
  obtain ⟨kind', physical', floating', offset', immediate'⟩ := right
  cases kind <;> cases kind' <;>
    simp_all [sameAllocationLocation, cell?] <;> subst h <;> simp [eq_comm]
  · exact ⟨congrArg _, fun h => physicalRegister_injective h⟩
  · exact ⟨congrArg _, fun h => floatingRegister_injective h⟩

theorem sameAllocationLocation_comm (left right : AllocationLocation) :
    sameAllocationLocation left right = sameAllocationLocation right left := by
  obtain ⟨kind, physical, floating, offset, immediate⟩ := left
  obtain ⟨kind', physical', floating', offset', immediate'⟩ := right
  cases kind <;> cases kind' <;> simp [sameAllocationLocation, Bool.beq_comm]

/-! ## Single instructions -/

/-- A cell gets some bytes, and no other cell changes but those excepted. -/
structure Sets (excepted : Cell → Prop) (cell : Cell) (size : Nat) (bytes : Nat → UInt8)
    (m m' : Machine) : Prop where
  bytes : ∀ i < size, m'.cells cell i = bytes i
  others : ∀ other, other ≠ cell → ¬ excepted other → m'.cells other = m.cells other
  stackPointer : m'.stackPointer = m.stackPointer

theorem run_append (first second : List Step) (m : Machine) :
    run (first ++ second) m = run second (run first m) := foldl_append

theorem run_move (m : Machine) (destination source : Place) (wide : Bool)
    (h : m.cell destination = some cell) :
    Sets (fun _ => False) cell (moveSize wide) (m.read source) m
      (run [.move destination source wide] m) := by
  have hrun : run [.move destination source wide] m =
      m.write cell (movedBytes cell source wide (m.cells cell) (m.read source)) := by
    change Step.run m (.move destination source wide) = _
    rw [Step.run, h]
  rw [hrun]
  refine ⟨fun i hi => ?_, fun other hother _ => Function.update_of_ne hother _ _, rfl⟩
  change Function.update m.cells cell _ cell i = _
  rw [Function.update_self]
  exact if_pos hi

theorem Sets.mono {excepted wider : Cell → Prop} {size : Nat} {bytes : Nat → UInt8} {m m' : Machine}
    (h : Sets excepted cell size bytes m m') (hwider : ∀ other, excepted other → wider other) :
    Sets wider cell size bytes m m' :=
  ⟨h.bytes, fun other hother hnot => h.others other hother fun hex => hnot (hwider other hex),
    h.stackPointer⟩

theorem Sets.trans {excepted : Cell → Prop} {middle : Cell} {size : Nat} {bytes : Nat → UInt8}
    {m m' m'' : Machine} (h : Sets excepted middle size bytes m m')
    (h' : Sets excepted cell size (m'.cells middle) m' m'') :
    Sets (fun other => excepted other ∨ other = middle) cell size bytes m m'' := by
  refine ⟨fun i hi => (h'.bytes i hi).trans (h.bytes i hi), fun other hother hnot => ?_,
    h'.stackPointer.trans h.stackPointer⟩
  rw [h'.others other hother fun hex => hnot (.inl hex),
    h.others other (fun heq => hnot (.inr heq)) fun hex => hnot (.inl hex)]

theorem Sets.same (cell : Cell) (size : Nat) (m : Machine) :
    Sets (fun _ => False) cell size (m.cells cell) m m :=
  ⟨fun _ _ => rfl, fun _ _ _ => rfl, rfl⟩

theorem emitMoveRegister_spec (destination source : Register) (wide : Bool) (m : Machine) :
    Sets (fun _ => False) (.register destination) (moveSize wide) (m.cells (.register source)) m
      (run (emitMoveRegister destination source wide) m) := by
  unfold emitMoveRegister
  split
  · rename_i heq
    exact heq ▸ Sets.same _ _ m
  · exact run_move m (.register destination) (.register source) wide rfl

theorem emitSseMove_spec (destination source : XmmRegister) (wide : Bool) (m : Machine) :
    Sets (fun _ => False) (.xmm destination) (moveSize wide) (m.cells (.xmm source)) m
      (run (emitSseMove destination source wide) m) := by
  unfold emitSseMove
  split
  · rename_i heq
    exact heq ▸ Sets.same _ _ m
  · exact run_move m (.xmm destination) (.xmm source) wide rfl

/-! ## Reads and writes -/

/-- The scratch register of a class. -/
def scratchCell (floating : Bool) (integerScratch : Register) (floatingScratch : XmmRegister) :
    Cell :=
  if floating then .xmm floatingScratch else .register integerScratch

/-- A constant goes to a vector register by way of a general one. -/
def ByWayOf (floating : Bool) (cell : Cell) : Prop := floating = true ∧ cell = .register .eax

/-- The class that the emission sees. -/
def scalarClass (floating : Bool) : RegisterClass := if floating then .floating else .integer

theorem emitReadLocation_spec (h : IsTyped .integer location) (destination : Register) (wide : Bool)
    (m : Machine) :
    Sets (fun _ => False) (.register destination) (moveSize wide) (location.value m) m
      (run (emitReadLocation destination location wide) m) := by
  unfold emitReadLocation value cell?
  rcases h with hkind | hkind | hkind
  · simp only [hkind]
    exact emitMoveRegister_spec ..
  · simp only [hkind]
    exact run_move m (.register destination) (.frame location.stackOffset) wide rfl
  · simp only [hkind]
    exact run_move m (.register destination) (.immediate location.rematerializedImmediate) wide rfl

theorem emitReadFloatLocation_spec (h : IsTyped .floating location) (destination : XmmRegister)
    (wide : Bool) (m : Machine) :
    Sets (ByWayOf true) (.xmm destination) (moveSize wide) (location.value m) m
      (run (emitReadFloatLocation destination location wide) m) := by
  unfold emitReadFloatLocation value cell?
  rcases h with hkind | hkind | hkind
  · simp only [hkind]
    exact (emitSseMove_spec ..).mono fun _ => False.elim
  · simp only [hkind]
    exact (run_move m (.xmm destination) (.frame location.stackOffset) wide rfl).mono
      fun _ => False.elim
  simp only [hkind]
  have hfirst := run_move m (.register .eax) (.immediate location.rematerializedImmediate) wide
    rfl
  have hsecond := run_move (run [.move (.register .eax)
    (.immediate location.rematerializedImmediate) wide] m) (.xmm destination) (.register .eax)
    wide rfl
  exact (hfirst.trans hsecond).mono fun other hother =>
    hother.elim False.elim fun heq => ⟨rfl, heq⟩

theorem emitWriteLocation_spec (h : IsTyped .integer location) (hcell : location.cell? = some cell)
    (source : Register) (wide : Bool) (m : Machine) :
    Sets (fun _ => False) cell (moveSize wide) (m.cells (.register source)) m
      (run (emitWriteLocation location source wide) m) := by
  unfold emitWriteLocation
  unfold cell? at hcell
  rcases h with hkind | hkind | hkind
  · simp only [hkind] at hcell ⊢
    cases hcell
    exact emitMoveRegister_spec ..
  · simp only [hkind] at hcell ⊢
    cases hcell
    exact run_move m (.frame location.stackOffset) (.register source) wide rfl
  · simp only [hkind] at hcell
    nomatch hcell

theorem emitWriteFloatLocation_spec (h : IsTyped .floating location)
    (hcell : location.cell? = some cell) (source : XmmRegister) (wide : Bool) (m : Machine) :
    Sets (fun _ => False) cell (moveSize wide) (m.cells (.xmm source)) m
      (run (emitWriteFloatLocation location source wide) m) := by
  unfold emitWriteFloatLocation
  unfold cell? at hcell
  rcases h with hkind | hkind | hkind
  · simp only [hkind] at hcell ⊢
    cases hcell
    exact emitSseMove_spec ..
  · simp only [hkind] at hcell ⊢
    cases hcell
    exact run_move m (.frame location.stackOffset) (.xmm source) wide rfl
  · simp only [hkind] at hcell
    nomatch hcell

theorem emitRead_spec (h : IsTyped (scalarClass floating) location) (wide : Bool) (m : Machine) :
    Sets (ByWayOf floating) (scratchCell floating .eax .xmm0) (moveSize wide) (location.value m) m
      (run (emitReadScratch location floating wide) m) := by
  cases floating with
  | false => exact (emitReadLocation_spec h .eax wide m).mono fun _ => False.elim
  | true => exact emitReadFloatLocation_spec h .xmm0 wide m

theorem emitWrite_spec (h : IsTyped (scalarClass floating) location)
    (hcell : location.cell? = some cell) (wide : Bool) (m : Machine) :
    Sets (fun _ => False) cell (moveSize wide) (m.cells (scratchCell floating .eax .xmm0)) m
      (run (emitWriteScratch location floating wide) m) := by
  cases floating with
  | false => exact emitWriteLocation_spec h hcell .eax wide m
  | true => exact emitWriteFloatLocation_spec h hcell .xmm0 wide m

/-! ## Copies -/

section
variable {allocation : RegisterAllocation} {function : Function}

/-- What a single copy of a class may change but its destination. -/
def CopyScratch (floating : Bool) (integerScratch : Register) (floatingScratch : XmmRegister)
    (cell : Cell) : Prop :=
  ByWayOf floating cell ∨ cell = scratchCell floating integerScratch floatingScratch

/-- **A single copy** brings the bytes of its source to its destination. -/
theorem emitLocationCopy_spec {source destination : VirtualRegister}
    (hsrc : IsTyped (scalarClass (function.isFloating source)) (allocation.location source))
    (hdst : IsTyped (scalarClass (function.isFloating source)) (allocation.location
      destination)) (hcell : (allocation.location destination).cell? = some cell)
    (integerScratch : Register) (floatingScratch : XmmRegister) (m : Machine) :
    Sets (CopyScratch (function.isFloating source) integerScratch floatingScratch) cell
      (moveSize (function.isWide source)) ((allocation.location source).value m) m
      (run (emitLocationCopy allocation function source destination integerScratch
        floatingScratch) m) := by
  unfold emitLocationCopy
  cases hfloating : function.isFloating source with
  | true =>
    rw [hfloating] at hsrc hdst
    simp only [Bool.true_and, Bool.not_true, Bool.false_and, Bool.false_eq_true, if_false, if_true,
      Bool.and_eq_true, beq_iff_eq]
    split
    · -- from one vector register to another
      rename_i hkinds
      have hmove := emitSseMove_spec (floatingRegister (allocation.location destination).floating)
        (floatingRegister (allocation.location source).floating) (function.isWide source) m
      rw [cell?, hkinds.2] at hcell
      cases hcell
      rw [value, cell?, hkinds.1]
      exact hmove.mono fun _ => False.elim
    · rw [run_append]
      have hread := emitReadFloatLocation_spec hsrc floatingScratch (function.isWide source) m
      have hwrite := emitWriteFloatLocation_spec hdst hcell floatingScratch
        (function.isWide source) (run (emitReadFloatLocation floatingScratch
          (allocation.location source) (function.isWide source)) m)
      exact hread.trans (hwrite.mono fun _ => False.elim)
  | false =>
    rw [hfloating] at hsrc hdst
    simp only [Bool.false_and, Bool.false_eq_true, if_false, Bool.not_false, Bool.true_and,
      Bool.and_eq_true, beq_iff_eq]
    split
    · -- from one general register to another
      rename_i hkinds
      have hmove := emitMoveRegister_spec
        (physicalRegister (allocation.location destination).physical)
        (physicalRegister (allocation.location source).physical) (function.isWide source) m
      rw [cell?, hkinds.2] at hcell
      cases hcell
      rw [value, cell?, hkinds.1]
      exact hmove.mono fun _ => False.elim
    · rw [run_append]
      have hread := emitReadLocation_spec hsrc integerScratch (function.isWide source) m
      have hwrite := emitWriteLocation_spec hdst hcell integerScratch
        (function.isWide source) (run (emitReadLocation integerScratch
          (allocation.location source) (function.isWide source)) m)
      exact (hread.trans hwrite).mono fun other hother => .inr (hother.elim False.elim id)

end

section
variable (allocation : RegisterAllocation) (function : Function)

/-- The cell that a copy writes. -/
def PendingCopy.target? (copy : PendingCopy) : Option Cell :=
  (allocation.location copy.destination).cell?

/-- The cell that a copy reads, unless it brings a constant. -/
def PendingCopy.origin? (copy : PendingCopy) : Option Cell :=
  (allocation.location copy.source).cell?

/-- The bytes that a copy brings. -/
def PendingCopy.value (copy : PendingCopy) (m : Machine) : Nat → UInt8 :=
  (allocation.location copy.source).value m

/-- The number of bytes that a copy brings. -/
def PendingCopy.size (copy : PendingCopy) : Nat := moveSize (function.isWide copy.source)

/-- A copy of an integer or of a floating-point value to a register or slot of its class. -/
structure PendingCopy.IsScalar (copy : PendingCopy) : Prop where
  source : IsTyped (scalarClass (function.isFloating copy.source)) (allocation.location copy.source)
  destination :
    IsTyped (scalarClass (function.isFloating copy.source)) (allocation.location copy.destination)
  floating : function.isFloating copy.destination = function.isFloating copy.source
  wide : function.isWide copy.destination = function.isWide copy.source
  target : ∃ cell, copy.target? allocation = some cell

/-- Some copies have happened at once, and no cell has changed but theirs and scratch ones. -/
structure Copies (copies : List PendingCopy) (m m' : Machine) : Prop where
  values : ∀ copy ∈ copies, ∀ cell, copy.target? allocation = some cell →
    ∀ i < copy.size function, m'.cells cell i = copy.value allocation m i
  others : ∀ cell, ¬ IsScratch cell → (∀ copy ∈ copies, copy.target? allocation ≠ some cell) →
    m'.cells cell = m.cells cell
  stackPointer : m'.stackPointer = m.stackPointer

end

section
variable {allocation : RegisterAllocation} {function : Function} {copy : PendingCopy}
  {copies : List PendingCopy} {m m' m'' : Machine}

theorem Copies.nil (m : Machine) : Copies allocation function [] m m :=
  ⟨fun _ hcopy => absurd hcopy not_mem_nil, fun _ _ _ => rfl, rfl⟩

section

variable (h : Copies allocation function copies m m')

include h

theorem Copies.congr {copies' : List PendingCopy}
    (hmem : ∀ copy, copy ∈ copies' ↔ copy ∈ copies) : Copies allocation function copies' m m' :=
  ⟨fun copy hcopy => h.values copy ((hmem copy).mp hcopy),
    fun cell hcell hnot => h.others cell hcell fun copy hcopy => hnot copy ((hmem copy).mpr hcopy),
    h.stackPointer⟩

/-- A copy that reads what none has written brings what was there before. -/
theorem Copies.value_eq
    (hread : ∀ other ∈ copies, other.target? allocation ≠ copy.origin? allocation) :
    copy.value allocation m' = copy.value allocation m := by
  unfold PendingCopy.value
  cases hcell : (allocation.location copy.source).cell? with
  | none => simp only [value, hcell]
  | some cell =>
    rw [value_of_cell hcell, value_of_cell hcell]
    refine h.others cell (not_isScratch hcell) fun other hother heq => hread other hother ?_
    rw [heq, PendingCopy.origin?, hcell]

theorem Copies.cons {excepted : Cell → Prop} {cell : Cell} {size : Nat} {bytes : Nat → UInt8}
    (hsets : Sets excepted cell size bytes m' m'')
    (hexcepted : ∀ other, excepted other → IsScratch other)
    (htarget : copy.target? allocation = some cell)
    (hnew : ∀ other ∈ copies, other.target? allocation ≠ some cell)
    (hbytes : ∀ i < copy.size function, i < size ∧ bytes i = copy.value allocation m i) :
    Copies allocation function (copy :: copies) m m'' := by
  refine ⟨fun other hother cell' hcell' i hi => ?_, fun cell' hcell' hnot => ?_,
    hsets.stackPointer.trans h.stackPointer⟩
  · rcases mem_cons.mp hother with rfl | hother
    · obtain rfl := Option.some.inj (htarget.symm.trans hcell')
      rw [hsets.bytes i (hbytes i hi).1, (hbytes i hi).2]
    have hne : cell' ≠ cell := fun heq => hnew other hother (heq ▸ hcell')
    have hscratch : ¬ IsScratch cell' := not_isScratch hcell'
    rw [hsets.others cell' hne fun hex => hscratch (hexcepted _ hex)]
    exact h.values other hother cell' hcell' i hi
  · have hne : cell' ≠ cell := fun heq => hnot copy mem_cons_self (heq ▸ htarget)
    rw [hsets.others cell' hne fun hex => hcell' (hexcepted _ hex)]
    exact h.others cell' hcell' fun other hother => hnot other (mem_cons_of_mem _ hother)

end

/-- Copies behind others that neither write where they write nor where they read. -/
theorem Copies.append {first second : List PendingCopy} (h : Copies allocation function first m m')
    (h' : Copies allocation function second m' m'')
    (hapart : ∀ earlier ∈ first, ∀ later ∈ second,
      earlier.target? allocation ≠ later.target? allocation ∧
        earlier.target? allocation ≠ later.origin? allocation) :
    Copies allocation function (first ++ second) m m'' := by
  refine ⟨fun copy hcopy cell hcell i hi => ?_, fun cell hcell hnot => ?_,
    h'.stackPointer.trans h.stackPointer⟩
  · rcases mem_append.mp hcopy with hcopy | hcopy
    · rw [h'.others cell (not_isScratch hcell) fun later hlater heq =>
        (hapart copy hcopy later hlater).1 (hcell.trans heq.symm)]
      exact h.values copy hcopy cell hcell i hi
    · rw [h'.values copy hcopy cell hcell i hi,
        h.value_eq fun earlier hearlier => (hapart earlier hearlier copy hcopy).2]
  · rw [h'.others cell hcell fun copy hcopy => hnot copy (mem_append_right _ hcopy),
      h.others cell hcell fun copy hcopy => hnot copy (mem_append_left _ hcopy)]

theorem CopyScratch.isScratch {integerScratch : Register} {floatingScratch : XmmRegister}
    (hinteger : IsScratch (.register integerScratch)) (hfloating : IsScratch (.xmm floatingScratch))
    (h : CopyScratch floating integerScratch floatingScratch cell) : IsScratch cell := by
  rcases h with ⟨-, rfl⟩ | rfl
  · exact .inl rfl
  · cases floating with
    | false => exact hinteger
    | true => exact hfloating

/-- **A single copy behind others** that do not write where it reads or writes. -/
theorem Copies.emit (h : Copies allocation function copies m m')
    (hscalar : copy.IsScalar allocation function) (integerScratch : Register)
    (floatingScratch : XmmRegister) (hinteger : IsScratch (.register integerScratch))
    (hfloating : IsScratch (.xmm floatingScratch))
    (hread : ∀ other ∈ copies, other.target? allocation ≠ copy.origin? allocation)
    (hnew : ∀ other ∈ copies, other.target? allocation ≠ copy.target? allocation) :
    Copies allocation function (copy :: copies) m
      (run (emitLocationCopy allocation function copy.source copy.destination integerScratch
        floatingScratch) m') := by
  obtain ⟨cell, hcell⟩ := hscalar.target
  refine h.cons (emitLocationCopy_spec hscalar.source hscalar.destination hcell integerScratch
    floatingScratch m') (fun _ => CopyScratch.isScratch hinteger hfloating) hcell
    (fun other hother => hcell ▸ hnew other hother) fun i hi => ⟨hi, ?_⟩
  exact congrFun (h.value_eq hread) i

end

/-! ## Cycles -/

section
variable {allocation : RegisterAllocation} {function : Function} {first second : PendingCopy}
  {rest copies : List PendingCopy} {m m' : Machine}

/-- **An exchange** copies both ways at once. -/
theorem exchange_spec {left right : Register} (hne : left ≠ right)
    (hfirst : first.origin? allocation = some (.register left))
    (hsecond : second.origin? allocation = some (.register right))
    (hfirstTarget : first.target? allocation = some (.register right))
    (hsecondTarget : second.target? allocation = some (.register left))
    (hwide : function.isWide second.source = function.isWide first.source) (m : Machine) :
    Copies allocation function [first, second] m
      (run (emitXchgRegisters left right (function.isWide first.source)) m) := by
  have hcells : Cell.register left ≠ .register right := fun heq => hne (Cell.register.inj heq)
  have hrun : run (emitXchgRegisters left right (function.isWide first.source)) m =
      (m.write (.register left) (movedBytes (.register left) (.register right)
        (function.isWide first.source) (m.cells (.register left))
        (m.cells (.register right)))).write (.register right)
        (movedBytes (.register right) (.register left) (function.isWide first.source)
          (m.cells (.register right)) (m.cells (.register left))) := by
    rw [emitXchgRegisters, if_neg hne]
    rfl
  rw [hrun]
  refine ⟨fun copy hcopy cell hcell i hi => ?_, fun cell _ hnot => ?_, rfl⟩
  · simp only [mem_cons, not_mem_nil, or_false] at hcopy
    rcases hcopy with rfl | rfl
    · obtain rfl := Option.some.inj (hfirstTarget.symm.trans hcell)
      rw [PendingCopy.value, value_of_cell hfirst]
      change Function.update (Function.update m.cells (.register left) _) (Cell.register right) _
        (.register right) i = _
      rw [Function.update_self]
      exact if_pos hi
    · obtain rfl := Option.some.inj (hsecondTarget.symm.trans hcell)
      rw [PendingCopy.value, value_of_cell hsecond]
      change Function.update (Function.update m.cells (.register left) _) (Cell.register right) _
        (.register left) i = _
      rw [Function.update_of_ne hcells, Function.update_self]
      exact if_pos (hwide ▸ hi)
  · have hleft : cell ≠ .register left := fun heq =>
      hnot second (by simp) (heq ▸ hsecondTarget)
    have hright : cell ≠ .register right := fun heq => hnot first (by simp) (heq ▸ hfirstTarget)
    change Function.update (Function.update m.cells (.register left) _) (Cell.register right) _
      cell = _
    rw [Function.update_of_ne hright, Function.update_of_ne hleft]

/-- The copies of a rotation behind its first one, by way of the second scratch registers. -/
def rotationSteps (allocation : RegisterAllocation) (function : Function)
    (copies : List PendingCopy) : List Step :=
  copies.flatMap fun copy =>
    emitLocationCopy allocation function copy.source copy.destination .ecx .xmm1

/-- Where a copy writes what the one before it has read, it may follow it. -/
def Follows (allocation : RegisterAllocation) (copy following : PendingCopy) : Prop :=
  following.target? allocation = copy.origin? allocation

theorem not_copyScratch_holder (floating : Bool) :
    ¬ CopyScratch floating .ecx .xmm1 (scratchCell floating .eax .xmm0) := by
  cases floating <;> simp [CopyScratch, ByWayOf, scratchCell]

theorem isScratch_holder (floating : Bool) : IsScratch (scratchCell floating .eax .xmm0) := by
  cases floating with
  | false => exact .inl rfl
  | true => exact .inl rfl

/-- Copies each of which writes what the one before it has read, and the value in the first scratch
register. -/
theorem rotationSteps_spec :
    ∀ {rest : List PendingCopy} {first : PendingCopy} {m : Machine},
      (∀ copy ∈ rest, copy.IsScalar allocation function ∧
        function.isFloating copy.source = floating) →
      (first :: rest).IsChain (Follows allocation) →
      ((first :: rest).map (·.origin? allocation)).Nodup →
      (rest.map (·.target? allocation)).Nodup →
      Copies allocation function rest m (run (rotationSteps allocation function rest) m) ∧
        (run (rotationSteps allocation function rest) m).cells (scratchCell floating .eax .xmm0) =
          m.cells (scratchCell floating .eax .xmm0)
  | [], _, m, _, _, _, _ => ⟨Copies.nil m, rfl⟩
  | copy :: rest, first, m, hscalar, hchain, horigins, htargets => by
    have ⟨hcopy, hfloating⟩ := hscalar copy mem_cons_self
    have hfollows := isChain_cons_cons.mp hchain
    rw [map_cons, nodup_cons] at horigins htargets
    have hone := (Copies.nil m).emit hcopy .ecx .xmm1 (.inr rfl) (.inr rfl)
      (fun _ hmem => absurd hmem not_mem_nil) fun _ hmem => absurd hmem not_mem_nil
    have ⟨hrest, hholder⟩ := rotationSteps_spec
      (m := run (emitLocationCopy allocation function copy.source copy.destination .ecx .xmm1) m)
      (fun other hother => hscalar other (mem_cons_of_mem _ hother)) hfollows.2 horigins.2
      htargets.2
    rw [rotationSteps, flatMap_cons, run_append]
    refine ⟨(hone.append hrest fun earlier hearlier later hlater => ?_), hholder.trans ?_⟩
    · obtain rfl := mem_singleton.mp hearlier
      refine ⟨fun heq => htargets.1 (heq ▸ mem_map_of_mem hlater), fun heq => horigins.1 ?_⟩
      -- the target of the copy is the origin of the first one, which no later one reads
      rw [← hfollows.1, heq]
      exact mem_map_of_mem (mem_cons_of_mem _ hlater)
    · obtain ⟨cell, hcell⟩ := hcopy.target
      have hsets := emitLocationCopy_spec hcopy.source hcopy.destination hcell .ecx .xmm1 m
      rw [hfloating] at hsets
      exact hsets.others _ (fun heq => not_isScratch hcell (heq ▸ isScratch_holder floating))
        (not_copyScratch_holder floating)

/-- **A rotation**: the first value waits in a scratch register until its place is free. -/
theorem rotation_spec {wide : Bool} (hscalar : ∀ copy ∈ first :: rest, copy.IsScalar allocation
      function ∧ function.isFloating copy.source = floating)
    (hwide : function.isWide first.source = wide)
    (hchain : (first :: rest).IsChain (Follows allocation))
    (horigins : ((first :: rest).map (·.origin? allocation)).Nodup)
    (htargets : ((first :: rest).map (·.target? allocation)).Nodup) (m : Machine) :
    Copies allocation function (first :: rest) m
      (run (emitReadScratch (allocation.location first.source) floating wide ++
        rotationSteps allocation function rest ++
        emitWriteScratch (allocation.location first.destination) floating wide) m) := by
  have ⟨hfirst, hfloating⟩ := hscalar first mem_cons_self
  obtain ⟨cell, hcell⟩ := hfirst.target
  have hsrc := hfirst.source
  have hdst := hfirst.destination
  rw [hfloating] at hsrc hdst
  have hread := emitRead_spec hsrc wide m
  rw [run_append, run_append]
  generalize
    run (emitReadScratch (allocation.location first.source) floating wide) m = m₁ at hread ⊢
  rw [map_cons, nodup_cons] at htargets
  have ⟨hrest, hholder⟩ := rotationSteps_spec (m := m₁)
    (fun copy hcopy => hscalar copy (mem_cons_of_mem _ hcopy)) hchain horigins htargets.2
  have hone : Copies allocation function [] m m₁ := by
    refine ⟨fun _ hcopy => absurd hcopy not_mem_nil, fun other hother _ => ?_, hread.stackPointer⟩
    refine hread.others other (fun heq => hother (heq ▸ isScratch_holder floating)) fun hway => ?_
    exact hother (hway.2 ▸ .inl rfl)
  have hcopied := hone.append hrest fun _ hcopy => absurd hcopy not_mem_nil
  refine hcopied.cons (emitWrite_spec hdst hcell wide _) (fun _ => False.elim) hcell
    (fun other hother heq => htargets.1 ?_) fun i hi => ?_
  · rw [hcell, ← heq]
    exact mem_map_of_mem hother
  · rw [PendingCopy.size, hwide] at hi
    exact ⟨hi, (congrFun hholder i).trans (hread.bytes i hi)⟩

/-! ## Snapshots -/

theorem run_adjust (subtract : Bool) (amount : Nat) (m : Machine) :
    run (emitAdjustRsp subtract amount) m = { m with
      stackPointer := if subtract then m.stackPointer - amount else m.stackPointer + amount } := by
  unfold emitAdjustRsp
  split
  · rename_i hzero
    cases subtract <;> simp [hzero, run]
  · rfl

/-- The cell of a value in a snapshot. -/
def snapshotCell (m : Machine) (index : Nat) : Cell :=
  .below (m.stackPointer + ((index * 8 : Nat) : Int))

theorem snapshotCell_injective {m : Machine} {i j : Nat}
    (h : snapshotCell m i = snapshotCell m j) : i = j := by
  have := Cell.below.inj h
  omega

theorem isScratch_snapshotCell (m : Machine) (index : Nat) : IsScratch (snapshotCell m index) :=
  trivial

/-- The registers that the values of a snapshot go through. -/
def IsHolder (cell : Cell) : Prop := cell = .register .eax ∨ cell = .xmm .xmm0

theorem IsHolder.isScratch (h : IsHolder cell) : IsScratch cell := by
  rcases h with rfl | rfl
  · exact .inl rfl
  · exact .inl rfl

theorem isHolder_scratchCell (floating : Bool) : IsHolder (scratchCell floating .eax .xmm0) := by
  cases floating with
  | false => exact .inl rfl
  | true => exact .inr rfl

theorem not_isHolder_snapshotCell (m : Machine) (index : Nat) :
    ¬ IsHolder (snapshotCell m index) := by
  simp [IsHolder, snapshotCell]

theorem not_isHolder_cell (h : location.cell? = some cell) : ¬ IsHolder cell :=
  fun hholder => not_isScratch h hholder.isScratch

/-- The value of a copy goes to its cell of the snapshot. -/
def saveSteps (allocation : RegisterAllocation) (function : Function)
    (item : PendingCopy × Nat) : List Step :=
  emitReadScratch (allocation.location item.1.source) (function.isFloating item.1.source)
      (function.isWide item.1.source) ++
    emitScratchStore (item.2 * 8 : Nat) (function.isFloating item.1.source)
      (function.isWide item.1.source)

def restoreSteps (allocation : RegisterAllocation) (function : Function)
    (item : PendingCopy × Nat) : List Step :=
  emitScratchLoad (item.2 * 8 : Nat) (function.isFloating item.1.destination)
      (function.isWide item.1.destination) ++
    emitWriteScratch (allocation.location item.1.destination)
      (function.isFloating item.1.destination) (function.isWide item.1.destination)

theorem save_spec {item : PendingCopy × Nat} (h : item.1.IsScalar allocation function)
    (m : Machine) :
    Sets IsHolder (snapshotCell m item.2) (item.1.size function) (item.1.value allocation m) m
      (run (saveSteps allocation function item) m) := by
  have hread := emitRead_spec h.source (function.isWide item.1.source) m
  rw [saveSteps, run_append]
  generalize run (emitReadScratch (allocation.location item.1.source)
    (function.isFloating item.1.source) (function.isWide item.1.source)) m = m₁ at hread ⊢
  have hstore : Sets (fun _ => False) (snapshotCell m item.2) (item.1.size function)
      (m₁.cells (scratchCell (function.isFloating item.1.source) .eax .xmm0)) m₁
      (run (emitScratchStore (item.2 * 8 : Nat) (function.isFloating item.1.source)
        (function.isWide item.1.source)) m₁) := by
    rw [snapshotCell, ← hread.stackPointer]
    cases function.isFloating item.1.source with
    | false => exact run_move m₁ (.top _) (.register .eax) _ rfl
    | true => exact run_move m₁ (.top _) (.xmm .xmm0) _ rfl
  refine (hread.trans (hstore.mono fun _ => False.elim)).mono fun other hother => ?_
  rcases hother with hway | rfl
  · exact .inl hway.2
  · exact isHolder_scratchCell _

theorem restore_spec {item : PendingCopy × Nat} (h : item.1.IsScalar allocation function)
    (hcell : item.1.target? allocation = some cell) (m : Machine) :
    Sets IsHolder cell (item.1.size function) (m.cells (snapshotCell m item.2)) m
      (run (restoreSteps allocation function item) m) := by
  rw [restoreSteps, run_append, h.floating, h.wide]
  have hload : Sets (fun _ => False)
      (scratchCell (function.isFloating item.1.source) .eax .xmm0) (item.1.size function)
      (m.cells (snapshotCell m item.2)) m
      (run (emitScratchLoad (item.2 * 8 : Nat) (function.isFloating item.1.source)
        (function.isWide item.1.source)) m) := by
    cases function.isFloating item.1.source with
    | false => exact run_move m (.register .eax) (.top _) _ rfl
    | true => exact run_move m (.xmm .xmm0) (.top _) _ rfl
  have hwrite := emitWrite_spec h.destination hcell (function.isWide item.1.source)
    (run (emitScratchLoad (item.2 * 8 : Nat) (function.isFloating item.1.source)
      (function.isWide item.1.source)) m)
  refine (hload.trans hwrite).mono fun other hother => ?_
  rcases hother with hfalse | rfl
  · exact hfalse.elim
  · exact isHolder_scratchCell _

/-- The values of some copies are in their cells of the snapshot. -/
structure Saved (allocation : RegisterAllocation) (function : Function)
    (items : List (PendingCopy × Nat)) (m m' : Machine) : Prop where
  values : ∀ item ∈ items, ∀ i < item.1.size function,
    m'.cells (snapshotCell m item.2) i = item.1.value allocation m i
  others : ∀ cell, ¬ IsHolder cell → (∀ item ∈ items, cell ≠ snapshotCell m item.2) →
    m'.cells cell = m.cells cell
  stackPointer : m'.stackPointer = m.stackPointer

theorem saves_spec : ∀ {items : List (PendingCopy × Nat)} (m : Machine),
    (∀ item ∈ items, item.1.IsScalar allocation function) → (items.map (·.2)).Nodup →
      Saved allocation function items m
        (run (items.flatMap (saveSteps allocation function)) m)
  | [], m, _, _ => ⟨fun _ hitem => absurd hitem not_mem_nil, fun _ _ _ => rfl, rfl⟩
  | item :: items, m, hscalar, hnodup => by
    rw [map_cons, nodup_cons] at hnodup
    have hitem := save_spec (hscalar item mem_cons_self) m
    rw [flatMap_cons, run_append]
    generalize run (saveSteps allocation function item) m = m₁ at hitem ⊢
    have hrest := saves_spec m₁ (fun other hother => hscalar other (mem_cons_of_mem _ hother))
      hnodup.2
    have hsame : ∀ index, snapshotCell m₁ index = snapshotCell m index := fun index => by
      rw [snapshotCell, hitem.stackPointer, snapshotCell]
    have hapart : ∀ other ∈ items, snapshotCell m item.2 ≠ snapshotCell m₁ other.2 := by
      intro other hother heq
      refine hnodup.1 ?_
      rw [snapshotCell_injective (heq.trans (hsame other.2))]
      exact mem_map_of_mem hother
    refine ⟨fun other hother i hi => ?_, fun cell hcell hnot => ?_,
      hrest.stackPointer.trans hitem.stackPointer⟩
    · rcases mem_cons.mp hother with rfl | hother
      · rw [hrest.others _ (not_isHolder_snapshotCell m _) hapart]
        exact hitem.bytes i hi
      rw [← hsame, hrest.values other hother i hi]
      refine congrFun ?_ i
      -- no copy reads a register that the values go through, or a cell of the snapshot
      unfold PendingCopy.value
      cases hcell : (allocation.location other.1.source).cell? with
      | none => simp only [value, hcell]
      | some cell =>
        rw [value_of_cell hcell, value_of_cell hcell]
        have hne : cell ≠ snapshotCell m item.2 := fun heq =>
          not_isScratch hcell (heq ▸ isScratch_snapshotCell m _)
        exact hitem.others cell hne (not_isHolder_cell hcell)
    · rw [hrest.others cell hcell fun other hother => (hsame other.2).symm ▸
        hnot other (mem_cons_of_mem _ hother)]
      exact hitem.others cell (hnot item mem_cons_self) hcell

theorem restores_spec {m : Machine} : ∀ {items : List (PendingCopy × Nat)} {done : List PendingCopy}
    {m' : Machine}, Copies allocation function done m m' →
      (∀ item ∈ items, item.1.IsScalar allocation function) →
      ((items.map (·.1) ++ done).map (·.target? allocation)).Nodup →
      (∀ item ∈ items, ∀ i < item.1.size function,
        m'.cells (snapshotCell m item.2) i = item.1.value allocation m i) →
      Copies allocation function (items.map (·.1) ++ done) m
        (run (items.flatMap (restoreSteps allocation function)) m')
  | [], _, _, hdone, _, _, _ => hdone
  | item :: items, done, m', hdone, hscalar, htargets, hsaved => by
    have hitem := hscalar item mem_cons_self
    obtain ⟨cell, hcell⟩ := hitem.target
    have hsets := restore_spec hitem hcell m'
    rw [map_cons, cons_append, map_cons, nodup_cons] at htargets
    have hsame : ∀ index, snapshotCell m' index = snapshotCell m index := fun index => by
      rw [snapshotCell, hdone.stackPointer, snapshotCell]
    rw [hsame] at hsets
    have hnext := hdone.cons hsets (fun _ => IsHolder.isScratch) hcell
      (fun other hother heq => htargets.1 (by
        rw [hcell, ← heq]
        exact mem_map_of_mem (mem_append_right _ hother)))
      fun i hi => ⟨hi, hsaved item mem_cons_self i hi⟩
    rw [flatMap_cons, run_append]
    refine (restores_spec hnext (fun other hother => hscalar other (mem_cons_of_mem _ hother))
      ?_ fun other hother i hi => ?_).congr fun copy => ?_
    · exact (perm_middle.map _).nodup_iff.mpr (nodup_cons.mpr htargets)
    · rw [hsets.others _ (fun heq => not_isScratch hcell (heq ▸ isScratch_snapshotCell m _))
        (not_isHolder_snapshotCell m _)]
      exact hsaved other (mem_cons_of_mem _ hother) i hi
    · simp only [map_cons, cons_append, mem_cons, mem_append]
      tauto

/-- **A snapshot**: all values are saved before the first one is overwritten. -/
theorem snapshot_spec (hscalar : ∀ copy ∈ copies, copy.IsScalar allocation function)
    (htargets : (copies.map (·.target? allocation)).Nodup) (m : Machine) :
    Copies allocation function copies m (run (emitSnapshot allocation function copies) m) := by
  have hsteps : emitSnapshot allocation function copies = emitAdjustRsp true (copies.length * 8) ++
        copies.zipIdx.flatMap (saveSteps allocation function) ++
        copies.zipIdx.flatMap (restoreSteps allocation function) ++
        emitAdjustRsp false (copies.length * 8) := rfl
  have hitems : ∀ item ∈ copies.zipIdx, item.1.IsScalar allocation function := fun item hitem =>
    hscalar item.1 (fst_mem_of_mem_zipIdx hitem)
  rw [hsteps, run_append, run_append, run_append, run_adjust, run_adjust, if_pos rfl,
    if_neg Bool.false_ne_true]
  set below : Machine := { m with stackPointer := m.stackPointer - (copies.length * 8 : Nat) }
  have hsaved : Saved allocation function copies.zipIdx below
      (run (copies.zipIdx.flatMap (saveSteps allocation function)) below) :=
    saves_spec below hitems (by
      rw [zipIdx_map_snd]
      exact nodup_range')
  have hnone : Copies allocation function [] below
      (run (copies.zipIdx.flatMap (saveSteps allocation function)) below) :=
    ⟨fun _ hcopy => absurd hcopy not_mem_nil,
      fun cell hcell _ => hsaved.others cell (fun hholder => hcell hholder.isScratch)
        fun _ _ heq => hcell (heq ▸ isScratch_snapshotCell below _), hsaved.stackPointer⟩
  have hcopies := restores_spec hnone hitems (by simpa using htargets) hsaved.values
  rw [append_nil, zipIdx_map_fst] at hcopies
  refine ⟨fun copy hcopy cell hcell i hi => ?_, hcopies.others, ?_⟩
  · exact hcopies.values copy hcopy cell hcell i hi
  · change (run _ _).stackPointer + _ = _
    rw [hcopies.stackPointer]
    exact Int.sub_add_cancel _ _

end

end Raz.Forge.EdgeCopies
