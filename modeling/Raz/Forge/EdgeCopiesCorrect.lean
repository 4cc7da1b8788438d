import Raz.Forge.EdgeCycles
import Raz.Forge.EdgeVectors

/-!
# The copies of an edge are copies at once

An edge must give each parameter what its argument held before the edge, and leave all else as it
was. The emitted copies do so for integers and floating-point values, whatever the cycles among
their places. The emission asks only whether a value is floating-point, so a vector is copied as an
integer of four bytes: an edge that has to move a vector is never right.

Result: `copiesEdge_iff`: the edges whose copies are right.
-/

namespace Raz.Forge.EdgeCopies

open Rotations List AllocationLocation

variable {pair : VirtualRegister × VirtualRegister}

/-! ## What an edge must do -/

section
variable (allocation : RegisterAllocation) (function : Function) (successor : Successor)
  (target : Block)

/-- The arguments of an edge match the parameters of its target in number, class and width; scalars
have at most eight bytes, vectors more. The parameters are in distinct registers and slots, and
registers are of the file of the class. -/
structure IsEdge : Prop where
  number : successor.arguments.length = target.parameters.length
  classes : ∀ pair ∈ successor.arguments.zip target.parameters,
    function.registerClass pair.2 = function.registerClass pair.1
  widths : ∀ pair ∈ successor.arguments.zip target.parameters,
    function.registerWidth pair.2 = function.registerWidth pair.1
  scalars : ∀ pair ∈ successor.arguments.zip target.parameters,
    function.registerClass pair.1 ≠ .vector →
      function.registerWidth pair.1 ≤ 4 ∨ function.registerWidth pair.1 = 8
  vectors : ∀ pair ∈ successor.arguments.zip target.parameters,
    function.registerClass pair.1 = .vector → 8 < function.registerWidth pair.1
  typed : ∀ pair ∈ successor.arguments.zip target.parameters,
    IsTyped (function.registerClass pair.1) (allocation.location pair.1) ∧
      IsTyped (function.registerClass pair.1) (allocation.location pair.2)
  places : ∀ parameter ∈ target.parameters,
    ∃ cell, (allocation.location parameter).cell? = some cell
  distinct : (target.parameters.map fun parameter => (allocation.location parameter).cell?).Nodup

/-- Each parameter has the value that its argument had before. No other cell that a location can be
in has changed, and the stack pointer has not. -/
structure GivesArguments (m m' : Machine) : Prop where
  values : ∀ pair ∈ successor.arguments.zip target.parameters,
    ∀ i < function.registerWidth pair.2,
      (allocation.location pair.2).value m' i = (allocation.location pair.1).value m i
  others : ∀ cell, ¬ IsScratch cell →
    (∀ parameter ∈ target.parameters, (allocation.location parameter).cell? ≠ some cell) →
      m'.cells cell = m.cells cell
  stackPointer : m'.stackPointer = m.stackPointer

/-- The loops of the planning end, the emitted copies give the arguments, and an edge whose copies
are held to be no-ops needs none. -/
def CopiesEdge : Prop :=
  ∃ steps, (∀ limit, successor.arguments.length < limit →
      emitParallelCopies allocation function limit successor target = .ok steps) ∧
    (∀ m, GivesArguments allocation function successor target m (run steps m)) ∧
    (edgeCopiesAreNoop allocation successor target = true →
      ∀ m, GivesArguments allocation function successor target m m)

end

/-! ## Planned copies -/

section
variable {allocation : RegisterAllocation} {function : Function} {successor : Successor}
  {target : Block} {copies : List PendingCopy} {m m' : Machine}

theorem mem_pendingCopies {copy : PendingCopy} :
    copy ∈ pendingCopies allocation successor target ↔
      ∃ pair ∈ successor.arguments.zip target.parameters,
        sameAllocationLocation (allocation.location pair.1) (allocation.location pair.2) = false ∧
          copy = { source := pair.1, destination := pair.2 } := by
  unfold pendingCopies
  rw [mem_map]
  constructor
  · rintro ⟨pair, hpair, rfl⟩
    rw [mem_filter, Bool.not_eq_true'] at hpair
    exact ⟨pair, hpair.1, hpair.2, rfl⟩
  · rintro ⟨pair, hpair, hmoved, rfl⟩
    exact ⟨pair, mem_filter.mpr ⟨hpair, by rw [hmoved]; rfl⟩, rfl⟩

theorem length_pendingCopies_le :
    (pendingCopies allocation successor target).length ≤ successor.arguments.length := by
  unfold pendingCopies
  rw [length_map]
  refine (length_filter_le _ _).trans ?_
  rw [length_zip]
  exact Nat.min_le_left _ _

theorem Copies.unmark (h : Copies allocation function copies m m') :
    Copies allocation function (copies.map ({ · with emitted := false })) m m' := by
  refine ⟨fun copy hcopy => ?_, fun cell hcell hnot => h.others cell hcell fun copy hcopy => ?_,
    h.stackPointer⟩
  · obtain ⟨other, hother, rfl⟩ := mem_map.mp hcopy
    exact h.values other hother
  · exact hnot { copy with emitted := false } (mem_map.mpr ⟨copy, hcopy, rfl⟩)

theorem advanced_start (h : Planned allocation function copies)
    (hpend : ∀ copy ∈ copies, copy.emitted = false) :
    Advanced allocation function copies { copies := copies, steps := [] } := by
  refine ⟨h, ?_, fun m => ?_, fun copy hcopy hemitted => ?_⟩
  · refine (map_congr_left fun copy hcopy => ?_).trans (map_id copies)
    rw [← hpend copy hcopy]
    rfl
  · have hnone : copies.filter (·.emitted) = [] :=
      filter_eq_nil_iff.mpr fun copy hcopy => by simp [hpend copy hcopy]
    rw [hnone]
    exact Copies.nil m
  · nomatch (hpend copy hcopy).symm.trans hemitted

/-- **Planned copies are emitted, and happen at once.** -/
theorem emitParallelCopies_spec (hnum : successor.arguments.length = target.parameters.length)
    (h : Planned allocation function (pendingCopies allocation successor target)) :
    ∃ steps, (∀ limit, successor.arguments.length < limit →
        emitParallelCopies allocation function limit successor target = .ok steps) ∧
      ∀ m, Copies allocation function (pendingCopies allocation successor target) m
        (run steps m) := by
  have hpend : ∀ copy ∈ pendingCopies allocation successor target, copy.emitted = false := by
    intro copy hcopy
    obtain ⟨pair, -, -, rfl⟩ := mem_pendingCopies.mp hcopy
    rfl
  obtain ⟨final, hfinal, hadvanced, hread⟩ := emitAcyclicParallelCopies_spec
    successor.arguments.length (advanced_start h hpend)
    (countP_le_length.trans length_pendingCopies_le)
  have hlen : final.copies.length ≤ successor.arguments.length := by
    have hsame := congrArg List.length hadvanced.same
    rw [length_map] at hsame
    exact hsame ▸ length_pendingCopies_le
  obtain ⟨hpermutes, horigins⟩ := hadvanced.planned.permutes hread
  obtain ⟨cycles, hcycles, hrotations, hnodup, hleft, hcover⟩ :=
    cyclesFrom_spec hpermutes (fun start hstart => List.mem_range.mp hstart)
      (fun _ _ _ => iff_of_false not_mem_nil not_mem_nil) nodup_nil
      fun _ hmember => absurd hmember not_mem_nil
  rw [append_nil] at hnodup
  obtain ⟨groups, hgroups, hcopies⟩ :=
    hadvanced.planned.cycles_spec horigins hrotations hnodup hleft
  have hunresolved : ∀ limit, final.copies.length < limit →
      unresolvedParallelCopyCycles allocation limit final.copies =
        some (cycles.map (·.map (final.copies.getD · default))) := by
    intro limit hlimit
    unfold unresolvedParallelCopyCycles
    simp only [hcycles limit hlimit, Option.bind_eq_bind, Option.bind_some]
  refine ⟨final.steps ++ groups.flatten, fun limit hlimit => ?_, fun m => ?_⟩
  · have hfits := Nat.lt_of_le_of_lt hlen hlimit
    have hacyclic : emitAcyclicParallelCopies (isLiveSource allocation)
        (fun copy => emitLocationCopy allocation function copy.source copy.destination .eax .xmm0)
        limit { copies := pendingCopies allocation successor target, steps := [] } = some final :=
      hfinal limit hlimit
    unfold emitParallelCopies
    rw [if_neg (not_not_intro hnum)]
    simp only [hacyclic, hunresolved limit hfits, hgroups limit hfits, Option.bind_eq_bind,
      Option.bind_some]
  · have hapart : ∀ earlier ∈ final.copies.filter (·.emitted),
        ∀ later ∈ cycles.flatten.map (final.copies.getD · default),
          earlier.target? allocation ≠ later.target? allocation ∧
            earlier.target? allocation ≠ later.origin? allocation := by
      intro earlier hearlier later hlater
      rw [mem_filter] at hearlier
      obtain ⟨index, hidx, rfl⟩ := mem_map.mp hlater
      have hlast := hleft index hidx
      have hmem := getD_mem hlast.1
      refine ⟨fun heq => ?_, fun heq => ?_⟩
      · have hsame := inj_on_of_nodup_map hadvanced.planned.targets hearlier.1 hmem heq
        rw [hsame] at hearlier
        exact Bool.false_ne_true (hlast.2.symm.trans hearlier.2)
      · exact hadvanced.free earlier hearlier.1 hearlier.2 ⟨_, hmem, hlast.2, heq.symm⟩
    have hmem : ∀ copy, copy ∈ final.copies ↔ copy ∈ final.copies.filter (·.emitted) ++
        cycles.flatten.map (final.copies.getD · default) := by
      intro copy
      rw [mem_append, mem_filter, mem_map]
      refine ⟨fun hcopy => ?_, ?_⟩
      · -- a copy is emitted, or in a rotation
        cases hemitted : copy.emitted with
        | true => exact .inl ⟨hcopy, rfl⟩
        | false =>
          obtain ⟨index, hlt, rfl⟩ := mem_iff_getElem.mp hcopy
          rw [← getD_eq_getElem _ default hlt] at hemitted ⊢
          have hin := hcover index (List.mem_range.mpr hlt) hemitted
          exact .inr ⟨index, by simpa using hin, rfl⟩
      · rintro (hcopy | ⟨index, hidx, rfl⟩)
        · exact hcopy.1
        · exact getD_mem (hleft index hidx).1
    rw [run_append, ← hadvanced.same]
    exact (((hadvanced.done m).append (hcopies (run final.steps m)) hapart).congr hmem).unmark

/-! ## Scalar edges -/

theorem IsEdge.targets (h : IsEdge allocation function successor target) :
    ((successor.arguments.zip target.parameters).map
      fun pair => (allocation.location pair.2).cell?).Nodup := by
  have hmap : (successor.arguments.zip target.parameters).map
      (fun pair => (allocation.location pair.2).cell?) =
      target.parameters.map fun parameter => (allocation.location parameter).cell? := by
    rw [← map_snd_zip (Nat.le_of_eq h.number.symm), map_map]
    simp only [map_snd_zip (Nat.le_of_eq h.number.symm), Function.comp_def]
  exact hmap ▸ h.distinct

theorem IsEdge.cell (h : IsEdge allocation function successor target)
    (hpair : pair ∈ successor.arguments.zip target.parameters) :
    ∃ cell, (allocation.location pair.2).cell? = some cell :=
  h.places pair.2 (of_mem_zip hpair).2

theorem scalarClass_of_ne {v : VirtualRegister} (h : function.registerClass v ≠ .vector) :
    scalarClass (function.isFloating v) = function.registerClass v := by
  unfold Function.isFloating
  cases hclass : function.registerClass v with
  | integer => rfl
  | floating => rfl
  | vector => exact absurd hclass h

section

variable (h : IsEdge allocation function successor target)

include h

/-- **An edge that moves no vector is planned.** -/
theorem IsEdge.planned (hscalar : ∀ pair ∈ successor.arguments.zip target.parameters,
    function.registerClass pair.1 = .vector → sameAllocationLocation (allocation.location pair.1)
    (allocation.location pair.2) = true) :
    Planned allocation function (pendingCopies allocation successor target) := by
  refine ⟨fun copy hcopy => ?_, fun copy hcopy heq => ?_, ?_⟩
  · obtain ⟨pair, hpair, hmoved, rfl⟩ := mem_pendingCopies.mp hcopy
    have hclass : function.registerClass pair.1 ≠ .vector := fun hvector =>
      Bool.false_ne_true (hmoved.symm.trans (hscalar pair hpair hvector))
    have htyped := h.typed pair hpair
    rw [← scalarClass_of_ne hclass] at htyped
    refine ⟨htyped.1, htyped.2, ?_, ?_, h.cell hpair⟩
    · rw [Function.isFloating, h.classes pair hpair, Function.isFloating]
    · rw [Function.isWide, h.widths pair hpair, Function.isWide]
  · obtain ⟨pair, hpair, hmoved, rfl⟩ := mem_pendingCopies.mp hcopy
    obtain ⟨cell, hcell⟩ := h.cell hpair
    rw [sameAllocationLocation_comm] at hmoved
    have hsame := (sameAllocationLocation_iff hcell).mpr (heq.symm.trans hcell)
    exact Bool.false_ne_true (hmoved.symm.trans hsame)
  · unfold pendingCopies
    rw [map_map]
    exact h.targets.sublist (filter_sublist.map _)

theorem IsEdge.width_le (hpair : pair ∈ successor.arguments.zip target.parameters)
    (hclass : function.registerClass pair.1 ≠ .vector) :
    function.registerWidth pair.2 ≤ moveSize (function.isWide pair.1) := by
  rw [h.widths pair hpair, Function.isWide]
  rcases h.scalars pair hpair hclass with hle | heq
  · refine Nat.le_trans hle ?_
    cases (function.registerWidth pair.1 == 8) <;> decide
  · rw [heq]
    rfl

/-- Copies of the pairs that are not in place give the arguments. -/
theorem IsEdge.gives (hscalar : ∀ pair ∈ successor.arguments.zip target.parameters,
    function.registerClass pair.1 = .vector → sameAllocationLocation (allocation.location pair.1)
    (allocation.location pair.2) = true)
    (hcopies : Copies allocation function (pendingCopies allocation successor target) m m') :
    GivesArguments allocation function successor target m m' := by
  refine ⟨fun pair hpair i hi => ?_, fun cell hcell hnot => ?_, hcopies.stackPointer⟩
  · obtain ⟨cell, hcell⟩ := h.cell hpair
    rw [value_of_cell hcell]
    cases hsame : sameAllocationLocation (allocation.location pair.1)
        (allocation.location pair.2) with
    | true =>
      -- the value is in place, and no copy writes there
      rw [sameAllocationLocation_comm] at hsame
      rw [value_of_cell ((sameAllocationLocation_iff hcell).mp hsame)]
      refine congrFun (hcopies.others cell (not_isScratch hcell) fun copy hcopy heq => ?_) i
      obtain ⟨other, hother, hmoved, rfl⟩ := mem_pendingCopies.mp hcopy
      have hpairs := inj_on_of_nodup_map h.targets hother hpair (heq.trans hcell.symm)
      rw [hpairs, sameAllocationLocation_comm, hsame] at hmoved
      nomatch hmoved
    | false =>
      have hclass : function.registerClass pair.1 ≠ .vector := fun hvector =>
        Bool.false_ne_true (hsame.symm.trans (hscalar pair hpair hvector))
      exact hcopies.values { source := pair.1, destination := pair.2 }
        (mem_pendingCopies.mpr ⟨pair, hpair, hsame, rfl⟩) cell hcell i
        (Nat.lt_of_lt_of_le hi (h.width_le hpair hclass))
  · refine hcopies.others cell hcell fun copy hcopy => ?_
    obtain ⟨pair, hpair, -, rfl⟩ := mem_pendingCopies.mp hcopy
    exact hnot pair.2 (of_mem_zip hpair).2

theorem IsEdge.gives_of_noop (hnoop : edgeCopiesAreNoop allocation successor target = true)
    (m : Machine) :
    GivesArguments allocation function successor target m m := by
  unfold edgeCopiesAreNoop at hnoop
  rw [Bool.and_eq_true, all_eq_true] at hnoop
  have hnone : pendingCopies allocation successor target = [] := by
    refine eq_nil_iff_forall_not_mem.mpr fun copy hcopy => ?_
    obtain ⟨pair, hpair, hmoved, -⟩ := mem_pendingCopies.mp hcopy
    exact Bool.false_ne_true (hmoved.symm.trans (hnoop.2 pair hpair))
  refine h.gives (fun pair hpair _ => hnoop.2 pair hpair) ?_
  rw [hnone]
  exact Copies.nil m

end

/-! ## Vectors -/

theorem IsTyped.cell_of_vector {location : AllocationLocation} (h : IsTyped .vector location) :
    location.cell? = some (.xmm (floatingRegister location.floating)) ∨
      location.cell? = some (.frame location.stackOffset) := by
  rcases h with hkind | hkind
  · exact .inl (by rw [cell?, hkind])
  · exact .inr (by rw [cell?, hkind])

section

variable (h : IsEdge allocation function successor target)
  (hpair : pair ∈ successor.arguments.zip target.parameters)
  (hclass : function.registerClass pair.1 = .vector)

include h hpair hclass

/-- The ninth byte of the place of a vector that is moved stays as it was. -/
theorem IsEdge.vector_kept {cell : Cell} (hcell : (allocation.location pair.2).cell? = some cell)
    {limit : Nat} {steps : List Step}
    (hsteps : emitParallelCopies allocation function limit successor target = .ok steps)
    (m : Machine) : (run steps m).cells cell 8 = m.cells cell 8 := by
  have htyped := (h.typed pair hpair).2
  rw [hclass] at htyped
  rcases htyped.cell_of_vector with hxmm | hframe
  · obtain rfl := Option.some.inj (hxmm.symm.trans hcell)
    refine congrFun (run_spares (emitParallelCopies_spares (not_isScratch hcell)
      (fun copy hcopy htarget => ?_) hsteps) m) 8
    -- the only copy to the register is that of the vector
    obtain ⟨other, hother, -, rfl⟩ := mem_pendingCopies.mp hcopy
    obtain rfl := inj_on_of_nodup_map h.targets hother hpair (htarget.trans hxmm.symm)
    have hclass' := (h.classes other hpair).trans hclass
    exact ⟨by rw [Function.isFloating, hclass]; rfl, by rw [Function.isFloating, hclass']; rfl⟩
  · obtain rfl := Option.some.inj (hframe.symm.trans hcell)
    exact run_frame _ le_rfl steps m

/-- **An edge that has to move a vector** does not give it. -/
theorem IsEdge.not_copiesEdge (hmoved : sameAllocationLocation (allocation.location pair.1)
    (allocation.location pair.2) = false) :
    ¬ CopiesEdge allocation function successor target := by
  rintro ⟨steps, hsteps, hgives, -⟩
  obtain ⟨cell, hcell⟩ := h.cell hpair
  have htyped := (h.typed pair hpair).1
  rw [hclass] at htyped
  obtain ⟨source, hsrc⟩ : ∃ source, (allocation.location pair.1).cell? = some source :=
    htyped.cell_of_vector.elim (fun heq => ⟨_, heq⟩) fun heq => ⟨_, heq⟩
  have hne : cell ≠ source := by
    rintro rfl
    exact Bool.false_ne_true (hmoved.symm.trans ((sameAllocationLocation_iff hsrc).mpr hcell))
  -- a machine in which the argument differs from what the parameter has
  let m : Machine := { cells := fun other _ => if other = source then 1 else 0, stackPointer := 0 }
  have hwidth : 8 < function.registerWidth pair.2 := by
    rw [h.widths pair hpair]
    exact h.vectors pair hpair hclass
  have hval := (hgives m).values pair hpair 8 hwidth
  rw [value_of_cell hcell, value_of_cell hsrc,
    h.vector_kept hpair hclass hcell (hsteps _ (Nat.lt_succ_self _)) m] at hval
  have hzero : m.cells cell 8 = 0 := if_neg hne
  have hone : m.cells source 8 = 1 := if_pos rfl
  rw [hzero, hone] at hval
  exact absurd hval (by decide)

end

/-- **The copies of an edge are right exactly when no vector is moved.** -/
theorem copiesEdge_iff (h : IsEdge allocation function successor target) :
    CopiesEdge allocation function successor target ↔
      ∀ pair ∈ successor.arguments.zip target.parameters,
        function.registerClass pair.1 = .vector →
          sameAllocationLocation (allocation.location pair.1) (allocation.location pair.2) =
            true := by
  constructor
  · intro hcopies pair hpair hclass
    cases hsame : sameAllocationLocation (allocation.location pair.1)
        (allocation.location pair.2) with
    | true => rfl
    | false => exact absurd hcopies (h.not_copiesEdge hpair hclass hsame)
  · intro hscalar
    obtain ⟨steps, hsteps, hcopies⟩ := emitParallelCopies_spec h.number (h.planned hscalar)
    exact ⟨steps, hsteps, fun m => h.gives hscalar (hcopies m), h.gives_of_noop⟩

end

/-! ## Two edges -/

/-- Integers in two registers, a constant and a floating-point value, and where they go. -/
def scalarAllocation : RegisterAllocation where
  locations := [{ kind := .physicalRegister, physical := .ebx },
    { kind := .physicalRegister, physical := .r12d },
    { kind := .rematerializedInteger, rematerializedImmediate := 7 },
    { kind := .floatingRegister, floating := .xmm2 },
    { kind := .physicalRegister, physical := .r12d },
    { kind := .physicalRegister, physical := .ebx }, { kind := .stackSlot, stackOffset := -8 },
    { kind := .floatingRegister, floating := .xmm3 }]

def scalarFunction : Function where
  registerWidths := [4, 4, 8, 8, 4, 4, 8, 8]
  registerClasses := [.integer, .integer, .integer, .floating, .integer, .integer, .integer,
    .floating]

def scalarSuccessor : Successor := { block := "loop", arguments := [0, 1, 2, 3] }

def scalarTarget : Block := { name := "loop", parameters := [4, 5, 6, 7] }

theorem isEdge_scalar : IsEdge scalarAllocation scalarFunction scalarSuccessor scalarTarget := by
  refine ⟨rfl, by decide, by decide, by decide, by decide, by decide,
    fun parameter hparam => ?_, by decide⟩
  have hplaces : ∀ parameter ∈ scalarTarget.parameters,
      (scalarAllocation.location parameter).cell?.isSome = true := by decide
  exact Option.isSome_iff_exists.mp (hplaces parameter hparam)

/-- A swap, a constant that goes to the frame and a floating-point move. -/
theorem copiesEdge_iff_scalar :
    CopiesEdge scalarAllocation scalarFunction scalarSuccessor scalarTarget :=
  (copiesEdge_iff isEdge_scalar).mpr (by decide)

/-- A vector of 16 bytes in a register, and another register that it goes to. -/
def vectorAllocation : RegisterAllocation where
  locations := [{ kind := .floatingRegister, floating := .xmm2 },
    { kind := .floatingRegister, floating := .xmm3 }]

def vectorFunction : Function where
  registerWidths := [16, 16]
  registerClasses := [.vector, .vector]

def vectorSuccessor : Successor := { block := "loop", arguments := [0] }

def vectorTarget : Block := { name := "loop", parameters := [1] }

/-- The vector goes through the slot at the frame pointer, and never gets to its register. -/
theorem not_copiesEdge_vector :
    IsEdge vectorAllocation vectorFunction vectorSuccessor vectorTarget ∧
      ¬ CopiesEdge vectorAllocation vectorFunction vectorSuccessor vectorTarget := by
  have hedge : IsEdge vectorAllocation vectorFunction vectorSuccessor vectorTarget := by
    refine ⟨rfl, by decide, by decide, by decide, by decide, by decide,
      fun parameter hparam => ?_, by decide⟩
    obtain rfl := mem_singleton.mp hparam
    exact ⟨.xmm .xmm3, rfl⟩
  have hpair : (0, 1) ∈ vectorSuccessor.arguments.zip vectorTarget.parameters := mem_cons_self
  exact ⟨hedge, hedge.not_copiesEdge hpair rfl rfl⟩

end Raz.Forge.EdgeCopies
