import Raz.Forge.EdgeMoves
import Mathlib.Data.List.GetD

/-!
# What the copies of an edge leave of a vector

A copy of a vector is emitted as one of an integer. What it writes to the frame ends before the
ninth byte, and a vector register is written by none but the copies of floating-point values.

Result: `emitParallelCopies_spares`: the registers that no emitted instruction writes.
-/

namespace Raz.Forge.EdgeCopies

open List Option

/-! ## Instructions -/

/-- The instruction does not write the vector register. -/
def Spares (x : XmmRegister) : Step → Prop
  | .move (.xmm r) _ _ => r ≠ x
  | _ => True

theorem moveSize_le (wide : Bool) : moveSize wide ≤ 8 := by cases wide <;> decide

theorem Step.run_move_of_ne {m : Machine} {destination source : Place} {wide : Bool} {cell : Cell}
    (h : m.cell destination ≠ some cell) :
    (Step.run m (.move destination source wide)).cells cell = m.cells cell := by
  unfold Step.run
  cases hcell : m.cell destination with
  | none => simp only [hcell]
  | some other =>
    simp only [hcell]
    refine Function.update_of_ne (fun heq => h ?_) _ _
    rw [hcell, heq]

theorem Step.run_exchange_of_ne {m : Machine} {left right : Register} {wide : Bool} {cell : Cell}
    (h : ∀ r, cell ≠ .register r) :
    (Step.run m (.exchange left right wide)).cells cell = m.cells cell := by
  change Function.update (Function.update m.cells (.register left) _) (.register right) _ cell = _
  rw [Function.update_of_ne (h right), Function.update_of_ne (h left)]

/-- **No instruction writes a slot behind its eighth byte.** -/
theorem run_frame (offset : Int) {i : Nat} (hi : 8 ≤ i) (steps : List Step) (m : Machine) :
    (run steps m).cells (.frame offset) i = m.cells (.frame offset) i := by
  induction steps generalizing m with
  | nil => rfl
  | cons step steps ih =>
    refine (ih (step.run m)).trans ?_
    cases step with
    | adjust subtract amount => rfl
    | exchange left right wide =>
      have hne : ∀ r, Cell.frame offset ≠ .register r := fun r heq => nomatch heq
      rw [Step.run_exchange_of_ne hne]
    | move destination source wide =>
      by_cases hcell : m.cell destination = some (.frame offset)
      · unfold Step.run
        simp only [hcell]
        change Function.update m.cells (.frame offset) _ (.frame offset) i = _
        rw [Function.update_self]
        exact if_neg (Nat.not_lt.mpr (Nat.le_trans (moveSize_le wide) hi))
      · rw [Step.run_move_of_ne hcell]

theorem run_spares {x : XmmRegister} {steps : List Step} (h : ∀ step ∈ steps, Spares x step)
    (m : Machine) : (run steps m).cells (.xmm x) = m.cells (.xmm x) := by
  induction steps generalizing m with
  | nil => rfl
  | cons step steps ih =>
    obtain ⟨hstep, hrest⟩ := forall_mem_cons.mp h
    refine (ih hrest (step.run m)).trans ?_
    cases step with
    | adjust subtract amount => rfl
    | exchange left right wide => exact Step.run_exchange_of_ne fun r heq => nomatch heq
    | move destination source wide =>
      refine Step.run_move_of_ne fun hcell => ?_
      cases destination with
      | xmm r => exact hstep (Cell.xmm.inj (some.inj hcell))
      | register r => nomatch hcell
      | frame offset => nomatch hcell
      | top displacement => nomatch hcell
      | immediate value => nomatch hcell

/-! ## Single copies -/

section
variable {x : XmmRegister}

theorem emitMoveRegister_spares (destination source : Register) (wide : Bool) :
    ∀ step ∈ emitMoveRegister destination source wide, Spares x step := by
  unfold emitMoveRegister
  split
  · exact fun _ hstep => absurd hstep not_mem_nil
  · exact forall_mem_singleton.mpr trivial

theorem emitSseMove_spares {destination : XmmRegister} (h : destination ≠ x)
    (source : XmmRegister) (wide : Bool) :
    ∀ step ∈ emitSseMove destination source wide, Spares x step := by
  unfold emitSseMove
  split
  · exact fun _ hstep => absurd hstep not_mem_nil
  · exact forall_mem_singleton.mpr h

theorem emitReadLocation_spares (destination : Register) (location : AllocationLocation)
    (wide : Bool) : ∀ step ∈ emitReadLocation destination location wide, Spares x step := by
  unfold emitReadLocation
  split
  · exact emitMoveRegister_spares _ _ wide
  all_goals exact forall_mem_singleton.mpr trivial

theorem emitWriteLocation_spares (location : AllocationLocation) (source : Register)
    (wide : Bool) : ∀ step ∈ emitWriteLocation location source wide, Spares x step := by
  unfold emitWriteLocation
  split
  · exact emitMoveRegister_spares _ _ wide
  · exact fun _ hstep => absurd hstep not_mem_nil
  · exact forall_mem_singleton.mpr trivial

theorem emitReadFloatLocation_spares {destination : XmmRegister} (h : destination ≠ x)
    (location : AllocationLocation) (wide : Bool) :
    ∀ step ∈ emitReadFloatLocation destination location wide, Spares x step := by
  unfold emitReadFloatLocation
  split
  · exact emitSseMove_spares h _ wide
  · exact forall_mem_cons.mpr ⟨trivial, forall_mem_singleton.mpr h⟩
  · exact forall_mem_singleton.mpr h

theorem emitWriteFloatLocation_spares {location : AllocationLocation}
    (h : location.cell? ≠ some (.xmm x)) (source : XmmRegister) (wide : Bool) :
    ∀ step ∈ emitWriteFloatLocation location source wide, Spares x step := by
  unfold emitWriteFloatLocation
  unfold AllocationLocation.cell? at h
  split
  · rename_i hkind
    simp only [hkind, ne_eq, some.injEq, Cell.xmm.injEq] at h
    exact emitSseMove_spares h source wide
  · exact fun _ hstep => absurd hstep not_mem_nil
  · exact forall_mem_singleton.mpr trivial

end

section
variable (allocation : RegisterAllocation) (function : Function) (x : XmmRegister)

/-- A copy to the register is not one of a floating-point value. -/
def PendingCopy.Spares (copy : PendingCopy) : Prop :=
  copy.target? allocation = some (.xmm x) →
    function.isFloating copy.source = false ∧ function.isFloating copy.destination = false

end

section
variable {allocation : RegisterAllocation} {function : Function} {x : XmmRegister}
  {copy : PendingCopy} {cycle : List PendingCopy}

theorem PendingCopy.Spares.target_ne (h : copy.Spares allocation function x)
    (hfloating : function.isFloating copy.source = true ∨
      function.isFloating copy.destination = true) : copy.target? allocation ≠ some (.xmm x) := by
  intro htarget
  obtain ⟨hsrc, hdst⟩ := h htarget
  rcases hfloating with htrue | htrue
  · exact Bool.false_ne_true (hsrc.symm.trans htrue)
  · exact Bool.false_ne_true (hdst.symm.trans htrue)

theorem emitLocationCopy_spares (h : copy.Spares allocation function x)
    (integerScratch : Register) {floatingScratch : XmmRegister} (hscratch : floatingScratch ≠ x) :
    ∀ step ∈ emitLocationCopy allocation function copy.source copy.destination integerScratch
      floatingScratch, Spares x step := by
  unfold emitLocationCopy
  cases hfloating : function.isFloating copy.source with
  | true =>
    have htarget := h.target_ne (.inl hfloating)
    simp only [Bool.true_and, Bool.not_true, Bool.false_and, Bool.false_eq_true, if_false, if_true,
      Bool.and_eq_true, beq_iff_eq]
    split
    · rename_i hkinds
      rw [PendingCopy.target?, AllocationLocation.cell?, hkinds.2] at htarget
      exact emitSseMove_spares (fun heq => htarget (congrArg (some <| Cell.xmm ·) heq)) _ _
    · exact forall_mem_append.mpr ⟨emitReadFloatLocation_spares hscratch _ _,
        emitWriteFloatLocation_spares htarget _ _⟩
  | false =>
    simp only [Bool.false_and, Bool.false_eq_true, if_false, Bool.not_false, Bool.true_and]
    split
    · exact emitMoveRegister_spares _ _ _
    · exact forall_mem_append.mpr ⟨emitReadLocation_spares _ _ _, emitWriteLocation_spares _ _ _⟩

theorem emitReadScratch_spares (hx : ¬ IsScratch (.xmm x)) (location : AllocationLocation)
    (floating wide : Bool) : ∀ step ∈ emitReadScratch location floating wide, Spares x step := by
  cases floating with
  | false => exact emitReadLocation_spares _ _ _
  | true => exact emitReadFloatLocation_spares (fun heq => hx (.inl heq.symm)) _ _

theorem emitWriteScratch_spares {location : AllocationLocation} {floating : Bool}
    (h : floating = true → location.cell? ≠ some (.xmm x)) (wide : Bool) :
    ∀ step ∈ emitWriteScratch location floating wide, Spares x step := by
  cases floating with
  | false => exact emitWriteLocation_spares _ _ _
  | true => exact emitWriteFloatLocation_spares (h rfl) _ _

/-! ## Cycles -/

theorem emitSnapshot_spares (hx : ¬ IsScratch (.xmm x))
    (h : ∀ copy ∈ cycle, copy.Spares allocation function x) :
    ∀ step ∈ emitSnapshot allocation function cycle, Spares x step := by
  have hsteps : emitSnapshot allocation function cycle = emitAdjustRsp true (cycle.length * 8) ++
        cycle.zipIdx.flatMap (saveSteps allocation function) ++
        cycle.zipIdx.flatMap (restoreSteps allocation function) ++
        emitAdjustRsp false (cycle.length * 8) := rfl
  have hadjust : ∀ subtract amount, ∀ step ∈ emitAdjustRsp subtract amount, Spares x step := by
    intro subtract amount
    unfold emitAdjustRsp
    split
    · exact fun _ hstep => absurd hstep not_mem_nil
    · exact forall_mem_singleton.mpr trivial
  have hitem : ∀ item ∈ cycle.zipIdx, item.1.Spares allocation function x := fun item hmem =>
    h item.1 (fst_mem_of_mem_zipIdx hmem)
  rw [hsteps, forall_mem_append, forall_mem_append, forall_mem_append]
  refine ⟨⟨⟨hadjust _ _, fun step hstep => ?_⟩, fun step hstep => ?_⟩, hadjust _ _⟩
  · obtain ⟨item, -, hmem⟩ := mem_flatMap.mp hstep
    rcases mem_append.mp hmem with hmem | hmem
    · exact emitReadScratch_spares hx _ _ _ step hmem
    unfold emitScratchStore at hmem
    split at hmem
    · exact mem_singleton.mp hmem ▸ trivial
    · exact mem_singleton.mp hmem ▸ trivial
  · obtain ⟨item, hin, hmem⟩ := mem_flatMap.mp hstep
    rcases mem_append.mp hmem with hmem | hmem
    · unfold emitScratchLoad at hmem
      split at hmem
      · exact mem_singleton.mp hmem ▸ fun heq => hx (.inl heq.symm)
      · exact mem_singleton.mp hmem ▸ trivial
    · exact emitWriteScratch_spares (fun hfloating => (hitem item hin).target_ne (.inr hfloating)) _
        step hmem

theorem rotate_spares (hx : ¬ IsScratch (.xmm x))
    (h : ∀ copy ∈ cycle, copy.Spares allocation function x) :
    ∀ {limit : Nat} {rotated rotated' : List Nat} {hole hole' : AllocationLocation}
      {steps : List Step},
      rotate allocation function cycle limit rotated hole = some (steps, rotated', hole') →
      ∀ step ∈ steps, Spares x step
  | 0, _, _, _, _, _, hrotate => nomatch hrotate
  | limit + 1, rotated, rotated', hole, hole', steps, hrotate => by
    rw [rotate] at hrotate
    split at hrotate
    · cases hrotate
      exact fun _ hstep => absurd hstep not_mem_nil
    simp only at hrotate
    split at hrotate
    · cases hrotate
      exact fun _ hstep => absurd hstep not_mem_nil
    rename_i index hfind
    obtain ⟨⟨rest, rest'⟩, hrest, hsteps⟩ := Option.bind_eq_some_iff.mp hrotate
    cases hsteps
    have hlt := List.mem_range.mp (List.mem_of_find?_eq_some hfind)
    have hcopy := h (cycle.getD index default) (by
      rw [getD_eq_getElem _ _ hlt]
      exact getElem_mem hlt)
    exact forall_mem_append.mpr
      ⟨emitLocationCopy_spares hcopy .ecx fun heq => hx (.inr heq.symm),
        rotate_spares hx h hrest⟩

theorem emitCycle_spares (hx : ¬ IsScratch (.xmm x))
    (h : ∀ copy ∈ cycle, copy.Spares allocation function x) {limit : Nat} {steps : List Step}
    (hsteps : emitCycle allocation function limit cycle = some steps) :
    ∀ step ∈ steps, Spares x step := by
  cases cycle with
  | nil =>
    cases hsteps
    exact fun _ hstep => absurd hstep not_mem_nil
  | cons first rest =>
    rw [emitCycle] at hsteps
    split at hsteps
    · -- an exchange
      cases hsteps
      unfold emitXchgRegisters
      split
      · exact fun _ hstep => absurd hstep not_mem_nil
      · exact forall_mem_singleton.mpr trivial
    · split at hsteps
      · obtain ⟨⟨rotation, rotated, hole⟩, hrotate, hsteps⟩ := bind_eq_some_iff.mp hsteps
        have hfront := forall_mem_append.mpr
          ⟨emitReadScratch_spares hx (allocation.location first.source)
            (function.isFloating first.source) (function.isWide first.source),
            rotate_spares hx h hrotate⟩
        simp only at hsteps
        split at hsteps
        · cases hsteps
          refine forall_mem_append.mpr ⟨hfront, emitWriteScratch_spares (fun hfloating => ?_) _⟩
          exact (h first mem_cons_self).target_ne (.inl hfloating)
        · cases hsteps
          exact forall_mem_append.mpr ⟨hfront, emitSnapshot_spares hx h⟩
      · cases hsteps
        exact emitSnapshot_spares hx h

/-! ## Edges -/

/-- No instruction emitted so far writes the register, and no copy will. -/
def Emission.Spares (allocation : RegisterAllocation) (function : Function) (x : XmmRegister)
    (emission : Emission) : Prop :=
  (∀ copy ∈ emission.copies, copy.Spares allocation function x) ∧
    ∀ step ∈ emission.steps, EdgeCopies.Spares x step

section
variable {destinationIsLiveSource : List PendingCopy → Nat → Bool}
  {emitCopy : PendingCopy → List Step} {emission final : Emission}
  (hemit : ∀ copy : PendingCopy, copy.Spares allocation function x →
    ∀ step ∈ emitCopy copy, EdgeCopies.Spares x step)
include hemit

section

variable (h : emission.Spares allocation function x)

include h

theorem acyclicStep_spares (index : Nat) :
    (acyclicStep destinationIsLiveSource emitCopy emission index).Spares allocation function x := by
  unfold acyclicStep
  split
  · exact h
  rename_i copy hidx
  split
  · exact h
  have hcopy := h.1 copy (mem_of_getElem? hidx)
  refine ⟨fun other hother => ?_, forall_mem_append.mpr ⟨h.2, hemit copy hcopy⟩⟩
  rcases mem_or_eq_of_mem_set hother with hmem | rfl
  · exact h.1 other hmem
  · exact hcopy

theorem round_spares (indices : List Nat) :
    (indices.foldl (acyclicStep destinationIsLiveSource emitCopy) emission).Spares allocation
      function x := by
  induction indices generalizing emission with
  | nil => exact h
  | cons index indices ih => exact ih (acyclicStep_spares hemit h index)

theorem emitAcyclicParallelCopies_spares {rounds : Nat}
    (hfinal : emitAcyclicParallelCopies destinationIsLiveSource emitCopy rounds emission =
      some final) : final.Spares allocation function x := by
  induction rounds generalizing emission with
  | zero => nomatch hfinal
  | succ rounds ih =>
    have hround : ((List.range emission.copies.length).foldl
        (acyclicStep destinationIsLiveSource emitCopy) emission).Spares allocation function x :=
      round_spares hemit h _
    rw [emitAcyclicParallelCopies] at hfinal
    split at hfinal
    · exact some.inj hfinal ▸ hround
    · exact ih hround hfinal

end

end

section
variable {emitted : Nat → Bool} {destinationMatchesSource : Nat → Nat → Bool} {count limit : Nat}

theorem followCycle_lt {visited visited' cycle : List Nat} {current : Nat}
    (h : followCycle emitted destinationMatchesSource count limit visited current =
      some (cycle, visited')) (hcur : current < count) : ∀ index ∈ cycle, index < count := by
  induction limit generalizing visited visited' cycle current with
  | zero => nomatch h
  | succ limit ih =>
    rw [followCycle] at h
    split at h
    · cases h
      exact fun _ hidx => absurd hidx not_mem_nil
    split at h
    · cases h
      exact forall_mem_singleton.mpr hcur
    rename_i next hnext
    obtain ⟨⟨rest, rest'⟩, hrest, hcycle⟩ := bind_eq_some_iff.mp h
    cases hcycle
    exact forall_mem_cons.mpr
      ⟨hcur, ih hrest (List.mem_range.mp (List.mem_of_find?_eq_some hnext))⟩

theorem cyclesFrom_lt {starts visited : List Nat} {cycles : List (List Nat)}
    (h : cyclesFrom emitted destinationMatchesSource count limit starts visited = some cycles)
    (hstarts : ∀ start ∈ starts, start < count) :
    ∀ cycle ∈ cycles, ∀ index ∈ cycle, index < count := by
  induction starts generalizing visited cycles with
  | nil =>
    cases h
    exact fun _ hcycle => absurd hcycle not_mem_nil
  | cons start starts ih =>
    obtain ⟨hstart, hrest⟩ := forall_mem_cons.mp hstarts
    rw [cyclesFrom] at h
    split at h
    · exact ih h hrest
    obtain ⟨⟨cycle, visited'⟩, hcycle, h⟩ := bind_eq_some_iff.mp h
    obtain ⟨others, hothers, h⟩ := bind_eq_some_iff.mp h
    have hlt := followCycle_lt hcycle hstart
    cases h
    split
    · exact ih hothers hrest
    · exact forall_mem_cons.mpr ⟨hlt, ih hothers hrest⟩

end

theorem mapM_some_mem {α β : Type} {f : α → Option β} {items : List α} {results : List β}
    (h : items.mapM f = some results) :
    ∀ result ∈ results, ∃ item ∈ items, f item = some result := by
  induction items generalizing results with
  | nil =>
    cases h
    exact fun _ hres => absurd hres not_mem_nil
  | cons item items ih =>
    rw [mapM_cons] at h
    obtain ⟨first, hfirst, h⟩ := bind_eq_some_iff.mp h
    obtain ⟨rest, hrest, h⟩ := bind_eq_some_iff.mp h
    cases h
    refine forall_mem_cons.mpr ⟨⟨item, mem_cons_self, hfirst⟩, fun result hres => ?_⟩
    obtain ⟨other, hother, heq⟩ := ih hrest result hres
    exact ⟨other, mem_cons_of_mem _ hother, heq⟩

/-- **What no copy writes no emitted instruction writes.** -/
theorem emitParallelCopies_spares (hx : ¬ IsScratch (.xmm x)) {limit : Nat} {successor : Successor}
    {target : Block} {steps : List Step}
    (hpend : ∀ copy ∈ pendingCopies allocation successor target,
      copy.Spares allocation function x)
    (h : emitParallelCopies allocation function limit successor target = .ok steps) :
    ∀ step ∈ steps, EdgeCopies.Spares x step := by
  unfold emitParallelCopies at h
  split at h
  · nomatch h
  simp only at h
  split at h
  · nomatch h
  rename_i emitted hemission
  cases h
  obtain ⟨acyclic, hacyclic, hemission⟩ := bind_eq_some_iff.mp hemission
  obtain ⟨cycles, hcycles, hemission⟩ := bind_eq_some_iff.mp hemission
  obtain ⟨groups, hgroups, hemission⟩ := bind_eq_some_iff.mp hemission
  cases hemission
  have hspares : acyclic.Spares allocation function x := emitAcyclicParallelCopies_spares
      (fun copy hcopy => emitLocationCopy_spares hcopy .eax fun heq => hx (.inl heq.symm))
      ⟨hpend, fun _ hstep => absurd hstep not_mem_nil⟩ hacyclic
  refine forall_mem_append.mpr ⟨hspares.2, fun step hstep => ?_⟩
  obtain ⟨group, hgroup, hmem⟩ := mem_flatten.mp hstep
  obtain ⟨cycle, hcycle, hgroupSteps⟩ := mapM_some_mem hgroups group hgroup
  obtain ⟨indices, hindices, hmap⟩ := bind_eq_some_iff.mp hcycles
  cases hmap
  obtain ⟨members, hmembers, rfl⟩ := mem_map.mp hcycle
  refine emitCycle_spares hx (fun copy hcopy => ?_) hgroupSteps step hmem
  obtain ⟨index, hidx, rfl⟩ := mem_map.mp hcopy
  have hlt := cyclesFrom_lt hindices (fun start hstart => List.mem_range.mp hstart) members hmembers
    index hidx
  refine hspares.1 _ ?_
  rw [getD_eq_getElem _ _ hlt]
  exact getElem_mem hlt

end

end Raz.Forge.EdgeCopies
