import Mathlib.Algebra.Order.Ring.Int
import Raz.Lib.Frontier

/-!
# The liveness of machine registers

The analysis goes over the blocks backwards, from round to round only over those that were marked
when the registers of a successor changed. A block that is not marked agrees with its successors,
and the sets only grow, so that there is a last round.

Result: `liveness_exact`: the sets are those of the paths.
-/

namespace Raz.Forge.Liveness

open List

abbrev VirtualRegister := Nat

/-- The opcodes that `has_result` names; every other one has a result. -/
inductive Opcode
  | storeStackI8 | storeStackI16 | storeStackI32 | storeStackI64 | storeStackF32 | storeStackF64
  | storeStackV128 | storeStackV256 | storeStackV512
  | storePtrI8 | storePtrI16 | storePtrI32 | storePtrI64 | storePtrF32 | storePtrF64
  | addI64ContiguousInplace | binaryI32ContiguousInplace | binaryI64ContiguousInplace
  | binaryI32ContiguousMap | binaryI64ContiguousMap
  | binaryI32ContiguousMap2 | binaryI64ContiguousMap2
  | binaryI32ContiguousMap3 | binaryI64ContiguousMap3
  | binaryI32ContiguousChain | binaryI64ContiguousChain
  | binaryI32ContiguousDag | binaryI64ContiguousDag
  | binaryI32ContiguousDagReuse | binaryI64ContiguousDagReuse
  | callVoid | callAggregate | callIndirectVoid | jump | branchI1
  | returnI32 | returnI64 | returnF32 | returnF64 | returnVoid | returnAggregate
  | other (code : Nat)
deriving DecidableEq, Repr

structure Successor where
  block : String
  arguments : List VirtualRegister
deriving DecidableEq, Repr

structure Instruction where
  opcode : Opcode
  result : VirtualRegister
  inputs : List VirtualRegister
  successors : List Successor
deriving DecidableEq, Repr

structure Block where
  name : String
  parameters : List VirtualRegister
  instructions : List Instruction
deriving DecidableEq, Repr

structure Function where
  registerCount : Nat
  blocks : List Block
deriving DecidableEq, Repr

def hasResult : Opcode → Bool
  | .other _ => true
  | _ => false

/-- The inputs, and the arguments for the parameters of the successors. -/
def Instruction.reads (instruction : Instruction) : List VirtualRegister :=
  instruction.inputs ++ instruction.successors.flatMap Successor.arguments

/-! ## The analysis -/

abbrev RegisterBitSet (count : Nat) := Finset (Fin count)

section

variable {count : Nat}

/-- A register that the set has no room for is left out. -/
def set (registers : RegisterBitSet count) (r : VirtualRegister) : RegisterBitSet count :=
  if h : r < count then insert ⟨r, h⟩ registers else registers

def recordUse (defs uses : RegisterBitSet count) (r : VirtualRegister) : RegisterBitSet count :=
  if r ∈ defs.image Fin.val then uses else set uses r

/-- The loop over the instructions of a block: `(uses, defs)`. -/
def scanInstruction (sets : RegisterBitSet count × RegisterBitSet count)
    (instruction : Instruction) : RegisterBitSet count × RegisterBitSet count :=
  (instruction.reads.foldl (recordUse sets.2) sets.1,
    if hasResult instruction.opcode then set sets.2 instruction.result else sets.2)

def before (live : RegisterBitSet count) (instruction : Instruction) : RegisterBitSet count :=
  instruction.reads.foldl set
    (if hasResult instruction.opcode then live.filter (·.val ≠ instruction.result) else live)

/-- The loop over the instructions from the last one: what is live after each, and at the start. -/
def backward (out : RegisterBitSet count) :
    List Instruction → List (RegisterBitSet count) × RegisterBitSet count
  | [] => ([], out)
  | instruction :: rest =>
    let (after, live) := backward out rest
    (live :: after, before live instruction)

end

namespace Function

variable (function : Function)

def usesDefs (block : Block) :
    RegisterBitSet function.registerCount × RegisterBitSet function.registerCount :=
  block.instructions.foldl scanInstruction (∅, block.parameters.foldl set ∅)

/-- The first block of a name. -/
def blockIndex (name : String) : Option Nat := function.blocks.findIdx? (·.name == name)

def block (index : Nat) : Block := function.blocks.getD index ⟨"", [], []⟩

def successors (index : Nat) : List Nat :=
  (function.block index).instructions.flatMap fun instruction =>
    instruction.successors.filterMap (function.blockIndex ·.block)

/-- `(live_out, live_in)` of each block, from those of its successors. -/
def equations :
    Frontier.System (RegisterBitSet function.registerCount × RegisterBitSet function.registerCount)
    where
  nodes := function.blocks.length
  transfer live index :=
    let sets := function.usesDefs (function.block index)
    let out := (function.successors index).toFinset.biUnion fun successor => (live successor).2
    (out, sets.1 ∪ (out \ sets.2))
  dependents index := (range function.blocks.length).filter (index ∈ function.successors ·)

end Function

structure LivenessAnalysis (count : Nat) where
  uses : List (RegisterBitSet count)
  defs : List (RegisterBitSet count)
  liveIn : List (RegisterBitSet count)
  liveOut : List (RegisterBitSet count)
  liveAfter : List (List (RegisterBitSet count))
  successors : List (List Nat)
  fixedPointIterations : Nat
  crossBlockLiveValues : Nat
deriving DecidableEq

def argumentCount (block : Block) : Nat :=
  (block.instructions.map fun instruction =>
    (instruction.successors.map (·.arguments.length)).sum).sum

/-- None when the fuel runs out. -/
def analyzeLiveness (function : Function) (includeInstructionLiveness : Bool) (fuel : Nat) :
    Option (LivenessAnalysis function.registerCount) := do
  let indices := range function.blocks.length
  let (live, rounds) ← function.equations.propagate fuel indices (fun _ => (∅, ∅)) 0
  return {
    uses := function.blocks.map fun block => (function.usesDefs block).1
    defs := function.blocks.map fun block => (function.usesDefs block).2
    liveIn := indices.map fun index => (live index).2
    liveOut := indices.map fun index => (live index).1
    liveAfter :=
      if includeInstructionLiveness then
        indices.map fun index =>
          (backward (live index).1 (function.block index).instructions).1
      else []
    successors := indices.map function.successors
    fixedPointIterations := rounds % 2 ^ 32
    crossBlockLiveValues := (indices.map fun index =>
      (live index).1.card + argumentCount (function.block index)).sum % 2 ^ 32 }

/-! ## Paths -/

def Instruction.Defines (instruction : Instruction) (r : VirtualRegister) : Prop :=
  hasResult instruction.opcode = true ∧ instruction.result = r

/-- A path from where the given instructions of a block are left reads the register before anything
defines it. -/
inductive Live (function : Function) (r : VirtualRegister) : List Instruction → Nat → Prop
  | read {instruction rest index} : r ∈ instruction.reads →
      Live function r (instruction :: rest) index
  | pass {instruction rest index} : ¬ instruction.Defines r → Live function r rest index →
      Live function r (instruction :: rest) index
  | leave {index successor} : successor ∈ function.successors index →
      r ∉ (function.block successor).parameters →
      Live function r (function.block successor).instructions successor →
      Live function r [] index

/-- The register is live at the start of a block. -/
def LiveIn (function : Function) (r : VirtualRegister) (index : Nat) : Prop :=
  r ∉ (function.block index).parameters ∧
    Live function r (function.block index).instructions index

/-- The same within the instructions of a block, for a fact about their end. -/
def Exposed (r : VirtualRegister) (atEnd : Prop) : List Instruction → Prop
  | [] => atEnd
  | instruction :: rest =>
    r ∈ instruction.reads ∨ ¬ instruction.Defines r ∧ Exposed r atEnd rest

/-! ## One block -/

section

variable {count : Nat} {r : Fin count} {atEnd : Prop}

theorem mem_set {registers : RegisterBitSet count} {other : VirtualRegister} :
    r ∈ set registers other ↔ r ∈ registers ∨ r.val = other := by
  unfold set
  split
  · rw [Finset.mem_insert, or_comm, Fin.ext_iff]
  · rename_i hother
    exact ⟨.inl, fun h => h.resolve_right fun heq => hother (heq ▸ r.isLt)⟩

theorem mem_foldl {step : RegisterBitSet count → VirtualRegister → RegisterBitSet count} {p : Prop}
    (hstep : ∀ registers other, r ∈ step registers other ↔ r ∈ registers ∨ r.val = other ∧ p)
    {others : List VirtualRegister} : ∀ {registers : RegisterBitSet count},
      r ∈ others.foldl step registers ↔ r ∈ registers ∨ r.val ∈ others ∧ p := by
  induction others with
  | nil => simp
  | cons other others ih =>
    intro registers
    rw [foldl_cons, ih, hstep, mem_cons, or_and_right, or_assoc]

theorem mem_foldl_set {others : List VirtualRegister} {registers : RegisterBitSet count} :
    r ∈ others.foldl set registers ↔ r ∈ registers ∨ r.val ∈ others := by
  rw [@mem_foldl _ _ set True fun registers other => by rw [mem_set, and_true], and_true]

theorem mem_foldl_recordUse {others : List VirtualRegister} {defs uses : RegisterBitSet count} :
    r ∈ others.foldl (recordUse defs) uses ↔ r ∈ uses ∨ r.val ∈ others ∧ r ∉ defs := by
  refine mem_foldl fun uses other => ?_
  unfold recordUse
  split
  · rename_i hdef
    obtain ⟨x, hx, rfl⟩ := Finset.mem_image.mp hdef
    exact ⟨.inl, fun h => h.resolve_right fun ⟨heq, hnot⟩ => hnot (Fin.ext heq ▸ hx)⟩
  · rename_i hdef
    rw [mem_set]
    refine or_congr_right ⟨fun heq => ⟨heq, fun hmem => hdef ?_⟩, And.left⟩
    exact Finset.mem_image.mpr ⟨r, hmem, heq⟩

/-- What a block reads before it defines it, and what it leaves as it is. -/
theorem scan_exposed {instructions : List Instruction} :
    ∀ {sets : RegisterBitSet count × RegisterBitSet count},
      r ∈ (instructions.foldl scanInstruction sets).1 ∨
          atEnd ∧ r ∉ (instructions.foldl scanInstruction sets).2 ↔
        r ∈ sets.1 ∨ r ∉ sets.2 ∧ Exposed r atEnd instructions := by
  induction instructions with
  | nil => exact or_congr_right and_comm
  | cons instruction rest ih =>
    intro sets
    have hdefs : r ∈ (scanInstruction sets instruction).2 ↔
        r ∈ sets.2 ∨ instruction.Defines r := by
      unfold scanInstruction Instruction.Defines
      split
      · rw [mem_set, eq_comm]
        simp only [*, true_and]
      · simp only [*, Bool.false_eq_true, false_and, or_false]
    rw [foldl_cons, ih, hdefs, scanInstruction, mem_foldl_recordUse, Exposed]
    tauto

theorem backward_exposed {out : RegisterBitSet count} {instructions : List Instruction} :
    r ∈ (backward out instructions).2 ↔ Exposed r (r ∈ out) instructions := by
  induction instructions with
  | nil => rfl
  | cons instruction rest ih =>
    show r ∈ before (backward out rest).2 instruction ↔ _
    unfold before Exposed Instruction.Defines
    rw [mem_foldl_set, or_comm, ← ih]
    refine or_congr_right ?_
    split
    · simp only [*, Finset.mem_filter, true_and, and_comm, ne_comm]
    · simp only [*, Bool.false_eq_true, false_and, not_false_eq_true, true_and]

theorem backward_after {out : RegisterBitSet count} :
    ∀ {instructions : List Instruction} {index : Nat}, index < instructions.length →
      (backward out instructions).1[index]? = some (backward out (instructions.drop (index + 1))).2
  | _ :: _, 0, _ => rfl
  | _ :: rest, index + 1, h => @backward_after _ rest index (Nat.lt_of_succ_lt_succ h)

end

/-! ## The blocks -/

section

variable {function : Function}

theorem Exposed.mono {r : VirtualRegister} {atEnd other : Prop} (h : atEnd → other) :
    ∀ {instructions : List Instruction},
      Exposed r atEnd instructions → Exposed r other instructions
  | [], hexposed => h hexposed
  | _ :: _, hexposed => hexposed.imp_right (And.imp_right (Exposed.mono h))

theorem Live.of_exposed {r : VirtualRegister} {index : Nat} : ∀ {instructions : List Instruction},
    Exposed r (∃ successor ∈ function.successors index, r ∉ (function.block successor).parameters ∧
      Live function r (function.block successor).instructions successor) instructions →
      Live function r instructions index
  | [], ⟨_, hmem, hparameters, hlive⟩ => .leave hmem hparameters hlive
  | _ :: _, .inl hread => .read hread
  | _ :: _, .inr ⟨hdefines, hrest⟩ => .pass hdefines (Live.of_exposed hrest)

theorem lt_of_mem_successors {index successor : Nat}
    (h : successor ∈ function.successors index) : successor < function.blocks.length := by
  obtain ⟨instruction, -, h⟩ := mem_flatMap.mp h
  obtain ⟨target, -, h⟩ := mem_filterMap.mp h
  exact (findIdx?_eq_some_iff_findIdx_eq.mp h).1

variable
  {live : Nat → RegisterBitSet function.registerCount × RegisterBitSet function.registerCount}
  {index : Nat} {r : Fin function.registerCount}

theorem mem_transfer_out : r ∈ (function.equations.transfer live index).1 ↔
    ∃ successor ∈ function.successors index, r ∈ (live successor).2 := by
  refine Finset.mem_biUnion.trans (exists_congr fun successor => ?_)
  rw [mem_toFinset]

/-- **The registers that are live at the start of a block.** -/
theorem mem_transfer : r ∈ (function.equations.transfer live index).2 ↔
    r.val ∉ (function.block index).parameters ∧
      Exposed r (r ∈ (function.equations.transfer live index).1)
        (function.block index).instructions := by
  have hscan := @scan_exposed _ r (r ∈ (function.equations.transfer live index).1)
    (function.block index).instructions (∅, (function.block index).parameters.foldl set ∅)
  rw [mem_foldl_set, or_iff_right (Finset.notMem_empty r),
    or_iff_right (Finset.notMem_empty r)] at hscan
  rw [← hscan, ← Finset.mem_sdiff, ← Finset.mem_union]
  rfl

/-- **The equations** are monotone, and only the predecessors of a block look at it. -/
theorem equations_lawful (function : Function) :
    Frontier.Lawful function.equations (fun sets => sets.1.card + sets.2.card)
      (2 * function.registerCount) where
  mono := by
    intro live live' hle index
    have hout : (function.equations.transfer live index).1 ⊆
        (function.equations.transfer live' index).1 := by
      intro r hr
      obtain ⟨successor, hmem, hlive⟩ := mem_transfer_out.mp hr
      exact mem_transfer_out.mpr ⟨successor, hmem, (hle successor).2 hlive⟩
    exact ⟨hout, Finset.union_subset_union_right (Finset.sdiff_subset_sdiff hout (le_refl _))⟩
  depends := by
    intro live index sets other hother hdepends
    have hsuccessor : index ∉ function.successors other := fun hmem =>
      hdepends (mem_filter.mpr ⟨mem_range.mpr hother, decide_eq_true hmem⟩)
    have hsame := Finset.biUnion_congr rfl fun item (hitem : item ∈
        (function.successors other).toFinset) => congrArg Prod.snd (Function.update_of_ne
          (ne_of_mem_of_not_mem (mem_toFinset.mp hitem) hsuccessor) sets live)
    unfold Function.equations
    dsimp only
    rw [hsame]
  size_lt := by
    intro sets sets' hlt
    rcases Prod.lt_iff.mp hlt with ⟨h, hle⟩ | ⟨hle, h⟩
    · exact Nat.add_lt_add_of_lt_of_le (Finset.card_lt_card h) (Finset.card_le_card hle)
    · exact Nat.add_lt_add_of_le_of_lt (Finset.card_le_card hle) (Finset.card_lt_card h)
  size_le := by
    intro sets
    have hout := Finset.card_le_univ sets.1
    have hin := Finset.card_le_univ sets.2
    rw [Fintype.card_fin] at hout hin
    omega

/-- What is in the sets is live, also in those of the next visit. -/
theorem LiveIn.visit (h : ∀ index, ∀ r ∈ (live index).2, LiveIn function r index) (index : Nat) :
    ∀ other, ∀ r ∈ (Function.update live index (function.equations.transfer live index) other).2,
      LiveIn function r other := by
  refine (Function.forall_update_iff live fun other sets =>
    ∀ r ∈ sets.2, LiveIn function r other).mpr ⟨fun r hr => ?_, fun other _ => h other⟩
  obtain ⟨hparameters, hexposed⟩ := mem_transfer.mp hr
  refine ⟨hparameters, Live.of_exposed (hexposed.mono fun hout => ?_)⟩
  obtain ⟨successor, hmem, hin⟩ := mem_transfer_out.mp hout
  exact ⟨successor, hmem, h successor r hin⟩

theorem Live.exposed (hlive : ∀ index < function.blocks.length,
      function.equations.transfer live index = live index) {instructions : List Instruction}
    (h : Live function r instructions index) :
    index < function.blocks.length → Exposed r (r ∈ (live index).1) instructions := by
  induction h with
  | read hread => exact fun _ => .inl hread
  | pass hdefines _ ih => exact fun hindex => .inr ⟨hdefines, ih hindex⟩
  | @leave index successor hmem hparameters _ ih =>
    intro hindex
    have hsuccessor := lt_of_mem_successors hmem
    have hin : r ∈ (function.equations.transfer live successor).2 := by
      rw [mem_transfer, hlive successor hsuccessor]
      exact ⟨hparameters, ih hsuccessor⟩
    rw [hlive successor hsuccessor] at hin
    have hout := mem_transfer_out.mpr ⟨successor, hmem, hin⟩
    rw [hlive index hindex] at hout
    exact hout

end

/-- **Liveness is exact**: the analysis ends, and its sets are those of the paths from the start of
a block and from behind each of its instructions. -/
theorem liveness_exact (function : Function) (includeInstructionLiveness : Bool) :
    ∃ analysis, (∀ fuel > function.blocks.length * (2 * function.registerCount),
        analyzeLiveness function includeInstructionLiveness fuel = some analysis) ∧
      ∀ index < function.blocks.length, ∀ r : Fin function.registerCount,
        (r ∈ analysis.liveIn.getD index ∅ ↔ LiveIn function r index) ∧
        (r ∈ analysis.liveOut.getD index ∅ ↔
          ∃ successor ∈ function.successors index, r ∈ analysis.liveIn.getD successor ∅) ∧
        (includeInstructionLiveness = true →
          ∀ position < (function.block index).instructions.length,
            (r ∈ (analysis.liveAfter.getD index []).getD position ∅ ↔
              Live function r ((function.block index).instructions.drop (position + 1))
                index)) := by
  obtain ⟨live, rounds, hrun, hpaths, hlive⟩ := @Frontier.Lawful.propagate_spec _ _
    function.equations _ _ _ (equations_lawful function)
    (fun live => ∀ index, ∀ r ∈ (live index).2, LiveIn function r index)
    (fun live index _ hpaths => LiveIn.visit hpaths index)
    (function.blocks.length * (2 * function.registerCount) + 1) (range function.blocks.length)
    (fun _ => (∅, ∅)) 0 (fun _ => ⟨Finset.empty_subset _, Finset.empty_subset _⟩)
    (fun _ _ h => absurd h (Finset.notMem_empty _))
    (fun index hindex => .inr (mem_range.mpr hindex))
    (.inr (Nat.lt_add_right _ (Nat.lt_succ_self _)))
  refine ⟨_, fun fuel hfuel => by rw [analyzeLiveness, hrun fuel hfuel]; rfl, ?_⟩
  intro index hindex r
  have hat {α : Type} (f : Nat → α) (default : α) {index : Nat}
      (hindex : index < function.blocks.length) :
      ((range function.blocks.length).map f).getD index default = f index := by
    rw [getD_eq_getElem?_getD, getElem?_map, getElem?_range hindex]
    rfl
  -- what is exposed in front of some of the instructions
  have hexposed {instructions : List Instruction} :
      Exposed r (r ∈ (live index).1) instructions ↔ Live function r instructions index := by
    refine ⟨fun h => Live.of_exposed (h.mono fun hmem => ?_), fun h => h.exposed hlive hindex⟩
    rw [← hlive index hindex] at hmem
    obtain ⟨successor, hmem, hin⟩ := mem_transfer_out.mp hmem
    exact ⟨successor, hmem, hpaths successor r hin⟩
  refine ⟨?_, ?_, fun hinclude position hposition => ?_⟩
  · rw [hat _ _ hindex, ← hlive index hindex, mem_transfer, hlive index hindex, hexposed]
    rfl
  · rw [hat _ _ hindex, ← hlive index hindex, mem_transfer_out]
    refine exists_congr fun successor => and_congr_right fun hmem => ?_
    rw [hat _ _ (lt_of_mem_successors hmem)]
  · rw [if_pos hinclude, hat _ _ hindex, getD_eq_getElem?_getD, backward_after hposition]
    exact backward_exposed.trans hexposed

end Raz.Forge.Liveness
