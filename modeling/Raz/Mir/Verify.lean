import Raz.Mir.Cfg

/-!
# Structural verification

Translation of `raz_mir/src/mir/verify/verifier.rz`: the ranges of the functions are ordered
and disjoint, and every branch stays in its function.

Results:
1. `Verified.built`: the tables of the graph hold all blocks.
2. `branch_of_verified`: the targets of a branch belong to its function.
-/

namespace Raz.Mir

/-- The scan over the functions from `index` on; `previousEnd` is the end of the one before. -/
def verifyRanges (mir : MirModule) : Nat → Int → Int → Bool
  | 0, _, _ => true
  | remaining + 1, index, previousEnd =>
      let f := mir.function index
      if f.start < 0 ∨ f.count < 0 ∨ f.stop > mir.instructionCount then false
      else if index > 0 ∧ f.start < previousEnd then false
      else verifyRanges mir remaining (index + 1) f.stop

/-- `verify_mir_cfg`. -/
def verifyMirCfg (mir : MirModule) : Bool := (buildMirCfg mir).isSome

/-- `verify_mir_structure`. The counts are lengths here, so they are not negative, and the
tables exist. -/
def verifyMirStructure (mir : MirModule) : Bool :=
  if verifyRanges mir mir.functions.length 0 0 = false then false
  else if mir.callArgumentCount > 524288 then false
  else verifyMirCfg mir

/-- An accepted module none of whose ranges wraps around. -/
structure Verified (mir : MirModule) : Prop where
  accepted : verifyMirStructure mir = true
  bounded : mir.Bounded

section

variable {mir : MirModule}

theorem verifyRanges_spec (hbounded : mir.Bounded) (remaining : Nat) :
    ∀ {index previousEnd : Int}, 0 ≤ index → verifyRanges mir remaining index previousEnd = true →
      ∀ function, index ≤ function → function < index + remaining →
        0 ≤ (mir.function function).start ∧ 0 ≤ (mir.function function).count ∧
          (mir.function function).stop ≤ mir.instructionCount ∧
          (0 < index → previousEnd ≤ (mir.function function).start) ∧
          ∀ earlier, index ≤ earlier → earlier < function →
            (mir.function earlier).stop ≤ (mir.function function).start := by
  induction remaining with
  | zero =>
    intro index previousEnd _ _ function hge hlt
    exact absurd hge (by omega)
  | succ remaining ih =>
    intro index previousEnd h0 h function hge hlt
    unfold verifyRanges at h
    simp only at h
    split at h
    · cases h
    rename_i hrange
    split at h
    · cases h
    rename_i horder
    have hrest := ih (by omega) h
    have hend := hbounded.stop_eq index
    by_cases heq : function = index
    · subst heq
      exact ⟨by omega, by omega, by omega, fun hpos => by omega, fun earlier h1 h2 => by omega⟩
    · obtain ⟨hstart, hcount, hstop, hafter, hearlier⟩ := hrest function (by omega) (by omega)
      refine ⟨hstart, hcount, hstop, fun hpos => ?_, fun earlier h1 h2 => ?_⟩
      · have := hafter (by omega)
        omega
      by_cases hfirst : earlier = index
      · subst hfirst
        exact hafter (by omega)
      · exact hearlier earlier (by omega) h2

section

variable (h : Verified mir)

include h

theorem structure_of_verified :
    verifyRanges mir mir.functions.length 0 0 = true ∧ ∃ cfg, buildMirCfg mir = some cfg := by
  obtain ⟨h, -⟩ := h
  unfold verifyMirStructure at h
  split at h
  · cases h
  rename_i hranges
  rw [Bool.not_eq_false] at hranges
  split at h
  · cases h
  · exact ⟨hranges, Option.isSome_iff_exists.mp h⟩

theorem range_of_verified {function : Int}
    (h0 : 0 ≤ function) (h1 : function < mir.functionCount) :
    0 ≤ (mir.function function).start ∧ 0 ≤ (mir.function function).count ∧
      (mir.function function).stop ≤ mir.instructionCount := by
  obtain ⟨hstart, hcount, hstop, _⟩ := verifyRanges_spec h.bounded _ (Int.le_refl 0)
    (structure_of_verified h).1 function h0 (by unfold MirModule.functionCount at h1; omega)
  exact ⟨hstart, hcount, hstop⟩

theorem ranges_ordered {earlier function : Int}
    (h0 : 0 ≤ earlier) (hlt : earlier < function) (h1 : function < mir.functionCount) :
    (mir.function earlier).stop ≤ (mir.function function).start := by
  obtain ⟨_, _, _, _, hearlier⟩ := verifyRanges_spec h.bounded _ (Int.le_refl 0)
    (structure_of_verified h).1 function (by omega)
    (by unfold MirModule.functionCount at h1; omega)
  exact hearlier earlier h0 hlt

theorem ranges_disjoint {left right ip : Int}
    (hl0 : 0 ≤ left) (hl1 : left < mir.functionCount) (hr0 : 0 ≤ right)
    (hr1 : right < mir.functionCount)
    (hl : (mir.function left).start ≤ ip ∧ ip < (mir.function left).stop)
    (hr : (mir.function right).start ≤ ip ∧ ip < (mir.function right).stop) : left = right := by
  rcases Int.lt_trichotomy left right with hlt | heq | hlt
  · have := ranges_ordered h hl0 hlt hr1
    omega
  · exact heq
  · have := ranges_ordered h hr0 hlt hl1
    omega

end

theorem blockSuccessors_of_built {cfg : MirCfg} (h : Built mir cfg) {index : Int}
    (h0 : 0 ≤ index) (h1 : index < cfg.blockCount) :
    ∃ successors, blockSuccessors mir cfg.blocks cfg.blockCount cfg.instructionBlocks index =
      some successors ∧ successors.1 = Arena.get cfg.successorA index ∧
      successors.2 = Arena.get cfg.successorB index := by
  obtain ⟨successors, hsucc, rfl⟩ := h.eq
  have hget := Arena.get_of_mapM_range hsucc h0 h1
  have hlen := (Arena.mapM_getElem? _ hsucc).1
  rw [Arena.length_range] at hlen
  simp only at h1
  have hlt : index.toNat < successors.length := by omega
  refine ⟨_, hget, ?_, ?_⟩
  · rw [Arena.get_eq_getElem h0 hlt, Arena.get_eq_getElem h0 (by simpa using hlt)]
    simp
  · rw [Arena.get_eq_getElem h0 hlt, Arena.get_eq_getElem h0 (by simpa using hlt)]
    simp

theorem terminator_last (hbounded : mir.Bounded) {function : Int} {block : Block}
    (h : block ∈ functionBlockList mir function) {ip : Int} (h0 : block.start ≤ ip)
    (h1 : ip < block.stop) (hop : opcodeIsTerminator (mir.opcode ip) = true) :
    block.stop = ip + 1 := by
  by_cases heq : block.stop = ip + 1
  · exact heq
  · have hinner := (functionBlockList_inner hbounded h
      (show block.start < ip + 1 by omega) (by omega)).2
    rw [show ip + 1 - 1 = ip by omega, hop] at hinner
    cases hinner

/-! ## The number of blocks -/

theorem length_scanBlocks {function start : Int} (remaining : Nat) :
    ∀ {current ip : Int},
      (scanBlocks mir function start remaining current ip).length ≤ remaining + 1 := by
  induction remaining with
  | zero => exact Nat.le_refl 1
  | succ remaining ih =>
    intro current ip
    rw [scanBlocks]
    split
    · rw [List.length_cons]
      exact Nat.succ_le_succ ih
    · exact Nat.le_succ_of_le ih

theorem length_functionBlockList (hbounded : mir.Bounded) {function : Int}
    (hcount : 0 ≤ (mir.function function).count) :
    ((functionBlockList mir function).length : Int) ≤ (mir.function function).count := by
  rw [functionBlockList_eq hbounded]
  split
  · obtain ⟨count, hn⟩ : ∃ count, (mir.function function).count.toNat = count + 1 :=
      ⟨(mir.function function).count.toNat - 1, by omega⟩
    have hscan := @length_scanBlocks mir function (mir.function function).start count
      (mir.function function).start ((mir.function function).start + 1)
    rw [hn, scanBlocks, if_neg (by simp [beginsBlock])]
    omega
  · simpa using hcount

/-- The blocks of the functions up to one, by the end of their instructions. -/
theorem length_blocks_le (h : Verified mir) (count : Nat) :
    ∀ {bound : Int}, 0 ≤ bound → count ≤ mir.functionCount →
      (∀ function : Int, 0 ≤ function → function < count → (mir.function function).stop ≤ bound) →
      (((Arena.range 0 count).flatMap (functionBlockList mir)).length : Int) ≤ bound := by
  induction count with
  | zero =>
    intro bound h0 _ _
    exact h0
  | succ count ih =>
    intro bound h0 hle hstop
    obtain ⟨hstart, hcount, -⟩ := @range_of_verified mir h count (by omega) (by omega)
    have hfront := ih hstart (by omega)
      (fun function hge hlt => ranges_ordered h hge hlt (by omega))
    have hlast := length_functionBlockList h.bounded hcount
    have hend := hstop count (by omega) (by omega)
    rw [h.bounded.stop_eq] at hend
    rw [Int.natCast_succ, Arena.range_snoc (Int.natCast_nonneg count), List.flatMap_append,
      List.length_append, List.flatMap_singleton]
    omega

/-- **The tables hold all blocks**: there are no more blocks than instructions. -/
theorem Verified.built {cfg : MirCfg} (h : Verified mir) (hcfg : buildMirCfg mir = some cfg) :
    Built mir cfg := by
  have hlen := @length_blocks_le mir h mir.functions.length mir.instructionCount
    (Int.natCast_nonneg _) (Int.le_refl _)
    (fun function hge hlt => (range_of_verified h hge hlt).2.2)
  refine ⟨hcfg, h.bounded,
    Nat.le_of_lt (Nat.lt_succ_of_le (Nat.le_trans ?_ (Nat.le_add_right _ _)))⟩
  exact Int.ofNat_le.mp hlen

/-! ## Branches -/

theorem branch_of_verified (h : Verified mir) {function ip : Int}
    (h0 : 0 ≤ function) (h1 : function < mir.functionCount)
    (hstart : (mir.function function).start ≤ ip) (hstop : ip < (mir.function function).stop) :
    (mir.opcode ip = 22 ∨ mir.opcode ip = 23 →
      (mir.function function).start ≤ mir.opB ip ∧
        mir.opB ip < (mir.function function).stop) ∧
    (mir.opcode ip = 23 → (mir.function function).start ≤ mir.opC ip ∧
      mir.opC ip < (mir.function function).stop) := by
  obtain ⟨_, cfg, hbuilt⟩ := structure_of_verified h
  have hcfg := h.built hbuilt
  obtain ⟨block, hmem, hge, hlt⟩ := functionBlockList_cover h.bounded hstart hstop
  have hall : block ∈ cfg.blocks := by
    rw [buildMirCfg_blocks hcfg]
    exact mem_allBlocks.mpr ⟨function, h0, h1, hmem⟩
  obtain ⟨index, hidx, hat⟩ := List.getElem_of_mem hall
  obtain ⟨successors, hsucc, _⟩ := blockSuccessors_of_built hcfg
    (show (0 : Int) ≤ (index : Int) by omega) (by rw [blockCount_eq hcfg]; omega)
  have hblock : Arena.get cfg.blocks (index : Int) = block := by
    rw [Arena.get_eq_getElem (by omega) (by simpa using hidx)]
    simpa using hat
  have hfun := (functionBlockList_within h.bounded hmem).2.2.2
  have hvalid : ∀ target, branchTargetValid mir function target = true →
      (mir.function function).start ≤ target ∧ target < (mir.function function).stop := by
    intro target hv
    unfold branchTargetValid instructionInFunction at hv
    rw [decide_eq_true_eq] at hv
    exact hv.2.2
  unfold blockSuccessors at hsucc
  simp only [hblock] at hsucc
  rw [if_pos (by omega)] at hsucc
  constructor
  · rintro (hop | hop)
    · have hlast := terminator_last h.bounded hmem hge hlt (by rw [hop]; decide)
      rw [show block.stop - 1 = ip by omega, if_pos hop, hfun] at hsucc
      split at hsucc
      · rename_i hv
        exact hvalid _ hv
      · cases hsucc
    · have hlast := terminator_last h.bounded hmem hge hlt (by rw [hop]; decide)
      rw [show block.stop - 1 = ip by omega, if_neg (by omega), if_pos hop, hfun]
        at hsucc
      split at hsucc
      · rename_i hv
        exact hvalid _ hv.1
      · cases hsucc
  · intro hop
    have hlast := terminator_last h.bounded hmem hge hlt (by rw [hop]; decide)
    rw [show block.stop - 1 = ip by omega, if_neg (by omega), if_pos hop, hfun] at hsucc
    split at hsucc
    · rename_i hv
      exact hvalid _ hv.2
    · cases hsucc

end

end Raz.Mir
