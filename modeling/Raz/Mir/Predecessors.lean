import Raz.Mir.Verify

/-!
# The predecessor lists of the graph

The last part of `build_mir_cfg`: incoming edges are counted while the successors are set, and
then put into one table, block by block.

Result: `mem_predecessors`: the predecessor lists invert the successor fields, and
`count_sources` how often each block stands in them.
-/

namespace Raz.Mir

open List Arena

section

variable {mir : MirModule} {cfg : MirCfg}

/-! ## Successors -/

theorem blockForInstruction_of_verified (h : Verified mir)
    (hcfg : Built mir cfg) {function ip : Int} (h0 : 0 ≤ function)
    (h1 : function < mir.functionCount) (hstart : (mir.function function).start ≤ ip)
    (hstop : ip < (mir.function function).stop) :
    0 ≤ cfg.blockForInstruction ip ∧ cfg.blockForInstruction ip < cfg.blockCount ∧
      cfg.block (cfg.blockForInstruction ip) ∈ functionBlockList mir function ∧
      (cfg.block (cfg.blockForInstruction ip)).start ≤ ip ∧
      ip < (cfg.block (cfg.blockForInstruction ip)).stop := by
  obtain ⟨hrange, -, hend⟩ := range_of_verified h h0 h1
  obtain ⟨block, hmem, hge, hlt⟩ := functionBlockList_cover hcfg.bounded hstart hstop
  have hall : block ∈ cfg.blocks := by
    rw [buildMirCfg_blocks hcfg]
    exact mem_allBlocks.mpr ⟨function, h0, h1, hmem⟩
  obtain ⟨hindex0, hindex1, hle, hbelow⟩ :=
    blockForInstruction_spec hcfg hall hge hlt (by omega) (by omega)
  refine ⟨hindex0, hindex1, ?_, hle, hbelow⟩
  -- The block found belongs to some function, which is this one.
  have hfound : cfg.block (cfg.blockForInstruction ip) ∈ allBlocks mir := by
    rw [← buildMirCfg_blocks hcfg]
    rw [blockCount_eq hcfg] at hindex1
    rw [MirCfg.block, get_eq_getElem hindex0 (by omega)]
    exact getElem_mem _
  obtain ⟨other, ho0, ho1, hother⟩ := mem_allBlocks.mp hfound
  obtain ⟨hother0, -, hother1, -⟩ := functionBlockList_within hcfg.bounded hother
  have hsame := @ranges_disjoint mir h other function ip ho0 ho1 h0 h1
    ⟨by omega, by omega⟩ ⟨hstart, hstop⟩
  exact hsame ▸ hother

theorem function_of_block (hcfg : Built mir cfg) {index : Int} (h0 : 0 ≤ index)
    (h1 : index < cfg.blockCount) :
    0 ≤ (cfg.block index).function ∧ (cfg.block index).function < mir.functionCount ∧
      cfg.block index ∈ functionBlockList mir (cfg.block index).function := by
  have hall : cfg.block index ∈ allBlocks mir := by
    rw [← buildMirCfg_blocks hcfg]
    rw [blockCount_eq hcfg] at h1
    rw [MirCfg.block, get_eq_getElem h0 (by omega)]
    exact getElem_mem _
  obtain ⟨function, hf0, hf1, hmem⟩ := mem_allBlocks.mp hall
  rw [(functionBlockList_within hcfg.bounded hmem).2.2.2]
  exact ⟨hf0, hf1, hmem⟩

/-- What the successors of a block are. -/
inductive Succeeds (mir : MirModule) (cfg : MirCfg) (index : Int) : Int × Int → Prop
  | jump {target : Int} : mir.opcode ((cfg.block index).stop - 1) = 22 →
      mir.opB ((cfg.block index).stop - 1) = target →
      instructionInFunction mir (cfg.block index).function target = true →
      Succeeds mir cfg index (cfg.blockForInstruction target, -1)
  | branch {whenZero whenNot : Int} : mir.opcode ((cfg.block index).stop - 1) = 23 →
      mir.opB ((cfg.block index).stop - 1) = whenZero →
      mir.opC ((cfg.block index).stop - 1) = whenNot →
      instructionInFunction mir (cfg.block index).function whenZero = true →
      instructionInFunction mir (cfg.block index).function whenNot = true →
      Succeeds mir cfg index (cfg.blockForInstruction whenZero, cfg.blockForInstruction whenNot)
  | leave : opcodeIsTerminator (mir.opcode ((cfg.block index).stop - 1)) = true →
      opcodeIsBranch (mir.opcode ((cfg.block index).stop - 1)) = false →
      Succeeds mir cfg index (-1, -1)
  | fall : opcodeIsTerminator (mir.opcode ((cfg.block index).stop - 1)) = false →
      index + 1 < cfg.blockCount →
      (cfg.block (index + 1)).function = (cfg.block index).function →
      Succeeds mir cfg index (index + 1, -1)
  | last : opcodeIsTerminator (mir.opcode ((cfg.block index).stop - 1)) = false →
      ¬ (index + 1 < cfg.blockCount ∧
        (cfg.block (index + 1)).function = (cfg.block index).function) →
      Succeeds mir cfg index (-1, -1)

theorem succeeds_of_built (hcfg : Built mir cfg) {index : Int} (h0 : 0 ≤ index)
    (h1 : index < cfg.blockCount) :
    Succeeds mir cfg index (Arena.get cfg.successorA index, Arena.get cfg.successorB index) := by
  obtain ⟨⟨first, second⟩, hsucc, hfirst, hsecond⟩ := blockSuccessors_of_built hcfg h0 h1
  subst hfirst hsecond
  obtain ⟨-, -, hmem⟩ := function_of_block hcfg h0 h1
  have hnonempty := functionBlockList_nonempty hcfg.bounded hmem
  unfold MirCfg.block at hnonempty
  unfold blockSuccessors at hsucc
  simp only at hsucc
  rw [if_pos hnonempty] at hsucc
  split at hsucc
  · rename_i hop
    split at hsucc
    · rename_i hvalid
      obtain ⟨hA, hB⟩ := Prod.mk.inj (Option.some.inj hsucc)
      rw [← hA, ← hB]
      exact .jump hop rfl hvalid
    · cases hsucc
  · rename_i hjump
    split at hsucc
    · rename_i hop
      split at hsucc
      · rename_i hvalid
        obtain ⟨hA, hB⟩ := Prod.mk.inj (Option.some.inj hsucc)
        rw [← hA, ← hB]
        exact .branch hop rfl rfl hvalid.1 hvalid.2
      · cases hsucc
    · rename_i hbranch
      split at hsucc <;> rename_i hterm
      · obtain ⟨hA, hB⟩ := Prod.mk.inj (Option.some.inj hsucc)
        rw [← hA, ← hB]
        refine .leave hterm ?_
        unfold opcodeIsBranch
        rw [decide_eq_false_iff_not]
        rintro (h | h)
        · exact hjump h
        · exact hbranch h
      · rw [Bool.not_eq_true] at hterm
        split at hsucc <;> rename_i hnext
        · obtain ⟨hA, hB⟩ := Prod.mk.inj (Option.some.inj hsucc)
          rw [← hA, ← hB]
          exact .fall hterm hnext.1 hnext.2
        · obtain ⟨hA, hB⟩ := Prod.mk.inj (Option.some.inj hsucc)
          rw [← hA, ← hB]
          exact .last hterm hnext

/-- What the map of the instructions holds is a block. -/
theorem blockForInstruction_cases (hcfg : Built mir cfg) (hpos : 0 < cfg.blockCount) (ip : Int) :
    cfg.blockForInstruction ip = -1 ∨
      0 ≤ cfg.blockForInstruction ip ∧ cfg.blockForInstruction ip < cfg.blockCount := by
  unfold MirCfg.blockForInstruction
  split
  · exact .inl rfl
  rename_i h0
  rw [Int.not_lt] at h0
  refine .inr ?_
  rw [buildMirCfg_instructionBlocks hcfg, mapInstructions]
  have hzero : (0 : Int) ≤ default ∧ default < cfg.blockCount := ⟨Int.le_refl 0, hpos⟩
  by_cases hlt : ip < (List.replicate (mir.instructionCount + 1).toNat (0 : Int)).length
  · rcases get_scatter ((allBlocks mir).zipIdx.flatMap (fun entry =>
        (range entry.1.start entry.1.stop).map (fun ip => (ip, (entry.2 : Int)))))
      Prod.fst Prod.snd h0 _ hlt with ⟨item, hitem, -, hget⟩ | ⟨-, hget⟩
    · obtain ⟨entry, hentry, hin⟩ := mem_flatMap.mp hitem
      obtain ⟨k, -, rfl⟩ := mem_map.mp hin
      have hidx := (List.getElem?_eq_some_iff.mp (mk_mem_zipIdx_iff_getElem?.mp hentry)).1
      rw [hget, blockCount_eq hcfg, buildMirCfg_blocks hcfg]
      exact ⟨Int.natCast_nonneg _, Int.ofNat_lt.mpr hidx⟩
    · rw [hget, show (0 : Int) = default from rfl, get_replicate_default]
      exact hzero
  · rw [get_of_ge (by rw [length_scatter]; omega)]
    exact hzero

theorem successor_of_built (hcfg : Built mir cfg) {index : Int} (h0 : 0 ≤ index)
    (h1 : index < cfg.blockCount) :
    (Arena.get cfg.successorA index = -1 ∨ 0 ≤ Arena.get cfg.successorA index ∧
      Arena.get cfg.successorA index < cfg.blockCount) ∧
    (Arena.get cfg.successorB index = -1 ∨ 0 ≤ Arena.get cfg.successorB index ∧
      Arena.get cfg.successorB index < cfg.blockCount) := by
  have hsucceeds := succeeds_of_built hcfg h0 h1
  have hlook := blockForInstruction_cases hcfg (Int.lt_of_le_of_lt h0 h1)
  generalize get cfg.successorA index = first at hsucceeds
  generalize get cfg.successorB index = second at hsucceeds
  cases hsucceeds with
  | jump => exact ⟨hlook _, .inl rfl⟩
  | branch => exact ⟨hlook _, hlook _⟩
  | leave => exact ⟨.inl rfl, .inl rfl⟩
  | fall _ hlt => exact ⟨.inr ⟨by omega, hlt⟩, .inl rfl⟩
  | last => exact ⟨.inl rfl, .inl rfl⟩

/-! ## The lists -/

/-- The blocks with an edge to `block`, once for every edge. -/
def MirCfg.sources (cfg : MirCfg) (block : Int) : List Int :=
  (Arena.range 0 cfg.blockCount).flatMap (fun candidate =>
    (if Arena.get cfg.successorA candidate = block then [candidate] else []) ++
      (if Arena.get cfg.successorB candidate = block then [candidate] else []))

theorem mem_edges {edge : Int × Int} :
    edge ∈ edges cfg.blockCount cfg.successorA cfg.successorB ↔
      0 ≤ edge.2 ∧ edge.2 < cfg.blockCount ∧ 0 ≤ edge.1 ∧
      (edge.1 = Arena.get cfg.successorA edge.2 ∨ edge.1 = Arena.get cfg.successorB edge.2) := by
  unfold edges
  rw [mem_filter, mem_flatMap]
  simp only [Arena.mem_range, mem_cons, not_mem_nil, or_false, decide_eq_true_eq]
  constructor
  · rintro ⟨⟨block, hblock, rfl | rfl⟩, hge⟩
    · exact ⟨hblock.1, hblock.2, hge, .inl rfl⟩
    · exact ⟨hblock.1, hblock.2, hge, .inr rfl⟩
  rintro ⟨h0, h1, hge, hedge⟩
  refine ⟨⟨edge.2, ⟨h0, h1⟩, ?_⟩, hge⟩
  rcases hedge with hedge | hedge
  · exact .inl (Prod.ext hedge rfl)
  · exact .inr (Prod.ext hedge rfl)

theorem length_edges_le (hcfg : Built mir cfg) :
    ((edges cfg.blockCount cfg.successorA cfg.successorB).length : Int) ≤ 2 * cfg.blockCount := by
  have hfilter := length_filter_le (fun edge : Int × Int => decide (edge.1 ≥ 0))
    ((range 0 cfg.blockCount).flatMap (fun block =>
      [(Arena.get cfg.successorA block, block), (Arena.get cfg.successorB block, block)]))
  rw [Arena.length_flatMap_pair, Arena.length_range] at hfilter
  change (((_ : List (Int × Int)).filter _).length : Int) ≤ _
  have hcount : 0 ≤ cfg.blockCount := blockCount_eq hcfg ▸ Int.natCast_nonneg _
  omega

theorem ofKey_edges {block : Int} (h0 : 0 ≤ block) :
    (Buckets.ofKey Prod.fst (edges cfg.blockCount cfg.successorA cfg.successorB) block).map
      Prod.snd = cfg.sources block := by
  unfold Buckets.ofKey edges MirCfg.sources
  rw [filter_filter, filter_flatMap, map_flatMap]
  congr 1
  funext candidate
  have hkeep : ∀ successor : Int, (decide (successor = block) && decide (successor ≥ 0)) =
      decide (successor = block) := by
    intro successor
    by_cases heq : successor = block
    · rw [decide_eq_true heq, decide_eq_true (show successor ≥ 0 by omega)]
      rfl
    · rw [decide_eq_false heq, Bool.false_and]
  simp only [filter_cons, filter_nil, hkeep, decide_eq_true_eq]
  split <;> split <;> rfl

/-- **The entries of a block are its predecessors.** -/
theorem predecessors_eq (hcfg : Built mir cfg) {block : Int} (h0 : 0 ≤ block)
    (h1 : block < cfg.blockCount) : cfg.predecessors block = cfg.sources block := by
  have hlen := length_edges_le hcfg
  have hkeys : ∀ edge ∈ edges cfg.blockCount cfg.successorA cfg.successorB,
      0 ≤ edge.1 ∧ edge.1 < cfg.blockCount := by
    intro edge hedge
    obtain ⟨hsource0, hsource1, hge, hsuccessor⟩ := mem_edges.mp hedge
    obtain ⟨hA, hB⟩ := successor_of_built hcfg hsource0 hsource1
    refine ⟨hge, ?_⟩
    rcases hsuccessor with heq | heq
    · rcases hA with hnone | hA <;> omega
    · rcases hB with hnone | hB <;> omega
  rw [← ofKey_edges h0]
  have hfits := hcfg.fits
  obtain ⟨successors, -, rfl⟩ := hcfg.eq
  simp only at h1 hlen hkeys ⊢
  unfold MirCfg.predecessors collectPredecessors
  dsimp only
  generalize hedges : edges ((allBlocks mir).length : Int) (successors.map Prod.fst)
    (successors.map Prod.snd) = all at hlen hkeys ⊢
  have hzero : Buckets.below Prod.fst all 0 = 0 :=
    Buckets.below_zero (fun edge hedge => (hkeys edge hedge).1)
  have hcounts : ∀ k : Int, 0 ≤ k → k < ((allBlocks mir).length : Int) →
      get (Buckets.tally Prod.fst all (List.replicate (blockCapacity mir) 0)) k =
        (Buckets.ofKey Prod.fst all k).length := by
    intro k hk0 hk
    refine (Buckets.get_tally hk0 all _ ?_).trans ?_
    · rw [length_replicate]
      omega
    · rw [show (0 : Int) = default from rfl, get_replicate_default]
      exact Int.zero_add _
  have hstarts : ∀ m : Int, 0 ≤ m → m ≤ ((allBlocks mir).length : Int) →
      get (Buckets.offsets (Buckets.tally Prod.fst all (List.replicate (blockCapacity mir) 0))
        (allBlocks mir).length 0 0 (List.replicate (blockCapacity mir + 1) 0)) m =
        Buckets.below Prod.fst all m := by
    intro m hm0 hm
    have hoffsets := @Buckets.get_offsets _ Prod.fst all _ _ hcounts (allBlocks mir).length 0
      (List.replicate (blockCapacity mir + 1) 0) (Int.le_refl 0)
      (Int.zero_add _) (by rw [length_replicate]; omega)
      (fun m hm0 hm => absurd hm (by omega)) m hm0 hm
    rw [hzero] at hoffsets
    exact hoffsets
  refine Buckets.group_distribute hkeys hstarts hcounts (fun k => ?_) ?_ ?_ h0 h1
  · exact get_replicate_default _ k
  · rw [length_replicate]
    omega
  · rw [length_replicate]
    omega

theorem mem_predecessors (hcfg : Built mir cfg) {block candidate : Int} (h0 : 0 ≤ block)
    (h1 : block < cfg.blockCount) :
    candidate ∈ cfg.predecessors block ↔ 0 ≤ candidate ∧ candidate < cfg.blockCount ∧
      (Arena.get cfg.successorA candidate = block ∨
        Arena.get cfg.successorB candidate = block) := by
  rw [predecessors_eq hcfg h0 h1, ← ofKey_edges h0, mem_map]
  constructor
  · rintro ⟨edge, hedge, rfl⟩
    obtain ⟨hedge, hkey⟩ := mem_filter.mp hedge
    obtain ⟨hge, hlt, -, hsuccessor⟩ := mem_edges.mp hedge
    rw [decide_eq_true_eq] at hkey
    exact ⟨hge, hlt, hkey ▸ hsuccessor.imp Eq.symm Eq.symm⟩
  · rintro ⟨hge, hlt, hsuccessor⟩
    exact ⟨(block, candidate), mem_filter.mpr ⟨mem_edges.mpr ⟨hge, hlt, h0,
      hsuccessor.imp Eq.symm Eq.symm⟩, decide_eq_true rfl⟩, rfl⟩

/-- **How often a block stands in a predecessor list.** -/
theorem count_sources {block candidate : Int} (h0 : 0 ≤ candidate)
    (h1 : candidate < cfg.blockCount) :
    (cfg.sources block).count candidate =
      [Arena.get cfg.successorA candidate, Arena.get cfg.successorB candidate].count block := by
  have hothers : ∀ {others : List Int}, candidate ∉ others →
      (others.flatMap (fun other =>
        (if Arena.get cfg.successorA other = block then [other] else []) ++
          (if get cfg.successorB other = block then [other] else []))).count candidate = 0 := by
    intro others hnot
    rw [count_eq_zero, mem_flatMap]
    rintro ⟨other, hmem, hin⟩
    refine hnot ?_
    rcases mem_append.mp hin with hin | hin
    · split at hin
      · exact mem_singleton.mp hin ▸ hmem
      · cases hin
    · split at hin
      · exact mem_singleton.mp hin ▸ hmem
      · cases hin
  unfold MirCfg.sources
  rw [range_append h0 (Int.le_of_lt h1), range_cons h1, flatMap_append,
    flatMap_cons, count_append, count_append,
    hothers (by rw [Arena.mem_range]; omega), hothers (by rw [Arena.mem_range]; omega),
    count_append, count_cons, count_cons, count_nil]
  simp only [beq_iff_eq]
  split <;> split <;> simp

end

end Raz.Mir
