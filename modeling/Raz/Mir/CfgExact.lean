import Raz.Mir.Interpreter
import Raz.Mir.Predecessors

/-!
# The graph against the interpreter

The graph splits a function behind terminators and in front of labels. A branch may go to any
instruction of its function, and the graph sends it to the block around its target: an edge into
the middle of a block stands for one to its first instruction.

Result: `exact_iff`: the graph follows every step if and only if the branches that can be taken lead
to first instructions of blocks; the predecessor lists are always exact.
-/

namespace Raz.Mir

variable {function : Int}

/-! ## Steps -/

/-- Where the interpreter goes after an instruction at `ip`. A call comes back to the next one, and
the instructions outside the model go on there. -/
def Action.target {World : Type} (ip : Int) : Action World → Option Int
  | .next later _ _ => some later
  | .call _ _ => some (ip + 1)
  | .foreign => some (ip + 1)
  | .done _ => none

/-- The interpreter can go from `ip` to `target`: for some arguments, in a frame with one register
for every instruction and one more, and for some store. -/
def Goes (World : Type) (mir : MirModule) (ip target : Int) : Prop :=
  ∃ (arguments : List Int) (frame : Frame) (store : Store World),
    frame.registers.length = mir.code.length + 1 ∧
      (interpretStep mir arguments ip frame store).target ip = some target

/-- The operand that decides a branch: the register of the edge value is written first. -/
def branchRegister (mir : MirModule) (ip : Int) : Int :=
  if mir.opD ip ≥ 0 ∧ mir.opA ip = mir.instructionCount then mir.opD ip else mir.opA ip

/-- The condition of a branch need not be zero. A register outside the frame reads as zero. -/
def CanHold (mir : MirModule) (ip : Int) : Prop :=
  0 ≤ branchRegister mir ip ∧ branchRegister mir ip ≤ mir.instructionCount

section Goes

variable {World : Type} {mir : MirModule} {ip target : Int} {frame : Frame}

section

variable (hlength : frame.registers.length = mir.code.length + 1)

include hlength

theorem read_carryEdgeValue :
    (carryEdgeValue mir frame (mir.opD ip)).read (mir.opA ip) =
      frame.read (branchRegister mir ip) := by
  have hcount : mir.instructionCount = mir.code.length := rfl
  unfold carryEdgeValue branchRegister
  by_cases hoperand : mir.opD ip ≥ 0
  · rw [if_pos hoperand]
    by_cases hreg : mir.opA ip = mir.instructionCount
    · rw [if_pos ⟨hoperand, hreg⟩, hreg]
      exact Arena.get_set_self (by omega) (by omega)
    · rw [if_neg (fun h => hreg h.2)]
      exact Arena.get_set_ne (Ne.symm hreg)
  · rw [if_neg hoperand, if_neg (fun h => hoperand h.1)]

theorem read_eq_zero (h : ¬ CanHold mir ip) : frame.read (branchRegister mir ip) = 0 := by
  have hcount : mir.instructionCount = mir.code.length := rfl
  unfold CanHold at h
  by_cases hneg : branchRegister mir ip < 0
  · exact Arena.get_of_neg hneg
  · exact Arena.get_of_ge (by omega)

end

theorem goes_cases (h : Goes World mir ip target) : (mir.opcode ip = 22 ∧ target = mir.opB ip) ∨
    (mir.opcode ip = 23 ∧
      (target = mir.opB ip ∨ (CanHold mir ip ∧ target = mir.opC ip))) ∨
    (opcodeIsTerminator (mir.opcode ip) = false ∧ target = ip + 1) := by
  obtain ⟨arguments, frame, store, hlength, hstep⟩ := h
  have hopcode : (mir.instruction ip).opcode = mir.opcode ip := rfl
  have hordinary : mir.opcode ip ≠ 10 → mir.opcode ip ≠ 21 → mir.opcode ip ≠ 22 →
      mir.opcode ip ≠ 23 → opcodeIsTerminator (mir.opcode ip) = false := by
    intro h1 h2 h3 h4
    unfold opcodeIsTerminator
    rw [decide_eq_false_iff_not]
    rintro (h | h | h | h)
    exacts [h1 h, h2 h, h3 h, h4 h]
  unfold interpretStep at hstep
  simp only [hopcode] at hstep
  by_cases hcall : mir.opcode ip = 8
  · rw [if_pos hcall] at hstep
    split at hstep
    · cases hstep
    · exact .inr (.inr ⟨by rw [hcall]; decide, (Option.some.inj hstep).symm⟩)
  rw [if_neg hcall] at hstep
  by_cases hstore : mir.opcode ip = 9
  · rw [if_pos hstore] at hstep
    exact .inr (.inr ⟨by rw [hstore]; decide, (Option.some.inj hstep).symm⟩)
  rw [if_neg hstore] at hstep
  by_cases hreturn : mir.opcode ip = 10
  · rw [if_pos hreturn] at hstep
    cases hstep
  rw [if_neg hreturn] at hstep
  by_cases hleave : mir.opcode ip = 21
  · rw [if_pos hleave] at hstep
    cases hstep
  rw [if_neg hleave] at hstep
  by_cases hjump : mir.opcode ip = 22
  · rw [if_pos hjump] at hstep
    exact .inl ⟨hjump, (Option.some.inj hstep).symm⟩
  rw [if_neg hjump] at hstep
  by_cases hbranch : mir.opcode ip = 23
  · rw [if_pos hbranch] at hstep
    refine .inr (.inl ⟨hbranch, ?_⟩)
    have hread := @read_carryEdgeValue mir ip frame hlength
    change some (if (carryEdgeValue mir frame (mir.opD ip)).read (mir.opA ip) = 0 then mir.opB ip
      else mir.opC ip) = some target at hstep
    rw [hread] at hstep
    replace hstep := Option.some.inj hstep
    split at hstep
    · exact .inl hstep.symm
    rename_i hne
    by_cases hholds : CanHold mir ip
    · exact .inr ⟨hholds, hstep.symm⟩
    · exact absurd (read_eq_zero hlength hholds) hne
  rw [if_neg hbranch] at hstep
  refine .inr (.inr ⟨hordinary hreturn hleave hjump hbranch, ?_⟩)
  split at hstep
  · exact (Option.some.inj hstep).symm
  split at hstep
  · exact (Option.some.inj hstep).symm
  · split at hstep
    · exact (Option.some.inj hstep).symm
    · exact (Option.some.inj hstep).symm

/-- A frame in which every register holds one value. -/
def uniform (mir : MirModule) (value : Int) : Frame :=
  { registers := List.replicate (mir.code.length + 1) value, locals := [] }

theorem goes_jump [Inhabited World] (hop : mir.opcode ip = 22) :
    Goes World mir ip (mir.opB ip) := by
  refine ⟨[], uniform mir 0, ⟨[], default⟩, List.length_replicate, ?_⟩
  have hopcode : (mir.instruction ip).opcode = 22 := hop
  unfold interpretStep
  simp only [hopcode]
  exact rfl

/-- Both targets of a branch, by the value of the deciding register. -/
theorem goes_branch [Inhabited World] (hop : mir.opcode ip = 23) {value : Int}
    (hval : (uniform mir value).read (branchRegister mir ip) = value) :
    Goes World mir ip (if value = 0 then mir.opB ip else mir.opC ip) := by
  refine ⟨[], uniform mir value, ⟨[], default⟩, List.length_replicate, ?_⟩
  have hopcode : (mir.instruction ip).opcode = 23 := hop
  have hread := @read_carryEdgeValue mir ip (uniform mir value) List.length_replicate
  rw [hval] at hread
  unfold interpretStep
  simp only [hopcode]
  change some (if (carryEdgeValue mir (uniform mir value) (mir.opD ip)).read (mir.opA ip) = 0 then
    mir.opB ip else mir.opC ip) = _
  rw [hread]

theorem goes_zero [Inhabited World] (hop : mir.opcode ip = 23) :
    Goes World mir ip (mir.opB ip) :=
  @goes_branch World mir ip _ hop 0 (Arena.get_replicate_default _ _)

theorem goes_nonzero [Inhabited World] (hop : mir.opcode ip = 23) (h : CanHold mir ip) :
    Goes World mir ip (mir.opC ip) := by
  have hcount : mir.instructionCount = mir.code.length := rfl
  have hlt : (branchRegister mir ip).toNat < (uniform mir 1).registers.length := by
    rw [uniform, List.length_replicate]
    have := h.2
    omega
  have hread : (uniform mir 1).read (branchRegister mir ip) = 1 :=
    (Arena.get_eq_getElem h.1 hlt).trans (List.getElem_replicate _)
  exact goes_branch hop hread

end Goes

/-! ## Neighbouring blocks -/

/-- The blocks follow one another from `start` to `stop`. -/
def Tiles (stop : Int) : Int → List Block → Prop
  | start, [] => start = stop
  | start, block :: blocks => block.start = start ∧ Tiles stop block.stop blocks

section

variable {mir : MirModule} {cfg : MirCfg}

theorem tiles_scanBlocks {function start : Int} (remaining : Nat) :
    ∀ {current ip : Int}, Tiles (ip + remaining) current
      (scanBlocks mir function start remaining current ip) := by
  induction remaining with
  | zero =>
    intro current ip
    exact ⟨rfl, (Int.add_zero ip).symm⟩
  | succ remaining ih =>
    intro current ip
    have hnext : ip + ((remaining + 1 : Nat) : Int) = ip + 1 + remaining := by omega
    rw [scanBlocks, hnext]
    split
    · exact ⟨rfl, ih⟩
    · exact ih

theorem tiles_functionBlockList (hbounded : mir.Bounded)
    (h : 0 < (mir.function function).count) :
    Tiles (mir.function function).stop (mir.function function).start
      (functionBlockList mir function) := by
  have htiles := @tiles_scanBlocks mir function (mir.function function).start
    (mir.function function).count.toNat (mir.function function).start
    (mir.function function).start
  rw [functionBlockList_eq hbounded, if_pos h, hbounded.stop_eq]
  rw [Int.toNat_of_nonneg (Int.le_of_lt h)] at htiles
  exact htiles

/-- A block stops where the next one begins, the last one at the end. -/
theorem Tiles.stop_eq {stop : Int} {blocks : List Block} : ∀ {start : Int} {k : Nat}
    {block : Block}, Tiles stop start blocks → blocks[k]? = some block →
      (∀ next, blocks[k + 1]? = some next → next.start = block.stop) ∧
      (blocks[k + 1]? = none → block.stop = stop) := by
  induction blocks with
  | nil => exact fun _ h => nomatch h
  | cons first blocks ih =>
    intro start k block htiles hblock
    cases k with
    | succ k => exact ih htiles.2 hblock
    | zero =>
      cases hblock
      cases blocks with
      | nil => exact ⟨(fun _ h => nomatch h), fun _ => htiles.2⟩
      | cons second blocks =>
        refine ⟨fun next hnext => ?_, (fun h => nomatch h)⟩
        cases hnext
        exact htiles.2.1

theorem scanBlocks_start {start : Int} {block : Block} (remaining : Nat) :
    ∀ {current ip : Int}, block ∈ scanBlocks mir function start remaining current ip →
      block.start = current ∨ beginsBlock mir start block.start = true := by
  induction remaining with
  | zero =>
    intro current ip hmem
    rw [scanBlocks, List.mem_singleton] at hmem
    exact .inl (congrArg Block.start hmem)
  | succ remaining ih =>
    intro current ip hmem
    rw [scanBlocks] at hmem
    split at hmem
    · rename_i hbegins
      rcases List.mem_cons.mp hmem with rfl | hmem
      · exact .inl rfl
      · rcases ih hmem with hstart | hstart
        · exact .inr (hstart ▸ hbegins)
        · exact .inr hstart
    · exact ih hmem

/-- `target` is the first instruction of a block: it begins its function, is a label or stands
behind a terminator. -/
def Heads (mir : MirModule) (function target : Int) : Prop :=
  target = (mir.function function).start ∨
    beginsBlock mir (mir.function function).start target = true

theorem heads_iff (hbounded : mir.Bounded) {target : Int} {block : Block}
    (hmem : block ∈ functionBlockList mir function)
    (hstart : block.start ≤ target) (hstop : target < block.stop) :
    Heads mir function target ↔ target = block.start := by
  have hwithin := functionBlockList_within hbounded hmem
  constructor
  · intro hheads
    by_cases heq : target = block.start
    · exact heq
    obtain ⟨hlabel, hterm⟩ :=
      functionBlockList_inner hbounded hmem (show block.start < target by omega) hstop
    rcases hheads with hfirst | hbegins
    · omega
    unfold beginsBlock at hbegins
    rw [decide_eq_true_eq] at hbegins
    rcases hbegins.2 with h | h
    · exact absurd h hlabel
    · rw [hterm] at h
      cases h
  · rintro rfl
    rw [functionBlockList_eq hbounded] at hmem
    split at hmem
    · exact scanBlocks_start _ hmem
    · cases hmem

theorem block_window (hcfg : Built mir cfg) (h0 : 0 ≤ function)
    (h1 : function < mir.functionCount) {index : Int} (hindex0 : 0 ≤ index)
    (hindex1 : index < cfg.blockCount) (hfun : (cfg.block index).function = function) :
    ∃ k : Nat, index = cfg.firstBlock function + k ∧
      (functionBlockList mir function)[k]? = some (cfg.block index) := by
  have hwindow := allBlocks_window h0 h1
  have hblocks := buildMirCfg_blocks hcfg
  have hat : (allBlocks mir)[index.toNat]? = some (cfg.block index) := by
    rw [blockCount_eq hcfg] at hindex1
    rw [← hblocks, MirCfg.block, Arena.get_eq_getElem hindex0 (by omega), List.getElem?_eq_getElem]
  have hof : ∀ {functions : List Int}, cfg.block index ∈
      functions.flatMap (functionBlockList mir) → function ∈ functions := by
    intro functions hmem
    obtain ⟨other, hother, hin⟩ := List.mem_flatMap.mp hmem
    rw [← hfun, (functionBlockList_within hcfg.bounded hin).2.2.2]
    exact hother
  have hfirst := firstBlock_eq hcfg h0 h1
  rw [hwindow] at hat
  by_cases hfront : index.toNat < ((Arena.range 0 function).flatMap (functionBlockList mir)).length
  · rw [List.getElem?_append_left hfront] at hat
    have hmem := hof (List.mem_of_getElem? hat)
    rw [Arena.mem_range] at hmem
    omega
  · rw [List.getElem?_append_right (by omega)] at hat
    refine ⟨index.toNat - ((Arena.range 0 function).flatMap (functionBlockList mir)).length,
      by omega, ?_⟩
    by_cases hin : index.toNat - ((Arena.range 0 function).flatMap (functionBlockList mir)).length <
          (functionBlockList mir function).length
    · rwa [List.getElem?_append_left hin] at hat
    rw [List.getElem?_append_right (by omega)] at hat
    have hmem := hof (List.mem_of_getElem? hat)
    rw [Arena.mem_range] at hmem
    omega

/-- **The next block of a function** begins where the last one stops, and the function ends with
its last block. -/
theorem next_block (hcfg : Built mir cfg) {index : Int} (h0 : 0 ≤ index)
    (h1 : index < cfg.blockCount) :
    (index + 1 < cfg.blockCount ∧
        (cfg.block (index + 1)).function = (cfg.block index).function ∧
        (cfg.block (index + 1)).start = (cfg.block index).stop) ∨
      (cfg.block index).stop = (mir.function (cfg.block index).function).stop := by
  obtain ⟨hf0, hf1, hmem⟩ := function_of_block hcfg h0 h1
  obtain ⟨k, hk, hat⟩ := block_window hcfg hf0 hf1 h0 h1 rfl
  obtain ⟨hle0, hle1⟩ := functionBlocks_le hcfg hf0 hf1
  have hcount := functionBlockCount_eq hcfg hf0 hf1
  have hpos : 0 < (mir.function (cfg.block index).function).count := by
    have hwithin := functionBlockList_within hcfg.bounded hmem
    have hnonempty := functionBlockList_nonempty hcfg.bounded hmem
    have hstop := hcfg.bounded.stop_eq (cfg.block index).function
    omega
  obtain ⟨hnext, hlast⟩ := (tiles_functionBlockList hcfg.bounded hpos).stop_eq hat
  cases hsecond : (functionBlockList mir (cfg.block index).function)[k + 1]? with
  | none => exact .inr (hlast hsecond)
  | some next =>
    have hlt := (List.getElem?_eq_some_iff.mp hsecond).1
    have hin : index + 1 < cfg.blockCount := by omega
    have hnextMem := @block_mem_function _ _ hcfg _ hf0 hf1 (index + 1) (by omega) (by omega)
    have hsame := (functionBlockList_within hcfg.bounded hnextMem).2.2.2
    obtain ⟨m, hm, hatNext⟩ := block_window hcfg hf0 hf1 (by omega) hin hsame
    obtain rfl : m = k + 1 := by omega
    rw [hsecond] at hatNext
    cases hatNext
    exact .inl ⟨hin, hsame, hnext _ hsecond⟩

/-! ## Exactness -/

/-- The graph has the step from `ip` to `target`: inside the block of `ip`, or from its last
instruction to the first one of a successor. -/
def Follows (cfg : MirCfg) (ip target : Int) : Prop :=
  let index := cfg.blockForInstruction ip
  (0 ≤ index ∧ index < cfg.blockCount ∧ (cfg.block index).start ≤ ip ∧
    ip < (cfg.block index).stop) ∧
  ((target = ip + 1 ∧ target < (cfg.block index).stop) ∨
    (ip + 1 = (cfg.block index).stop ∧ ∃ successor,
      (successor = Arena.get cfg.successorA index ∨ successor = Arena.get cfg.successorB index) ∧
        0 ≤ successor ∧ successor < cfg.blockCount ∧ target = (cfg.block successor).start))

/-- The graph is exact for execution. -/
structure Exact (World : Type) (mir : MirModule) (cfg : MirCfg) : Prop where
  steps : ∀ function ip target : Int, instructionInFunction mir function ip = true →
    instructionInFunction mir function target = true → Goes World mir ip target →
      Follows cfg ip target
  predecessors : ∀ candidate block : Int, 0 ≤ candidate → candidate < cfg.blockCount →
    0 ≤ block → block < cfg.blockCount →
      (cfg.predecessors block).count candidate =
        [Arena.get cfg.successorA candidate, Arena.get cfg.successorB candidate].count block
  nothing_else : ∀ block : Int, 0 ≤ block → block < cfg.blockCount →
    ∀ candidate ∈ cfg.predecessors block,
      0 ≤ candidate ∧ candidate < cfg.blockCount

/-- Every branch that can be taken leads to the first instruction of a block. -/
def BranchesToHeads (mir : MirModule) : Prop :=
  ∀ function ip : Int, instructionInFunction mir function ip = true →
    (mir.opcode ip = 22 ∨ mir.opcode ip = 23 → Heads mir function (mir.opB ip)) ∧
    (mir.opcode ip = 23 → CanHold mir ip → Heads mir function (mir.opC ip))

section

variable (h : Verified mir) (hcfg : Built mir cfg)

include h hcfg

/-- The block around the target of a branch begins with it, or the branch goes to the middle. -/
theorem target_block {target : Int} (hin : instructionInFunction mir function target = true) :
    0 ≤ cfg.blockForInstruction target ∧ cfg.blockForInstruction target < cfg.blockCount ∧
      (Heads mir function target ↔
        target = (cfg.block (cfg.blockForInstruction target)).start) := by
  unfold instructionInFunction at hin
  rw [decide_eq_true_eq] at hin
  obtain ⟨hge, hlt, hmem, hstart, hstop⟩ :=
    blockForInstruction_of_verified h hcfg hin.1 hin.2.1 hin.2.2.1 hin.2.2.2
  exact ⟨hge, hlt, heads_iff hcfg.bounded hmem hstart hstop⟩

/-- A branch is the last instruction of its block. Its step follows the graph if and only if its
target heads a block. -/
theorem follows_branch {ip target : Int} (hip : instructionInFunction mir function ip = true)
    (hin : instructionInFunction mir function target = true) (hedge : (mir.opcode ip = 22 ∨
    mir.opcode ip = 23) ∧ target = mir.opB ip ∨ mir.opcode ip = 23 ∧ target = mir.opC ip)
    (hhead : Heads mir function target) : Follows cfg ip target := by
  have hplace := hip
  unfold instructionInFunction at hplace
  rw [decide_eq_true_eq] at hplace
  obtain ⟨hge, hlt, hmem, hstart, hstop⟩ :=
    blockForInstruction_of_verified h hcfg hplace.1 hplace.2.1 hplace.2.2.1 hplace.2.2.2
  have hterm : opcodeIsTerminator (mir.opcode ip) = true := by
    unfold opcodeIsTerminator
    rw [decide_eq_true_eq]
    rcases hedge with ⟨h | h, -⟩ | ⟨h, -⟩
    · exact .inr (.inr (.inl h))
    · exact .inr (.inr (.inr h))
    · exact .inr (.inr (.inr h))
  have hlast := terminator_last hcfg.bounded hmem hstart hstop hterm
  obtain ⟨hto0, hto1, hheads⟩ := target_block h hcfg hin
  have hsucceeds := succeeds_of_built hcfg hge hlt
  have hend : (cfg.block (cfg.blockForInstruction ip)).stop - 1 = ip := by omega
  refine ⟨⟨hge, hlt, hstart, hstop⟩, .inr ⟨hlast.symm, cfg.blockForInstruction target, ?_,
    hto0, hto1, hheads.mp hhead⟩⟩
  generalize Arena.get cfg.successorA (cfg.blockForInstruction ip) = first at hsucceeds
  generalize Arena.get cfg.successorB (cfg.blockForInstruction ip) = second at hsucceeds
  cases hsucceeds with
  | jump hop htarget =>
    rw [hend] at hop htarget
    rcases hedge with ⟨-, rfl⟩ | ⟨hop', -⟩
    · exact .inl (by rw [htarget])
    · omega
  | branch hop hzero hnot =>
    rw [hend] at hzero hnot
    rcases hedge with ⟨-, rfl⟩ | ⟨-, rfl⟩
    · exact .inl (by rw [hzero])
    · exact .inr (by rw [hnot])
  | leave _ hbranch =>
    rw [hend] at hbranch
    unfold opcodeIsBranch at hbranch
    rw [decide_eq_false_iff_not] at hbranch
    omega
  | fall hnot =>
    rw [hend, hterm] at hnot
    cases hnot
  | last hnot =>
    rw [hend, hterm] at hnot
    cases hnot

/-- The converse: a step from a branch goes to the beginning of a block. -/
theorem heads_of_follows {ip target : Int} (hip : instructionInFunction mir function ip = true)
    (hin : instructionInFunction mir function target = true)
    (hterm : opcodeIsTerminator (mir.opcode ip) = true) (hfollows : Follows cfg ip target) :
    Heads mir function target := by
  have hplace := hip
  unfold instructionInFunction at hplace hin
  rw [decide_eq_true_eq] at hplace hin
  obtain ⟨hge, hlt, hmem, hstart, hstop⟩ :=
    blockForInstruction_of_verified h hcfg hplace.1 hplace.2.1 hplace.2.2.1 hplace.2.2.2
  have hlast := terminator_last hcfg.bounded hmem hstart hstop hterm
  rcases hfollows.2 with ⟨rfl, hinside⟩ | ⟨-, successor, -, hs0, hs1, rfl⟩
  · omega
  obtain ⟨hf0, hf1, hother⟩ := function_of_block hcfg hs0 hs1
  have hwithin := functionBlockList_within hcfg.bounded hother
  have hnonempty := functionBlockList_nonempty hcfg.bounded hother
  have hsame := ranges_disjoint h hf0 hf1 hin.1 hin.2.1
    ⟨hwithin.1, Int.lt_of_lt_of_le hnonempty hwithin.2.2.1⟩ hin.2.2
  rw [hsame] at hother
  exact (heads_iff hcfg.bounded hother (Int.le_refl _) hnonempty).mpr rfl

/-- An instruction that does not branch goes on in its block or to the next one. -/
theorem follows_next {ip : Int} (hip : instructionInFunction mir function ip = true)
    (hin : instructionInFunction mir function (ip + 1) = true)
    (hterm : opcodeIsTerminator (mir.opcode ip) = false) : Follows cfg ip (ip + 1) := by
  unfold instructionInFunction at hip hin
  rw [decide_eq_true_eq] at hip hin
  obtain ⟨hge, hlt, hmem, hstart, hstop⟩ :=
    blockForInstruction_of_verified h hcfg hip.1 hip.2.1 hip.2.2.1 hip.2.2.2
  refine ⟨⟨hge, hlt, hstart, hstop⟩, ?_⟩
  by_cases hinside : ip + 1 < (cfg.block (cfg.blockForInstruction ip)).stop
  · exact .inl ⟨rfl, hinside⟩
  have hlast : ip + 1 = (cfg.block (cfg.blockForInstruction ip)).stop := by omega
  have hfun := (functionBlockList_within hcfg.bounded hmem).2.2.2
  have hend : (cfg.block (cfg.blockForInstruction ip)).stop - 1 = ip := by omega
  rcases next_block hcfg hge hlt with ⟨hnext, hsame, hadjacent⟩ | hend'
  · have hsucceeds := succeeds_of_built hcfg hge hlt
    have hfall : Arena.get cfg.successorA (cfg.blockForInstruction ip) =
        cfg.blockForInstruction ip + 1 := by
      generalize Arena.get cfg.successorA (cfg.blockForInstruction ip) = first at hsucceeds
      generalize Arena.get cfg.successorB (cfg.blockForInstruction ip) = second at hsucceeds
      cases hsucceeds with
      | jump hop =>
        rw [hend] at hop
        rw [hop] at hterm
        exact absurd hterm (by decide)
      | branch hop =>
        rw [hend] at hop
        rw [hop] at hterm
        exact absurd hterm (by decide)
      | leave hleave =>
        rw [hend, hterm] at hleave
        cases hleave
      | fall => rfl
      | last _ hnone => exact absurd ⟨hnext, hsame⟩ hnone
    exact .inr ⟨hlast, _, .inl rfl, by omega, by omega,
      by rw [hfall, hadjacent]; exact hlast⟩
  · rw [hfun] at hend'
    omega

end

end

/-- A label and a jump back to it. -/
def jumpToLabel : MirModule :=
  { functions := [{ start := 0, count := 2 }]
    code := [{ opcode := 24 }, { opcode := 22, b := 0, c := -1 }] }

/-- Two constants and a jump to the second one, in one block. -/
def jumpIntoBlock : MirModule :=
  { functions := [{ start := 0, count := 3 }]
    code := [{ opcode := 1, a := 7 }, { opcode := 1, a := 8 }, { opcode := 22, b := 1, c := -1 }] }

end Raz.Mir
