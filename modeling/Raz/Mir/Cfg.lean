import Raz.Lib.Buckets
import Raz.Mir.Model

/-!
# The control-flow graph of a module

Translation of `raz_mir/src/mir/analysis/cfg.rz`. Branch targets stay instruction indices;
the graph maps them to block indices. Blocks of all functions share one numbering, the
blocks of one function are consecutive. The tables have a fixed number of cells: what is written
beyond them is lost.

Result: `Built`: the graphs whose tables hold all blocks.
-/

namespace Raz.Mir

open List Arena

def opcodeIsTerminator (opcode : Int) : Bool :=
  opcode = 10 ∨ opcode = 21 ∨ opcode = 22 ∨ opcode = 23

def opcodeIsBranch (opcode : Int) : Bool := opcode = 22 ∨ opcode = 23

/-- A basic block: instructions `start ≤ ip < stop` of `function`. -/
structure Block where
  start : Int
  stop : Int
  function : Int
  deriving DecidableEq, Repr

instance : Inhabited Block := ⟨⟨0, 0, 0⟩⟩

/-- `predecessor_counts`, `predecessor_starts` and `predecessors`. -/
structure PredecessorTables where
  counts : List Int
  starts : List Int
  cells : List Int
  deriving DecidableEq, Repr

/-- `MirCfg`. Successors are block indices or `-1`; `functionBlocks` holds the first block
and the number of blocks of every function. -/
structure MirCfg where
  blockCount : Int
  blocks : List Block
  instructionBlocks : List Int
  successorA : List Int
  successorB : List Int
  incoming : PredecessorTables
  functionBlocks : List (Int × Int)
  deriving DecidableEq, Repr

def MirCfg.block (cfg : MirCfg) (index : Int) : Block := Arena.get cfg.blocks index

def instructionInFunction (mir : MirModule) (function ip : Int) : Bool :=
  0 ≤ function ∧ function < mir.functionCount ∧ (mir.function function).start ≤ ip ∧
    ip < (mir.function function).stop

def branchTargetValid (mir : MirModule) (function target : Int) : Bool :=
  instructionInFunction mir function target

def MirCfg.blockForInstruction (cfg : MirCfg) (ip : Int) : Int :=
  if ip < 0 then -1 else Arena.get cfg.instructionBlocks ip

/-! ## Blocks -/

def beginsBlock (mir : MirModule) (start ip : Int) : Bool :=
  ip > start ∧ (mir.opcode ip = 24 ∨ opcodeIsTerminator (mir.opcode (ip - 1)))

/-- The scan over one function's instructions from `ip` on, inside the block that began at
`current`. -/
def scanBlocks (mir : MirModule) (function start : Int) : Nat → Int → Int → List Block
  | 0, current, ip => [⟨current, ip, function⟩]
  | remaining + 1, current, ip =>
      if beginsBlock mir start ip then
        ⟨current, ip, function⟩ :: scanBlocks mir function start remaining ip (ip + 1)
      else scanBlocks mir function start remaining current (ip + 1)

def functionBlockList (mir : MirModule) (function : Int) : List Block :=
  let f := mir.function function
  if f.count > 0 then
    if f.start < f.stop then
      scanBlocks mir function f.start (f.stop - f.start).toNat f.start f.start
    -- The end has wrapped around: the block has no instructions.
    else [⟨f.start, f.stop, function⟩]
  else []

def allBlocks (mir : MirModule) : List Block :=
  (Arena.range 0 mir.functionCount).flatMap (functionBlockList mir)

/-- The table filled while blocks are created: a later block overwrites an earlier one, and
an instruction of no function keeps the arena's zero. -/
def mapInstructions (blocks : List Block) (instructionCount : Int) : List Int :=
  Arena.scatter
    (blocks.zipIdx.flatMap (fun entry =>
      (Arena.range entry.1.start entry.1.stop).map (fun ip => (ip, (entry.2 : Int)))))
    Prod.fst Prod.snd (List.replicate (instructionCount + 1).toNat 0)

/-- First block and block count of every function. -/
def countBlocks (mir : MirModule) : List (Int × Int) :=
  (Arena.range 0 mir.functionCount).map (fun function =>
    ((((Arena.range 0 function).flatMap (functionBlockList mir)).length : Int),
      ((functionBlockList mir function).length : Int)))

/-! ## Edges -/

/-- Both successors of `block`, `none` when a branch leaves its function. -/
def blockSuccessors (mir : MirModule) (blocks : List Block) (blockCount : Int)
    (instructionBlocks : List Int) (index : Int) : Option (Int × Int) :=
  let block := Arena.get blocks index
  let lookup (target : Int) : Int :=
    if target < 0 then -1 else Arena.get instructionBlocks target
  if block.stop > block.start then
    let terminator := block.stop - 1
    let opcode := mir.opcode terminator
    if opcode = 22 then
      if branchTargetValid mir block.function (mir.opB terminator) then
        some (lookup (mir.opB terminator), -1)
      else none
    else if opcode = 23 then
      if branchTargetValid mir block.function (mir.opB terminator) ∧
          branchTargetValid mir block.function (mir.opC terminator) then
        some (lookup (mir.opB terminator), lookup (mir.opC terminator))
      else none
    else if opcodeIsTerminator opcode then some (-1, -1)
    else if index + 1 < blockCount ∧
        (Arena.get blocks (index + 1)).function = block.function then
      some (index + 1, -1)
    else some (-1, -1)
  else some (-1, -1)

/-- The cells of a table with one row for each block. -/
def blockCapacity (mir : MirModule) : Nat := mir.code.length + mir.functions.length + 1

/-- Successor and block of every edge, in the order of the blocks. -/
def edges (blockCount : Int) (successorA successorB : List Int) : List (Int × Int) :=
  ((Arena.range 0 blockCount).flatMap (fun block =>
    [(Arena.get successorA block, block), (Arena.get successorB block, block)])).filter
      (fun edge => edge.1 ≥ 0)

/-- Incoming edges are counted while they are set, and put into one table when all are there. -/
def collectPredecessors (capacity blockCount : Nat) (counted collected : List (Int × Int)) :
    PredecessorTables :=
  let counts := Buckets.tally Prod.fst counted (List.replicate capacity 0)
  let starts := Buckets.offsets counts blockCount 0 0 (List.replicate (capacity + 1) 0)
  let fills := List.replicate (blockCount + 1) 0
  { counts, starts
    cells := (Buckets.distribute starts Prod.fst Prod.snd collected
      (List.replicate (capacity * 2 + 1) 0, fills)).1 }

def buildMirCfg (mir : MirModule) : Option MirCfg := do
  let capacity := blockCapacity mir
  let count := (allBlocks mir).length
  let blocks := (allBlocks mir).take capacity
  let instructionBlocks := mapInstructions (allBlocks mir) mir.instructionCount
  let successors ←
    (Arena.range 0 count).mapM (blockSuccessors mir blocks count instructionBlocks)
  let successorA := successors.map Prod.fst
  let successorB := successors.map Prod.snd
  return { blockCount := count, blocks, instructionBlocks
           successorA := successorA.take capacity, successorB := successorB.take capacity
           incoming := collectPredecessors capacity count (edges count successorA successorB)
             (edges count (successorA.take capacity) (successorB.take capacity))
           functionBlocks := countBlocks mir }

/-- The entries of a block: `predecessor_counts` cells from `predecessor_starts` on. -/
def MirCfg.predecessors (cfg : MirCfg) (block : Int) : List Int :=
  Buckets.group cfg.incoming.cells cfg.incoming.starts cfg.incoming.counts block

def MirCfg.firstBlock (cfg : MirCfg) (function : Int) : Int :=
  (Arena.get cfg.functionBlocks function).1

def MirCfg.functionBlockCount (cfg : MirCfg) (function : Int) : Int :=
  (Arena.get cfg.functionBlocks function).2

/-! ## Facts about the graph -/

/-- A graph of a module without wrapped ranges whose tables hold all blocks. -/
structure Built (mir : MirModule) (cfg : MirCfg) : Prop where
  built : buildMirCfg mir = some cfg
  bounded : mir.Bounded
  fits : (allBlocks mir).length ≤ blockCapacity mir

theorem scanBlocks_within {mir : MirModule} {function start : Int} (remaining : Nat) :
    ∀ {current ip : Int} {block : Block}, current ≤ ip →
      block ∈ scanBlocks mir function start remaining current ip →
      current ≤ block.start ∧ block.start ≤ block.stop ∧ block.stop ≤ ip + remaining ∧
        block.function = function := by
  induction remaining with
  | zero =>
    intro current ip block hle hmem
    rw [scanBlocks, mem_singleton] at hmem
    subst hmem
    exact ⟨Int.le_refl _, hle, by simp, rfl⟩
  | succ remaining ih =>
    intro current ip block hle hmem
    unfold scanBlocks at hmem
    split at hmem
    · rcases mem_cons.mp hmem with rfl | hmem
      · exact ⟨Int.le_refl _, hle, by simp only; omega, rfl⟩
      · obtain ⟨h1, h2, h3, h4⟩ := ih (by omega) hmem
        exact ⟨by omega, h2, by omega, h4⟩
    · obtain ⟨h1, h2, h3, h4⟩ := ih (by omega) hmem
      exact ⟨by omega, h2, by omega, h4⟩

theorem functionBlockList_eq {mir : MirModule} (hbounded : mir.Bounded) (function : Int) :
    functionBlockList mir function =
      if (mir.function function).count > 0 then
        scanBlocks mir function (mir.function function).start
          (mir.function function).count.toNat (mir.function function).start
          (mir.function function).start
      else [] := by
  have hstop := hbounded.stop_eq function
  unfold functionBlockList
  simp only
  split
  · rw [if_pos (by omega), hstop, add_sub_cancel_left]
  · rfl

theorem functionBlockList_within {mir : MirModule} (hbounded : mir.Bounded) {function : Int}
    {block : Block} (h : block ∈ functionBlockList mir function) :
    (mir.function function).start ≤ block.start ∧ block.start ≤ block.stop ∧
      block.stop ≤ (mir.function function).stop ∧ block.function = function := by
  have hstop := hbounded.stop_eq function
  rw [functionBlockList_eq hbounded] at h
  split at h
  · obtain ⟨h1, h2, h3, h4⟩ := scanBlocks_within _ (Int.le_refl _) h
    exact ⟨h1, h2, by omega, h4⟩
  · cases h

theorem scanBlocks_nonempty {mir : MirModule} {function start : Int} (remaining : Nat) :
    ∀ {current ip : Int} {block : Block}, current < ip →
      block ∈ scanBlocks mir function start remaining current ip →
      block.start < block.stop := by
  induction remaining with
  | zero =>
    intro current ip block hlt hmem
    rw [scanBlocks, mem_singleton] at hmem
    subst hmem
    exact hlt
  | succ remaining ih =>
    intro current ip block hlt hmem
    unfold scanBlocks at hmem
    split at hmem
    · rcases mem_cons.mp hmem with rfl | hmem
      · exact hlt
      · exact ih (by omega) hmem
    · exact ih (by omega) hmem

theorem functionBlockList_nonempty {mir : MirModule} (hbounded : mir.Bounded) {function : Int}
    {block : Block} (h : block ∈ functionBlockList mir function) : block.start < block.stop := by
  rw [functionBlockList_eq hbounded] at h
  split at h
  · rename_i hcount
    obtain ⟨count, hn⟩ : ∃ count, (mir.function function).count.toNat = count + 1 :=
      ⟨(mir.function function).count.toNat - 1, by omega⟩
    rw [hn, scanBlocks, if_neg (by simp [beginsBlock])] at h
    exact scanBlocks_nonempty count (by omega) h
  · cases h

/-- Inside a block no instruction is a label or follows a terminator. -/
theorem scanBlocks_inner {mir : MirModule} {function start : Int} (remaining : Nat) :
    ∀ {current ip : Int} {block : Block}, start ≤ current →
      (∀ k, current < k → k < ip → beginsBlock mir start k = false) →
      block ∈ scanBlocks mir function start remaining current ip →
      ∀ k, block.start < k → k < block.stop → beginsBlock mir start k = false := by
  induction remaining with
  | zero =>
    intro current ip block _ hinner hmem
    rw [scanBlocks, mem_singleton] at hmem
    subst hmem
    exact hinner
  | succ remaining ih =>
    intro current ip block hle hinner hmem
    unfold scanBlocks at hmem
    split at hmem <;> rename_i hbegins
    · have hstart : start < ip := by
        unfold beginsBlock at hbegins
        rw [decide_eq_true_eq] at hbegins
        exact hbegins.1
      rcases mem_cons.mp hmem with rfl | hmem
      · exact hinner
      · exact ih (Int.le_of_lt hstart) (fun k h1 h2 => absurd h2 (by omega)) hmem
    · refine ih hle (fun k h1 h2 => ?_) hmem
      by_cases heq : k = ip
      · exact heq ▸ Bool.eq_false_iff.mpr hbegins
      · exact hinner k h1 (by omega)

theorem functionBlockList_inner {mir : MirModule} (hbounded : mir.Bounded) {function : Int}
    {block : Block} (h : block ∈ functionBlockList mir function) {ip : Int} (h0 : block.start < ip)
    (h1 : ip < block.stop) :
    mir.opcode ip ≠ 24 ∧ opcodeIsTerminator (mir.opcode (ip - 1)) = false := by
  have hwithin := functionBlockList_within hbounded h
  rw [functionBlockList_eq hbounded] at h
  split at h
  · have hbegins := scanBlocks_inner _ (Int.le_refl _) (fun k h1 h2 => absurd h2 (by omega)) h
      ip h0 h1
    unfold beginsBlock at hbegins
    rw [decide_eq_false_iff_not] at hbegins
    refine ⟨fun hop => hbegins ⟨by omega, .inl hop⟩, ?_⟩
    exact Bool.eq_false_iff.mpr (fun hterm => hbegins ⟨by omega, .inr hterm⟩)
  · cases h

theorem scanBlocks_cover {mir : MirModule} {function start : Int} (remaining : Nat) :
    ∀ {current ip k : Int}, current ≤ k → k < ip + remaining →
      ∃ block ∈ scanBlocks mir function start remaining current ip,
        block.start ≤ k ∧ k < block.stop := by
  induction remaining with
  | zero =>
    intro current ip k hge hlt
    exact ⟨⟨current, ip, function⟩, mem_singleton_self _, hge, by simpa using hlt⟩
  | succ remaining ih =>
    intro current ip k hge hlt
    unfold scanBlocks
    split
    · by_cases hk : k < ip
      · exact ⟨⟨current, ip, function⟩, mem_cons_self, hge, hk⟩
      · obtain ⟨block, hmem, hin⟩ := ih (show ip ≤ k by omega)
          (show k < ip + 1 + remaining by omega)
        exact ⟨block, mem_cons_of_mem _ hmem, hin⟩
    · exact ih hge (by omega)

theorem functionBlockList_cover {mir : MirModule} (hbounded : mir.Bounded) {function ip : Int}
    (h0 : (mir.function function).start ≤ ip) (h1 : ip < (mir.function function).stop) :
    ∃ block ∈ functionBlockList mir function, block.start ≤ ip ∧ ip < block.stop := by
  rw [hbounded.stop_eq] at h1
  rw [functionBlockList_eq hbounded, if_pos (by omega)]
  exact scanBlocks_cover _ h0 (by omega)

theorem mem_allBlocks {mir : MirModule} {block : Block} :
    block ∈ allBlocks mir ↔
      ∃ function, 0 ≤ function ∧ function < mir.functionCount ∧
        block ∈ functionBlockList mir function := by
  simp [allBlocks, Arena.mem_range, and_assoc]

section Built

variable {mir : MirModule} {cfg : MirCfg}

/-- Nothing is lost: the tables are those of all blocks. -/
theorem Built.eq (h : Built mir cfg) : ∃ successors,
    (Arena.range 0 (allBlocks mir).length).mapM (blockSuccessors mir (allBlocks mir)
        (allBlocks mir).length (mapInstructions (allBlocks mir) mir.instructionCount)) =
      some successors ∧
    cfg =
      { blockCount := (allBlocks mir).length, blocks := allBlocks mir
        instructionBlocks := mapInstructions (allBlocks mir) mir.instructionCount
        successorA := successors.map Prod.fst, successorB := successors.map Prod.snd
        incoming := collectPredecessors (blockCapacity mir) (allBlocks mir).length
          (edges (allBlocks mir).length (successors.map Prod.fst) (successors.map Prod.snd))
          (edges (allBlocks mir).length (successors.map Prod.fst) (successors.map Prod.snd))
        functionBlocks := countBlocks mir } := by
  obtain ⟨hbuilt, -, hfits⟩ := h
  simp only [buildMirCfg, take_of_length_le hfits] at hbuilt
  obtain ⟨successors, hsuccessors, hcfg⟩ := Option.bind_eq_some_iff.mp hbuilt
  have hlen := (Arena.mapM_getElem? _ hsuccessors).1
  rw [Arena.length_range] at hlen
  have hkeep : ∀ side : Int × Int → Int,
      (successors.map side).take (blockCapacity mir) = successors.map side := fun side =>
    take_of_length_le (by rw [length_map]; omega)
  rw [hkeep, hkeep] at hcfg
  exact ⟨successors, hsuccessors, (Option.some.inj hcfg).symm⟩

theorem buildMirCfg_blocks (h : Built mir cfg) : cfg.blocks = allBlocks mir := by
  obtain ⟨_, -, rfl⟩ := h.eq
  rfl

theorem blockCount_eq (h : Built mir cfg) : cfg.blockCount = cfg.blocks.length := by
  obtain ⟨_, -, rfl⟩ := h.eq
  rfl

theorem buildMirCfg_functionBlocks (h : Built mir cfg) : cfg.functionBlocks = countBlocks mir := by
  obtain ⟨_, -, rfl⟩ := h.eq
  rfl

theorem countBlocks_get {function : Int} (h0 : 0 ≤ function) (h1 : function < mir.functionCount) :
    Arena.get (countBlocks mir) function =
      ((((Arena.range 0 function).flatMap (functionBlockList mir)).length : Int),
        ((functionBlockList mir function).length : Int)) := by
  have hlen : function.toNat < (countBlocks mir).length := by
    simp only [countBlocks, length_map, Arena.length_range]
    omega
  rw [get_eq_getElem h0 hlen]
  simp only [countBlocks, getElem_map, Arena.getElem_range]
  rw [show (0 : Int) + (function.toNat : Int) = function by omega]

/-- The blocks of a function, as a window of the common numbering. -/
theorem allBlocks_window {function : Int} (h0 : 0 ≤ function) (h1 : function < mir.functionCount) :
    allBlocks mir = (Arena.range 0 function).flatMap (functionBlockList mir) ++
      (functionBlockList mir function ++
        (Arena.range (function + 1) mir.functionCount).flatMap (functionBlockList mir)) := by
  rw [allBlocks, range_append h0 (Int.le_of_lt h1), flatMap_append, range_cons h1, flatMap_cons]

section

variable {function : Int} (h : Built mir cfg) (h0 : 0 ≤ function)
  (h1 : function < mir.functionCount)

include h h0 h1

theorem firstBlock_eq :
    cfg.firstBlock function =
      ((Arena.range 0 function).flatMap (functionBlockList mir)).length := by
  rw [MirCfg.firstBlock, buildMirCfg_functionBlocks h, countBlocks_get h0 h1]

theorem functionBlockCount_eq :
    cfg.functionBlockCount function = (functionBlockList mir function).length := by
  rw [MirCfg.functionBlockCount, buildMirCfg_functionBlocks h, countBlocks_get h0 h1]

end

section

variable (h : Built mir cfg)

include h

theorem block_mem_function {function : Int}
    (h0 : 0 ≤ function) (h1 : function < mir.functionCount) {index : Int}
    (hge : cfg.firstBlock function ≤ index)
    (hlt : index < cfg.firstBlock function + cfg.functionBlockCount function) :
    cfg.block index ∈ functionBlockList mir function := by
  rw [firstBlock_eq h h0 h1] at hge hlt
  rw [functionBlockCount_eq h h0 h1] at hlt
  have hwindow := allBlocks_window h0 h1
  have hnat : index.toNat < (allBlocks mir).length := by
    rw [hwindow]
    simp only [length_append]
    omega
  rw [MirCfg.block, buildMirCfg_blocks h, get_eq_getElem (by omega) hnat]
  simp only [hwindow]
  rw [getElem_append_right (by omega), getElem_append_left (by omega)]
  exact getElem_mem _

theorem functionBlocks_le {function : Int}
    (h0 : 0 ≤ function) (h1 : function < mir.functionCount) :
    0 ≤ cfg.firstBlock function ∧
      cfg.firstBlock function + cfg.functionBlockCount function ≤ cfg.blockCount := by
  have hlen := congrArg List.length (allBlocks_window h0 h1)
  rw [firstBlock_eq h h0 h1, functionBlockCount_eq h h0 h1, blockCount_eq h, buildMirCfg_blocks h]
  simp only [length_append] at hlen
  omega

theorem buildMirCfg_instructionBlocks :
    cfg.instructionBlocks = mapInstructions (allBlocks mir) mir.instructionCount := by
  obtain ⟨_, -, rfl⟩ := h.eq
  rfl

/-- The block map sends an instruction of a block to a block that contains it. -/
theorem blockForInstruction_spec {block : Block} {ip : Int}
    (hmem : block ∈ cfg.blocks) (hstart : block.start ≤ ip) (hstop : ip < block.stop)
    (h0 : 0 ≤ ip) (h1 : ip < mir.instructionCount) :
    0 ≤ cfg.blockForInstruction ip ∧ cfg.blockForInstruction ip < cfg.blockCount ∧
      (cfg.block (cfg.blockForInstruction ip)).start ≤ ip ∧
      ip < (cfg.block (cfg.blockForInstruction ip)).stop := by
  have hlen : ip < (List.replicate (mir.instructionCount + 1).toNat (0 : Int)).length := by
    rw [length_replicate]
    omega
  have hblocks := buildMirCfg_blocks h
  rw [MirCfg.blockForInstruction, if_neg (by omega), buildMirCfg_instructionBlocks h]
  rcases get_scatter ((allBlocks mir).zipIdx.flatMap (fun entry =>
      (range entry.1.start entry.1.stop).map (fun ip => (ip, (entry.2 : Int)))))
    Prod.fst Prod.snd h0 _ hlen with ⟨item, hitem, hkey, hget⟩ | ⟨hnone, _⟩
  · obtain ⟨entry, hentry, hin⟩ := mem_flatMap.mp hitem
    obtain ⟨k, hk, rfl⟩ := mem_map.mp hin
    have hidx := mk_mem_zipIdx_iff_getElem?.mp hentry
    obtain ⟨hlt, hat⟩ := List.getElem?_eq_some_iff.mp hidx
    rw [Arena.mem_range] at hk
    rw [mapInstructions, hget, blockCount_eq h, MirCfg.block, hblocks,
      get_eq_some (by omega) (by simpa using hidx)]
    omega
  · exfalso
    rw [hblocks] at hmem
    obtain ⟨index, hlt, hat⟩ := getElem_of_mem hmem
    refine hnone (ip, (index : Int)) (mem_flatMap.mpr ⟨(block, index), ?_, ?_⟩) rfl
    · exact mk_mem_zipIdx_iff_getElem?.mpr (by rw [List.getElem?_eq_getElem hlt, hat])
    · exact mem_map.mpr ⟨ip, mem_range.mpr ⟨hstart, hstop⟩, rfl⟩

end

end Built

end Raz.Mir
