import Raz.Lib.Worklist
import Raz.Mir.Cfg

/-!
# The ownership verifier

Translation of `raz_borrowck`: place and reference checks, ownership paths, the whole-local
and the projected move analyses. Both analyses run the same worklist over the blocks of one
function, with their own states. The loan analyses are in `Raz.Borrowck.Loans`.
-/

namespace Raz.Borrowck

open Raz.Mir

/-! ## Places, references and drops -/

def verifyMirLocalPlaces (mir : MirModule) : Bool :=
  mir.functions.all (fun f =>
    (Arena.range f.start f.stop).all (fun ip =>
      let opcode := mir.opcode ip
      if opcode = 3 ∨ opcode = 9 ∨ opcode = 25 ∨ opcode = 33 then
        ¬ (mir.opA ip < 0 ∨ mir.opA ip ≥ f.localCount)
      else true))

def verifyMirReferenceSources (mir : MirModule) : Bool :=
  (Arena.range 0 mir.instructionCount).all (fun ip =>
    let opcode := mir.opcode ip
    (if opcode = 49 then ¬ (mir.opA ip < 0 ∨ mir.opA ip ≥ mir.globalCount) else true) &&
    (if opcode = 26 ∨ opcode = 27 then ¬ (mir.opA ip < 0 ∨ mir.opA ip ≥ mir.instructionCount)
      else true))

def verifyMirDropAnnotations (mir : MirModule) : Bool :=
  (Arena.range 0 mir.instructionCount).all (fun ip =>
    if mir.opcode ip = 31 then ¬ (mir.opA ip < 0 ∨ mir.opA ip ≥ mir.instructionCount)
    else true)

/-! ## Ownership paths -/

def eventPathCount (mir : MirModule) (event : Int) : Int :=
  if event < 0 ∨ event ≥ mir.eventCount then -1 else (mir.event event).pathCount

def eventPathComponent (mir : MirModule) (event component : Int) : Int :=
  if component < 0 ∨ component ≥ eventPathCount mir event then -1
  else Arena.get mir.pathComponents ((mir.event event).pathStart + component)

def pathsSame (mir : MirModule) (left right : Int) : Bool :=
  if (mir.event left).slot ≠ (mir.event right).slot then false
  else if eventPathCount mir left ≠ eventPathCount mir right then false
  else (Arena.range 0 (eventPathCount mir left)).all (fun component =>
    eventPathComponent mir left component = eventPathComponent mir right component)

def pathPrefixOf (mir : MirModule) (front value : Int) : Bool :=
  if (mir.event front).slot ≠ (mir.event value).slot then false
  else if eventPathCount mir front > eventPathCount mir value then false
  else (Arena.range 0 (eventPathCount mir front)).all (fun component =>
    eventPathComponent mir front component = eventPathComponent mir value component)

def pathsOverlap (mir : MirModule) (left right : Int) : Bool :=
  pathPrefixOf mir left right || pathPrefixOf mir right left

def verifyMirOwnershipPaths (mir : MirModule) : Bool :=
  mir.events.all (fun event =>
    ¬ (event.pathStart < 0 ∨ event.pathCount < 0 ∨
      Word.wrap (event.pathStart + event.pathCount) > mir.pathComponentCount ∨ event.slot < 0))

/-! ## The worklist both move analyses run -/

/-- Local indices of the predecessors of a function's block. -/
def localPredecessors (cfg : MirCfg) (first count : Int) (block : Nat) : List Nat :=
  ((cfg.predecessors (first + block)).filter (fun predecessor =>
    predecessor - first ≥ 0 ∧ predecessor - first < count)).map (fun predecessor =>
      (predecessor - first).toNat)

/-- Local indices of the successors of a function's block, edge `a` first. -/
def localSuccessors (cfg : MirCfg) (first count : Int) (block : Nat) : List Nat :=
  ([Arena.get cfg.successorA (first + block), Arena.get cfg.successorB (first + block)].filter
    (fun successor => successor ≥ first ∧ successor < first + count)).map (fun successor =>
      (successor - first).toNat)

/-- The fixed point over the blocks of one function, with the straight-line case apart. The rows
of the blocks lie in a matrix of `count * width + 1` cells; where that product is no `i64`, only
its refusal is modelled. -/
def solveFunction {σ : Type} [DecidableEq σ] (cfg : MirCfg) (function : Int)
    (width : Int) (entry : σ) (join : σ → σ → σ) (applyBlock : Int → σ → Option σ) : Bool :=
  let first := cfg.firstBlock function
  let count := cfg.functionBlockCount function
  if count = 1 then (applyBlock first entry).isSome
  else if ¬ Arena.creates (Word.wrap (count * width + 1)) then false
  else
    Worklist.Problem.run
      { entry, join
        transfer := fun block => applyBlock (first + block)
        predecessors := localPredecessors cfg first count
        successors := localSuccessors cfg first count }
      (Word.wrap (count * (width + 2) * 8 + 64)).toNat (Worklist.initial σ count.toNat)

/-! ## Whole-local moves -/

/-- `MirLocalState`: both tables have one cell for every local of the function. -/
structure LocalState (count : Nat) where
  initialized : Arena.Flags count
  moved : Arena.Flags count
  deriving DecidableEq, Repr

variable {count : Nat}

/-- `init_mir_local_state` and `mir_reset_local_state`. -/
def LocalState.reset (count : Nat) : LocalState count :=
  { initialized := .clear count, moved := .clear count }

def LocalState.store (s : LocalState count) (slot : Int) : Option (LocalState count) :=
  if slot < 0 ∨ slot ≥ count then none
  else some { initialized := s.initialized.set slot true, moved := s.moved.set slot false }

def LocalState.move (s : LocalState count) (slot : Int) : Option (LocalState count) :=
  if slot < 0 ∨ slot ≥ count then none
  else if s.initialized.get slot = false ∨ s.moved.get slot = true then none
  else some { s with moved := s.moved.set slot true }

def LocalState.readable (s : LocalState count) (slot : Int) : Bool :=
  slot ≥ 0 ∧ slot < count ∧ s.initialized.get slot = true ∧ s.moved.get slot = false

/-- Initialised on every edge, moved on some edge. -/
def LocalState.join (left right : LocalState count) : LocalState count :=
  { initialized := .zip (· && ·) left.initialized right.initialized
    moved := .zip (· || ·) left.moved right.moved }

/-- The whole-local moves of the table at instructions of the module. -/
def wholeMoves (mir : MirModule) : List Int :=
  (Arena.range 0 mir.eventCount).filter (fun event =>
    (mir.event event).kind = 1 ∧ (mir.event event).pathCount = 0 ∧
      (mir.event event).instruction ≥ 0 ∧ (mir.event event).instruction < mir.instructionCount)

/-- `whole_move_slots`: the slot moved at each instruction, `-1` for none. A later event of
the same instruction overwrites an earlier one. -/
def wholeMoveSlots (mir : MirModule) : List Int :=
  Arena.scatter (wholeMoves mir) (fun event => (mir.event event).instruction)
    (fun event => (mir.event event).slot)
    (List.replicate (mir.instructionCount + 1).toNat (-1))

/-- One instruction of `mir_apply_local_move_block`. -/
def applyLocalMove (mir : MirModule) (moves : List Int) (s : LocalState count)
    (ip : Int) : Option (LocalState count) :=
  let opcode := mir.opcode ip
  if (opcode = 3 ∨ opcode = 25) ∧ s.readable (mir.opA ip) = false then none
  else
    (if opcode = 9 then s.store (mir.opA ip) else some s).bind (fun s =>
      if Arena.get moves ip ≥ 0 then s.move (Arena.get moves ip) else some s)

def applyLocalMoveBlock (mir : MirModule) (cfg : MirCfg) (moves : List Int) (block : Int)
    (s : LocalState count) : Option (LocalState count) :=
  (Arena.range (cfg.block block).start (cfg.block block).stop).foldlM
    (applyLocalMove mir moves) s

def verifyMirLocalMoveFunction (mir : MirModule) (cfg : MirCfg) (function : Int) : Bool :=
  let localCount := (mir.function function).localCount
  if localCount = 0 ∨ cfg.functionBlockCount function = 0 then true
  -- `init_mir_local_state`
  else if ¬ Arena.creates (localCount + 1) then false
  else solveFunction cfg function localCount (LocalState.reset localCount.toNat)
    LocalState.join
    (applyLocalMoveBlock mir cfg (wholeMoveSlots mir))

def verifyMirLocalMoveDataflow (mir : MirModule) (cfg : MirCfg) : Bool :=
  if cfg.blockCount = 0 then true
  else (Arena.range 0 mir.functionCount).all (verifyMirLocalMoveFunction mir cfg)

/-! ## Projected moves -/

def isProjectedMove (event : OwnershipEvent) : Bool := event.kind = 1 ∧ event.pathCount > 0

/-- The projected events of one kind at instructions of the module. -/
def projectedEvents (mir : MirModule) (kind : Int) : List Int :=
  (Arena.range 0 mir.eventCount).filter (fun event =>
    (mir.event event).pathCount > 0 ∧ (mir.event event).instruction ≥ 0 ∧
      (mir.event event).instruction < mir.instructionCount ∧ (mir.event event).kind = kind)

/-- The last projected event of `kind` at each instruction, `-1` for none:
`move_event_at_instruction` and `reinitialize_event_at_instruction`. -/
def projectedEventAt (mir : MirModule) (kind : Int) : List Int :=
  Arena.scatter (projectedEvents mir kind) (fun event => (mir.event event).instruction)
    (fun event => event) (List.replicate (mir.instructionCount + 1).toNat (-1))

/-- `move_events`: the projected moves of one function. -/
def functionMoveEvents (mir : MirModule) (function : Int) : List Int :=
  (Arena.range 0 mir.eventCount).filter (fun event =>
    isProjectedMove (mir.event event) ∧
      (mir.event event).instruction ≥ (mir.function function).start ∧
      (mir.event event).instruction < (mir.function function).stop)

/-- One flag for each of `moveEvents`, set while its path may be moved. -/
abbrev PartialState (moveEvents : List Int) := Arena.Flags moveEvents.length

section

variable (mir : MirModule) {moveEvents : List Int}

def partialEventConflicts (s : PartialState moveEvents) (current : Int) : Bool :=
  s.anyWith (fun prior => pathsOverlap mir prior current) moveEvents

def partialClearSlot (s : PartialState moveEvents) (slot : Int) : PartialState moveEvents :=
  s.mapWith (fun event flag => if (mir.event event).slot = slot then false else flag) moveEvents

def partialClearPath (s : PartialState moveEvents) (reinitEvent : Int) :
    PartialState moveEvents :=
  s.mapWith (fun event flag => if pathPrefixOf mir reinitEvent event then false else flag)
    moveEvents

def partialApplyEvent (s : PartialState moveEvents) (event : Int) :
    Option (PartialState moveEvents) :=
  if partialEventConflicts mir s event then none
  else some (s.mapWith
    (fun candidate flag => if pathsSame mir candidate event then true else flag) moveEvents)

/-- One instruction of `mir_partial_apply_block`. -/
def applyPartialMove (moveAt reinitializeAt : List Int) (s : PartialState moveEvents)
    (ip : Int) : Option (PartialState moveEvents) :=
  let s := if mir.opcode ip = 9 then partialClearSlot mir s (mir.opA ip) else s
  let reinitEvent := Arena.get reinitializeAt ip
  let s := if reinitEvent ≥ 0 then partialClearPath mir s reinitEvent else s
  let move := Arena.get moveAt ip
  if move ≥ 0 then partialApplyEvent mir s move else some s

def applyPartialMoveBlock (cfg : MirCfg) (moveAt reinitializeAt : List Int) (block : Int)
    (s : PartialState moveEvents) : Option (PartialState moveEvents) :=
  (Arena.range (cfg.block block).start (cfg.block block).stop).foldlM
    (applyPartialMove mir moveAt reinitializeAt) s

end

def verifyMirPartialMoveFunction (mir : MirModule) (cfg : MirCfg) (function : Int) : Bool :=
  if cfg.functionBlockCount function = 0 then true
  else
    let moveEvents := functionMoveEvents mir function
    if moveEvents = [] then true
    else solveFunction cfg function moveEvents.length (Arena.Flags.clear moveEvents.length)
      (Arena.Flags.zip (· || ·))
      (applyPartialMoveBlock mir cfg (projectedEventAt mir 1) (projectedEventAt mir 2))

def verifyMirPartialMoveDataflow (mir : MirModule) (cfg : MirCfg) : Bool :=
  if verifyMirOwnershipPaths mir = false then false
  else if mir.eventCount = 0 then true
  else if mir.events.any isProjectedMove = false then true
  else if cfg.blockCount = 0 then true
  else (Arena.range 0 mir.functionCount).all (verifyMirPartialMoveFunction mir cfg)

end Raz.Borrowck
