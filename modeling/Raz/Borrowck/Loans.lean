import Raz.Borrowck.Model
import Raz.Mir.Liveness

/-!
# Loans and reborrows

Translation of `loan_regions.rz`, `reborrows.rz` and `drops.rz`: the end of a loan is the
last instruction in linear order that uses its reference or a value loaded from the local
that holds it; active loans flow along the control-flow graph until then.
-/

namespace Raz.Borrowck

open Raz.Mir

/-! ## Ends of loans -/

def eventIsLoan (mir : MirModule) (event : Int) : Bool :=
  (mir.event event).kind = 3 ∨ (mir.event event).kind = 4

/-- The slot of the first store of the reference before the block is left, `-1` for none.
A return does not end the search. -/
def findHolder (mir : MirModule) (instruction : Int) : List Int → Int
  | [] => -1
  | ip :: rest =>
      let opcode := mir.opcode ip
      if opcode = 9 ∧ mir.opB ip = instruction then mir.opA ip
      else if opcode = 24 ∨ opcode = 21 ∨ opcode = 22 ∨ opcode = 23 then -1
      else findHolder mir instruction rest

def loanHolderSlot (mir : MirModule) (event : Int) : Int :=
  let instruction := (mir.event event).instruction
  findHolder mir instruction (Arena.range (instruction + 1) mir.instructionCount)

/-- `mir_fast_record_last_use`. -/
def recordLastUse (instructionCount user : Int) (lastUses : List Int) (value : Int) :
    List Int :=
  if value ≥ 0 ∧ value < instructionCount then Arena.set lastUses value user else lastUses

/-- The values of the `count` call arguments from `first` on. -/
def callArgumentValues (mir : MirModule) (first count : Int) : List Int :=
  (Arena.range 0 count).map (fun argument => Arena.get mir.callArguments (first + argument))

/-- One instruction of the scan: its masked operands, then its call arguments. -/
def lastUseStep (mir : MirModule) (lastUses : List Int) (ip : Int) : Option (List Int) :=
  let i := mir.instruction ip
  let lastUses := (maskedOperands i).foldl (recordLastUse mir.instructionCount ip) lastUses
  if i.opcode = 8 ∨ i.opcode = 44 then
    if i.b < 0 ∨ i.c < 0 ∨ Word.wrap (i.b + i.c) > mir.callArgumentCount then none
    else some ((callArgumentValues mir i.b i.c).foldl
      (recordLastUse mir.instructionCount ip) lastUses)
  else some lastUses

/-- `build_mir_fast_value_last_uses`: `-1` for a value without use. The cell past the last
instruction keeps the arena's zero. -/
def buildValueLastUses (mir : MirModule) : Option (List Int) :=
  (Arena.range 0 mir.instructionCount).foldlM (lastUseStep mir)
    (List.replicate mir.code.length (-1) ++ [0])

/-- What the scan makes of `last_use` at a load of the holder. -/
def raiseLastUse (mir : MirModule) (valueLastUses : List Int) (holder ip lastUse : Int) : Int :=
  if (mir.opcode ip = 3 ∨ mir.opcode ip = 25) ∧ mir.opA ip = holder then
    let loaded := Arena.get valueLastUses ip
    let loaded := if loaded < ip then ip else loaded
    if loaded > lastUse then loaded else lastUse
  else lastUse

/-- The scan over the loads of the holder: it ends at the next store to it of another
value. -/
def holderLastUse (mir : MirModule) (valueLastUses : List Int) (instruction holder : Int) :
    List Int → Int → Int
  | [], lastUse => lastUse
  | ip :: rest, lastUse =>
      let lastUse := raiseLastUse mir valueLastUses holder ip lastUse
      if mir.opcode ip = 9 ∧ mir.opA ip = holder ∧ mir.opB ip ≠ instruction then lastUse
      else holderLastUse mir valueLastUses instruction holder rest lastUse

/-- The table entry of one event. -/
def loanLastUse (mir : MirModule) (cfg : MirCfg) (valueLastUses : List Int) (event : Int) :
    Option Int :=
  let instruction := (mir.event event).instruction
  if instruction < 0 ∨ instruction ≥ mir.instructionCount then none
  else if eventIsLoan mir event then
    let direct := Arena.get valueLastUses instruction
    let lastUse := if direct > instruction then direct else instruction
    let holder := loanHolderSlot mir event
    if holder ≥ 0 then
      let block := cfg.blockForInstruction instruction
      if block < 0 ∨ block ≥ cfg.blockCount then none
      else
        let owner := mir.function (cfg.block block).function
        some (holderLastUse mir valueLastUses instruction holder
          (Arena.range (instruction + 1) owner.stop) lastUse)
    else some lastUse
  else some instruction

def buildLoanLastUseTable (mir : MirModule) (cfg : MirCfg) : Option (List Int) := do
  let valueLastUses ← buildValueLastUses mir
  (Arena.range 0 mir.eventCount).mapM (loanLastUse mir cfg valueLastUses)

/-! ## Conflicts -/

/-- The walk over the parents, `fuel` steps of it. Both copies of the source are this. -/
def parentChainContains (mir : MirModule) (ancestor : Int) : Nat → Int → Bool
  | 0, _ => false
  | fuel + 1, current =>
      if current ≥ 0 ∧ current < mir.eventCount then
        let parent := (mir.event current).parent
        if parent = ancestor then true
        else if parent < 0 ∨ parent ≥ current then false
        else parentChainContains mir ancestor fuel parent
      else false

def loanParentChainContains (mir : MirModule) (child ancestor : Int) : Bool :=
  parentChainContains mir ancestor 256 child

/-- Active loan `event` forbids `current`: a reborrow may overlap its ancestors. -/
def loanConflicts (mir : MirModule) (event current : Int) (mutation : Bool) : Bool :=
  let currentKind := (mir.event current).kind
  let activeKind := (mir.event event).kind
  eventIsLoan mir event && pathsOverlap mir event current &&
    (if loanParentChainContains mir current event && !mutation then
      activeKind = 3 ∧ currentKind = 4
    else mutation ∨ currentKind = 4 ∨ activeKind = 4)

/-- One flag for each of `events`, set while its loan is active. -/
abbrev ActiveLoans (events : List Int) := Arena.Flags events.length

def localActiveLoanConflicts (mir : MirModule) {events : List Int} (active : ActiveLoans events)
    (current : Int) (mutation : Bool) : Bool :=
  active.anyWith (fun event => loanConflicts mir event current mutation) events

/-! ## Flow of active loans -/

/-- The events of one function, in table order. -/
def functionEvents (mir : MirModule) (f : Function) : List Int :=
  (Arena.range 0 mir.eventCount).filter (fun event =>
    (mir.event event).instruction ≥ f.start ∧ (mir.event event).instruction < f.stop)

section

variable (mir : MirModule) (cfg : MirCfg) (loanLastUses : List Int) {events : List Int}

def expireLoans (active : ActiveLoans events) (ip : Int) : ActiveLoans events :=
  active.mapWith
    (fun event flag =>
      if eventIsLoan mir event ∧ Arena.get loanLastUses event < ip then false else flag) events

/-- One event of the instruction `ip`, at its position in `events`. -/
def applyLoanEvent (ip : Int) (active : ActiveLoans events) (localEvent : Nat) :
    Option (ActiveLoans events) :=
  let current := events.getD localEvent 0
  if (mir.event current).instruction = ip then
    let kind := (mir.event current).kind
    if kind = 3 ∨ kind = 4 then
      if localActiveLoanConflicts mir active current false then none
      else some (active.set localEvent true)
    else if kind = 1 ∨ kind = 2 then
      if localActiveLoanConflicts mir active current true then none else some active
    else some active
  else some active

def applyLoanInstruction (active : ActiveLoans events) (ip : Int) :
    Option (ActiveLoans events) :=
  (List.range events.length).foldlM (applyLoanEvent mir ip) (expireLoans mir loanLastUses active ip)

def applyLoanBlock (block : Int) (active : ActiveLoans events) : Option (ActiveLoans events) :=
  (Arena.range (cfg.block block).start (cfg.block block).stop).foldlM
    (applyLoanInstruction mir loanLastUses) active

/-- `matrix` and `ready`: the row of each ready block. -/
abbrev LoanRows (events : List Int) := List (Option (ActiveLoans events))

/-- The ready predecessors of a block, itself excepted, with their rows. -/
def loanPredecessorRows (first : Int) (rows : LoanRows events) (localBlock : Nat) :
    List (ActiveLoans events) :=
  ((List.range rows.length).filter (fun predecessor =>
    predecessor ≠ localBlock ∧
      (Arena.get cfg.successorA (first + predecessor) = first + localBlock ∨
        Arena.get cfg.successorB (first + predecessor) = first + localBlock))).filterMap
    (fun predecessor => rows.getD predecessor none)

/-- One block of a sweep. The flag records a change. -/
def loanSweepBlock (first : Int) (acc : LoanRows events × Bool) (localBlock : Nat) :
    Option (LoanRows events × Bool) :=
  let inputs := loanPredecessorRows cfg first acc.1 localBlock
  if localBlock ≠ 0 ∧ inputs = [] then some acc
  else
    (applyLoanBlock mir cfg loanLastUses (first + localBlock)
      (inputs.foldl (Arena.Flags.zip (· || ·)) (Arena.Flags.clear events.length))).map
    (fun active => (acc.1.set localBlock (some active),
      acc.2 || acc.1.getD localBlock none ≠ some active))

/-- Sweeps until one changes nothing; `none` on a conflict or when the bound is reached. -/
def loanSweeps (first : Int) (blocks : Nat) : Nat → LoanRows events → Option (LoanRows events)
  | 0, _ => none
  | iterations + 1, rows =>
      match (List.range blocks).foldlM (loanSweepBlock mir cfg loanLastUses first)
          (rows, false) with
      | none => none
      | some (rows, changed) =>
          if changed then loanSweeps first blocks iterations rows else some rows

end

def verifyMirLoanFunction (mir : MirModule) (cfg : MirCfg) (loanLastUses : List Int)
    (function : Int) : Bool :=
  let events := functionEvents mir (mir.function function)
  if events.any (eventIsLoan mir) = false then true
  else
    let first := cfg.firstBlock function
    let count := (cfg.functionBlockCount function).toNat
    if count = 0 then true
    else if ¬ Arena.creates (Word.wrap (count * events.length + 1)) then false
    else (loanSweeps mir cfg loanLastUses first count (count * 4 + 8)
      ((List.replicate count none).set 0 (some (Arena.Flags.clear events.length)))).isSome

def verifyMirLoanRegions (mir : MirModule) (cfg : MirCfg) (loanLastUses : List Int) : Bool :=
  if mir.eventCount = 0 then true
  else if (Arena.range 0 mir.eventCount).any (eventIsLoan mir) = false then true
  else if cfg.blockCount = 0 then true
  else (Arena.range 0 mir.functionCount).all (verifyMirLoanFunction mir cfg loanLastUses)

/-! ## Reborrows -/

def reborrowValid (mir : MirModule) (loanLastUses : List Int) (event : Int) : Bool :=
  let parent := (mir.event event).parent
  if parent ≥ 0 then
    if parent ≥ event ∨ parent ≥ mir.eventCount then false
    else
      let kind := (mir.event event).kind
      let parentKind := (mir.event parent).kind
      if (kind ≠ 3 ∧ kind ≠ 4) ∨ (parentKind ≠ 3 ∧ parentKind ≠ 4) then false
      else if parentKind = 3 ∧ kind = 4 then false
      else if pathsOverlap mir parent event = false then false
      else if (mir.event parent).instruction ≥ (mir.event event).instruction then false
      else if Arena.get loanLastUses event > Arena.get loanLastUses parent then false
      else true
  else true

def verifyMirReborrowProvenance (mir : MirModule) (loanLastUses : List Int) : Bool :=
  if mir.eventCount = 0 then true
  else if (Arena.range 0 mir.eventCount).any (fun event => (mir.event event).parent ≥ 0) = false
  then true
  else (Arena.range 0 mir.eventCount).all (reborrowValid mir loanLastUses)

/-! ## The verifier -/

def needsLoanLastUses (mir : MirModule) : Bool :=
  mir.events.any (fun event => event.kind = 3 ∨ event.kind = 4 ∨ event.parent ≥ 0)

/-- `verify_mir_ownership_facts`. The table is the null handle, which reads as zeros, when
no event needs it. -/
def verifyMirOwnershipFacts (mir : MirModule) : Bool :=
  if verifyMirLocalPlaces mir = false then false
  else if verifyMirReferenceSources mir = false then false
  else if verifyMirDropAnnotations mir = false then false
  else
    match buildMirCfg mir with
    | none => false
    | some cfg =>
        match (if needsLoanLastUses mir then buildLoanLastUseTable mir cfg else some []) with
        | none => false
        | some loanLastUses =>
            verifyMirLoanRegions mir cfg loanLastUses &&
            verifyMirReborrowProvenance mir loanLastUses &&
            verifyMirLocalMoveDataflow mir cfg &&
            verifyMirPartialMoveDataflow mir cfg

def verifyMirOwnershipSemantics (mir : MirModule) : Bool := verifyMirOwnershipFacts mir

end Raz.Borrowck
