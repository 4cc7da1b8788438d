import Raz.Lib.Word
import Raz.Mir.Model

/-!
# The MIR interpreter

Translation of `execute_mir_function`. A frame has one register for every instruction of the
module and one for the value a branch carries to a label. A call runs in a frame of its own;
the globals and whatever an extern function acts on are shared.

The instructions that work on host addresses (25–31, 33, 45) are not modelled: `Action.foreign`
marks them. Externs are a parameter.
-/

namespace Raz.Mir

/-- What outlives a call: the globals, and the world of the extern functions. -/
structure Store (World : Type) where
  globals : List Global
  world : World
  deriving DecidableEq

/-- `registers` and `locals`. The last register holds the value of the edge taken. -/
structure Frame where
  registers : List Int
  locals : List Int
  deriving DecidableEq, Repr

def Frame.read (frame : Frame) (register : Int) : Int := Arena.get frame.registers register

def Frame.write (frame : Frame) (register value : Int) : Frame :=
  { frame with registers := Arena.set frame.registers register value }

def Frame.writeLocal (frame : Frame) (slot value : Int) : Frame :=
  { frame with locals := Arena.set frame.locals slot value }

/-- The two-operand opcodes. -/
def evalBinary (opcode left right : Int) : Option Int :=
  if opcode = 4 then some (Word.wrap (left + right))
  else if opcode = 5 then some (Word.wrap (left - right))
  else if opcode = 6 then some (Word.wrap (left * right))
  else if opcode = 7 then some (if right = 0 then 0 else Word.div left right)
  else if opcode = 11 then some (Word.ofBool (left = right))
  else if opcode = 12 then some (Word.ofBool (left ≠ right))
  else if opcode = 13 then some (Word.ofBool (left < right))
  else if opcode = 14 then some (Word.ofBool (left ≤ right))
  else if opcode = 15 then some (Word.ofBool (left > right))
  else if opcode = 16 then some (Word.ofBool (left ≥ right))
  else if opcode = 19 then some (Word.ofBool (left ≠ 0 ∧ right ≠ 0))
  else if opcode = 20 then some (Word.ofBool (left ≠ 0 ∨ right ≠ 0))
  else if opcode = 34 then some (if right = 0 then 0 else Word.rem left right)
  else if opcode = 35 then some (Word.land left right)
  else if opcode = 36 then some (Word.lor left right)
  else if opcode = 37 then some (Word.lxor left right)
  else if opcode = 38 then some (Word.shl left right)
  else if opcode = 39 then some (Word.sar left right)
  else none

/-- The outcome of one instruction. -/
inductive Action (World : Type)
  /-- Go on at `ip`. -/
  | next (ip : Int) (frame : Frame) (store : Store World)
  /-- Call; the result goes to the register of the instruction. -/
  | call (function : Int) (arguments : List Int)
  | done (result : Int)
  /-- An instruction outside the model. -/
  | foreign

section

variable {World : Type} (mir : MirModule)

/-- An extern global reads as zero and is not written. -/
def readGlobal (store : Store World) (index : Int) : Int :=
  if index < 0 ∨ index ≥ mir.globalCount ∨ (Arena.get store.globals index).externFlag ≠ 0 then 0
  else (Arena.get store.globals index).value

def writeGlobal (store : Store World) (index value : Int) : Store World :=
  if 0 ≤ index ∧ index < mir.globalCount ∧ (Arena.get store.globals index).externFlag = 0 then
    { store with globals :=
        Arena.set store.globals index { Arena.get store.globals index with value } }
  else store

/-- The value an instruction computes for its own register; `none` for the instructions that
do something else. -/
def evalValue (arguments : List Int) (frame : Frame) (store : Store World) (ip : Int) :
    Option Int :=
  let i := mir.instruction ip
  if i.opcode = 1 then some i.a
  else if i.opcode = 2 then
    some (if 0 ≤ i.a ∧ i.a < arguments.length then Arena.get arguments i.a else 0)
  else if i.opcode = 3 then some (Arena.get frame.locals i.a)
  else if i.opcode = 17 then
    some (if frame.read i.a ≠ 0 then frame.read i.b else frame.read i.c)
  else if i.opcode = 18 then some (Word.ofBool (frame.read i.a = 0))
  else if i.opcode = 24 then
    some (if i.a ≠ 0 then frame.read mir.instructionCount else ip)
  else if i.opcode = 32 then some 0
  else if i.opcode = 40 then some (frame.read i.a)
  else if i.opcode = 47 then some (readGlobal mir store i.a)
  else if i.opcode = 49 then some (Word.wrap (-i.a - 1))
  else evalBinary i.opcode (frame.read i.a) (frame.read i.b)

/-- A branch carries the value of an operand to the label it leads to. -/
def carryEdgeValue (frame : Frame) (operand : Int) : Frame :=
  if operand ≥ 0 then frame.write mir.instructionCount (frame.read operand) else frame

/-- The values of the argument registers of a call. -/
def callValues (frame : Frame) (first count : Int) : List Int :=
  (Arena.range 0 count).map (fun argument =>
    frame.read (Arena.get mir.callArguments (first + argument)))

/-- One instruction. -/
def interpretStep (arguments : List Int) (ip : Int) (frame : Frame) (store : Store World) :
    Action World :=
  let i := mir.instruction ip
  if i.opcode = 8 then
    -- The arena of the arguments can fail.
    if ¬ Arena.creates (i.c + 1) then .done 0 else .call i.a (callValues mir frame i.b i.c)
  else if i.opcode = 9 then .next (ip + 1) (frame.writeLocal i.a (frame.read i.b)) store
  else if i.opcode = 10 then .done (frame.read i.a)
  else if i.opcode = 21 then .done 0
  else if i.opcode = 22 then .next i.b (carryEdgeValue mir frame i.c) store
  else if i.opcode = 23 then
    let frame := carryEdgeValue mir frame i.d
    .next (if frame.read i.a = 0 then i.b else i.c) frame store
  else if i.opcode = 48 then
    .next (ip + 1) frame (writeGlobal mir store i.a (frame.read i.b))
  else if (25 ≤ i.opcode ∧ i.opcode ≤ 31) ∨ i.opcode = 33 ∨ i.opcode = 45 then .foreign
  else
    match evalValue mir arguments frame store ip with
    | some value => .next (ip + 1) (frame.write ip value) store
    | none => .next (ip + 1) frame store

/-- The result of a call. `inBudget` is false when the call, or one below it, has used up
its steps. -/
structure Result (World : Type) where
  value : Int
  store : Store World
  inBudget : Bool
  deriving DecidableEq

/-- The loop of a frame. `call` runs a callee. -/
def interpretFrame (f : Function) (arguments : List Int)
    (call : Int → List Int → Store World → Option (Result World)) :
    Nat → Int → Frame → Store World → Option (Result World)
  | budget, ip, frame, store =>
      if ip < f.stop then
        match budget with
        | 0 => some ⟨0, store, false⟩
        | budget + 1 =>
            match interpretStep mir arguments ip frame store with
            | .next ip frame store => interpretFrame f arguments call budget ip frame store
            | .call function values =>
                match call function values store with
                | none => none
                | some result =>
                    (interpretFrame f arguments call budget (ip + 1)
                      (frame.write ip result.value) result.store).map
                      (fun final => { final with
                        inBudget := result.inBudget && final.inBudget })
            | .done result => some ⟨result, store, true⟩
            | .foreign => none
      else some ⟨0, store, true⟩

/-- Steps of one frame. -/
def stepBudget : Nat := 5000000

/-- `execute_mir_extern`, by the kind of the function. -/
abbrev Externs (World : Type) := Int → List Int → World → Int × World

/-- The frame a function starts in. -/
def entryFrame (f : Function) : Frame :=
  { registers := List.replicate (mir.code.length + 1) 0
    locals := List.replicate (f.localCount + 1).toNat 0 }

/-- `execute_mir_function`, for calls nested at most `depth` deep; `none` when they are
nested deeper, which the source leaves to the host stack. -/
def executeMirFunction (externs : Externs World) :
    Nat → Int → List Int → Store World → Option (Result World)
  | 0, _, _, _ => none
  | depth + 1, function, arguments, store =>
      let f := mir.function function
      -- The arena of the locals can fail.
      if ¬ Arena.creates (f.localCount + 1) then some ⟨0, store, true⟩
      else
        interpretFrame mir f arguments
          (fun target values store =>
            if (mir.function target).isExtern ≠ 0 then
              let (value, world) := externs (mir.function target).externKind values store.world
              some ⟨value, { store with world }, true⟩
            else executeMirFunction externs depth target values store)
          stepBudget f.start (entryFrame mir f) store

end

end Raz.Mir
