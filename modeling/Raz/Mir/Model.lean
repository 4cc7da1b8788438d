import Raz.Lib.Arena
import Raz.Lib.Word

/-!
# MIR modules

Translation of `raz_mir/src/mir/core/model.rz`. The parallel arenas of the source are lists
of records here; an index outside a table reads the record of zeros, as the checked arena
accessors do. Tables that neither the verifiers, the optimiser nor the interpreter read
(module membership, lowering context) are left out.
-/

namespace Raz.Mir

/-- One row of `opcodes`, `op_types`, `op_a` … `op_d`. -/
structure Instruction where
  opcode : Int
  type : Int := 0
  a : Int := 0
  b : Int := 0
  c : Int := 0
  d : Int := 0
  deriving DecidableEq, Repr

instance : Inhabited Instruction := ⟨{ opcode := 0 }⟩

/-- One row of the `function_…` tables. -/
structure Function where
  start : Int
  count : Int
  parameterCount : Int := 0
  localCount : Int := 0
  isExtern : Int := 0
  externKind : Int := 0
  deriving DecidableEq, Repr

instance : Inhabited Function := ⟨{ start := 0, count := 0 }⟩

/-- The end of a function's instruction range, a sum of `i64` values. -/
def Function.stop (f : Function) : Int := Word.wrap (f.start + f.count)

structure Global where
  value : Int
  externFlag : Int
  deriving DecidableEq, Repr

instance : Inhabited Global := ⟨⟨0, 0⟩⟩

/-- One row of the `ownership_event_…` tables. Kinds: 1 move, 2 reinitialise, 3 shared
loan, 4 exclusive loan. -/
structure OwnershipEvent where
  instruction : Int
  kind : Int
  slot : Int
  pathStart : Int := 0
  pathCount : Int := 0
  parent : Int := -1
  deriving DecidableEq, Repr

instance : Inhabited OwnershipEvent := ⟨{ instruction := 0, kind := 0, slot := 0, parent := 0 }⟩

/-- `MirModule`. The counts of the source are the lengths of the lists. -/
structure MirModule where
  functions : List Function
  code : List Instruction
  globals : List Global := []
  callArguments : List Int := []
  events : List OwnershipEvent := []
  pathComponents : List Int := []
  deriving DecidableEq, Repr

variable (mir : MirModule)

def MirModule.functionCount : Int := mir.functions.length
def MirModule.instructionCount : Int := mir.code.length
def MirModule.globalCount : Int := mir.globals.length
def MirModule.callArgumentCount : Int := mir.callArguments.length
def MirModule.eventCount : Int := mir.events.length
def MirModule.pathComponentCount : Int := mir.pathComponents.length

def MirModule.function (index : Int) : Function := Arena.get mir.functions index
def MirModule.instruction (ip : Int) : Instruction := Arena.get mir.code ip
def MirModule.opcode (ip : Int) : Int := (mir.instruction ip).opcode
def MirModule.opA (ip : Int) : Int := (mir.instruction ip).a
def MirModule.opB (ip : Int) : Int := (mir.instruction ip).b
def MirModule.opC (ip : Int) : Int := (mir.instruction ip).c
def MirModule.opD (ip : Int) : Int := (mir.instruction ip).d
def MirModule.event (index : Int) : OwnershipEvent := Arena.get mir.events index

/-- No sum of a start and a count wraps around. -/
def MirModule.Bounded : Prop := ∀ f ∈ mir.functions, f.stop = f.start + f.count

instance : Decidable mir.Bounded := inferInstanceAs (Decidable (∀ f ∈ mir.functions, _))

variable {mir} in
theorem MirModule.Bounded.stop_eq (h : mir.Bounded) (function : Int) :
    (mir.function function).stop =
      (mir.function function).start + (mir.function function).count := by
  rcases Arena.get_mem_or_default mir.functions function with hmem | hdefault
  · exact h _ hmem
  · rw [MirModule.function, hdefault]
    rfl

end Raz.Mir
