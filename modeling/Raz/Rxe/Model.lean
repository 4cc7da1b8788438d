import Raz.Lib.Arena
import Raz.Rxe.Isa

/-!
# RXE modules

Translation of `RxeModule` in `rxe/model.rz`, as far as a run reads it. The parallel arenas of one
table are a list of records here, and its count is the length of the list. The scratch tables of the
lowering (`branch_mir_targets`, `mir_to_rxe`) belong to `Raz.Rxe.Lowering`.
-/

namespace Raz.Rxe

structure Instruction where
  opcode : Int
  dst : Int := 0
  src0 : Int := 0
  src1 : Int := 0
  immediate : Int := 0
  deriving DecidableEq, Repr

instance : Inhabited Instruction := ⟨{ opcode := 0 }⟩

/-- One row of the `function_…` tables. -/
structure Function where
  codeStart : Int := 0
  codeCount : Int := 0
  frameSlots : Int := 0
  argumentCount : Int := 0
  registerCount : Int := 0
  deriving DecidableEq, Repr, Inhabited

structure Global where
  value : Int := 0
  flags : Int := 0
  deriving DecidableEq, Repr, Inhabited

/-- `RxeModule`. -/
structure RxeModule where
  code : List Instruction := []
  constants : List Int := []
  functions : List Function := []
  globals : List Global := []
  deriving DecidableEq, Repr

variable (m : RxeModule)

def RxeModule.constantCount : Int := m.constants.length
def RxeModule.functionCount : Int := m.functions.length
def RxeModule.globalCount : Int := m.globals.length
def RxeModule.instruction (ip : Int) : Instruction := Arena.get m.code ip
def RxeModule.function (index : Int) : Function := Arena.get m.functions index
def Function.codeStop (f : Function) : Int := f.codeStart + f.codeCount

end Raz.Rxe
