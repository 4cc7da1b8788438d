import Raz.Mir.Model
import Raz.Rxe.Model

/-!
# Lowering MIR to RXE

Translation of `rxe/lowering.rz`: every MIR value has a frame slot, and every MIR instruction
becomes a few RXE instructions that load its operands into scratch registers, compute and
store the result. Branches are emitted with the MIR index of their target and patched when
all functions are placed.
-/

namespace Raz.Rxe

open Raz.Mir (MirModule)

/-! ## Primitive types -/

def typeIsFloat (kind : Int) : Bool := kind = 1 ∨ kind = 11
def typeIsUnsigned (kind : Int) : Bool := (kind ≥ 5 ∧ kind ≤ 9) ∨ kind = 10
def typeIsInteger (kind : Int) : Bool := kind = 0 ∨ (kind ≥ 2 ∧ kind ≤ 10)

def typeWidth (kind : Int) : Int :=
  if kind = 2 ∨ kind = 5 then 8
  else if kind = 3 ∨ kind = 6 then 16
  else if kind = 4 ∨ kind = 7 ∨ kind = 10 ∨ kind = 11 then 32
  else 64

/-! ## Emission -/

/-- An instruction with the MIR index of its branch target, `-1` for none. -/
structure Pending where
  instruction : Instruction
  branch : Int := -1
  deriving DecidableEq, Repr

/-- `rxe_emit`. -/
def emit (op : Op) (dst src0 src1 immediate : Int) : Pending :=
  { instruction := { opcode := op.code, dst, src0, src1, immediate } }

def emitBranch (op : Op) (src0 target : Int) : Pending :=
  { instruction := { opcode := op.code, src0 }, branch := target }

def loadValue (start value register : Int) : Pending := emit .loadSlot register 0 0 (value - start)

def storeResult (start ip : Int) : Pending := emit .storeSlot 0 0 0 (ip - start)

/-- `rxe_constant_i64`: the pool holds every value once. -/
def internConstant (constants : List Int) (value : Int) : Int × List Int :=
  if value ∈ constants then ((constants.idxOf value : Int), constants)
  else ((constants.length : Int), constants ++ [value])

/-- `rxe_normalize_integer`; all widths below 64 are 8, 16 or 32. -/
def normalizeInteger (register kind : Int) : List Pending :=
  if typeIsInteger kind = false ∨ typeWidth kind ≥ 64 then []
  else
    let (trunc, sext) : Op × Op :=
      if typeWidth kind = 8 then (.trunc8, .sext8)
      else if typeWidth kind = 16 then (.trunc16, .sext16)
      else (.trunc32, .sext32)
    emit trunc register register 0 0 ::
      (if typeIsUnsigned kind then [] else [emit sext register register 0 0])

/-- `rxe_stage_arguments`. -/
def stageArguments (mir : MirModule) (start first count : Int) : Option (List Pending) :=
  if count < 0 ∨ count > 255 then none
  else some ((Arena.range 0 count).flatMap (fun argument =>
    [loadValue start (Arena.get mir.callArguments (first + argument)) 0,
      emit .arg 0 0 0 argument]))

/-- The RXE opcode of a two-operand MIR instruction. -/
def binaryOp (opcode kind : Int) : Op :=
  let signed (u s : Op) : Op := if typeIsUnsigned kind then u else s
  if opcode = 5 then .sub64
  else if opcode = 6 then .mul64
  else if opcode = 7 then signed .div64 .divs64
  else if opcode = 11 then .eq64
  else if opcode = 12 then .ne64
  else if opcode = 13 then signed .lt64 .lts64
  else if opcode = 14 then signed .le64 .les64
  else if opcode = 15 then signed .gt64 .gts64
  else if opcode = 16 then signed .ge64 .ges64
  else if opcode = 19 then .mul64
  else if opcode = 20 then .add64
  else if opcode = 34 then signed .rem64 .rems64
  else if opcode = 35 then .and64
  else if opcode = 36 then .or64
  else if opcode = 37 then .xor64
  else if opcode = 38 then .shl64
  else if opcode = 39 then signed .shr64 .sar64
  else .add64

def isBinary (opcode : Int) : Bool :=
  (4 ≤ opcode ∧ opcode ≤ 7) ∨ (11 ≤ opcode ∧ opcode ≤ 16) ∨ opcode = 19 ∨ opcode = 20 ∨
    (34 ≤ opcode ∧ opcode ≤ 39)

/-- `rxe_encode_alloc_immediate`. -/
def encodeAlloc (count structure_ : Int) : Option Int :=
  if count < 0 ∨ count > 65535 ∨ structure_ < -1 ∨ structure_ > 65534 then none
  else some (count + (structure_ + 1) * 65536)

/-! ## Instructions -/

/-- The capture counts of the HIR functions, all that the lowering reads of the HIR. -/
abbrev CaptureCounts := List Int

/-- The code of the MIR instruction `ip` of a function that occupies `start` to `stop`. -/
def lowerInstruction (captures : CaptureCounts) (mir : MirModule) (globalCount start stop ip : Int)
    (constants : List Int) : Option (List Pending) :=
  let i := mir.instruction ip
  let load (value register : Int) := loadValue start value register
  let store := storeResult start ip
  if i.opcode = 1 then
    if typeIsFloat i.type then none
    else
      some (emit .ldc64 0 0 0 (internConstant constants i.a).1 ::
        normalizeInteger 0 i.type ++ [store])
  else if i.opcode = 2 then some [emit .loadArg 0 0 0 i.a, store]
  else if i.opcode = 3 then some [emit .loadLocal 0 0 0 i.a, store]
  else if i.opcode = 9 then some [load i.b 0, emit .storeLocal 0 0 0 i.a]
  else if i.opcode = 8 then
    (stageArguments mir start i.b i.c).map (fun staged =>
      staged ++ [emit .call 0 0 i.c i.a, store])
  else if i.opcode = 44 ∨ i.opcode = 51 then
    (stageArguments mir start i.b i.c).map (fun staged =>
      staged ++ [load i.a 4,
        emit (if i.opcode = 44 then .callIndirect else .callClosure) 0 4 i.c i.d, store])
  else if i.opcode = 43 then some [emit .funcRef 0 0 0 i.a, store]
  else if i.opcode = 50 then
    if i.a < 0 ∨ i.a ≥ captures.length then none
    else
      let count := Arena.get captures i.a
      (stageArguments mir start i.c count).map (fun staged =>
        staged ++ [emit .makeClosure 0 i.b count i.a, store])
  else if i.opcode = 42 then some [emit .stringRef 0 0 0 i.a, store]
  else if isBinary i.opcode then
    if typeIsFloat i.type then none
    else
      some ([load i.a 1, load i.b 2, emit (binaryOp i.opcode i.type) 0 1 2 0] ++
        (if i.opcode = 20 ∨ i.opcode = 19 then [emit .boolize 0 0 0 0]
          else if (4 ≤ i.opcode ∧ i.opcode ≤ 7) ∨ (34 ≤ i.opcode ∧ i.opcode ≤ 39) then
            normalizeInteger 0 i.type
          else []) ++ [store])
  else if i.opcode = 18 then
    some [load i.a 1, emit .movi 2 0 0 0, emit .eq64 0 1 2 0, store]
  else if i.opcode = 17 then
    some [load i.a 1, load i.b 2, load i.c 3, emit .select 0 1 2 3, store]
  else if i.opcode = 10 then some [load i.a 0, emit .ret 0 0 0 0]
  else if i.opcode = 21 then some [emit .retVoid 0 0 0 0]
  else if i.opcode = 22 then some [emitBranch .jmp 0 i.b]
  else if i.opcode = 23 then
    some [load i.a 1, emitBranch .brnz 1 i.c, emitBranch .jmp 0 i.b]
  else if i.opcode = 26 then some [load i.a 1, emit .loadRef 0 1 0 0, store]
  else if i.opcode = 27 then some [load i.a 1, load i.b 2, emit .storeRef 0 1 2 0, store]
  else if i.opcode = 28 then
    some [load (if i.d > 0 then i.d - 1 else i.a) 1, load i.b 2,
      emit (if i.d > 0 then .sliceLoad else .indexLoad) 0 1 2 0, store]
  else if i.opcode = 29 then
    some [load (if i.d > 0 then i.d - 1 else i.a) 1, load i.b 2, load i.c 3,
      emit (if i.d > 0 then .sliceStore else .indexStore) 0 1 2 3, store]
  else if i.opcode = 45 then
    some [load i.a 1, load i.b 2, emit .indexRef 0 1 2 i.c, store]
  else if i.opcode = 30 then
    (encodeAlloc i.a (if i.b ≠ 0 then i.c else -1)).map (fun encoded =>
      [emit .alloc 0 i.b 0 encoded, store])
  else if i.opcode = 31 then some [load i.a 0, emit .free 0 0 0 0, store]
  else if i.opcode = 32 ∨ i.opcode = 33 then some [emit .movi 0 0 0 0, store]
  else if i.opcode = 47 then
    if i.a < 0 ∨ i.a ≥ globalCount then none
    else some [emit .loadGlobal 0 0 0 i.a, store]
  else if i.opcode = 48 then
    if i.a < 0 ∨ i.a ≥ globalCount then none
    else some [load i.b 0, emit .storeGlobal 0 0 0 i.a]
  else if i.opcode = 49 then
    if i.a < 0 ∨ i.a ≥ globalCount then none
    else some [emit .globalRef 0 0 0 i.a, store]
  else if i.opcode = 25 then
    some [emit .ldc64 0 0 0 (internConstant constants i.a).1, store]
  else if i.opcode = 24 then
    if i.a ≥ start ∧ i.a < stop then some [load i.a 0, store]
    else some [emit .movi 0 0 0 0, store]
  else if i.opcode = 40 then
    if typeIsFloat i.type then none
    else some (load i.a 0 :: normalizeInteger 0 i.type ++ [store])
  else none

/-- The constant pool after an instruction. -/
def poolAfter (mir : MirModule) (ip : Int) (constants : List Int) : List Int :=
  let i := mir.instruction ip
  if i.opcode = 1 ∨ i.opcode = 25 then (internConstant constants i.a).2 else constants

/-! ## Functions -/

/-- The module under construction: `mirToRxe` sends a MIR instruction to its first RXE
instruction. -/
structure Lowering where
  code : List Pending := []
  constants : List Int := []
  functions : List Function
  mirToRxe : List Int
  deriving DecidableEq, Repr

def instructionCapacity : Nat := 1048576
def constantCapacity : Nat := 262144

/-- One instruction of a function. -/
def lowerStep (captures : CaptureCounts) (mir : MirModule) (globalCount start stop : Int)
    (out : Lowering) (ip : Int) : Option Lowering :=
  (lowerInstruction captures mir globalCount start stop ip out.constants).map
    (fun code =>
      { out with
        code := out.code ++ code
        constants := poolAfter mir ip out.constants
        mirToRxe := Arena.set out.mirToRxe ip out.code.length })

/-- `rxe_lower_function`. The emission fails as a whole when a table is full. -/
def lowerFunction (captures : CaptureCounts) (mir : MirModule) (globalCount : Int)
    (out : Lowering) (function : Int) : Option Lowering :=
  let f := mir.function function
  if f.isExtern ≠ 0 then none
  else
    match (Arena.range f.start f.stop).foldlM (lowerStep captures mir globalCount f.start f.stop)
        out with
    | none => none
    | some next =>
        if next.code.length > instructionCapacity ∨ next.constants.length > constantCapacity
        then none
        else
          some { next with
            mirToRxe := Arena.set next.mirToRxe f.stop next.code.length
            functions := Arena.modify next.functions function (fun g => { g with
              codeStart := out.code.length
              argumentCount := f.parameterCount
              frameSlots := Word.wrap (f.count + f.localCount)
              codeCount := next.code.length - out.code.length }) }

/-- `rxe_patch_branches`, one instruction. -/
def patchBranch (mirToRxe : List Int) (count : Int) (pending : Pending) : Option Instruction :=
  if pending.branch ≥ 0 then
    if pending.branch ≥ mirToRxe.length then none
    else
      let encoded := Arena.get mirToRxe pending.branch
      if encoded < 0 ∨ encoded ≥ count then none
      else some { pending.instruction with immediate := encoded }
  else some pending.instruction

/-- `rxe_lower_mir`, on the module `rxe_module_init` has prepared: no code, no constants, and
one row for every function. -/
def lowerMir (captures : CaptureCounts) (mir : MirModule) (out : RxeModule) : Option RxeModule :=
  match (Arena.range 0 mir.functionCount).foldlM (lowerFunction captures mir out.globalCount)
      { functions := out.functions
        mirToRxe := List.replicate (mir.code.length + 1) (-1) } with
  | none => none
  | some lowering =>
      match lowering.code.mapM (patchBranch lowering.mirToRxe lowering.code.length) with
      | none => none
      | some code =>
          some { out with
            code
            constants := lowering.constants
            functions := lowering.functions }

end Raz.Rxe
