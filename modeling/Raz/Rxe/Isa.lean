/-!
# RXE instructions

Translation of `rxe/isa.rz`: the numbers of the opcodes, and what a module must announce to
use them.

Result: `Op.ofCode_code`: the numbering is injective.
-/

namespace Raz.Rxe

def registerCount : Int := 32

/-- The opcodes, `rxe_op_…`. -/
inductive Op
  | nop | movi | ldc64 | mov | loadArg | loadSlot | storeSlot | loadLocal | storeLocal
  | loadGlobal | storeGlobal | globalRef | localRef | loadRef | storeRef | funcRef
  | jmp | brnz | ret | retVoid | trap | call | arg | callIndirect | makeClosure | callClosure
  | add64 | sub64 | mul64 | div64 | rem64 | and64 | or64 | xor64 | shl64 | shr64
  | divs64 | rems64 | sar64
  | eq64 | ne64 | lt64 | le64 | gt64 | ge64 | select | notBool
  | trunc8 | trunc16 | trunc32 | sext8 | sext16 | sext32 | boolize | lts64
  | alloc | free | indexLoad | indexStore | indexRef | stringRef | memCopy
  | les64 | gts64 | ges64 | sliceLoad | sliceStore | sliceRef
  deriving DecidableEq, Repr

/-- The number of an opcode in the code. -/
def Op.code : Op → Int
  | nop => 0 | movi => 1 | ldc64 => 2 | mov => 3 | loadArg => 4 | loadSlot => 5
  | storeSlot => 6 | loadLocal => 7 | storeLocal => 8 | loadGlobal => 9 | storeGlobal => 10
  | globalRef => 11 | localRef => 12 | loadRef => 13 | storeRef => 14 | funcRef => 15
  | jmp => 16 | brnz => 17 | ret => 18 | retVoid => 19 | trap => 20 | call => 21 | arg => 22
  | callIndirect => 23 | makeClosure => 24 | callClosure => 25
  | add64 => 32 | sub64 => 33 | mul64 => 34 | div64 => 35 | rem64 => 36 | and64 => 37
  | or64 => 38 | xor64 => 39 | shl64 => 40 | shr64 => 41 | divs64 => 42 | rems64 => 43
  | sar64 => 44
  | eq64 => 64 | ne64 => 65 | lt64 => 66 | le64 => 67 | gt64 => 68 | ge64 => 69
  | select => 70 | notBool => 71 | trunc8 => 72 | trunc16 => 73 | trunc32 => 74
  | sext8 => 75 | sext16 => 76 | sext32 => 77 | boolize => 78 | lts64 => 79
  | alloc => 80 | free => 81 | indexLoad => 82 | indexStore => 83 | indexRef => 84
  | stringRef => 85 | memCopy => 86 | les64 => 87 | gts64 => 88 | ges64 => 89
  | sliceLoad => 90 | sliceStore => 91 | sliceRef => 92

def Op.all : List Op :=
  [nop, movi, ldc64, mov, loadArg, loadSlot, storeSlot, loadLocal, storeLocal, loadGlobal,
    storeGlobal, globalRef, localRef, loadRef, storeRef, funcRef, jmp, brnz, ret, retVoid, trap,
    call, arg, callIndirect, makeClosure, callClosure, add64, sub64, mul64, div64, rem64, and64,
    or64, xor64, shl64, shr64, divs64, rems64, sar64, eq64, ne64, lt64, le64, gt64, ge64, select,
    notBool, trunc8, trunc16, trunc32, sext8, sext16, sext32, boolize, lts64, alloc, free,
    indexLoad, indexStore, indexRef, stringRef, memCopy, les64, gts64, ges64, sliceLoad,
    sliceStore, sliceRef]

/-- The opcode with a number; `none` for the numbers no instruction has. -/
def Op.ofCode (code : Int) : Option Op := Op.all.find? (fun op => op.code = code)

@[simp] theorem Op.ofCode_code (op : Op) : Op.ofCode op.code = some op := by
  cases op <;> rfl

end Raz.Rxe
