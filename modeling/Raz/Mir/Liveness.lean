import Raz.Mir.Cfg

/-!
# Register operands

Translation of `raz_mir/src/mir/analysis/liveness.rz`: which operands of an instruction are
uses of SSA values, and how often each value is used.
-/

namespace Raz.Mir

/-- Bit `k` is set when operand `k` of the opcode names a register. -/
def registerOperandMask (opcode : Int) : Nat :=
  if (opcode ≥ 4 ∧ opcode ≤ 7) ∨ (opcode ≥ 11 ∧ opcode ≤ 20) ∨
      (opcode ≥ 34 ∧ opcode ≤ 39) then 3
  else if opcode = 9 ∨ opcode = 48 then 2
  else if opcode = 27 ∨ opcode = 28 ∨ opcode = 45 then 3
  else if opcode = 10 ∨ opcode = 26 ∨ opcode = 31 ∨ opcode = 40 ∨ opcode = 41 ∨
      opcode = 44 ∨ opcode = 46 ∨ opcode = 51 ∨ opcode = 52 ∨ opcode = 53 then 1
  else if opcode = 23 then 9
  else if opcode = 22 then 4
  else if opcode = 29 then 7
  else 0

/-- The operand at position `k`, `op_d` from 3 on. -/
def Instruction.operand (i : Instruction) (k : Nat) : Int :=
  if k = 0 then i.a else if k = 1 then i.b else if k = 2 then i.c else i.d

/-- The operands the mask declares to be registers, in operand order. -/
def maskedOperands (i : Instruction) : List Int :=
  ((List.range 4).filter (fun k => (registerOperandMask i.opcode).testBit k)).map i.operand

end Raz.Mir
