import Mathlib.Algebra.Order.Ring.Int

/-!
# Forge IR

The module that the forge compiler parses, verifies and optimises: functions of basic
blocks with parameters, in SSA form.

A name is kept without its sigil: `Operand.value` is a text that starts with a percent sign,
`Operand.symbol` one that starts with an at sign, `Operand.literal` every other text.
-/

namespace Raz.Forge

/-! ## Types and declarations -/

inductive TypeKind
  | void | i1 | i8 | i16 | i32 | i64 | f32 | f64 | ptr
deriving DecidableEq, Repr

def TypeKind.isInteger : TypeKind → Bool
  | .i1 | .i8 | .i16 | .i32 | .i64 => true
  | _ => false

def TypeKind.isFloat : TypeKind → Bool
  | .f32 | .f64 => true
  | _ => false

def TypeKind.isNumeric (type : TypeKind) : Bool := type.isInteger || type.isFloat

def TypeKind.bitWidth : TypeKind → Nat
  | .i1 => 1
  | .i8 => 8
  | .i16 => 16
  | .i32 | .f32 => 32
  | .i64 | .f64 | .ptr => 64
  | .void => 0

def TypeKind.text : TypeKind → String
  | .void => "void" | .i1 => "i1" | .i8 => "i8" | .i16 => "i16" | .i32 => "i32"
  | .i64 => "i64" | .f32 => "f32" | .f64 => "f64" | .ptr => "ptr"

inductive AggregateKind
  | structure_
  | array
deriving DecidableEq, Repr

def AggregateKind.text : AggregateKind → String
  | .structure_ => "struct"
  | .array => "array"

/-- A named aggregate; a scalar has none. -/
structure AggregateRef where
  kind : AggregateKind
  name : String
deriving DecidableEq, Repr

inductive BorrowMode
  | none | immutable | mutable
deriving DecidableEq, Repr

inductive CallingConvention
  | platform | c | systemV | windowsX64 | fast
deriving DecidableEq, Repr

inductive SymbolLinkage
  | external | internal | weak
deriving DecidableEq, Repr

inductive SymbolVisibility
  | default | hidden
deriving DecidableEq, Repr

structure ValueDecl where
  name : String
  type : TypeKind
  aggregate : Option AggregateRef := none
  owned : Bool := false
  borrowMode : BorrowMode := .none
  functionSignatureName : String := ""
deriving DecidableEq, Repr

def ValueDecl.isAggregate (value : ValueDecl) : Bool := value.aggregate.isSome

structure StructField where
  name : String
  type : TypeKind
  aggregate : Option AggregateRef := none
deriving DecidableEq, Repr

structure StructDecl where
  name : String
  fields : List StructField
  moveOnly : Bool := false
deriving DecidableEq, Repr

structure ArrayDecl where
  name : String
  elementType : TypeKind
  elementAggregate : Option AggregateRef := none
  elementCount : Nat
  moveOnly : Bool := false
deriving DecidableEq, Repr

structure Global where
  name : String
  type : TypeKind
  aggregate : Option AggregateRef := none
  functionSignatureName : String := ""
  isConstant : Bool := false
  isExternal : Bool := false
  isThreadLocal : Bool := false
  linkage : SymbolLinkage := .external
  visibility : SymbolVisibility := .default
  initializer : String := ""
  elementCount : Nat := 1
  alignment : Nat := 0
  zeroInitialized : Bool := false
  bytes : List UInt8 := []
deriving DecidableEq, Repr

def Global.isNamedAggregate (global : Global) : Bool := global.aggregate.isSome

structure Attribute where
  name : String
  value : String
deriving DecidableEq, Repr

/-! ## Operations -/

/-- The comparisons with a meaning; the grammar takes every name after `cmp.`. -/
inductive Comparison
  | eq | ne | lt | le | gt | ge | ult | ule | ugt | uge
  | other (suffix : String)
deriving DecidableEq, Repr

def Comparison.text : Comparison → String
  | .eq => "eq" | .ne => "ne" | .lt => "lt" | .le => "le" | .gt => "gt" | .ge => "ge"
  | .ult => "ult" | .ule => "ule" | .ugt => "ugt" | .uge => "uge"
  | .other suffix => suffix

def Comparison.ofSuffix (suffix : String) : Comparison :=
  ([.eq, .ne, .lt, .le, .gt, .ge, .ult, .ule, .ugt, .uge].find?
    (Comparison.text · == suffix)).getD (.other suffix)

inductive Opcode
  | const | copy | select
  | add | sub | mul | div | divSigned | divUnsigned | remSigned | remUnsigned
  | and | or | xor | shl | shrSigned | shrUnsigned | neg | not
  | cmp (comparison : Comparison)
  | truncate | zeroExtend | signExtend | bitcast
  | intToFloat (signed : Bool) | floatToInt (signed : Bool) | floatExtend | floatTruncate
  | load | store | memoryCopy | memorySet
  | stackAlloc | stackAllocTyped (kind : AggregateKind)
  | ptrOffset | fieldAddress | structFieldAddress | structFieldNameAddress
  | arrayElementAddress | callbackElementAddress
  | globalAddress | tlsAddress | funcAddress | callbackAddress
  | sizeof (kind : AggregateKind) | alignof (kind : AggregateKind)
  | aggregateZero (kind : AggregateKind) | aggregateCopy (kind : AggregateKind)
  | aggregateMove (kind : AggregateKind) | aggregateAttach (kind : AggregateKind)
  | aggregateBorrow (exclusive : Bool) (kind : AggregateKind)
  | aggregateBorrowEnd (kind : AggregateKind) | aggregateEnd (kind : AggregateKind)
  | call | callIndirect
  | jump | branch | return | unreachable
deriving DecidableEq, Repr

def Opcode.text : Opcode → String
  | .const => "const" | .copy => "copy" | .select => "select"
  | .add => "add" | .sub => "sub" | .mul => "mul" | .div => "div"
  | .divSigned => "div.signed" | .divUnsigned => "div.unsigned"
  | .remSigned => "rem.signed" | .remUnsigned => "rem.unsigned"
  | .and => "and" | .or => "or" | .xor => "xor"
  | .shl => "shl" | .shrSigned => "shr.signed" | .shrUnsigned => "shr.unsigned"
  | .neg => "neg" | .not => "not"
  | .cmp comparison => "cmp." ++ comparison.text
  | .truncate => "truncate" | .zeroExtend => "zero_extend" | .signExtend => "sign_extend"
  | .bitcast => "bitcast"
  | .intToFloat true => "int_to_float.signed" | .intToFloat false => "int_to_float.unsigned"
  | .floatToInt true => "float_to_int.signed" | .floatToInt false => "float_to_int.unsigned"
  | .floatExtend => "float_extend" | .floatTruncate => "float_truncate"
  | .load => "load" | .store => "store"
  | .memoryCopy => "memory.copy" | .memorySet => "memory.set"
  | .stackAlloc => "stack.alloc" | .stackAllocTyped kind => "stack.alloc." ++ kind.text
  | .ptrOffset => "ptr.offset" | .fieldAddress => "field.address"
  | .structFieldAddress => "struct.field.address"
  | .structFieldNameAddress => "struct.field.name.address"
  | .arrayElementAddress => "array.element.address"
  | .callbackElementAddress => "callback.element.address"
  | .globalAddress => "global.address" | .tlsAddress => "tls.address"
  | .funcAddress => "func.address" | .callbackAddress => "callback.address"
  | .sizeof kind => "sizeof." ++ kind.text | .alignof kind => "alignof." ++ kind.text
  | .aggregateZero kind => "aggregate.zero." ++ kind.text
  | .aggregateCopy kind => "aggregate.copy." ++ kind.text
  | .aggregateMove kind => "aggregate.move." ++ kind.text
  | .aggregateAttach kind => "aggregate.attach." ++ kind.text
  | .aggregateBorrow true kind => "aggregate.borrow.mut." ++ kind.text
  | .aggregateBorrow false kind => "aggregate.borrow." ++ kind.text
  | .aggregateBorrowEnd kind => "aggregate.borrow.end." ++ kind.text
  | .aggregateEnd kind => "aggregate.end." ++ kind.text
  | .call => "call" | .callIndirect => "call.indirect"
  | .jump => "jump" | .branch => "branch" | .return => "return"
  | .unreachable => "unreachable"

/-- The opcodes that do not name an aggregate. -/
def Opcode.plain : List Opcode :=
  [.const, .copy, .select, .add, .sub, .mul, .div, .divSigned, .divUnsigned, .remSigned,
    .remUnsigned, .and, .or, .xor, .shl, .shrSigned, .shrUnsigned, .neg, .not, .truncate,
    .zeroExtend, .signExtend, .bitcast, .intToFloat true, .intToFloat false, .floatToInt true,
    .floatToInt false, .floatExtend, .floatTruncate, .load, .store, .memoryCopy, .memorySet,
    .stackAlloc, .ptrOffset, .fieldAddress, .structFieldAddress, .structFieldNameAddress,
    .arrayElementAddress, .callbackElementAddress, .globalAddress, .tlsAddress, .funcAddress,
    .callbackAddress, .call, .callIndirect, .jump, .branch, .return, .unreachable]

/-- The opcodes that end with `struct` or `array`. -/
def Opcode.ofAggregate (kind : AggregateKind) : List Opcode :=
  [.stackAllocTyped kind, .sizeof kind, .alignof kind, .aggregateZero kind, .aggregateCopy kind,
    .aggregateMove kind, .aggregateAttach kind, .aggregateBorrow true kind,
    .aggregateBorrow false kind, .aggregateBorrowEnd kind, .aggregateEnd kind]

/-- The opcode of a text: one of the list, or a comparison of any name. -/
def Opcode.ofText (text : String) : Option Opcode :=
  match (Opcode.plain ++ Opcode.ofAggregate .structure_ ++ Opcode.ofAggregate .array).find?
      (Opcode.text · == text) with
  | some opcode => some opcode
  | none =>
    if text.toList.take 4 = ['c', 'm', 'p', '.'] then
      some (.cmp (Comparison.ofSuffix (String.ofList (text.toList.drop 4))))
    else none

def Opcode.isTerminator : Opcode → Bool
  | .return | .jump | .branch | .unreachable => true
  | _ => false

def Opcode.isComparison : Opcode → Bool
  | .cmp _ => true
  | _ => false

/-- The text of an operand, by its first character. -/
inductive Operand
  | value (name : String)
  | symbol (name : String)
  | literal (text : String)
deriving DecidableEq, Repr

def Operand.text : Operand → String
  | .value name => "%" ++ name
  | .symbol name => "@" ++ name
  | .literal text => text

def Operand.isValue : Operand → Bool
  | .value _ => true
  | _ => false

def Operand.isSymbol : Operand → Bool
  | .symbol _ => true
  | _ => false

structure Operation where
  result : Option String := none
  opcode : Opcode
  type : TypeKind := .void
  operands : List Operand := []
  successors : List String := []
  successorArguments : List (List Operand) := []
  alignment : Nat := 0
  attributes : List Attribute := []
deriving DecidableEq, Repr

def Operation.isTerminator (operation : Operation) : Bool := operation.opcode.isTerminator

structure Block where
  name : String
  parameters : List ValueDecl := []
  operations : List Operation
deriving DecidableEq, Repr

structure Function where
  name : String
  isExternal : Bool := false
  isSignature : Bool := false
  variadic : Bool := false
  targetFeature : String := ""
  callingConvention : CallingConvention := .platform
  linkage : SymbolLinkage := .external
  visibility : SymbolVisibility := .default
  returnType : TypeKind
  returnAggregate : Option AggregateRef := none
  returnOwned : Bool := false
  returnBorrowMode : BorrowMode := .none
  returnBorrowParameter : Int := -1
  parameters : List ValueDecl := []
  blocks : List Block := []
deriving DecidableEq, Repr

def Function.returnsAggregate (function : Function) : Bool := function.returnAggregate.isSome

structure Module where
  name : String := "anonymous"
  structs : List StructDecl := []
  arrays : List ArrayDecl := []
  globals : List Global := []
  functions : List Function := []
deriving DecidableEq, Repr

/-! ## Numbers in texts -/

/-- The digits of a text as a number, the first digits in `value`. -/
def digitsValue : List Char → Nat → Option Nat
  | [], value => some value
  | digit :: digits, value =>
    if digit.isDigit then digitsValue digits (10 * value + (digit.toNat - '0'.toNat)) else none

/-- At least one digit, and nothing else. -/
def parseDigits : List Char → Option Nat
  | [] => none
  | digits => digitsValue digits 0

/-- `from_chars` into a `uint32_t`, the whole text. -/
def parseUnsigned32 (text : String) : Option Nat := do
  let value ← parseDigits text.toList
  if value < 2 ^ 32 then some value else none

end Raz.Forge
