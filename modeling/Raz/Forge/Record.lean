import Raz.Forge.Ownership

/-!
# The module as the compiler keeps it

The records of a module with all their fields: a text is a sequence of bytes, an opcode is a text
of any kind, and each operation has its place in the source and its attributes.

`Module.typed` is the view that the verifier of this development has of such a module; texts that
are no UTF-8 and opcodes that no operation has are outside it.
-/

namespace Raz.Forge.Record

abbrev Text := List UInt8

/-! ## Records -/

inductive AggregateRefKind
  | scalar | structure_ | array
deriving DecidableEq, Repr

/-- The kind of a global. The reader of globals casts a byte of any value to the enumeration. -/
inductive GlobalAggregateKind
  | known (kind : AggregateRefKind)
  | other (byte : UInt8) (beyond : 3 ≤ byte)
deriving DecidableEq, Repr

structure ValueDecl where
  name : Text
  type : TypeKind
  aggregateKind : AggregateRefKind := .scalar
  aggregateName : Text := []
  owned : Bool := false
  borrowMode : BorrowMode := .none
  functionSignatureName : Text := []
deriving DecidableEq, Repr

structure StructField where
  name : Text
  type : TypeKind
  aggregateKind : AggregateRefKind := .scalar
  aggregateName : Text := []
deriving DecidableEq, Repr

structure StructDecl where
  name : Text
  fields : List StructField
  moveOnly : Bool := false
deriving DecidableEq, Repr

structure ArrayDecl where
  name : Text
  elementType : TypeKind
  elementAggregateKind : AggregateRefKind := .scalar
  elementAggregateName : Text := []
  elementCount : UInt32
  moveOnly : Bool := false
deriving DecidableEq, Repr

structure Global where
  name : Text
  type : TypeKind
  aggregateKind : GlobalAggregateKind := .known .scalar
  aggregateName : Text := []
  functionSignatureName : Text := []
  isConstant : Bool := false
  isExternal : Bool := false
  isThreadLocal : Bool := false
  linkage : SymbolLinkage := .external
  visibility : SymbolVisibility := .default
  initializer : Text := []
  elementCount : UInt32 := 1
  alignment : UInt32 := 0
  zeroInitialized : Bool := false
  bytes : List UInt8 := []
deriving DecidableEq, Repr

structure Attribute where
  name : Text
  value : Text
deriving DecidableEq, Repr

structure Operation where
  result : Text := []
  opcode : Text
  type : TypeKind := .void
  operands : List Text := []
  successors : List Text := []
  successorArguments : List (List Text) := []
  alignment : UInt32 := 0
  sourceFile : Text := []
  sourceLine : UInt32 := 0
  sourceColumn : UInt32 := 0
  sourceEndLine : UInt32 := 0
  sourceEndColumn : UInt32 := 0
  attributes : List Attribute := []
deriving DecidableEq, Repr

structure Block where
  name : Text
  parameters : List ValueDecl := []
  operations : List Operation
deriving DecidableEq, Repr

structure Function where
  name : Text
  isExternal : Bool := false
  isSignature : Bool := false
  variadic : Bool := false
  targetFeature : Text := []
  callingConvention : CallingConvention := .platform
  linkage : SymbolLinkage := .external
  visibility : SymbolVisibility := .default
  returnType : TypeKind
  returnAggregateKind : AggregateRefKind := .scalar
  returnAggregateName : Text := []
  returnOwned : Bool := false
  returnBorrowMode : BorrowMode := .none
  returnBorrowParameter : Int32 := -1
  parameters : List ValueDecl := []
  blocks : List Block := []
deriving DecidableEq, Repr

structure Module where
  name : Text
  structs : List StructDecl := []
  arrays : List ArrayDecl := []
  globals : List Global := []
  functions : List Function := []
  metadata : List Attribute := []
deriving DecidableEq, Repr

/-! ## What the code generator reads -/

def Operation.generated (operation : Operation) : Operation :=
  { operation with
    sourceFile := []
    sourceLine := 0
    sourceColumn := 0
    sourceEndLine := 0
    sourceEndColumn := 0
    attributes := [] }

def Block.generated (block : Block) : Block :=
  { block with operations := block.operations.map Operation.generated }

def Function.generated (function : Function) : Function :=
  { function with blocks := function.blocks.map Block.generated }

/-- The module without the source locations, the attributes and the metadata. -/
def Module.generated (m : Module) : Module :=
  { m with functions := m.functions.map Function.generated, metadata := [] }

/-! ## The view of the verifier -/

def Text.string? (text : Text) : Option String := String.fromUTF8? ⟨text.toArray⟩

/-- An operand by its sigil. -/
def operandOf (text : String) : Operand :=
  match text.toList with
  | '%' :: name => .value (String.ofList name)
  | '@' :: name => .symbol (String.ofList name)
  | _ => .literal text

/-- The name of a value, without its percent sign. -/
def Text.valueName? (text : Text) : Option String := do
  match operandOf (← Text.string? text) with
  | .value name => some name
  | _ => none

def Text.operand? (text : Text) : Option Operand := do return operandOf (← Text.string? text)

/-- A scalar names no aggregate. -/
def aggregate? (kind : AggregateRefKind) (name : Text) : Option (Option AggregateRef) :=
  match kind with
  | .scalar => if name = [] then some none else none
  | .structure_ => do return some ⟨.structure_, ← Text.string? name⟩
  | .array => do return some ⟨.array, ← Text.string? name⟩

def ValueDecl.typed (value : ValueDecl) : Option Forge.ValueDecl := do
  return {
    name := ← Text.valueName? value.name
    type := value.type
    aggregate := ← aggregate? value.aggregateKind value.aggregateName
    owned := value.owned
    borrowMode := value.borrowMode
    functionSignatureName := ← Text.string? value.functionSignatureName }

def StructField.typed (field : StructField) : Option Forge.StructField := do
  return {
    name := ← Text.string? field.name
    type := field.type
    aggregate := ← aggregate? field.aggregateKind field.aggregateName }

def StructDecl.typed (structure_ : StructDecl) : Option Forge.StructDecl := do
  return {
    name := ← Text.string? structure_.name
    fields := ← structure_.fields.mapM StructField.typed
    moveOnly := structure_.moveOnly }

def ArrayDecl.typed (array : ArrayDecl) : Option Forge.ArrayDecl := do
  return {
    name := ← Text.string? array.name
    elementType := array.elementType
    elementAggregate := ← aggregate? array.elementAggregateKind array.elementAggregateName
    elementCount := array.elementCount.toNat
    moveOnly := array.moveOnly }

def GlobalAggregateKind.known? : GlobalAggregateKind → Option AggregateRefKind
  | .known kind => some kind
  | .other _ _ => none

def Global.typed (global : Global) : Option Forge.Global := do
  return {
    name := ← Text.string? global.name
    type := global.type
    aggregate := ← aggregate? (← global.aggregateKind.known?) global.aggregateName
    functionSignatureName := ← Text.string? global.functionSignatureName
    isConstant := global.isConstant
    isExternal := global.isExternal
    isThreadLocal := global.isThreadLocal
    linkage := global.linkage
    visibility := global.visibility
    initializer := ← Text.string? global.initializer
    elementCount := global.elementCount.toNat
    alignment := global.alignment.toNat
    zeroInitialized := global.zeroInitialized
    bytes := global.bytes }

def Attribute.typed (item : Attribute) : Option Forge.Attribute := do
  return { name := ← Text.string? item.name, value := ← Text.string? item.value }

def Operation.typed (operation : Operation) : Option Forge.Operation := do
  return {
    result := ←
      if operation.result = [] then some none else (Text.valueName? operation.result).map some
    opcode := ← Opcode.ofText (← Text.string? operation.opcode)
    type := operation.type
    operands := ← operation.operands.mapM Text.operand?
    successors := ← operation.successors.mapM Text.string?
    successorArguments := ← operation.successorArguments.mapM (·.mapM Text.operand?)
    alignment := operation.alignment.toNat
    attributes := ← operation.attributes.mapM Attribute.typed }

def Block.typed (block : Block) : Option Forge.Block := do
  return {
    name := ← Text.string? block.name
    parameters := ← block.parameters.mapM ValueDecl.typed
    operations := ← block.operations.mapM Operation.typed }

def Function.typed (function : Function) : Option Forge.Function := do
  return {
    name := ← Text.string? function.name
    isExternal := function.isExternal
    isSignature := function.isSignature
    variadic := function.variadic
    targetFeature := ← Text.string? function.targetFeature
    callingConvention := function.callingConvention
    linkage := function.linkage
    visibility := function.visibility
    returnType := function.returnType
    returnAggregate := ← aggregate? function.returnAggregateKind function.returnAggregateName
    returnOwned := function.returnOwned
    returnBorrowMode := function.returnBorrowMode
    returnBorrowParameter := function.returnBorrowParameter.toInt
    parameters := ← function.parameters.mapM ValueDecl.typed
    blocks := ← function.blocks.mapM Block.typed }

def Module.typed (m : Module) : Option Forge.Module := do
  return {
    name := ← Text.string? m.name
    structs := ← m.structs.mapM StructDecl.typed
    arrays := ← m.arrays.mapM ArrayDecl.typed
    globals := ← m.globals.mapM Global.typed
    functions := ← m.functions.mapM Function.typed }

/-- What the verifier reports of a module in its view. -/
def verify (m : Module) : List String :=
  match m.typed with
  | some typed => verifyModule typed
  | none => ["a text or an opcode outside the view"]

end Raz.Forge.Record
