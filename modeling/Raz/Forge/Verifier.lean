import Raz.Forge.Definitions

/-!
# The forge verifier

What `verify_module` reports of a module: its declarations, the headers of its functions, and for
each function with a body its blocks, its SSA definitions and every operation. The two analyses of
aggregates that the verifier runs last are in `Ownership`.

A module is accepted when nothing is reported.
-/

namespace Raz.Forge

/-- The message, when the check fails. -/
def report (failed : Bool) (message : String) : List String :=
  if failed then [message] else []

theorem report_eq_nil {failed : Bool} {message : String} :
    report failed message = [] ↔ failed = false := by
  cases failed <;> simp [report]

/-! ## Declarations -/

def Module.aggregateIsMoveOnly (m : Module) (ref : AggregateRef) : Bool :=
  match ref.kind with
  | .structure_ => (m.findStruct ref.name).any StructDecl.moveOnly
  | .array => (m.findArray ref.name).any ArrayDecl.moveOnly

def Module.knows (m : Module) (ref : AggregateRef) : Bool :=
  match ref.kind with
  | .structure_ => (m.findStruct ref.name).isSome
  | .array => (m.findArray ref.name).isSome

/-- The message for an aggregate that is not declared. -/
def Module.reportUnknown (m : Module) (ref : Option AggregateRef)
    (message : AggregateRef → String) : List String :=
  match ref with
  | none => []
  | some ref => report (!m.knows ref) (message ref)

/-- The message for an owned value that would copy a move-only aggregate. -/
def Module.reportMoveOnly (m : Module) (owned : Bool) (ref : Option AggregateRef)
    (message : String) : List String :=
  match ref with
  | none => []
  | some ref => report (owned && m.aggregateIsMoveOnly ref)
      (message ++ " would copy move-only aggregate @" ++ ref.name)

def AggregateKind.word : AggregateKind → String
  | .structure_ => "structure"
  | .array => "array"

def Module.verifyArray (m : Module) (earlier : List ArrayDecl) (array : ArrayDecl) : List String :=
  report (array.name == "" || earlier.any (·.name == array.name))
      ("duplicate or empty array @" ++ array.name) ++
    report (array.elementCount == 0 || (DataLayout.host.arrayLayout m array).isNone)
      ("invalid array layout for @" ++ array.name) ++
    m.reportUnknown array.elementAggregate (fun ref =>
      "unknown " ++ ref.kind.word ++ " @" ++ ref.name ++ " in array @" ++ array.name) ++
    report (array.elementAggregate.isNone && (DataLayout.host.sizeOf array.elementType).isNone)
      ("unsized element type in array @" ++ array.name) ++
    report (array.elementAggregate.any m.aggregateIsMoveOnly && !array.moveOnly)
      ("array @" ++ array.name ++
        " contains move-only aggregate elements and must also be moveonly")

def Module.verifyField (m : Module) (structure_ : StructDecl) (earlier : List StructField)
    (field : StructField) : List String :=
  report (field.name == "" || earlier.any (·.name == field.name))
      ("duplicate or empty field in structure @" ++ structure_.name) ++
    report (field.aggregate.isNone && (DataLayout.host.sizeOf field.type).isNone)
      ("unsized field " ++ field.name ++ " in structure @" ++ structure_.name) ++
    m.reportUnknown field.aggregate (fun ref =>
      "unknown " ++ ref.kind.word ++ " @" ++ ref.name ++ " in field " ++ field.name) ++
    report (field.aggregate.any m.aggregateIsMoveOnly && !structure_.moveOnly)
      ("structure @" ++ structure_.name ++ " contains move-only field " ++ field.name ++
        " and must also be moveonly")

def Module.verifyStruct (m : Module) (earlier : List StructDecl) (structure_ : StructDecl) :
    List String :=
  report (structure_.name == "" || earlier.any (·.name == structure_.name))
      ("duplicate or empty structure @" ++ structure_.name) ++
    (structure_.fields.zipIdx.flatMap fun (field, index) =>
      m.verifyField structure_ (structure_.fields.take index) field) ++
    report (DataLayout.host.structLayout m structure_).isNone
      ("structure layout failed or recursive aggregate detected for @" ++ structure_.name)

/-- The bytes that a byte initializer of the global must have. -/
def Global.expectedBytes (global : Global) (m : Module) : Nat :=
  match global.aggregate with
  | some ref => (DataLayout.host.aggregateSize m ref).getD 0
  | none =>
    if global.functionSignatureName != "" then global.elementCount * 8 else global.elementCount

def Global.hasInitializer (global : Global) : Bool :=
  global.initializer != "" || global.zeroInitialized || !global.bytes.isEmpty

def Module.verifyGlobalType (m : Module) (global : Global) : List String :=
  match global.aggregate with
  | some ref =>
    report ((DataLayout.host.aggregateSize m ref).isNone ||
        (DataLayout.host.aggregateAlignment m ref).isNone)
      ("unknown or invalid aggregate type for global @" ++ global.name)
  | none =>
    report (!global.type.isInteger && global.functionSignatureName == "")
        ("global @" ++ global.name ++ " must have integer, callback, or named aggregate type") ++
      report (global.elementCount == 0)
        ("global @" ++ global.name ++ " cannot have zero elements") ++
      report (global.elementCount != 1 && global.type != .i8 && global.functionSignatureName == "")
        ("byte-array global @" ++ global.name ++ " requires i8 elements")

def Module.verifyInitializer (m : Module) (global : Global) : List String :=
  let single := !global.isNamedAggregate && global.elementCount == 1 && global.type != .i8
  report (global.isExternal && global.hasInitializer)
      ("external global @" ++ global.name ++ " cannot have an initializer") ++
    report (!global.isExternal && !global.hasInitializer)
      ("global @" ++ global.name ++ " requires an initializer") ++
    report (!global.bytes.isEmpty && single)
      ("scalar global @" ++ global.name ++ " cannot use a byte-string initializer") ++
    report (!global.bytes.isEmpty && global.bytes.length != global.expectedBytes m)
      ("byte initializer size mismatch for global @" ++ global.name) ++
    report (global.zeroInitialized && single && global.functionSignatureName == "")
      ("scalar integer global @" ++ global.name ++ " requires an integer initializer") ++
    report (global.isNamedAggregate && !global.zeroInitialized && global.bytes.isEmpty &&
        !global.isExternal)
      ("aggregate global @" ++ global.name ++ " requires zero or exact byte initializer")

def Module.verifyCallbackGlobal (m : Module) (global : Global) : List String :=
  if global.functionSignatureName == "" then []
  else
    report (global.type != .ptr || global.isNamedAggregate || global.elementCount == 0)
        ("callback global @" ++ global.name ++ " must contain one or more ptr elements") ++
      report (!(m.findFunction global.functionSignatureName).any Function.isSignature)
        ("callback global @" ++ global.name ++ " references unknown signature @" ++
          global.functionSignatureName)

def Module.verifyGlobal (m : Module) (earlier : List Global) (global : Global) : List String :=
  report (global.isExternal && global.linkage == .internal)
      ("external global @" ++ global.name ++ " cannot have internal linkage") ++
    report (global.isThreadLocal && global.isConstant)
      ("thread-local global @" ++ global.name ++ " cannot be constant") ++
    report (earlier.any (·.name == global.name)) ("duplicate global @" ++ global.name) ++
    m.verifyGlobalType global ++
    report (global.alignment != 0 && (4096 < global.alignment || !isPowerOfTwo global.alignment))
      ("global @" ++ global.name ++ " requires power-of-two alignment no greater than 4096") ++
    m.verifyInitializer global ++ m.verifyCallbackGlobal global

/-! ## Headers of functions -/

def Module.verifyValueDeclaration (m : Module) (value : ValueDecl) (context : String) :
    List String :=
  if value.functionSignatureName != "" then
    report (value.type != .ptr || value.isAggregate)
        (context ++ " callback value must lower as scalar ptr") ++
      report (!(m.findFunction value.functionSignatureName).any Function.isSignature)
        (context ++ " references unknown callback signature @" ++ value.functionSignatureName) ++
      report (value.owned || value.borrowMode != .none)
        (context ++ " callback value cannot be owned or borrowed")
  else if !value.isAggregate then []
  else
    report (value.type != .ptr) (context ++ " aggregate value must lower as ptr") ++
      m.reportUnknown value.aggregate fun ref =>
        context ++ " references unknown " ++ ref.kind.word ++ " @" ++ ref.name

/-- The parameter that a borrowed result is a part of. -/
def Function.verifyBorrowSource (function : Function) : List String :=
  match function.parameters[function.returnBorrowParameter.toNat]? with
  | none =>
    ["borrowed return from @" ++ function.name ++ " references an invalid parameter index"]
  | some source =>
    if function.returnBorrowParameter < 0 then
      ["borrowed return from @" ++ function.name ++ " references an invalid parameter index"]
    else if source.borrowMode = .none || !source.isAggregate then
      ["borrowed return source in @" ++ function.name ++
        " must be a borrowed aggregate parameter"]
    else if source.aggregate ≠ function.returnAggregate then
      ["borrowed return source aggregate mismatch in @" ++ function.name]
    else
      report (function.returnBorrowMode == .mutable && source.borrowMode != .mutable)
        ("mutable borrowed return from @" ++ function.name ++ " requires a mutable borrowed source")

def Module.verifyReturn (m : Module) (function : Function) : List String :=
  report (function.returnOwned && !function.returnsAggregate)
      ("owned return from @" ++ function.name ++ " requires a named aggregate") ++
    report (function.returnOwned && function.returnBorrowMode != .none)
      ("return from @" ++ function.name ++ " cannot be both owned and borrowed") ++
    report (function.returnBorrowMode != .none && !function.returnsAggregate)
      ("borrowed return from @" ++ function.name ++ " requires a named aggregate") ++
    (if function.returnBorrowMode = .none then
      report (function.returnBorrowParameter != -1)
        ("non-borrowed return from @" ++ function.name ++ " cannot declare a borrow source")
    else function.verifyBorrowSource) ++
    m.reportMoveOnly function.returnOwned function.returnAggregate
      ("owned return from @" ++ function.name) ++
    report (function.returnsAggregate && function.returnType != .ptr)
      ("aggregate return from @" ++ function.name ++ " must lower as ptr") ++
    m.reportUnknown function.returnAggregate fun ref =>
      "function @" ++ function.name ++ " returns unknown " ++ ref.kind.word ++ " @" ++ ref.name

def Module.verifyParameter (m : Module) (function : Function) (parameter : ValueDecl) :
    List String :=
  let what := "parameter %" ++ parameter.name ++ " in @" ++ function.name
  m.verifyValueDeclaration parameter ("function parameter %" ++ parameter.name) ++
    report (parameter.owned && !parameter.isAggregate)
      ("owned " ++ what ++ " requires a named aggregate") ++
    report (parameter.borrowMode != .none && !parameter.isAggregate)
      ("borrowed " ++ what ++ " requires a named aggregate") ++
    report (parameter.owned && parameter.borrowMode != .none)
      (what ++ " cannot be both owned and borrowed") ++
    m.reportMoveOnly parameter.owned parameter.aggregate ("owned " ++ what)

def Module.verifyBlockParameter (m : Module) (parameter : ValueDecl) : List String :=
  m.verifyValueDeclaration parameter ("block parameter %" ++ parameter.name) ++
    report (parameter.owned && !parameter.isAggregate)
      ("owned block parameter %" ++ parameter.name ++ " requires a named aggregate") ++
    report (parameter.borrowMode != .none)
      ("borrow modes are only valid on function parameters; block parameter %" ++
        parameter.name ++ " is invalid") ++
    m.reportMoveOnly parameter.owned parameter.aggregate
      ("owned block parameter %" ++ parameter.name)

def Module.verifyHeader (m : Module) (earlier : List Function) (function : Function) :
    List String :=
  report (earlier.any (·.name == function.name)) ("duplicate function @" ++ function.name) ++
    report (function.isExternal && function.linkage == .internal)
      ("external function @" ++ function.name ++ " cannot have internal linkage") ++
    report (function.variadic && !function.isExternal && !function.isSignature)
      ("variadic function @" ++ function.name ++ " must be an external declaration or signature") ++
    report (function.callingConvention == .fast && function.variadic)
      ("variadic function @" ++ function.name ++ " cannot use the fast calling convention") ++
    m.verifyReturn function ++
    function.parameters.flatMap (m.verifyParameter function) ++
    function.blocks.flatMap fun block => block.parameters.flatMap m.verifyBlockParameter

/-! ## Symbols of operations -/

/-- A function has the type of a signature. -/
def Function.compatible (a b : Function) : Bool :=
  a.returnType == b.returnType && a.returnAggregate == b.returnAggregate &&
    a.returnOwned == b.returnOwned && a.returnBorrowMode == b.returnBorrowMode &&
    a.returnBorrowParameter == b.returnBorrowParameter && a.variadic == b.variadic &&
    a.callingConvention == b.callingConvention &&
    a.parameters.length == b.parameters.length &&
    (a.parameters.zip b.parameters).all fun (x, y) =>
      x.type == y.type && x.aggregate == y.aggregate && x.owned == y.owned &&
        x.borrowMode == y.borrowMode

/-- The address of a function, as a signature or not. -/
def Module.verifyAddressed (m : Module) (operation : Operation) : List String :=
  match operation.operands with
  | .symbol name :: signature =>
    report ((m.findFunction name).any Function.isSignature)
        ("cannot take address of signature @" ++ name) ++
      match signature with
      | [.symbol target] =>
        match m.findFunction target with
        | none => ["func.address as target must name a signature declaration"]
        | some declared =>
          if !declared.isSignature then
            ["func.address as target must name a signature declaration"]
          else
            report ((m.findFunction name).any fun function => !function.compatible declared)
              ("function @" ++ name ++ " is incompatible with signature @" ++ target)
      | _ => []
  | _ => []

def Module.verifySymbols (m : Module) (operation : Operation) : List String :=
  match operation.opcode with
  | .call =>
    match operation.operands with
    | .symbol name :: _ => report ((m.findFunction name).any Function.isSignature)
        ("cannot directly call signature @" ++ name)
    | _ => []
  | .funcAddress | .callbackAddress => m.verifyAddressed operation
  | .aggregateCopy kind =>
    match operation.operands with
    | _ :: _ :: name :: _ => report (m.aggregateIsMoveOnly ⟨kind, name.symbolName⟩)
        ("cannot copy move-only aggregate @" ++ name.symbolName)
    | _ => []
  | _ => []

/-! ## Operations -/

/-- What the checks of an operation read: the module, the function with its SSA table, and the
block that the operation is in. -/
structure Scope where
  module : Module
  function : Function
  definitions : Definitions
  block : Nat
  blockName : String

def Scope.inBlock (scope : Scope) (message : String) : String :=
  message ++ " in block " ++ scope.blockName

def Scope.definition (scope : Scope) (operation : Operation) (index : Nat) : Option Definition :=
  operation.operands[index]?.bind scope.definitions.find

/-- The type of an operand; `void` for one that is not in the table. -/
def Scope.operandType (scope : Scope) (operation : Operation) (index : Nat) : TypeKind :=
  ((scope.definition operation index).map Definition.type).getD .void

/-- The definition of a value reaches its use at an operation, when the block is reachable. -/
def Scope.available (scope : Scope) (definition : Definition) (index : Nat) : Bool :=
  !scope.function.Reachable scope.block ||
    if definition.block = scope.block then definition.operation ≤ index
    else scope.function.Dominates definition.block scope.block

def Scope.verifyUse (scope : Scope) (index : Nat) (operand : Operand) : List String :=
  match operand with
  | .value name =>
    match scope.definitions.find operand with
    | none => ["use of undefined value %" ++ name ++ " in function @" ++ scope.function.name ++
        " block " ++ scope.blockName ++ " operation " ++ toString index]
    | some definition =>
      report (!scope.available definition index)
        (scope.inBlock ("definition of %" ++ name ++ " does not dominate its use"))
  | _ => []

/-- The operands that are uses: not the callee of a call, not the signature of an indirect one. -/
def Operation.uses (operation : Operation) : List Operand :=
  match operation.opcode, operation.operands with
  | .call, _ :: arguments => arguments
  | .callIndirect, pointer :: .symbol _ :: arguments => pointer :: arguments
  | _, operands => operands

def Scope.verifyUses (scope : Scope) (index : Nat) (operation : Operation) : List String :=
  operation.uses.flatMap (scope.verifyUse index) ++
    operation.successorArguments.flatten.flatMap (scope.verifyUse index)

def Scope.verifyBranch (scope : Scope) (operation : Operation) : List String :=
  report ((scope.definition operation 0).any fun condition => condition.type != .i1)
    (scope.inBlock "branch condition must have type i1")

/-- A function pointer is stored where functions of its signature are. -/
def Scope.verifyCallbackStore (scope : Scope) (operation : Operation) : List String :=
  match operation.operands with
  | [value, address] =>
    report ((scope.definitions.find address).any fun found => found.memorySignatureName != "" &&
        (scope.definitions.find value).map Definition.functionSignatureName !=
          some found.memorySignatureName)
      ("callback store signature mismatch for " ++ address.text)
  | _ => []

def Module.verifyGlobalAddress (m : Module) (operation : Operation) : List String :=
  match operation.operands with
  | [.symbol name] =>
    if (operation.type ≠ .ptr ∧ operation.type ≠ .i64) ∨ operation.result = none then
      ["global.address requires pointer-sized ptr/i64 result and global symbol"]
    else report (m.findGlobal name).isNone ("unknown global address @" ++ name)
  | _ => ["global.address requires pointer-sized ptr/i64 result and global symbol"]

def Module.verifyTlsAddress (m : Module) (operation : Operation) : List String :=
  match operation.operands with
  | [.symbol name] =>
    if operation.type ≠ .ptr ∨ operation.result = none then
      ["tls.address requires ptr result and TLS global symbol"]
    else
      match m.findGlobal name with
      | none => ["unknown TLS address @" ++ name]
      | some global => report (!global.isThreadLocal)
          ("tls.address references non-TLS global @" ++ name)
  | _ => ["tls.address requires ptr result and TLS global symbol"]

def Module.verifyFunctionAddress (m : Module) (operation : Operation) : List String :=
  match operation.operands with
  | .symbol name :: rest =>
    if operation.type ≠ .ptr ∨ operation.result = none ∨ 1 < rest.length then
      ["func.address requires ptr result and function symbol"]
    else if operation.opcode = .funcAddress then
      report (m.findFunction name).isNone ("unknown function address @" ++ name)
    else
      match rest with
      | [.symbol signature] =>
        report (!(m.findFunction signature).any Function.isSignature)
          ("unknown callback signature @" ++ signature)
      | _ => ["callback.address requires 'as @signature'"]
  | _ => ["func.address requires ptr result and function symbol"]

/-- What made a value, for a message. -/
def Function.producer (function : Function) (definition : Definition) : String :=
  if definition.operation = 0 then "parameter"
  else
    match function.blocks[definition.block]?.bind (·.operations[definition.operation - 1]?) with
    | none => "parameter"
    | some operation => operation.opcode.text

/-- The arguments of a call against the parameters of the callee or the signature, which is
`target` in messages. -/
def Scope.verifyArguments (scope : Scope) (what target : String) (callee : Function)
    (arguments : List Operand) (mismatch : Definition → String) : List String :=
  report (if callee.variadic then arguments.length < callee.parameters.length
      else arguments.length != callee.parameters.length)
      (what ++ " argument count mismatch for " ++ target) ++
    (arguments.zip callee.parameters).zipIdx.flatMap fun ((argument, parameter), index) =>
      match scope.definitions.find argument with
      | none => []
      | some found =>
        if found.type ≠ parameter.type then
          [what ++ " argument type mismatch for " ++ target ++ " argument " ++ toString index ++
            ": expected " ++ parameter.type.text ++ ", got " ++ found.type.text ++ " from " ++
            argument.text ++ mismatch found]
        else if parameter.isAggregate ∧ found.aggregate ≠ parameter.aggregate then
          [what ++ " aggregate argument mismatch for " ++ target]
        else
          report (parameter.functionSignatureName != "" &&
              found.functionSignatureName != parameter.functionSignatureName)
            (what ++ " callback argument signature mismatch for " ++ target)

def Scope.verifyCall (scope : Scope) (operation : Operation) : List String :=
  match operation.operands with
  | .symbol name :: arguments =>
    match scope.module.findFunction name with
    | none => ["unknown callee @" ++ name]
    | some callee =>
      report (operation.type != callee.returnType) ("call return type mismatch for @" ++ name) ++
        report (callee.returnType == .void && operation.result.isSome)
          ("void call cannot define a result for @" ++ name) ++
        report (callee.returnType != .void && operation.result.isNone)
          ("value-returning call requires a result for @" ++ name) ++
        scope.verifyArguments "call" ("@" ++ name) callee arguments fun found =>
          " produced by " ++ scope.function.producer found
  | _ => ["call requires a function symbol"]

/-- The function whose address a value is. -/
def Function.addressTarget (function : Function) (operand : Operand) : Option String :=
  (function.blocks.flatMap Block.operations).findSome? fun operation =>
    match operation.opcode, operation.operands with
    | .funcAddress, .symbol name :: _ | .callbackAddress, .symbol name :: _ =>
      if operation.result.any fun result => operand = .value result then some name else none
    | _, _ => none

def Scope.verifyIndirectTarget (scope : Scope) (operation : Operation) (pointer : Operand)
    (signature : Function) : List String :=
  report ((scope.definitions.find pointer).any fun definition =>
        definition.functionSignatureName != "" &&
          definition.functionSignatureName != signature.name)
      ("function pointer " ++ pointer.text ++
        " has another signature but indirect call requests @" ++ signature.name) ++
    report (((scope.function.addressTarget pointer).bind scope.module.findFunction).any
        fun actual => !actual.compatible signature)
      ("function pointer is incompatible with indirect signature @" ++ signature.name) ++
    report (operation.type != signature.returnType)
      ("indirect call return type mismatch for signature @" ++ signature.name)

def Scope.verifyIndirectCall (scope : Scope) (operation : Operation) : List String :=
  (match operation.operands with
    | [] => ["call.indirect requires a function pointer"]
    | pointer :: _ => report ((scope.definitions.find pointer).any fun definition =>
        definition.type != .ptr) "call.indirect target must have type ptr") ++
    report (operation.type == .void && operation.result.isSome)
      "void call.indirect cannot define a result" ++
    report (operation.type != .void && operation.result.isNone)
      "value-returning call.indirect requires a result" ++
    match operation.operands with
    | pointer :: .symbol name :: arguments =>
      match scope.module.findFunction name with
      | none => ["unknown indirect call signature @" ++ name]
      | some signature => scope.verifyIndirectTarget operation pointer signature ++
          scope.verifyArguments "indirect call" ("signature @" ++ name) signature arguments
            fun _ => ""
    | _ => ["call.indirect requires 'as @signature' for typed indirect calls"]

/-- The comparisons of floating-point numbers. -/
def Comparison.onFloats : Comparison → Bool
  | .eq | .ne | .lt | .le | .gt | .ge => true
  | _ => false

def Scope.verifyComparison (scope : Scope) (operation : Operation) (comparison : Comparison) :
    List String :=
  report (scope.operandType operation 0 != operation.type ||
      scope.operandType operation 1 != operation.type ||
      (!operation.type.isInteger && !(operation.type.isFloat && comparison.onFloats)))
    (scope.inBlock "comparison requires matching supported numeric operands")

def Scope.verifySelect (scope : Scope) (operation : Operation) : List String :=
  report (operation.operands.length != 3 || scope.operandType operation 0 != .i1 ||
      scope.operandType operation 1 != operation.type ||
      scope.operandType operation 2 != operation.type ||
      (!operation.type.isInteger && operation.type != .ptr))
    (scope.inBlock "select requires i1 condition and matching integer operands")

/-- `add`, `sub`, `mul` and `div`. -/
def Scope.verifyArithmetic (scope : Scope) (operation : Operation) : List String :=
  report (scope.operandType operation 0 != operation.type ||
      scope.operandType operation 1 != operation.type || !operation.type.isNumeric ||
      (operation.opcode == .div && !operation.type.isFloat))
    (scope.inBlock (operation.opcode.text ++ " requires matching numeric operands"))

def Scope.verifyBitcast (scope : Scope) (operation : Operation) : List String :=
  let source := scope.operandType operation 0
  report (!(operation.operands.length == 1 &&
      ((source == .ptr && operation.type == .i64) || (source == .i64 && operation.type == .ptr) ||
        (source == .ptr && operation.type == .ptr))))
    (scope.inBlock "bitcast requires ptr/i64-compatible source and result")

/-- `zero_extend`, `sign_extend` and `truncate`. -/
def Scope.verifyResize (scope : Scope) (operation : Operation) : List String :=
  let source := scope.operandType operation 0
  if operation.operands.length ≠ 1 ∨ !source.isInteger ∨ !operation.type.isInteger then
    [scope.inBlock (operation.opcode.text ++
      " requires one integer operand and integer result")]
  else
    report (if operation.opcode = .truncate then source.bitWidth ≤ operation.type.bitWidth
        else operation.type.bitWidth ≤ source.bitWidth)
      (scope.inBlock (operation.opcode.text ++ " has invalid integer widths"))

/-- The conversions from and to floating-point types, by what they ask of source and result. -/
def Scope.verifyConversion (scope : Scope) (operation : Operation)
    (valid : TypeKind → TypeKind → Bool) : List String :=
  report (!(operation.operands.length == 1 && valid (scope.operandType operation 0) operation.type))
    (scope.inBlock (operation.opcode.text ++ " has incompatible source/result types"))

def Scope.verifyAlignment (scope : Scope) (operation : Operation) : List String :=
  if operation.alignment = 0 then []
  else
    match operation.opcode with
    | .stackAlloc | .stackAllocTyped _ | .load | .store =>
      report (!isPowerOfTwo operation.alignment || 4096 < operation.alignment)
        (scope.inBlock "alignment must be a power of two no greater than 16")
    | _ => [scope.inBlock "alignment is only valid on stack allocation, load, or store"]

/-! ### Addresses and memory -/

/-- The operand is the symbol of a declared aggregate of the kind. -/
def Scope.knownAggregate (scope : Scope) (kind : AggregateKind) : Option Operand → Bool
  | some (.symbol name) => scope.module.knows ⟨kind, name⟩
  | _ => false

/-- The first operand points to an aggregate that the second one names. -/
def Scope.sameAggregate (scope : Scope) (kind : AggregateKind) (operation : Operation) : Bool :=
  match operation.operands with
  | [source, .symbol name] =>
    (scope.definitions.find source).any fun found => found.aggregate == some ⟨kind, name⟩
  | _ => false

def Scope.verifyStackAlloc (scope : Scope) (operation : Operation) : List String :=
  report (operation.type != .ptr) (scope.inBlock "stack.alloc must produce ptr")

def Scope.verifyTypedAlloc (scope : Scope) (operation : Operation) (kind : AggregateKind) :
    List String :=
  report (operation.type != .ptr || operation.result.isNone || operation.operands.length != 1 ||
      !scope.knownAggregate kind operation.operands[0]?)
    (scope.inBlock (operation.opcode.text ++ " requires a known aggregate and ptr result"))

def Scope.verifyZero (scope : Scope) (operation : Operation) (kind : AggregateKind) :
    List String :=
  report (operation.type != .void || operation.result.isSome || operation.operands.length != 2 ||
      !scope.knownAggregate kind operation.operands[1]? || scope.operandType operation 0 != .ptr)
    (scope.inBlock (operation.opcode.text ++
      " requires destination ptr, known aggregate, void type, and no result"))

def Scope.verifyCopy (scope : Scope) (operation : Operation) (kind : AggregateKind) :
    List String :=
  report (operation.type != .void || operation.result.isSome || operation.operands.length != 3 ||
      !scope.knownAggregate kind operation.operands[2]? || scope.operandType operation 0 != .ptr ||
      scope.operandType operation 1 != .ptr)
    (scope.inBlock (operation.opcode.text ++
      " requires destination ptr, source ptr, known aggregate, void type, and no result"))

/-- `aggregate.move` and `aggregate.borrow`. -/
def Scope.verifyHandle (scope : Scope) (operation : Operation) (kind : AggregateKind) :
    List String :=
  report (operation.type != .ptr || operation.result.isNone ||
      !scope.knownAggregate kind operation.operands[1]? || !scope.sameAggregate kind operation)
    (scope.inBlock (operation.opcode.text ++
      " requires a matching named aggregate source and ptr result"))

def Scope.verifyAttach (scope : Scope) (operation : Operation) (kind : AggregateKind) :
    List String :=
  report (operation.type != .ptr || operation.result.isNone || operation.operands.length != 2 ||
      !scope.knownAggregate kind operation.operands[1]? || scope.operandType operation 0 != .ptr)
    (scope.inBlock (operation.opcode.text ++
      " requires a ptr source, known aggregate, and ptr result"))

/-- `aggregate.borrow.end` and `aggregate.end`, with what the message asks for. -/
def Scope.verifyEnd (scope : Scope) (operation : Operation) (kind : AggregateKind)
    (what : String) : List String :=
  report (operation.type != .void || operation.result.isSome ||
      !scope.knownAggregate kind operation.operands[1]? || !scope.sameAggregate kind operation)
    (scope.inBlock (operation.opcode.text ++ " requires a matching " ++ what ++
      ", void type, and no result"))

/-- `ptr.offset` and `field.address`. -/
def Scope.verifyOffset (scope : Scope) (operation : Operation) : List String :=
  report (operation.type != .ptr || operation.operands.length != 2 ||
      scope.operandType operation 0 != .ptr)
    (scope.inBlock (operation.opcode.text ++ " requires a ptr base, byte offset, and ptr result"))

/-- The address of a part: `ptr` from a `ptr` base, the name of what it is a part of, the part. -/
def Scope.validPart (scope : Scope) (operation : Operation)
    (valid : Operand → String → Operand → Bool) : Bool :=
  operation.type == .ptr && scope.operandType operation 0 == .ptr &&
    match operation.operands with
    | [base, .symbol name, part] => valid base name part
    | _ => false

def Scope.verifyFieldAddress (scope : Scope) (operation : Operation) : List String :=
  report (!scope.validPart operation fun _ name field =>
      (scope.module.findStruct name).any fun declaration =>
        (parseUnsigned32 field.text).any (· < declaration.fields.length))
    (scope.inBlock ("struct.field.address requires a ptr base, known structure, " ++
      "valid field index, and ptr result"))

def Scope.verifyFieldNameAddress (scope : Scope) (operation : Operation) : List String :=
  report (!scope.validPart operation fun _ name field =>
      (scope.module.findStruct name).any fun declaration =>
        declaration.fields.any (·.name == field.text))
    (scope.inBlock ("struct.field.name.address requires a ptr base, known structure, " ++
      "known field name, and ptr result"))

/-- An index: a value of type i64, or a literal that is in range. -/
def Scope.validIndex (scope : Scope) (index : Operand) (inRange : Nat → Bool) : Bool :=
  if index.isValue then (scope.definitions.find index).any (·.type == .i64)
  else (parseUnsigned32 index.text).any inRange

def Scope.verifyCallbackElement (scope : Scope) (operation : Operation) : List String :=
  report (!scope.validPart operation fun base name index =>
      (scope.module.findFunction name).any Function.isSignature &&
        (scope.definitions.find base).any fun found => found.memorySignatureName == name &&
          scope.validIndex index fun value =>
            found.memoryElementCount == 0 || value < found.memoryElementCount)
    (scope.inBlock ("callback.element.address requires callback storage, matching signature, " ++
      "i64 or in-range constant index, and ptr result"))

def Scope.verifyArrayElement (scope : Scope) (operation : Operation) : List String :=
  report (!scope.validPart operation fun _ name index =>
      (scope.module.findArray name).any fun declaration =>
        scope.validIndex index (· < declaration.elementCount))
    (scope.inBlock ("array.element.address requires a ptr base, known array, " ++
      "i64 or in-range constant element index, and ptr result"))

/-- `sizeof` and `alignof`. -/
def Scope.verifyLayoutOf (scope : Scope) (operation : Operation) (kind : AggregateKind) :
    List String :=
  report (operation.type != .i64 || operation.operands.length != 1 ||
      !scope.knownAggregate kind operation.operands[0]?)
    (scope.inBlock (operation.opcode.text ++ " requires a known " ++ kind.word ++
      " and i64 result"))

def Scope.verifyLoad (scope : Scope) (operation : Operation) : List String :=
  report (scope.operandType operation 0 != .ptr)
    (scope.inBlock "load address must have type ptr")

def Scope.verifyStore (scope : Scope) (operation : Operation) : List String :=
  report (scope.operandType operation 0 != operation.type ||
      scope.operandType operation 1 != .ptr)
    (scope.inBlock "store requires a matching value type and ptr address")

/-- `memory.copy` and `memory.set`, by the type of their second operand. -/
def Scope.verifyMemory (scope : Scope) (operation : Operation) (second : TypeKind)
    (what : String) : List String :=
  report (operation.type != .void || operation.result.isSome || operation.operands.length != 3 ||
      scope.operandType operation 0 != .ptr || scope.operandType operation 1 != second ||
      scope.operandType operation 2 != .i64)
    (scope.inBlock (operation.opcode.text ++ " requires destination ptr, " ++ what ++
      ", i64 byte count, void type, and no result"))

/-! ### Each operation -/

/-- The check that belongs to the opcode. Nothing is asked of the operations left out. -/
def Scope.verifyOpcode (scope : Scope) (operation : Operation) : List String :=
  match operation.opcode with
  | .branch => scope.verifyBranch operation
  | .globalAddress => scope.module.verifyGlobalAddress operation
  | .tlsAddress => scope.module.verifyTlsAddress operation
  | .funcAddress | .callbackAddress => scope.module.verifyFunctionAddress operation
  | .callIndirect => scope.verifyIndirectCall operation
  | .call => scope.verifyCall operation
  | .cmp comparison => scope.verifyComparison operation comparison
  | .select => scope.verifySelect operation
  | .add | .sub | .mul | .div => scope.verifyArithmetic operation
  | .neg => report (scope.operandType operation 0 != operation.type)
      (scope.inBlock "neg requires a matching operand type")
  | .bitcast => scope.verifyBitcast operation
  | .zeroExtend | .signExtend | .truncate => scope.verifyResize operation
  | .intToFloat _ => scope.verifyConversion operation fun source result =>
      source.isInteger && result.isFloat
  | .floatToInt _ => scope.verifyConversion operation fun source result =>
      source.isFloat && result.isInteger
  | .floatExtend | .floatTruncate => scope.verifyConversion operation fun source result =>
      source.isFloat && result.isFloat && source != result
  | .stackAlloc => scope.verifyStackAlloc operation
  | .stackAllocTyped kind => scope.verifyTypedAlloc operation kind
  | .aggregateZero kind => scope.verifyZero operation kind
  | .aggregateCopy kind => scope.verifyCopy operation kind
  | .aggregateMove kind | .aggregateBorrow _ kind => scope.verifyHandle operation kind
  | .aggregateAttach kind => scope.verifyAttach operation kind
  | .aggregateBorrowEnd kind => scope.verifyEnd operation kind "aggregate borrow"
  | .aggregateEnd kind => scope.verifyEnd operation kind "named aggregate source"
  | .ptrOffset | .fieldAddress => scope.verifyOffset operation
  | .structFieldAddress => scope.verifyFieldAddress operation
  | .structFieldNameAddress => scope.verifyFieldNameAddress operation
  | .callbackElementAddress => scope.verifyCallbackElement operation
  | .arrayElementAddress => scope.verifyArrayElement operation
  | .sizeof kind | .alignof kind => scope.verifyLayoutOf operation kind
  | .load => scope.verifyLoad operation
  | .store => scope.verifyCallbackStore operation ++ scope.verifyStore operation
  | .memoryCopy => scope.verifyMemory operation .ptr "source ptr"
  | .memorySet => scope.verifyMemory operation .i8 "i8 value"
  | _ => []

/-- An argument of an edge against the parameter it goes to. -/
def Scope.verifyEdgeArgument (scope : Scope) (argument : Operand) (parameter : ValueDecl) :
    List String :=
  match scope.definitions.find argument with
  | none => []
  | some found =>
    if found.type ≠ parameter.type then ["type mismatch for block argument " ++ argument.text]
    else if parameter.isAggregate ∧ found.aggregate ≠ parameter.aggregate then
      ["aggregate identity mismatch for block argument " ++ argument.text]
    else
      report (parameter.functionSignatureName != "" &&
          found.functionSignatureName != parameter.functionSignatureName)
        ("callback signature mismatch for block argument " ++ argument.text)

def Scope.verifySuccessor (scope : Scope) (successor : String) (arguments : List Operand) :
    List String :=
  match (scope.function.blockIndex successor).bind (scope.function.blocks[·]?) with
  | none => ["unknown successor " ++ successor]
  | some target =>
    report (target.parameters.length != arguments.length)
        ("successor " ++ successor ++ " expects " ++ toString target.parameters.length ++
          " arguments but received " ++ toString arguments.length) ++
      (arguments.zip target.parameters).flatMap fun (argument, parameter) =>
        scope.verifyEdgeArgument argument parameter

/-- The verifier reads the arguments of every successor; the grammar gives each one a list. -/
def Scope.verifySuccessors (scope : Scope) (operation : Operation) : List String :=
  operation.successors.zipIdx.flatMap fun (successor, index) =>
    scope.verifySuccessor successor (operation.successorArguments.getD index [])

def Scope.verifyOperation (scope : Scope) (operations index : Nat) (operation : Operation) :
    List String :=
  [ scope.verifyUses index operation
  , scope.verifyOpcode operation
  , scope.verifyAlignment operation
  , report (operation.isTerminator && index + 1 != operations)
      (scope.inBlock "terminator is not last")
  , scope.verifySuccessors operation ].flatten

/-! ## Blocks and functions -/

/-- The value that a block returns, against the type of the function. -/
def Scope.verifyReturned (scope : Scope) (operation : Operation) : List String :=
  let function := scope.function
  if (function.returnType != .void) != !operation.operands.isEmpty then
    ["return value mismatch in @" ++ function.name]
  else
    match scope.definition operation 0 with
    | none => []
    | some found =>
      if found.type ≠ function.returnType then ["return type mismatch in @" ++ function.name]
      else
        report (function.returnsAggregate && found.type != .ptr)
          ("aggregate return in @" ++ function.name ++ " must return a pointer")

def Scope.verifyLast (scope : Scope) (operation : Operation) : List String :=
  report (!operation.isTerminator) ("block " ++ scope.blockName ++ " has no terminator") ++
    if operation.opcode = .return then scope.verifyReturned operation else []

def Scope.verifyBlock (scope : Scope) (block : Block) : List String :=
  match block.operations.getLast? with
  | none => ["block " ++ block.name ++ " is empty"]
  | some last =>
    (block.operations.zipIdx.flatMap fun (operation, index) =>
      scope.verifyOperation block.operations.length index operation) ++ scope.verifyLast last

def Function.verifyBlockNames (function : Function) : List String :=
  function.blocks.zipIdx.flatMap fun (block, index) =>
    report ((function.blocks.take index).any (·.name == block.name))
      ("duplicate block " ++ block.name)

/-- The body of a function that is neither a signature nor external. -/
def Module.verifyBody (m : Module) (function : Function) : List String :=
  if function.blocks = [] then ["function @" ++ function.name ++ " has no blocks"]
  else
    [ (function.blocks.flatMap Block.operations).flatMap m.verifySymbols
    , function.verifyBlockNames
    , (m.definitionTable function).2
    , function.blocks.zipIdx.flatMap fun (block, index) =>
        Scope.verifyBlock ⟨m, function, m.definitions function, index, block.name⟩ block ].flatten

end Raz.Forge
