import Raz.Forge.Verifier

/-!
# Ownership and borrows of aggregates

The analyses of aggregates with which the verifier ends: where a borrowed result comes from, which
aggregates are moved or ended on some path, which borrows are active. `verifyModule` puts the
verifier together.
-/

namespace Raz.Forge

/-! ## The callee of a call -/

/-- The function or signature of a call, and the arguments for its parameters. -/
def Module.calleeOf (m : Module) (operation : Operation) : Option (Function × List Operand) :=
  match operation.opcode, operation.operands with
  | .call, .symbol name :: arguments => (m.findFunction name).map fun callee => (callee, arguments)
  | .callIndirect, _ :: .symbol name :: arguments =>
    (m.findFunction name).map fun signature => (signature, arguments)
  | _, _ => none

/-- The argument that the borrowed result of a call is a part of. -/
def Module.borrowedArgument (m : Module) (operation : Operation) : Option (Function × Operand) := do
  let (callee, arguments) ← m.calleeOf operation
  if callee.returnBorrowMode = .none ∨ callee.returnBorrowParameter < 0 then none
  let argument ← arguments[callee.returnBorrowParameter.toNat]?
  some (callee, argument)

/-- The arguments for one parameter of a block, on the edges that bring one. -/
def Function.incoming (function : Function) (target : Block) (index parameter : Nat) :
    List (List Operand) :=
  (function.predecessorsOf index).map fun source =>
    match (function.blocks[source]?).bind (·.operations.getLast?) with
    | none => []
    | some terminator => terminator.successors.zipIdx.filterMap fun (successor, edge) =>
      if successor = target.name then (terminator.successorArguments.getD edge [])[parameter]?
      else none

/-! ## Borrowed results -/

structure ReturnBorrowOrigin where
  parameterIndex : Nat
  mode : BorrowMode
  path : String
deriving DecidableEq, Repr

abbrev Origins := List (String × ReturnBorrowOrigin)

def Origins.find (origins : Origins) : Operand → Option ReturnBorrowOrigin
  | .value name => (List.find? (·.1 == name) origins).map Prod.snd
  | _ => none

/-- An address inside what the first operand points to. -/
def Opcode.isPart : Opcode → Bool
  | .ptrOffset | .fieldAddress | .structFieldAddress | .structFieldNameAddress
  | .arrayElementAddress | .callbackElementAddress => true
  | _ => false

/-- The mode of a result that is derived from a value with an origin; none when it is not. -/
def Opcode.derivedMode (opcode : Opcode) (mode : BorrowMode) : Option BorrowMode :=
  match opcode with
  | .aggregateMove _ => some mode
  | .aggregateBorrow true _ => some .mutable
  | .aggregateBorrow false _ => some .immutable
  | opcode => if opcode.isPart then some mode else none

def Module.derivedOrigin (m : Module) (origins : Origins) (result : String)
    (operation : Operation) : Option ReturnBorrowOrigin :=
  match m.borrowedArgument operation with
  | some (callee, argument) => do
    let origin ← origins.find argument
    let how := if operation.opcode = .call then " (call @" else " (call.indirect as @"
    some { origin with
      mode := callee.returnBorrowMode
      path := origin.path ++ " -> %" ++ result ++ how ++ callee.name ++ ")" }
  | none => do
    let source ← operation.operands.head?
    let origin ← origins.find source
    let mode ← operation.opcode.derivedMode origin.mode
    some { origin with
      mode
      path := origin.path ++ " -> %" ++ result ++ " (" ++ operation.opcode.text ++ ")" }

def Module.updateOperationOrigin (m : Module) (operation : Operation) (origins : Origins) :
    Origins :=
  match operation.result with
  | none => origins
  | some result =>
    if (origins.find (.value result)).isSome then origins
    else origins ++ ((m.derivedOrigin origins result operation).map fun origin =>
      (result, origin)).toList

/-- A parameter of a block has the origin that all its arguments with one share. -/
def Function.updateParameterOrigin (function : Function) (block : Block) (index position : Nat)
    (parameter : ValueDecl) (origins : Origins) : Origins :=
  match (function.incoming block index position).flatten.filterMap origins.find with
  | [] => origins
  | first :: rest =>
    if rest.any (·.parameterIndex != first.parameterIndex) then
      origins.filter (·.1 != parameter.name)
    else
      let mode := if rest.any (·.mode == .immutable) then .immutable else first.mode
      let origin : ReturnBorrowOrigin := { first with
        mode
        path := first.path ++ " -> %" ++ parameter.name ++ " (block " ++ block.name ++ ")" }
      match origins.find (.value parameter.name) with
      | none => origins ++ [(parameter.name, origin)]
      | some old =>
        if old.parameterIndex = origin.parameterIndex ∧ old.mode = origin.mode then origins
        else origins.map fun entry => if entry.1 = parameter.name then (entry.1, origin) else entry

def Function.initialOrigins (function : Function) : Origins :=
  function.parameters.zipIdx.filterMap fun (parameter, index) =>
    if parameter.borrowMode = .none then none
    else some (parameter.name, ⟨index, parameter.borrowMode, "%" ++ parameter.name⟩)

def Function.operations (function : Function) : List Operation :=
  function.blocks.flatMap Block.operations

/-- The updates of one round of the loop over blocks and operations. -/
def Module.originUpdates (m : Module) (function : Function) : List (Origins → Origins) :=
  (function.blocks.zipIdx.flatMap fun (block, index) =>
    block.parameters.zipIdx.map fun (parameter, position) =>
      function.updateParameterOrigin block index position parameter) ++
    function.operations.map m.updateOperationOrigin

/-- More rounds than there are origins to go through: a loop that takes more never ends. -/
def Function.originRounds (function : Function) : Nat :=
  (3 * function.parameters.length + 1) ^
    ((function.blocks.flatMap Block.parameters).length + function.operations.length)

/-- The origins at the end of the loop; none when it does not end. -/
def Module.returnOrigins (m : Module) (function : Function) : Option Origins :=
  let start := Sweep.settle (function.operations.map m.updateOperationOrigin)
    function.operations.length function.initialOrigins
  let updates := m.originUpdates function
  let origins := Sweep.settle updates function.originRounds start
  if Sweep.sweep updates origins = origins then some origins else none

def Function.verifyOrigin (function : Function) (origins : Origins) (value : Operand) :
    List String :=
  match origins.find value with
  | none => ["borrowed return from @" ++ function.name ++ " must derive from parameter " ++
      toString function.returnBorrowParameter ++ ", but resolved untracked value " ++ value.text]
  | some origin =>
    if (origin.parameterIndex : Int) ≠ function.returnBorrowParameter then
      ["borrowed return from @" ++ function.name ++ " must derive from parameter " ++
        toString function.returnBorrowParameter ++ ", but resolved parameter " ++
        toString origin.parameterIndex ++ " via " ++ origin.path]
    else
      report (function.returnBorrowMode == .mutable && origin.mode != .mutable)
        ("mutable borrowed return from @" ++ function.name ++ " lost mutable provenance")

/-- Each block that returns a borrow returns one from the declared parameter. -/
def Module.verifyOrigins (m : Module) (function : Function) : List String :=
  match m.returnOrigins function with
  | none => ["return borrows of @" ++ function.name ++ " do not settle"]
  | some origins =>
    if function.returnBorrowMode = .none ∨ function.returnType = .void then []
    else function.blocks.flatMap fun block =>
      match block.operations.getLast? with
      | some { opcode := .return, operands := value :: _, .. } =>
        function.verifyOrigin origins value
      | _ => []

/-! ## Moved aggregates -/

/-- The value that an operation moves or ends. -/
def Operation.moves (operation : Operation) : Option String :=
  match operation.opcode, operation.operands with
  | .aggregateMove _, .value name :: _ => some name
  | .aggregateBorrowEnd _, .value name :: _ => some name
  | .aggregateEnd _, .value name :: _ => some name
  | _, _ => none

def Function.movable (function : Function) : List String :=
  function.operations.filterMap Operation.moves

def Function.movedInto (function : Function) (moved : List (List String)) (index : Nat) :
    List String :=
  function.movable.filter fun name =>
    (function.predecessorsOf index).any fun source => (moved.getD source []).contains name

def Function.updateMoved (function : Function) (index : Nat) (moved : List (List String)) :
    List (List String) :=
  let own := ((function.blocks[index]?.map Block.operations).getD []).filterMap Operation.moves
  let incoming := function.movedInto moved index
  moved.set index (function.movable.filter fun name => incoming.contains name || own.contains name)

/-- For each block, what is moved on some path to its end. -/
def Function.moved (function : Function) : List (List String) :=
  Sweep.settle ((List.range function.blocks.length).map function.updateMoved)
    (function.blocks.length * function.movable.length)
    (List.replicate function.blocks.length [])

def Operation.verifyMoved (operation : Operation) (blockName : String) (moved : List String) :
    List String :=
  let used (operand : Operand) : Bool := match operand with
    | .value name => moved.contains name
    | _ => false
  let operands := if operation.opcode = .call then operation.operands.drop 1
    else operation.operands
  (operands.filter used).map (fun operand =>
      "use of moved aggregate " ++ operand.text ++ " in block " ++ blockName) ++
    (operation.successorArguments.flatten.filter used).map fun argument =>
      "use of moved aggregate " ++ argument.text ++ " on control-flow edge from block " ++ blockName

def verifyMovedIn (blockName : String) : List Operation → List String → List String
  | [], _ => []
  | operation :: operations, moved =>
    operation.verifyMoved blockName moved ++
      verifyMovedIn blockName operations (operation.moves.toList ++ moved)

def Function.verifyMoves (function : Function) : List String :=
  function.blocks.zipIdx.flatMap fun (block, index) =>
    verifyMovedIn block.name block.operations (function.movedInto function.moved index)

/-! ## Borrows -/

structure BorrowInfo where
  root : Operand
  isMutable : Bool
  parent : Option String
deriving DecidableEq, Repr

structure BorrowProvenance where
  borrow : String
  isMutable : Bool
deriving DecidableEq, Repr

/-- What the verifier knows of borrows: those created, and the one a value is derived from. -/
structure Borrows where
  info : List (String × BorrowInfo)
  provenance : List (String × BorrowProvenance)
deriving DecidableEq, Repr

def Borrows.infoOf (borrows : Borrows) (name : String) : Option BorrowInfo :=
  (borrows.info.find? (·.1 == name)).map Prod.snd

def Borrows.provenanceOf (borrows : Borrows) : Operand → Option BorrowProvenance
  | .value name => (borrows.provenance.find? (·.1 == name)).map Prod.snd
  | _ => none

/-- A new borrow of what an operand points to; the first one of a name stays. -/
def Borrows.create (borrows : Borrows) (name : String) (source : Operand) (isMutable : Bool) :
    Borrows :=
  let parent := (borrows.provenanceOf source).map BorrowProvenance.borrow
  let root := ((parent.bind borrows.infoOf).map BorrowInfo.root).getD source
  { info := borrows.info ++
      if (borrows.infoOf name).isSome then [] else [(name, ⟨root, isMutable, parent⟩)]
    provenance := borrows.provenance ++
      if (borrows.provenanceOf (.value name)).isSome then [] else [(name, ⟨name, isMutable⟩)] }

def Function.initialBorrows (function : Function) : Borrows :=
  let entries := function.parameters.filter (·.borrowMode ≠ .none)
  { info := entries.map fun parameter =>
      (parameter.name, ⟨.value parameter.name, parameter.borrowMode == .mutable, none⟩)
    provenance := entries.map fun parameter =>
      (parameter.name, ⟨parameter.name, parameter.borrowMode == .mutable⟩) }

def Module.collectBorrow (m : Module) (borrows : Borrows) (operation : Operation) : Borrows :=
  match operation.result, operation.opcode, operation.operands with
  | some name, .aggregateBorrow exclusive _, source :: _ => borrows.create name source exclusive
  | some name, _, _ =>
    match m.borrowedArgument operation with
    | some (callee, argument) =>
      borrows.create name argument (callee.returnBorrowMode == .mutable)
    | none => borrows
  | none, _, _ => borrows

def Borrows.derive (borrows : Borrows) (name : String) (provenance : BorrowProvenance) : Borrows :=
  { borrows with provenance := borrows.provenance ++ [(name, provenance)] }

def updateDerived (operation : Operation) (borrows : Borrows) : Borrows :=
  match operation.result, operation.operands with
  | some name, base :: _ =>
    match borrows.provenanceOf base with
    | some provenance =>
      if operation.opcode.isPart ∧ (borrows.provenanceOf (.value name)).isNone then
        borrows.derive name provenance
      else borrows
    | none => borrows
  | _, _ => borrows

/-- A parameter of a block is derived from the borrow that every argument is derived from. -/
def Function.updateParameterBorrow (function : Function) (block : Block) (index position : Nat)
    (parameter : ValueDecl) (borrows : Borrows) : Borrows :=
  let incoming := function.incoming block index position
  if (borrows.provenanceOf (.value parameter.name)).isSome ∨ incoming.any List.isEmpty then borrows
  else
    match incoming.flatten.map borrows.provenanceOf with
    | some first :: rest =>
      if rest.all (· == some first) then borrows.derive parameter.name first else borrows
    | _ => borrows

def Module.borrows (m : Module) (function : Function) : Borrows :=
  Sweep.settle
    (function.blocks.zipIdx.flatMap fun (block, index) =>
      block.operations.map updateDerived ++
        block.parameters.zipIdx.map fun (parameter, position) =>
          function.updateParameterBorrow block index position parameter)
    ((function.blocks.flatMap Block.parameters).length + function.operations.length)
    (function.operations.foldl m.collectBorrow function.initialBorrows)

/-- A mutable borrow of a borrow suspends it until its own end. -/
def BorrowInfo.suspends (info : BorrowInfo) : Option String :=
  if info.isMutable then info.parent else none

/-- The active borrows after an operation. -/
def Borrows.after (borrows : Borrows) (active : List String) (operation : Operation) :
    List String :=
  let active := match operation.result.bind fun name => (borrows.infoOf name).map (name, ·) with
    | none => active
    | some (name, info) =>
      name :: active.filter fun other => some other != info.suspends
  match operation.opcode, operation.operands with
  | .aggregateBorrowEnd _, .value name :: _ =>
    ((borrows.infoOf name).bind BorrowInfo.suspends).toList ++ active.filter (· != name)
  | _, _ => active

def Borrows.names (borrows : Borrows) : List String := borrows.info.map Prod.fst

/-- The borrows that are active on some path to the start of a block. -/
def Function.activeInto (function : Function) (borrows : Borrows) (active : List (List String))
    (index : Nat) : List String :=
  borrows.names.filter fun name =>
    (index == 0 && (function.parameters.any fun parameter =>
      parameter.name == name && parameter.borrowMode != .none)) ||
    (function.predecessorsOf index).any fun source => (active.getD source []).contains name

def Function.updateActive (function : Function) (borrows : Borrows) (index : Nat)
    (active : List (List String)) : List (List String) :=
  let operations := (function.blocks[index]?.map Block.operations).getD []
  let outgoing := operations.foldl borrows.after (function.activeInto borrows active index)
  active.set index (borrows.names.filter outgoing.contains)

def Function.active (function : Function) (borrows : Borrows) : List (List String) :=
  Sweep.settle ((List.range function.blocks.length).map (function.updateActive borrows))
    (function.blocks.length * borrows.names.length)
    (List.replicate function.blocks.length [])

/-- The operand through which an operation writes. -/
def Operation.mutationDestination (operation : Operation) : Option Operand :=
  match operation.opcode with
  | .store => operation.operands[1]?
  | .memorySet | .memoryCopy | .aggregateZero _ | .aggregateCopy _ => operation.operands[0]?
  | _ => none

/-- An operation with the borrows it is checked against. -/
structure Lending where
  module : Module
  borrows : Borrows
  blockName : String

def Lending.inBlock (lending : Lending) (message : String) : String :=
  message ++ " in block " ++ lending.blockName

/-- A borrow of the same root is active. -/
def Lending.borrowed (lending : Lending) (active : List String) (root : Operand) : Bool :=
  active.any fun name => (lending.borrows.infoOf name).any (·.root == root)

/-- A pointer derived from a borrow is used while the borrow is active. -/
def Lending.verifyUses (lending : Lending) (active : List String) (operation : Operation) :
    List String :=
  let operands := match operation.opcode with
    | .aggregateBorrowEnd _ => operation.operands.drop 1
    | _ => operation.operands
  operands.flatMap fun operand =>
    match lending.borrows.provenanceOf operand with
    | none => []
    | some derived => report (!active.contains derived.borrow)
        (lending.inBlock ("use of pointer derived from inactive aggregate borrow %" ++
          derived.borrow))

def Lending.verifyMutation (lending : Lending) (operation : Operation) : List String :=
  match operation.mutationDestination.bind lending.borrows.provenanceOf with
  | none => []
  | some derived => report (!derived.isMutable)
      (lending.inBlock ("cannot mutate through immutable aggregate borrow %" ++ derived.borrow))

/-- An argument for a parameter that borrows mutably. -/
def Lending.verifyLent (lending : Lending) (active : List String) (argument : Operand)
    (callee : String) : List String :=
  match lending.borrows.provenanceOf argument with
  | some derived => report (!derived.isMutable)
      (lending.inBlock ("cannot pass immutable borrow " ++ argument.text ++
        " to mutable borrowed parameter of @" ++ callee))
  | none => report (lending.borrowed active argument)
      (lending.inBlock ("cannot mutably borrow already borrowed aggregate " ++ argument.text ++
        " for call to @" ++ callee))

def Lending.verifyCall (lending : Lending) (active : List String) (operation : Operation) :
    List String :=
  match lending.module.calleeOf operation with
  | none => []
  | some (callee, arguments) =>
    (callee.parameters.zip arguments).flatMap fun (parameter, argument) =>
      if parameter.borrowMode = .mutable then lending.verifyLent active argument callee.name else []

/-- A new borrow against the active ones of the same root. -/
def Lending.verifyCreated (lending : Lending) (active : List String) (operation : Operation) :
    List String :=
  match operation.result.bind lending.borrows.infoOf with
  | none => []
  | some created =>
    let others := active.filterMap fun name =>
      match lending.borrows.infoOf name with
      | none => none
      | some found =>
        if found.root ≠ created.root then none
        else if some name = created.parent ∧ created.isMutable ∧ found.isMutable then none
        else some found
    report (created.isMutable && created.parent.any fun parent =>
        !(lending.borrows.infoOf parent).any BorrowInfo.isMutable)
      (lending.inBlock "mutable reborrow requires a mutable parent borrow") ++
    report ((created.isMutable && !others.isEmpty) ||
        (!created.isMutable && others.any BorrowInfo.isMutable))
      (lending.inBlock ("conflicting aggregate borrow of " ++ created.root.text))

/-- A move or an end against the borrows that are active after the operation's own. -/
def Lending.verifyEnded (lending : Lending) (active : List String) (operation : Operation) :
    List String :=
  match operation.opcode, operation.operands with
  | .aggregateMove _, root :: _ | .aggregateEnd _, root :: _ =>
    report (lending.borrowed active root)
      (lending.inBlock ("cannot move or end borrowed aggregate " ++ root.text))
  | .aggregateBorrowEnd _, source :: _ =>
    report (!active.any fun name => source == .value name)
      (lending.inBlock ("ending inactive aggregate borrow " ++ source.text))
  | _, _ => []

/-- The active borrows once the borrow that the operation creates is active. -/
def Borrows.created (borrows : Borrows) (active : List String) (operation : Operation) :
    List String :=
  borrows.after active { operation with opcode := .copy }

/-- A call without a callee to look up ends the checks of the operation. -/
def Operation.isUntyped (operation : Operation) : Bool :=
  match operation.opcode, operation.operands with
  | .call, operand :: _ => !operand.isSymbol
  | .callIndirect, [_] => true
  | .callIndirect, _ :: operand :: _ => !operand.isSymbol
  | _, _ => false

def Lending.verifyOperation (lending : Lending) (active : List String) (operation : Operation) :
    List String :=
  lending.verifyUses active operation ++ lending.verifyMutation operation ++
    if operation.isUntyped then []
    else lending.verifyCall active operation ++ lending.verifyCreated active operation ++
      lending.verifyEnded (lending.borrows.created active operation) operation

def Lending.verifyOperations (lending : Lending) : List Operation → List String → List String
  | [], _ => []
  | operation :: operations, active =>
    lending.verifyOperation active operation ++
      lending.verifyOperations operations
        (if operation.isUntyped then active else lending.borrows.after active operation)

def Module.verifyBorrows (m : Module) (function : Function) : List String :=
  let borrows := m.borrows function
  function.blocks.zipIdx.flatMap fun (block, index) =>
    Lending.verifyOperations ⟨m, borrows, block.name⟩ block.operations
      (function.activeInto borrows (function.active borrows) index)

/-! ## The verifier -/

def Module.verifyFunction (m : Module) (earlier : List Function) (function : Function) :
    List String :=
  m.verifyHeader earlier function ++
    if function.isSignature then
      report function.isExternal ("signature @" ++ function.name ++ " cannot be external") ++
        report (!function.blocks.isEmpty) ("signature @" ++ function.name ++ " cannot have blocks")
    else if function.isExternal then
      report (!function.blocks.isEmpty)
        ("external function @" ++ function.name ++ " cannot have blocks")
    else
      m.verifyBody function ++ m.verifyOrigins function ++ function.verifyMoves ++
        m.verifyBorrows function

/-- Everything that the verifier reports of a module. -/
def verifyModule (m : Module) : List String :=
  [ m.arrays.zipIdx.flatMap fun (array, index) => m.verifyArray (m.arrays.take index) array
  , m.structs.zipIdx.flatMap fun (structure_, index) =>
      m.verifyStruct (m.structs.take index) structure_
  , m.globals.zipIdx.flatMap fun (global, index) => m.verifyGlobal (m.globals.take index) global
  , m.functions.zipIdx.flatMap fun (function, index) =>
      m.verifyFunction (m.functions.take index) function ].flatten

end Raz.Forge
