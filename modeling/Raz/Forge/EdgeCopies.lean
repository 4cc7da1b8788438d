import Mathlib.Algebra.Order.Ring.Int
import Mathlib.Logic.Function.Basic
import Mathlib.Tactic.TypeStar

/-!
# The copies of a control-flow edge

An edge of the control-flow graph gives each parameter of its target the value of an argument. The
x86-64 encoder emits copies between the locations of both: first those whose destination no other
copy still reads, then the cycles that are left, by an exchange, by a rotation through a scratch
register, or by a snapshot on the stack.

The instructions are seen as moves between registers, slots of the frame, the stack below it and
constants. An edge has so few arguments that the sizes of its snapshots keep their casts.
-/

namespace Raz.Forge.EdgeCopies

/-! ## Allocations -/

abbrev VirtualRegister := Nat

inductive PhysicalRegister
  | r8d | r9d | ebx | r10d | r11d | r12d | r13d | r14d | r15d
deriving DecidableEq, Repr

inductive FloatingPhysicalRegister
  | xmm2 | xmm3 | xmm4 | xmm5
deriving DecidableEq, Repr

inductive LocationKind
  | physicalRegister | floatingRegister | stackSlot | rematerializedInteger
  | rematerializedFloating
deriving DecidableEq, Repr

structure AllocationLocation where
  kind : LocationKind := .stackSlot
  physical : PhysicalRegister := .r10d
  floating : FloatingPhysicalRegister := .xmm2
  stackOffset : Int := 0
  rematerializedImmediate : Int := 0
deriving DecidableEq, Repr, Inhabited

structure RegisterAllocation where
  locations : List AllocationLocation

def RegisterAllocation.location (allocation : RegisterAllocation) (v : VirtualRegister) :
    AllocationLocation :=
  allocation.locations.getD v default

inductive RegisterClass
  | integer | floating | vector
deriving DecidableEq, Repr

/-- What the copies need of a machine function: the widths of the registers in bytes, and their
classes. -/
structure Function where
  registerWidths : List Nat
  registerClasses : List RegisterClass

def Function.registerWidth (function : Function) (v : VirtualRegister) : Nat :=
  function.registerWidths.getD v 0

def Function.registerClass (function : Function) (v : VirtualRegister) : RegisterClass :=
  function.registerClasses.getD v .integer

def Function.isFloating (function : Function) (v : VirtualRegister) : Bool :=
  function.registerClass v == .floating

def Function.isWide (function : Function) (v : VirtualRegister) : Bool :=
  function.registerWidth v == 8

structure Successor where
  block : String
  arguments : List VirtualRegister

structure Block where
  name : String
  parameters : List VirtualRegister

def sameAllocationLocation (left right : AllocationLocation) : Bool :=
  if left.kind != right.kind then false
  else
    match left.kind with
    | .physicalRegister => left.physical == right.physical
    | .floatingRegister => left.floating == right.floating
    | .stackSlot => left.stackOffset == right.stackOffset
    | .rematerializedInteger | .rematerializedFloating =>
      left.rematerializedImmediate == right.rematerializedImmediate

/-! ## Instructions -/

inductive Register
  | eax | ecx | edx | ebx | esp | ebp | esi | edi | r8d | r9d | r10d | r11d | r12d | r13d | r14d
  | r15d
deriving DecidableEq, Repr

inductive XmmRegister
  | xmm0 | xmm1 | xmm2 | xmm3 | xmm4 | xmm5 | xmm6 | xmm7
deriving DecidableEq, Repr

def physicalRegister : PhysicalRegister → Register
  | .r8d => .r8d
  | .r9d => .r9d
  | .ebx => .ebx
  | .r10d => .r10d
  | .r11d => .r11d
  | .r12d => .r12d
  | .r13d => .r13d
  | .r14d => .r14d
  | .r15d => .r15d

def floatingRegister : FloatingPhysicalRegister → XmmRegister
  | .xmm2 => .xmm2
  | .xmm3 => .xmm3
  | .xmm4 => .xmm4
  | .xmm5 => .xmm5

/-- An operand: a register, an offset from the frame pointer, one from the stack pointer, or a
constant. -/
inductive Place
  | register (r : Register)
  | xmm (r : XmmRegister)
  | frame (offset : Int)
  | top (displacement : Int)
  | immediate (value : Int)
deriving DecidableEq, Repr

/-- A wide instruction is one on 8 bytes, any other one on 4. -/
inductive Step
  | move (destination source : Place) (wide : Bool)
  | exchange (left right : Register) (wide : Bool)
  | adjust (subtract : Bool) (amount : Nat)
deriving DecidableEq, Repr

/-! ## The machine -/

inductive Cell
  | register (r : Register)
  | xmm (r : XmmRegister)
  | frame (offset : Int)
  | below (address : Int)
deriving DecidableEq, Repr

/-- The bytes of the cells, and the stack pointer. The slots of the frame are not below it. -/
structure Machine where
  cells : Cell → Nat → UInt8
  stackPointer : Int

def immediateByte (value : Int) (i : Nat) : UInt8 := UInt8.ofNat ((value % 2 ^ 64).toNat / 256 ^ i)

namespace Machine

def cell (m : Machine) : Place → Option Cell
  | .register r => some (.register r)
  | .xmm r => some (.xmm r)
  | .frame offset => some (.frame offset)
  | .top displacement => some (.below (m.stackPointer + displacement))
  | .immediate _ => none

def read (m : Machine) : Place → Nat → UInt8
  | .register r => m.cells (.register r)
  | .xmm r => m.cells (.xmm r)
  | .frame offset => m.cells (.frame offset)
  | .top displacement => m.cells (.below (m.stackPointer + displacement))
  | .immediate value => immediateByte value

def write (m : Machine) (cell : Cell) (bytes : Nat → UInt8) : Machine :=
  { m with cells := Function.update m.cells cell bytes }

end Machine

def moveSize (wide : Bool) : Nat := if wide then 8 else 4

/-- What a cell holds after a move: the high bytes of a general register are cleared, those of a
vector register are kept by a move from another one and cleared by any other move, those of the
memory are kept. -/
def movedBytes (destination : Cell) (source : Place) (wide : Bool) (old new : Nat → UInt8)
    (i : Nat) : UInt8 :=
  if i < moveSize wide then new i
  else
    match destination, source with
    | .register _, _ => 0
    | .xmm _, .xmm _ => old i
    | .xmm _, _ => 0
    | .frame _, _ | .below _, _ => old i

def Step.run (m : Machine) : Step → Machine
  | .move destination source wide =>
    match m.cell destination with
    | none => m
    | some cell => m.write cell (movedBytes cell source wide (m.cells cell) (m.read source))
  | .exchange left right wide =>
    let leftBytes := m.cells (.register left)
    let rightBytes := m.cells (.register right)
    (m.write (.register left)
      (movedBytes (.register left) (.register right) wide leftBytes rightBytes)).write
      (.register right) (movedBytes (.register right) (.register left) wide rightBytes leftBytes)
  | .adjust subtract amount =>
    { m with stackPointer :=
        if subtract then m.stackPointer - amount else m.stackPointer + amount }

def run (steps : List Step) (m : Machine) : Machine := steps.foldl Step.run m

/-! ## Single copies -/

def emitMoveRegister (destination source : Register) (wide : Bool) : List Step :=
  if destination = source then [] else [.move (.register destination) (.register source) wide]

def emitSseMove (destination source : XmmRegister) (wide : Bool) : List Step :=
  if destination = source then [] else [.move (.xmm destination) (.xmm source) wide]

/-- Both `emit_read_location` and `emit_read_location64`. -/
def emitReadLocation (destination : Register) (location : AllocationLocation) (wide : Bool) :
    List Step :=
  match location.kind with
  | .physicalRegister => emitMoveRegister destination (physicalRegister location.physical) wide
  | .rematerializedInteger =>
    [.move (.register destination) (.immediate location.rematerializedImmediate) wide]
  | _ => [.move (.register destination) (.frame location.stackOffset) wide]

/-- Both `emit_write_location` and `emit_write_location64`. -/
def emitWriteLocation (location : AllocationLocation) (source : Register) (wide : Bool) :
    List Step :=
  match location.kind with
  | .physicalRegister => emitMoveRegister (physicalRegister location.physical) source wide
  | .rematerializedInteger => []
  | _ => [.move (.frame location.stackOffset) (.register source) wide]

def emitReadFloatLocation (destination : XmmRegister) (location : AllocationLocation)
    (wide : Bool) : List Step :=
  match location.kind with
  | .floatingRegister => emitSseMove destination (floatingRegister location.floating) wide
  | .rematerializedFloating =>
    [.move (.register .eax) (.immediate location.rematerializedImmediate) wide,
      .move (.xmm destination) (.register .eax) wide]
  | _ => [.move (.xmm destination) (.frame location.stackOffset) wide]

def emitWriteFloatLocation (location : AllocationLocation) (source : XmmRegister) (wide : Bool) :
    List Step :=
  match location.kind with
  | .floatingRegister => emitSseMove (floatingRegister location.floating) source wide
  | .rematerializedFloating => []
  | _ => [.move (.frame location.stackOffset) (.xmm source) wide]

def emitXchgRegisters (left right : Register) (wide : Bool) : List Step :=
  if left = right then [] else [.exchange left right wide]

def emitAdjustRsp (subtract : Bool) (amount : Nat) : List Step :=
  if amount = 0 then [] else [.adjust subtract amount]

section
variable (allocation : RegisterAllocation) (function : Function)

def emitLocationCopy (source destination : VirtualRegister) (integerScratch : Register)
    (floatingScratch : XmmRegister) : List Step :=
  let wide := function.isWide source
  let sourceLocation := allocation.location source
  let destinationLocation := allocation.location destination
  if function.isFloating source && sourceLocation.kind == .floatingRegister &&
      destinationLocation.kind == .floatingRegister then
    emitSseMove (floatingRegister destinationLocation.floating)
      (floatingRegister sourceLocation.floating) wide
  else if !function.isFloating source && sourceLocation.kind == .physicalRegister &&
      destinationLocation.kind == .physicalRegister then
    emitMoveRegister (physicalRegister destinationLocation.physical)
      (physicalRegister sourceLocation.physical) wide
  else if function.isFloating source then
    emitReadFloatLocation floatingScratch sourceLocation wide ++
      emitWriteFloatLocation destinationLocation floatingScratch wide
  else
    emitReadLocation integerScratch sourceLocation wide ++
      emitWriteLocation destinationLocation integerScratch wide

/-! ## Planning -/

structure PendingCopy where
  source : VirtualRegister
  destination : VirtualRegister
  emitted : Bool := false
deriving DecidableEq, Repr, Inhabited

end

/-- The copies of a phase, and the instructions emitted so far. -/
structure Emission where
  copies : List PendingCopy
  steps : List Step

/-- The body of the loop over the copies: a copy whose destination is no live source is emitted. -/
def acyclicStep (destinationIsLiveSource : List PendingCopy → Nat → Bool)
    (emitCopy : PendingCopy → List Step) (emission : Emission) (index : Nat) : Emission :=
  match emission.copies[index]? with
  | none => emission
  | some copy =>
    if copy.emitted || destinationIsLiveSource emission.copies index then emission
    else {
      copies := emission.copies.set index { copy with emitted := true }
      steps := emission.steps ++ emitCopy copy }

/-- `emit_acyclic_parallel_copies`, with at most so many rounds; none when they do not suffice. -/
def emitAcyclicParallelCopies (destinationIsLiveSource : List PendingCopy → Nat → Bool)
    (emitCopy : PendingCopy → List Step) : Nat → Emission → Option Emission
  | 0, _ => none
  | rounds + 1, emission =>
    let next := (List.range emission.copies.length).foldl
      (acyclicStep destinationIsLiveSource emitCopy) emission
    if next.copies = emission.copies then some next
    else emitAcyclicParallelCopies destinationIsLiveSource emitCopy rounds next

section
variable (emitted : Nat → Bool) (destinationMatchesSource : Nat → Nat → Bool) (count : Nat)

/-- The next member of a rotation. -/
def nextMember (visited : List Nat) (current : Nat) : Option Nat :=
  (List.range count).find? fun candidate =>
    !emitted candidate && !visited.contains candidate && destinationMatchesSource candidate current

/-- A rotation from a copy on, and what is visited after it. -/
def followCycle : Nat → List Nat → Nat → Option (List Nat × List Nat)
  | 0, _, _ => none
  | limit + 1, visited, current =>
    if emitted current || visited.contains current then some ([], visited)
    else
      match nextMember emitted destinationMatchesSource count (current :: visited) current with
      | none => some ([current], current :: visited)
      | some next => do
        let (cycle, visited) ← followCycle limit (current :: visited) next
        some (current :: cycle, visited)

/-- `unresolved_parallel_copy_cycles`, from these starts on. -/
def cyclesFrom (limit : Nat) : List Nat → List Nat → Option (List (List Nat))
  | [], _ => some []
  | start :: starts, visited =>
    if emitted start || visited.contains start then cyclesFrom limit starts visited
    else do
      let (cycle, visited) ← followCycle emitted destinationMatchesSource count limit visited start
      let cycles ← cyclesFrom limit starts visited
      some (if cycle.isEmpty then cycles else cycle :: cycles)

end

section
variable (allocation : RegisterAllocation) (function : Function)

/-- The copies that are left, by the cycles they are in. -/
def unresolvedParallelCopyCycles (limit : Nat) (copies : List PendingCopy) :
    Option (List (List PendingCopy)) := do
  let at_ := fun index => copies.getD index default
  let cycles ← cyclesFrom (fun index => (at_ index).emitted)
    (fun candidate current => sameAllocationLocation
      (allocation.location (at_ candidate).destination)
      (allocation.location (at_ current).source))
    copies.length limit (List.range copies.length) []
  some (cycles.map (·.map at_))

/-! ## Cycles -/

/-- A two-register integer cycle is a swap. -/
def isSwap (first second : PendingCopy) : Bool :=
  let firstSource := allocation.location first.source
  let firstDestination := allocation.location first.destination
  let secondSource := allocation.location second.source
  let secondDestination := allocation.location second.destination
  let integerCycle := function.registerClass first.source == .integer &&
    function.registerClass first.destination == .integer &&
    function.registerClass second.source == .integer &&
    function.registerClass second.destination == .integer
  let registerCycle := firstSource.kind == .physicalRegister &&
    firstDestination.kind == .physicalRegister && secondSource.kind == .physicalRegister &&
    secondDestination.kind == .physicalRegister
  let reciprocal := sameAllocationLocation firstSource secondDestination &&
    sameAllocationLocation secondSource firstDestination
  let sameWidth :=
    function.registerWidth first.source == function.registerWidth first.destination &&
    function.registerWidth first.source == function.registerWidth second.source &&
    function.registerWidth first.source == function.registerWidth second.destination
  integerCycle && registerCycle && reciprocal && sameWidth

/-- The classes and widths of a cycle agree with those of its first source. -/
def isHomogeneous (first : PendingCopy) (cyclic : List PendingCopy) : Bool :=
  cyclic.all fun copy =>
    function.isFloating copy.source == function.isFloating first.source &&
      function.isFloating copy.destination == function.isFloating first.source &&
      function.isWide copy.source == function.isWide first.source &&
      function.isWide copy.destination == function.isWide first.source

/-- The read of a value to the first scratch register of its class. -/
def emitReadScratch (location : AllocationLocation) (floating wide : Bool) : List Step :=
  if floating then emitReadFloatLocation .xmm0 location wide
  else emitReadLocation .eax location wide

def emitWriteScratch (location : AllocationLocation) (floating wide : Bool) : List Step :=
  if floating then emitWriteFloatLocation location .xmm0 wide
  else emitWriteLocation location .eax wide

/-- The copies of a rotation behind its first one: the instructions, the copies rotated, and the
location that is free to be written after them. -/
def rotate (cyclic : List PendingCopy) : Nat → List Nat → AllocationLocation →
    Option (List Step × List Nat × AllocationLocation)
  | 0, _, _ => none
  | limit + 1, rotated, hole =>
    if cyclic.length ≤ rotated.length then some ([], rotated, hole)
    else
      let found := (List.range cyclic.length).find? fun index =>
        index != 0 && !rotated.contains index && sameAllocationLocation
          (allocation.location (cyclic.getD index default).destination) hole
      match found with
      | none => some ([], rotated, hole)
      | some index => do
        let copy := cyclic.getD index default
        let (steps, rest) ← rotate cyclic limit (index :: rotated)
          (allocation.location copy.source)
        some (emitLocationCopy allocation function copy.source copy.destination .ecx .xmm1 ++ steps,
          rest)

def emitScratchStore (displacement : Int) (floating wide : Bool) : List Step :=
  if floating then [.move (.top displacement) (.xmm .xmm0) wide]
  else [.move (.top displacement) (.register .eax) wide]

def emitScratchLoad (displacement : Int) (floating wide : Bool) : List Step :=
  if floating then [.move (.xmm .xmm0) (.top displacement) wide]
  else [.move (.register .eax) (.top displacement) wide]

/-- The snapshot of a cycle on the stack. -/
def emitSnapshot (cyclic : List PendingCopy) : List Step :=
  let size := cyclic.length * 8
  let save := fun (item : PendingCopy × Nat) =>
    let floating := function.isFloating item.1.source
    let wide := function.isWide item.1.source
    emitReadScratch (allocation.location item.1.source) floating wide ++
      emitScratchStore (item.2 * 8 : Nat) floating wide
  let restore := fun (item : PendingCopy × Nat) =>
    let floating := function.isFloating item.1.destination
    let wide := function.isWide item.1.destination
    emitScratchLoad (item.2 * 8 : Nat) floating wide ++
      emitWriteScratch (allocation.location item.1.destination) floating wide
  emitAdjustRsp true size ++ cyclic.zipIdx.flatMap save ++ cyclic.zipIdx.flatMap restore ++
    emitAdjustRsp false size

def emitCycle (limit : Nat) : List PendingCopy → Option (List Step)
  | [] => some []
  | first :: rest =>
    let cyclic := first :: rest
    let floating := function.isFloating first.source
    let wide := function.isWide first.source
    if rest.length = 1 && isSwap allocation function first (rest.getD 0 default) then
      some (emitXchgRegisters (physicalRegister (allocation.location first.source).physical)
        (physicalRegister (allocation.location (rest.getD 0 default).source).physical) wide)
    else if isHomogeneous function first cyclic then do
      let (steps, rotated, hole) ←
        rotate allocation function cyclic limit [0] (allocation.location first.source)
      let front := emitReadScratch (allocation.location first.source) floating wide ++ steps
      if rotated.length = cyclic.length &&
          sameAllocationLocation hole (allocation.location first.destination) then
        some (front ++ emitWriteScratch (allocation.location first.destination) floating wide)
      else some (front ++ emitSnapshot allocation function cyclic)
    else some (emitSnapshot allocation function cyclic)

/-! ## Edges -/

def edgeCopiesAreNoop (successor : Successor) (target : Block) : Bool :=
  successor.arguments.length == target.parameters.length &&
    (successor.arguments.zip target.parameters).all fun pair =>
      sameAllocationLocation (allocation.location pair.1) (allocation.location pair.2)

/-- The copies of an edge that are not there already. -/
def pendingCopies (successor : Successor) (target : Block) : List PendingCopy :=
  ((successor.arguments.zip target.parameters).filter fun pair =>
    !sameAllocationLocation (allocation.location pair.1) (allocation.location pair.2)).map
    fun pair => { source := pair.1, destination := pair.2 }

/-- The destination of the copy of an index is where another copy still reads. -/
def isLiveSource (copies : List PendingCopy) (index : Nat) : Bool :=
  (List.range copies.length).any fun other =>
    other != index && !(copies.getD other default).emitted &&
      sameAllocationLocation (allocation.location (copies.getD index default).destination)
        (allocation.location (copies.getD other default).source)

inductive CopyFailure
  | argumentMismatch (block : String)
  | unfinished
deriving DecidableEq, Repr

/-- The copies of an edge; each loop of the planning has a limit on its rounds. -/
def emitParallelCopies (limit : Nat) (successor : Successor) (target : Block) :
    Except CopyFailure (List Step) :=
  if successor.arguments.length ≠ target.parameters.length then
    .error (.argumentMismatch target.name)
  else
    let emitCopy := fun copy : PendingCopy =>
      emitLocationCopy allocation function copy.source copy.destination .eax .xmm0
    let emission := do
      let acyclic ← emitAcyclicParallelCopies (isLiveSource allocation) emitCopy limit
        { copies := pendingCopies allocation successor target, steps := [] }
      let cycles ← unresolvedParallelCopyCycles allocation limit acyclic.copies
      let steps ← cycles.mapM (emitCycle allocation function limit)
      some (acyclic.steps ++ steps.flatten)
    match emission with
    | none => .error .unfinished
    | some steps => .ok steps

end

end Raz.Forge.EdgeCopies
