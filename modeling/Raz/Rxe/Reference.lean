import Raz.Lib.Word
import Raz.Rxe.Model

/-!
# The RXE reference executor

Translation of `rxe/reference.rz`. A frame has 32 registers, frame slots, locals and the
staged arguments of the next call; the heap, the closures and the globals are shared by all
frames. Handles are tagged integers.

`Outcome.bound` and `Outcome.failed` are both a false success flag in the source: the first
means that the step bound or the depth bound was reached.
-/

namespace Raz.Rxe

def globalBase : Int := 562949953421312
def heapBase : Int := 844424930131968
def closureBase : Int := 1125899906842624
def tagSpan : Int := 281474976710656
def heapCapacity : Int := 1048576
def closureCapacity : Int := 65536
def captureCapacity : Int := 262144

/-! ## Arithmetic -/

def i64Min : Int := -9223372036854775808

def unsignedLess (left right : Int) : Bool :=
  if decide (left < 0) ≠ decide (right < 0) then decide (¬ left < 0) else left < right

def unsignedLessEqual (left right : Int) : Bool := left = right ∨ unsignedLess left right

/-- One step of the loop in `logicalShr`. -/
def shiftOnce (value : Int) : Int := Word.land (value / 2) 9223372036854775807

def logicalShr (value shift : Int) : Int :=
  (List.range (Word.shiftCount shift)).foldl (fun out _ => shiftOnce out) value

def bitValue (bit : Nat) : Int := if bit = 63 then i64Min else 2 ^ bit

/-- One bit of the long division: `(quotient, remainder)`. -/
def divisionStep (numerator denominator : Int) (acc : Int × Int) (bit : Nat) : Int × Int :=
  let remainder := Word.lor (Word.wrap (acc.2 * 2)) (Word.land (logicalShr numerator bit) 1)
  if unsignedLess remainder denominator then (acc.1, remainder)
  else (Word.lor acc.1 (bitValue bit), Word.wrap (remainder - denominator))

def unsignedDivRem (numerator denominator : Int) (wantRemainder : Bool) : Option Int :=
  if denominator = 0 then none
  else
    let (quotient, remainder) :=
      (List.range 64).reverse.foldl (divisionStep numerator denominator) (0, 0)
    some (if wantRemainder then remainder else quotient)

def signExtend (value mask sign span : Int) : Int :=
  let low := Word.land value mask
  if Word.land low sign ≠ 0 then low - span else low

/-! ## Shared state -/

/-- A cell of the heap. `length` and `alive` are used at the first cell of an allocation. -/
structure HeapCell where
  value : Int := 0
  owner : Int := 0
  length : Int := 0
  alive : Int := 0
  deriving DecidableEq, Repr, Inhabited

structure Closure where
  function : Int := 0
  captureStart : Int := 0
  captureCount : Int := 0
  deriving DecidableEq, Repr, Inhabited

/-- `RxeReferenceState` and the mutable globals of the module. The heap has the `heap_next`
cells in use, and so on for the other tables. -/
structure ReferenceState where
  globals : List Int
  heap : List HeapCell := []
  closures : List Closure := []
  captures : List Int := []
  deriving DecidableEq, Repr

namespace ReferenceState

variable (state : ReferenceState)

/-- The cell a handle names. -/
def heapCell (handle : Int) : Option Int :=
  if handle < heapBase ∨ handle ≥ heapBase + tagSpan then none
  else
    let index := handle - heapBase
    if index < 0 ∨ index ≥ state.heap.length then none
    else
      let owner := (Arena.get state.heap index).owner
      if owner < 0 ∨ owner ≥ state.heap.length ∨ (Arena.get state.heap owner).alive = 0 then none
      else if index < owner ∨ index ≥ owner + (Arena.get state.heap owner).length then none
      else some index

/-- The cell `offset` past the one a handle names. -/
def heapIndex (handle offset : Int) : Option Int :=
  match state.heapCell handle with
  | none => none
  | some base =>
      let owner := (Arena.get state.heap base).owner
      let target := base + offset
      if offset < 0 ∨ target < owner ∨ target ≥ owner + (Arena.get state.heap owner).length
      then none
      else some target

def heapValue (cell : Int) : Int := (Arena.get state.heap cell).value

def setHeapValue (cell value : Int) : ReferenceState :=
  { state with heap := Arena.modify state.heap cell (fun c => { c with value }) }

def alloc (count : Int) : Option (Int × ReferenceState) :=
  if count ≤ 0 ∨ state.heap.length + count > heapCapacity then none
  else
    let base : Int := state.heap.length
    some (heapBase + base,
      { state with heap := state.heap ++ { owner := base, length := count, alive := 1 } ::
          List.replicate (count - 1).toNat { owner := base } })

def sliceElement (slice index : Int) : Option Int :=
  if index < 0 then none
  else
    match state.heapCell slice with
    | none => none
    | some cell =>
        let owner := (Arena.get state.heap cell).owner
        if cell + 1 ≥ owner + (Arena.get state.heap owner).length then none
        else
          let extent := state.heapValue (cell + 1)
          if extent < 0 ∨ index ≥ extent then none
          else state.heapIndex (state.heapValue cell) index

def copyCell (destination source : Int) (state : ReferenceState) (offset : Int) :
    ReferenceState :=
  state.setHeapValue (destination + offset) (state.heapValue (source + offset))

/-- Backwards when the ranges overlap that way. -/
def memCopy (destination source count : Int) : Option ReferenceState :=
  if count < 0 then none
  else if count = 0 then some state
  else
    match state.heapIndex destination (count - 1), state.heapIndex source (count - 1),
        state.heapCell destination, state.heapCell source with
    | some _, some _, some cell, some origin =>
        if cell > origin ∧ cell < origin + count then
          some ((Arena.range 0 count).reverse.foldl (copyCell cell origin) state)
        else some ((Arena.range 0 count).foldl (copyCell cell origin) state)
    | _, _, _, _ => none

def free (handle : Int) : Option ReferenceState :=
  match state.heapCell handle with
  | none => none
  | some cell =>
      if cell ≠ (Arena.get state.heap cell).owner then none
      else some { state with heap := Arena.modify state.heap cell (fun c => { c with alive := 0 }) }

def isGlobalHandle (handle : Int) : Bool :=
  handle ≥ globalBase ∧ handle < globalBase + tagSpan

def loadRef (m : RxeModule) (handle : Int) : Option Int :=
  if isGlobalHandle handle then
    let index := handle - globalBase
    if index < 0 ∨ index ≥ m.globalCount then none else some (Arena.get state.globals index)
  else (state.heapCell handle).map state.heapValue

def storeRef (m : RxeModule) (handle value : Int) : Option ReferenceState :=
  if isGlobalHandle handle then
    let index := handle - globalBase
    if index < 0 ∨ index ≥ m.globalCount then none
    else some { state with globals := Arena.set state.globals index value }
  else (state.heapCell handle).map (fun cell => state.setHeapValue cell value)

def makeClosure (function : Int) (staged : List Int) (count : Int) :
    Option (Int × ReferenceState) :=
  if function < 0 ∨ count < 0 ∨ state.closures.length ≥ closureCapacity ∨
      state.captures.length + count > captureCapacity then none
  else
    some (closureBase + state.closures.length,
      { state with
        closures := state.closures ++
          [{ function, captureStart := state.captures.length, captureCount := count }]
        captures := state.captures ++ (Arena.range 0 count).map (Arena.get staged) })

/-- The arguments of a closure call: the staged ones, then the captures. -/
def closureArguments (closure : Closure) (staged : List Int) (count : Int) :
    Option (List Int × Int) :=
  let combined := count + closure.captureCount
  if combined + 1 ≤ 0 ∨ combined > 255 then none
  else
    some (Arena.scatter (Arena.range 0 closure.captureCount) (fun k => count + k)
      (fun k => Arena.get state.captures (closure.captureStart + k))
      (Arena.scatter (Arena.range 0 count) id (Arena.get staged)
        (List.replicate (combined + 1).toNat 0)), combined)

end ReferenceState

/-! ## Frames -/

structure Frame where
  registers : List Int
  slots : List Int
  locals : List Int
  staged : List Int
  deriving DecidableEq, Repr

def Frame.read (frame : Frame) (register : Int) : Int := Arena.get frame.registers register

def Frame.write (frame : Frame) (register value : Int) : Frame :=
  { frame with registers := Arena.set frame.registers register value }

def localCapacity : Nat := 65536
def stagedCapacity : Nat := 256

/-- The frame a function starts in. -/
def entryFrame (f : Function) : Frame :=
  { registers := List.replicate registerCount.toNat 0
    slots := List.replicate (f.frameSlots + 1).toNat 0
    locals := List.replicate localCapacity 0
    staged := List.replicate stagedCapacity 0 }

/-- The outcome of one instruction. -/
inductive Action
  /-- Go on at `ip`. -/
  | next (ip : Int) (frame : Frame) (state : ReferenceState)
  /-- Call; the result goes to the destination register of the instruction. -/
  | call (function : Int) (arguments : List Int) (count : Int)
  | done (result : Int)
  | failed

/-- The two-operand instructions that only compute a value; `none` is a trap. -/
def evalBinary (op : Op) (left right : Int) : Option Int :=
  match op with
  | .add64 => some (Word.wrap (left + right))
  | .sub64 => some (Word.wrap (left - right))
  | .mul64 => some (Word.wrap (left * right))
  | .divs64 =>
      if right = 0 ∨ (left = i64Min ∧ right = -1) then none else some (Word.div left right)
  | .rems64 =>
      if right = 0 ∨ (left = i64Min ∧ right = -1) then none else some (Word.rem left right)
  | .div64 => unsignedDivRem left right false
  | .rem64 => unsignedDivRem left right true
  | .and64 => some (Word.land left right)
  | .or64 => some (Word.lor left right)
  | .xor64 => some (Word.lxor left right)
  | .shl64 => some (Word.shl left right)
  | .shr64 => some (logicalShr left right)
  | .sar64 => some (Word.sar left right)
  | .eq64 => some (Word.ofBool (left = right))
  | .ne64 => some (Word.ofBool (left ≠ right))
  | .lt64 => some (Word.ofBool (unsignedLess left right))
  | .le64 => some (Word.ofBool (unsignedLessEqual left right))
  | .gt64 => some (Word.ofBool (!unsignedLessEqual left right))
  | .ge64 => some (Word.ofBool (!unsignedLess left right))
  | .lts64 => some (Word.ofBool (left < right))
  | .les64 => some (Word.ofBool (left ≤ right))
  | .gts64 => some (Word.ofBool (left > right))
  | .ges64 => some (Word.ofBool (left ≥ right))
  | .mov => some left
  | .notBool => some (Word.ofBool (left = 0))
  | .boolize => some (Word.ofBool (left ≠ 0))
  | .trunc8 => some (Word.land left 255)
  | .trunc16 => some (Word.land left 65535)
  | .trunc32 => some (Word.land left 4294967295)
  | .sext8 => some (signExtend left 255 128 256)
  | .sext16 => some (signExtend left 65535 32768 65536)
  | .sext32 => some (signExtend left 4294967295 2147483648 4294967296)
  | _ => none

section

variable (m : RxeModule) (arguments : List Int) (argumentCount : Int)

/-- One instruction. -/
def referenceStep (ip : Int) (frame : Frame) (state : ReferenceState) : Action :=
  let i := m.instruction ip
  let left := frame.read i.src0
  let right := frame.read i.src1
  let write (value : Int) := Action.next (ip + 1) (frame.write i.dst value) state
  let writeWith (result : Option (Int × ReferenceState)) :=
    match result with
    | some (value, state) => Action.next (ip + 1) (frame.write i.dst value) state
    | none => .failed
  let goOn (state : Option ReferenceState) :=
    match state with
    | some state => Action.next (ip + 1) frame state
    | none => .failed
  match Op.ofCode i.opcode with
  | none | some .localRef | some .trap => .failed
  | some .nop => .next (ip + 1) frame state
  | some .movi => write i.immediate
  | some .ldc64 =>
      if i.immediate < 0 ∨ i.immediate ≥ m.constantCount then .failed
      else write (Arena.get m.constants i.immediate)
  | some .loadArg =>
      if i.immediate < 0 ∨ i.immediate ≥ argumentCount then .failed
      else write (Arena.get arguments i.immediate)
  | some .loadSlot => write (Arena.get frame.slots i.immediate)
  | some .storeSlot =>
      .next (ip + 1) { frame with slots := Arena.set frame.slots i.immediate (frame.read 0) } state
  | some .loadLocal => write (Arena.get frame.locals i.immediate)
  | some .storeLocal =>
      .next (ip + 1)
        { frame with locals := Arena.set frame.locals i.immediate (frame.read 0) } state
  | some .loadGlobal => write (Arena.get state.globals i.immediate)
  | some .storeGlobal =>
      .next (ip + 1) frame
        { state with globals := Arena.set state.globals i.immediate (frame.read 0) }
  | some .globalRef | some .stringRef => write (globalBase + i.immediate)
  | some .loadRef => writeWith ((state.loadRef m left).map (fun value => (value, state)))
  | some .storeRef => writeWith ((state.storeRef m left right).map (fun state => (right, state)))
  | some .arg =>
      .next (ip + 1)
        { frame with staged := Arena.set frame.staged i.immediate (frame.read i.dst) } state
  | some .funcRef => write (i.immediate + 1)
  | some .call => .call i.immediate frame.staged i.src1
  | some .callIndirect =>
      if left - 1 < 0 ∨ left - 1 ≥ m.functionCount then .failed
      else .call (left - 1) frame.staged i.src1
  | some .makeClosure => writeWith (state.makeClosure i.immediate frame.staged i.src1)
  | some .callClosure =>
      if left < closureBase ∨ left ≥ closureBase + state.closures.length then .failed
      else
        let closure := Arena.get state.closures (left - closureBase)
        match state.closureArguments closure frame.staged i.src1 with
        | none => .failed
        | some (values, count) => .call closure.function values count
  | some .alloc => writeWith (state.alloc (Word.land i.immediate 65535))
  | some .free => goOn (state.free (frame.read i.dst))
  | some .indexLoad =>
      writeWith ((state.heapIndex left right).map (fun cell => (state.heapValue cell, state)))
  | some .indexStore =>
      if i.immediate < 0 ∨ i.immediate ≥ registerCount then .failed
      else goOn ((state.heapIndex left right).map
        (fun cell => state.setHeapValue cell (frame.read i.immediate)))
  | some .indexRef =>
      writeWith ((state.heapIndex left right).map (fun cell => (heapBase + cell, state)))
  | some .sliceLoad =>
      writeWith ((state.sliceElement left right).map (fun cell => (state.heapValue cell, state)))
  | some .sliceStore =>
      if i.immediate < 0 ∨ i.immediate ≥ registerCount then .failed
      else goOn ((state.sliceElement left right).map
        (fun cell => state.setHeapValue cell (frame.read i.immediate)))
  | some .sliceRef =>
      writeWith ((state.sliceElement left right).map (fun cell => (heapBase + cell, state)))
  | some .memCopy =>
      writeWith ((state.memCopy left right i.immediate).map (fun state => (left, state)))
  | some .select => write (if left ≠ 0 then right else frame.read i.immediate)
  | some .jmp => .next i.immediate frame state
  | some .brnz => .next (if left ≠ 0 then i.immediate else ip + 1) frame state
  | some .ret => .done (frame.read i.dst)
  | some .retVoid => .done 0
  | some op =>
      match evalBinary op left right with
      | some value => write value
      | none => .failed

/-- The result of a call. -/
inductive Outcome
  | returned (value : Int) (state : ReferenceState)
  | failed
  /-- The step bound or the depth bound was reached. -/
  | bound
  deriving DecidableEq, Repr

/-- The loop of a frame. `call` runs a callee. -/
def referenceFrame (f : Function)
    (call : Int → List Int → Int → ReferenceState → Outcome) :
    Nat → Int → Frame → ReferenceState → Outcome
  | steps, ip, frame, state =>
      if 0 ≤ ip ∧ ip < f.codeStop then
        match steps with
        | 0 => .bound
        | steps + 1 =>
            match referenceStep m arguments argumentCount ip frame state with
            | .next ip frame state => referenceFrame f call steps ip frame state
            | .call function values count =>
                match call function values count state with
                | .returned value state =>
                    referenceFrame f call steps (ip + 1)
                      (frame.write (m.instruction ip).dst value) state
                | .failed => .failed
                | .bound => .bound
            | .done result => .returned result state
            | .failed => .failed
      else .failed

end

/-- Steps of one frame. -/
def stepBound : Nat := 10000000

/-- `rxe_reference_execute_function_state`; `depth` more calls may be nested in this one. -/
def executeFunctionState (m : RxeModule) :
    Nat → Int → List Int → Int → ReferenceState → Outcome
  | depth, function, arguments, argumentCount, state =>
      if function < 0 ∨ function ≥ m.functionCount then .failed
      else
        match depth with
        | 0 => .bound
        | depth + 1 =>
            let f := m.function function
            if argumentCount ≠ f.argumentCount then .failed
            -- The arena of the slots can fail.
            else if ¬ Arena.creates (f.frameSlots + 1) then .failed
            else
              referenceFrame m arguments argumentCount f (executeFunctionState m depth)
                stepBound f.codeStart (entryFrame f) state

/-- Depths 0 to 64. -/
def depthBound : Nat := 65

/-- The globals arena has one cell more than the module has globals. -/
def initialState (m : RxeModule) : ReferenceState :=
  { globals := m.globals.map (·.value) ++ [0] }

/-- `rxe_reference_execute_function`, called at depth 0. -/
def referenceExecuteFunction (m : RxeModule) (function : Int) (arguments : List Int)
    (argumentCount : Int) : Outcome :=
  executeFunctionState m depthBound function arguments argumentCount (initialState m)

end Raz.Rxe
