import Raz.Lib.Transition
import Raz.Thread.Capacity

/-!
# The queue of one producer and one consumer

Translation of `std::thread::spsc`. The producer owns the tail and the consumer the head; each
loads the other's counter once for a whole batch. Every atomic access, slot access and copied
span is one step, and the steps of the two interleave in any order. The counters are 64-bit
words that wrap around.
-/

namespace Raz.Thread.Spsc

open Transition

/-! ## The program -/

/-- `SpscI64`, without the addresses of its tables. -/
structure SpscI64 where
  capacity : Int
  mask : Int
  deriving DecidableEq, Repr

/-- `create`. The allocation may fail. -/
def create (requested : Int) (allocated : Bool) : SpscI64 :=
  let capacity := normalizedCapacity 2 576460752303423487 requested
  if capacity = 0 ∨ capacity > 1152921504606846973 ∨ allocated = false then ⟨0, 0⟩
  else ⟨capacity, capacity - 1⟩

def valid (channel : SpscI64) : Bool := channel.capacity > 0

/-- The cell of a position. -/
def slot (channel : SpscI64) (position : Int) : Int := Word.land position channel.mask

structure Memory where
  head : Int
  tail : Int
  cells : List Int
  deriving DecidableEq, Repr

/-- The next access of the producer. -/
inductive Producer
  | idle
  | sendTail (value : Int)
  | sendHead (value tail : Int)
  | sendStore (value tail : Int)
  | sendPublish (value tail : Int)
  | manyTail (values : List Int) (count : Int)
  | manyHead (values : List Int) (count tail : Int)
  | manyFirst (values : List Int) (amount tail : Int)
  | manySecond (values : List Int) (amount tail first : Int)
  | manyPublish (values : List Int) (amount tail : Int)
  deriving DecidableEq, Repr

/-- The next access of the consumer. -/
inductive Consumer
  | idle
  | receiveHead
  | receiveTail (head : Int)
  | receiveLoad (head : Int)
  | receiveRelease (head value : Int)
  | manyHead (count : Int)
  | manyTail (count head : Int)
  | manyFirst (amount head : Int)
  | manySecond (amount head first : Int) (output : List Int)
  | manyRelease (amount head : Int) (output : List Int)
  deriving DecidableEq, Repr

/-- What a step shows. -/
inductive Action
  | silent
  | published (values : List Int)
  /-- `try_send` returns false, `try_send_many` 0. -/
  | full
  | obtained (values : List Int)
  | empty
  deriving DecidableEq, Repr

/-- The values of the first span of a batch. -/
def firstSpan (channel : SpscI64) (position amount : Int) : Int :=
  let first := channel.capacity - slot channel position
  if first > amount then amount else first

/-- The next access of `try_send` or `try_send_many`. -/
def produce (channel : SpscI64) (memory : Memory) : Producer → Action × Memory × Producer
  | .idle => (.silent, memory, .idle)
  | .sendTail value => (.silent, memory, .sendHead value memory.tail)
  | .sendHead value tail =>
      if Word.wrap (tail - memory.head) ≥ channel.capacity then (.full, memory, .idle)
      else (.silent, memory, .sendStore value tail)
  | .sendStore value tail =>
      (.silent, { memory with cells := Arena.set memory.cells (slot channel tail) value },
        .sendPublish value tail)
  | .sendPublish value tail =>
      (.published [value], { memory with tail := Word.wrap (tail + 1) }, .idle)
  | .manyTail values count => (.silent, memory, .manyHead values count memory.tail)
  | .manyHead values count tail =>
      let available := Word.wrap (channel.capacity - Word.wrap (tail - memory.head))
      let amount := if count > available then available else count
      if amount ≤ 0 then (.full, memory, .idle)
      else (.silent, memory, .manyFirst values amount tail)
  | .manyFirst values amount tail =>
      let first := firstSpan channel tail amount
      let cells := Ring.writeSpan memory.cells (slot channel tail) (values.take first.toNat)
      (.silent, { memory with cells },
        if amount - first > 0 then .manySecond values amount tail first
        else .manyPublish values amount tail)
  | .manySecond values amount tail first =>
      let second := amount - first
      let cells := Ring.writeSpan memory.cells 0 ((values.drop first.toNat).take second.toNat)
      (.silent, { memory with cells }, .manyPublish values amount tail)
  | .manyPublish values amount tail =>
      (.published (values.take amount.toNat),
        { memory with tail := Word.wrap (tail + amount) }, .idle)

/-- The next access of `try_receive` or `try_receive_many`. -/
def consume (channel : SpscI64) (memory : Memory) : Consumer → Action × Memory × Consumer
  | .idle => (.silent, memory, .idle)
  | .receiveHead => (.silent, memory, .receiveTail memory.head)
  | .receiveTail head =>
      if head = memory.tail then (.empty, memory, .idle) else (.silent, memory, .receiveLoad head)
  | .receiveLoad head =>
      (.silent, memory, .receiveRelease head (Arena.get memory.cells (slot channel head)))
  | .receiveRelease head value =>
      (.obtained [value], { memory with head := Word.wrap (head + 1) }, .idle)
  | .manyHead count => (.silent, memory, .manyTail count memory.head)
  | .manyTail count head =>
      let waiting := Word.wrap (memory.tail - head)
      let amount := if waiting > count then count else waiting
      if amount ≤ 0 then (.empty, memory, .idle)
      else (.silent, memory, .manyFirst amount head)
  | .manyFirst amount head =>
      let first := firstSpan channel head amount
      let output := Ring.readSpan memory.cells (slot channel head) first
      (.silent, memory,
        if amount - first > 0 then .manySecond amount head first output
        else .manyRelease amount head output)
  | .manySecond amount head first output =>
      (.silent, memory,
        .manyRelease amount head (output ++ Ring.readSpan memory.cells 0 (amount - first)))
  | .manyRelease amount head output =>
      (.obtained output, { memory with head := Word.wrap (head + amount) }, .idle)

/-! ## Interleavings -/

structure State where
  memory : Memory
  producer : Producer
  consumer : Consumer
  deriving DecidableEq, Repr

/-- A call of either side, or the next access of the call it is in. A batch is called with at
least one value, and the caller's array has that many; without values the call returns 0 at
once and touches nothing. -/
inductive Step (channel : SpscI64) : State → Action → State → Prop
  | trySend {state : State} (value : Int) :
      valid channel = true → state.producer = .idle →
      Step channel state .silent { state with producer := .sendTail value }
  | trySendMany {state : State} (values : List Int) (count : Int) :
      valid channel = true → state.producer = .idle → 0 < count → count ≤ values.length →
      Step channel state .silent { state with producer := .manyTail values count }
  | tryReceive {state : State} :
      valid channel = true → state.consumer = .idle →
      Step channel state .silent { state with consumer := .receiveHead }
  | tryReceiveMany {state : State} (count : Int) :
      valid channel = true → state.consumer = .idle → 0 < count →
      Step channel state .silent { state with consumer := .manyHead count }
  | produce {state : State} {action : Action} {memory : Memory} {pc : Producer} :
      state.producer ≠ .idle →
      produce channel state.memory state.producer = (action, memory, pc) →
      Step channel state action { state with memory, producer := pc }
  | consume {state : State} {action : Action} {memory : Memory} {pc : Consumer} :
      state.consumer ≠ .idle →
      consume channel state.memory state.consumer = (action, memory, pc) →
      Step channel state action { state with memory, consumer := pc }

/-- The memory `create` leaves, with cells that hold anything. -/
def Initial (channel : SpscI64) (state : State) : Prop :=
  state.memory.head = 0 ∧ state.memory.tail = 0 ∧
    (state.memory.cells.length : Int) = channel.capacity ∧
    state.producer = .idle ∧ state.consumer = .idle

def interleavings (channel : SpscI64) : System State Action := ⟨Initial channel, Step channel⟩

/-- The values the producer has enqueued. -/
def published (events : List Action) : List Int :=
  events.flatMap (fun event =>
    match event with
    | .published values => values
    | _ => [])

/-- The values the consumer has obtained. -/
def obtained (events : List Action) : List Int :=
  events.flatMap (fun event =>
    match event with
    | .obtained values => values
    | _ => [])

/-- The values the consumer has copied and not yet returned. -/
def inHand : Consumer → List Int
  | .receiveRelease _ value => [value]
  | .manySecond _ _ _ output | .manyRelease _ _ output => output
  | _ => []

/-- The cells the next access of the producer writes. -/
def writes (channel : SpscI64) : Producer → List Int
  | .sendStore _ tail => [slot channel tail]
  | .manyFirst _ amount tail =>
      Arena.range (slot channel tail) (slot channel tail + firstSpan channel tail amount)
  | .manySecond _ amount _ first => Arena.range 0 (amount - first)
  | _ => []

/-- The cells the next access of the consumer reads. -/
def reads (channel : SpscI64) : Consumer → List Int
  | .receiveLoad head => [slot channel head]
  | .manyFirst amount head =>
      Arena.range (slot channel head) (slot channel head + firstSpan channel head amount)
  | .manySecond amount _ first _ => Arena.range 0 (amount - first)
  | _ => []

/-- The cell has a value that is published and not released. -/
def Occupied (channel : SpscI64) (events : List Action) (cell : Int) : Prop :=
  ∃ position : Int, (obtained events).length ≤ position ∧ position < (published events).length ∧
    slot channel position = cell

end Raz.Thread.Spsc
