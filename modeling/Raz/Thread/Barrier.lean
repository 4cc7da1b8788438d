import Mathlib.Logic.Function.Basic
import Raz.Lib.Transition
import Raz.Lib.Word

/-!
# The reusable barrier

Translation of `std::sync::barrier`. `barrier_wait` holds the mutex of the barrier from its lock to
its wait or unlock, and from its wake-up to its next wait or unlock; such a section is one step. A
thread that waits may go on at any moment, notified or not. It looks at the generation again then.
-/

namespace Raz.Thread.Barrier

open Transition

/-! ## The program -/

/-- The cells of a barrier. The mutex and the condition are not part of the state: sections are
atomic and waits may end at any moment. -/
structure BarrierState where
  parties : Int
  waiting : Int
  generation : Int
  deriving DecidableEq, Repr

/-- `barrier_create`; it fails if the memory, the mutex or the condition cannot be had. -/
def barrierCreate (parties : Int) (allocated : Bool) : Option BarrierState :=
  if parties ≤ 0 then none
  else if allocated then some { parties, waiting := 0, generation := 0 }
  else none

/-- A section of `barrier_wait` ends in a wait for the end of a generation, or in an unlock behind
which the call returns. -/
inductive Ending
  | wait (generation : Int)
  | leave (result : Bool)
  deriving DecidableEq, Repr

/-- The loop around the wait. -/
def loop (barrier : BarrierState) (generation : Int) : Ending :=
  if barrier.generation = generation then .wait generation else .leave false

/-- The section of a participant that arrives. -/
def arrive (barrier : BarrierState) : Ending × BarrierState :=
  let generation := barrier.generation
  let waiting := Word.wrap (barrier.waiting + 1)
  if waiting = barrier.parties then
    (.leave true, { barrier with waiting := 0, generation := Word.wrap (generation + 1) })
  else
    let barrier := { barrier with waiting }
    (loop barrier generation, barrier)

/-! ## Threads -/

/-- A thread is outside of the barrier, in front of the lock, in a wait, or behind the unlock. -/
inductive Pc
  | idle
  | locking
  | sleeping (generation : Int)
  | leaving (result : Bool)
  deriving DecidableEq, Repr

def Ending.pc : Ending → Pc
  | .wait generation => .sleeping generation
  | .leave result => .leaving result

inductive Event
  | called
  | arrived
  | woke
  | returned (result : Bool)
  deriving DecidableEq, Repr

structure State (Thread : Type) where
  barrier : BarrierState
  threads : Thread → Pc

section

variable {Thread : Type} [DecidableEq Thread]

inductive Step : State Thread → Thread × Event → State Thread → Prop
  | called {state : State Thread} {thread : Thread} :
      state.threads thread = .idle →
      Step state (thread, .called)
        { state with threads := Function.update state.threads thread .locking }
  | arrived {state : State Thread} {thread : Thread} :
      state.threads thread = .locking →
      Step state (thread, .arrived) {
        barrier := (arrive state.barrier).2
        threads := Function.update state.threads thread (arrive state.barrier).1.pc }
  | woke {state : State Thread} {thread : Thread} {generation : Int} :
      state.threads thread = .sleeping generation →
      Step state (thread, .woke) { state with
        threads := Function.update state.threads thread (loop state.barrier generation).pc }
  | returned {state : State Thread} {thread : Thread} {result : Bool} :
      state.threads thread = .leaving result →
      Step state (thread, .returned result)
        { state with threads := Function.update state.threads thread .idle }

/-- The barrier of `barrier_create`, and no thread in a call. -/
def Initial (parties : Int) (allocated : Bool) (state : State Thread) : Prop :=
  barrierCreate parties allocated = some state.barrier ∧ ∀ thread, state.threads thread = .idle

def interleavings (Thread : Type) [DecidableEq Thread] (parties : Int) (allocated : Bool) :
    System (State Thread) (Thread × Event) :=
  ⟨Initial parties allocated, Step⟩

/-! ## What a run has done -/

/-- A call that has arrived, with what it has returned. -/
structure Call (Thread : Type) where
  thread : Thread
  result : Option Bool
  deriving DecidableEq, Repr

/-- The call of a thread that has not returned. -/
abbrev Call.opened (thread : Thread) : Call Thread := { thread, result := none }

/-- The call of a thread returns. -/
def Call.finish (thread : Thread) (result : Bool) (call : Call Thread) : Call Thread :=
  if call.thread = thread ∧ call.result = none then { call with result := some result } else call

def record (calls : List (Call Thread)) : Thread × Event → List (Call Thread)
  | (thread, .arrived) => calls ++ [Call.opened thread]
  | (thread, .returned result) => calls.map (Call.finish thread result)
  | _ => calls

/-- The calls in the order in which they arrived. -/
def calls (events : List (Thread × Event)) : List (Call Thread) := events.foldl record []

end

end Raz.Thread.Barrier
