import Raz.Lib.Transition
import Raz.Thread.Capacity

/-!
# The timer scheduler

Translation of `std::thread::scheduler`. The pending entries are a heap in four parallel arrays, by
deadline and sequence. Every section from a lock of the mutex to the next wait or unlock is one
step; the clock may show anything in it. An access outside an array is `none`.
-/

namespace Raz.Thread.Scheduler

open Transition

/-! ## Arrays -/

def arrayGet (array : List Int) (index : Nat) : Option Int := array[index]?

def arraySet (array : List Int) (index : Nat) (value : Int) : Option (List Int) :=
  if index < array.length then some (array.set index value) else none

/-- A deadline, its sequence number, the callable and the handle of the result. -/
structure Entry where
  deadline : Int
  sequence : Int
  callable : Int
  result : Int
  deriving DecidableEq, Repr

structure Arrays where
  deadlines : List Int
  sequences : List Int
  callables : List Int
  results : List Int
  deriving DecidableEq, Repr

def Arrays.getEntry (arrays : Arrays) (index : Nat) : Option Entry := do
  let deadline ← arrayGet arrays.deadlines index
  let sequence ← arrayGet arrays.sequences index
  let callable ← arrayGet arrays.callables index
  let result ← arrayGet arrays.results index
  return { deadline, sequence, callable, result }

def Arrays.setEntry (arrays : Arrays) (index : Nat) (entry : Entry) : Option Arrays := do
  let deadlines ← arraySet arrays.deadlines index entry.deadline
  let sequences ← arraySet arrays.sequences index entry.sequence
  let callables ← arraySet arrays.callables index entry.callable
  let results ← arraySet arrays.results index entry.result
  return { deadlines, sequences, callables, results }

/-! ## The heap -/

def earlier (deadlineA sequenceA deadlineB sequenceB : Int) : Bool :=
  if deadlineA < deadlineB then true
  else deadlineA == deadlineB && sequenceA < sequenceB

structure TimerScheduler where
  arrays : Arrays
  capacity : Nat
  count : Nat
  accepting : Bool
  stopping : Bool
  nextSequence : Int
  deriving DecidableEq, Repr

/-- The loop of `heap_insert`: the arrays, and where the entry is to be put. Every round goes up, so
that as many rounds as there are entries are enough. -/
def insertLoop (deadline sequence : Int) : Nat → Arrays → Nat → Option (Arrays × Nat)
  | 0, arrays, index => return (arrays, index)
  | rounds + 1, arrays, index =>
    if 0 < index then do
      let parent := (index - 1) / 2
      let pd ← arrayGet arrays.deadlines parent
      let ps ← arrayGet arrays.sequences parent
      if !earlier deadline sequence pd ps then return (arrays, index)
      else
        let callable ← arrayGet arrays.callables parent
        let result ← arrayGet arrays.results parent
        let arrays ← arrays.setEntry index { deadline := pd, sequence := ps, callable, result }
        insertLoop deadline sequence rounds arrays parent
    else return (arrays, index)

def heapInsert (scheduler : TimerScheduler) (entry : Entry) : Option TimerScheduler := do
  let (arrays, index) ←
    insertLoop entry.deadline entry.sequence scheduler.count scheduler.arrays scheduler.count
  let arrays ← arrays.setEntry index entry
  return { scheduler with arrays, count := scheduler.count + 1 }

/-- The child that is moved up if the entry is not: the right one if it is the earlier one. -/
def childOf (arrays : Arrays) (count left : Nat) : Option Nat :=
  let right := left + 1
  if right < count then do
    let rd ← arrayGet arrays.deadlines right
    let rs ← arrayGet arrays.sequences right
    let ld ← arrayGet arrays.deadlines left
    let ls ← arrayGet arrays.sequences left
    return if earlier rd rs ld ls then right else left
  else return left

/-- The loop of `heap_pop` for the entry that was the last one. Every round goes down. -/
def popLoop (count : Nat) (deadline sequence : Int) :
    Nat → Arrays → Nat → Option (Arrays × Nat)
  | 0, arrays, index => return (arrays, index)
  | rounds + 1, arrays, index =>
    let left := index * 2 + 1
    if count ≤ left then return (arrays, index)
    else do
      let child ← childOf arrays count left
      let cd ← arrayGet arrays.deadlines child
      let cs ← arrayGet arrays.sequences child
      if !earlier cd cs deadline sequence then return (arrays, index)
      else
        let callable ← arrayGet arrays.callables child
        let result ← arrayGet arrays.results child
        let arrays ← arrays.setEntry index { deadline := cd, sequence := cs, callable, result }
        popLoop count deadline sequence rounds arrays child

/-- `heap_pop`, with what it leaves in the scratch memory. -/
def heapPop (scheduler : TimerScheduler) : Option (Entry × TimerScheduler) := do
  let scratch ← scheduler.arrays.getEntry 0
  let count := scheduler.count - 1
  if count ≤ 0 then return (scratch, { scheduler with count })
  else
    let last ← scheduler.arrays.getEntry count
    let (arrays, index) ← popLoop count last.deadline last.sequence count scheduler.arrays 0
    let arrays ← arrays.setEntry index last
    return (scratch, { scheduler with arrays, count })

/-! ## Sections -/

/-- `create`, with the arrays that are allocated if everything can be had. -/
def create (capacity : Int) (allocated : Option Arrays) : Option TimerScheduler :=
  if capacity ≤ 0 ∨ 268435455 < capacity then none
  else
    match allocated with
    | none => none
    | some arrays => some {
        arrays, capacity := capacity.toNat, count := 0
        accepting := true, stopping := false, nextSequence := 0 }

/-- The section of `schedule`: the entry and whether the worker is to be woken, unless the entry is
refused. -/
def schedule (scheduler : TimerScheduler) (now delay callable result : Int) :
    Option (Option (Entry × Bool) × TimerScheduler) :=
  if ¬ scheduler.accepting ∨ scheduler.capacity ≤ scheduler.count then return (none, scheduler)
  else do
    let deadline := deadlineNanos now delay
    let sequence := scheduler.nextSequence
    let scheduler := { scheduler with nextSequence := Word.wrap (sequence + 1) }
    let wake ←
      if scheduler.count = 0 then pure true
      else do
        let firstDeadline ← arrayGet scheduler.arrays.deadlines 0
        let firstSequence ← arrayGet scheduler.arrays.sequences 0
        pure (earlier deadline sequence firstDeadline firstSequence)
    let entry : Entry := { deadline, sequence, callable, result }
    let scheduler ← heapInsert scheduler entry
    return (some (entry, wake), scheduler)

/-- The worker waits, ends, or calls what it has popped. -/
inductive Work
  | wait
  | stop
  | call (entry : Entry)
  deriving DecidableEq, Repr

/-- A section of `worker_loop`. -/
def work (scheduler : TimerScheduler) (now : Int) : Option (Work × TimerScheduler) :=
  if scheduler.count = 0 then return (if scheduler.stopping then .stop else .wait, scheduler)
  else do
    let deadline ← arrayGet scheduler.arrays.deadlines 0
    if 0 < remainingMillis now deadline then return (.wait, scheduler)
    else
      let (entry, scheduler) ← heapPop scheduler
      return (.call entry, scheduler)

/-- The section of `shutdown`, with the callables that are destroyed and the results that are
finished as cancelled. -/
def shutdown (scheduler : TimerScheduler) (cancelPending : Bool) :
    Option (List (Int × Int) × TimerScheduler) := do
  let scheduler := { scheduler with accepting := false }
  let (cancelled, scheduler) ←
    if cancelPending then do
      let cancelled ← (List.range scheduler.count).mapM fun index => do
        let callable ← arrayGet scheduler.arrays.callables index
        let result ← arrayGet scheduler.arrays.results index
        return (callable, result)
      pure (cancelled, { scheduler with count := 0 })
    else pure ([], scheduler)
  return (cancelled, { scheduler with stopping := true })

/-! ## Runs -/

inductive Event
  | scheduled (entry : Entry)
  | refused
  | worked
  | popped (entry : Entry)
  | shut (cancelPending : Bool) (cancelled : List (Int × Int))
  deriving DecidableEq, Repr

/-- The sequence number of an entry may be any one, although `schedule` counts them up: the counter
comes round. -/
inductive Step : TimerScheduler → Event → TimerScheduler → Prop
  | scheduled {scheduler after : TimerScheduler} {entry : Entry} {wake : Bool}
      (sequence now delay callable result : Int) :
      schedule { scheduler with nextSequence := sequence } now delay callable result =
        some (some (entry, wake), after) →
      Step scheduler (.scheduled entry) after
  | refused {scheduler after : TimerScheduler} (now delay callable result : Int) :
      schedule scheduler now delay callable result = some (none, after) →
      Step scheduler .refused after
  | worked {scheduler after : TimerScheduler} {outcome : Work} (now : Int) :
      (∀ entry, outcome ≠ .call entry) → work scheduler now = some (outcome, after) →
      Step scheduler .worked after
  | popped {scheduler after : TimerScheduler} {entry : Entry} (now : Int) :
      work scheduler now = some (.call entry, after) → Step scheduler (.popped entry) after
  | shut {scheduler after : TimerScheduler} {cancelled : List (Int × Int)} (cancelPending : Bool) :
      shutdown scheduler cancelPending = some (cancelled, after) →
      Step scheduler (.shut cancelPending cancelled) after

/-- All arrays have as many cells. -/
structure Arrays.Sized (arrays : Arrays) (size : Nat) : Prop where
  deadlines : arrays.deadlines.length = size
  sequences : arrays.sequences.length = size
  callables : arrays.callables.length = size
  results : arrays.results.length = size

/-- The scheduler of `create`, with arrays of its capacity. -/
def Initial (capacity : Int) (allocated : Option Arrays) (scheduler : TimerScheduler) : Prop :=
  create capacity allocated = some scheduler ∧ scheduler.arrays.Sized scheduler.capacity

def sections (capacity : Int) (allocated : Option Arrays) : System TimerScheduler Event :=
  ⟨Initial capacity allocated, Step⟩

/-! ## What a run has done -/

def record (pending : List Entry) : Event → List Entry
  | .scheduled entry => pending ++ [entry]
  | .popped entry => pending.erase entry
  | .shut true _ => []
  | _ => pending

/-- The entries that are scheduled and neither popped nor cancelled. -/
def pending (events : List Event) : List Entry := events.foldl record []

end Raz.Thread.Scheduler
