import Mathlib.Logic.Function.Basic
import Raz.Lib.Ledger
import Raz.Lib.Transition
import Raz.Thread.Capacity

/-!
# The worker pool

Translation of `std::thread::pool`. A task is a callable and the address of its result. The
sections under the mutex of the pool, and those under the mutex of a result, are one step each;
the sweep of a cancelling shutdown is part of the section it runs in. A thread that waits may go
on at any moment, and the clock is read anew in every section. Results are not freed here, so
that their addresses differ.
-/

namespace Raz.Thread.Pool

open Transition

/-! ## The program -/

/-- A queued pair of a callable and its `result_state`. -/
structure Task where
  callable : Int
  result : Nat
  deriving DecidableEq, Repr, Inhabited

structure PoolTaskResultI64 where
  status : Int
  value : Int
  deriving DecidableEq, Repr

/-- The words of the pool. The mutex, the conditions and the table of workers are not part of the
state. -/
structure WorkerPoolI64 where
  queue : List Task
  capacity : Int
  mask : Int
  head : Int
  tail : Int
  count : Int
  active : Int
  accepting : Int
  stopping : Int
  deriving DecidableEq, Repr

/-- What happens to a task: `submit` has made it, turned it down or queued it, a worker or the
sweep has taken it off the queue, its callable has run or was destroyed, and its result has left
status 0. -/
inductive Kind
  | submitted
  | rejected
  | queued
  | dequeued
  | executed
  | destroyed
  | finished (status : Int)
  deriving DecidableEq, Repr

def Kind.isFinish : Kind → Bool
  | .finished _ => true
  | _ => false

/-- `result_finish`. -/
def resultFinish (results : Nat → PoolTaskResultI64) (state : Nat) (status value : Int) :
    Bool × (Nat → PoolTaskResultI64) :=
  if state = 0 then (false, results)
  else if (results state).status ≠ 0 then (false, results)
  else (true, Function.update results state ⟨status, value⟩)

/-- `create` with a queue of any contents. Otherwise there is no pool. -/
def create (workers requested : Int) (queue : List Task) : Option WorkerPoolI64 :=
  let capacity := normalizedCapacity 1 288230376151711743 requested
  if workers ≤ 0 ∨ workers > 1024 ∨ capacity = 0 then none
  else some ⟨queue, capacity, capacity - 1, 0, 0, 0, 0, 1, 0⟩

/-- The pool after a task is taken from the head of the queue. -/
def take (pool : WorkerPoolI64) : Task × WorkerPoolI64 :=
  (Arena.get pool.queue (Word.land pool.head pool.mask),
    { pool with
      head := Word.wrap (pool.head + 1)
      count := Word.wrap (pool.count - 1) })

/-- A task at the tail of the queue. -/
def append (pool : WorkerPoolI64) (task : Task) : WorkerPoolI64 :=
  { pool with
    queue := Arena.set pool.queue (Word.land pool.tail pool.mask) task
    tail := Word.wrap (pool.tail + 1)
    count := Word.wrap (pool.count + 1) }

/-- What a call of `result_finish` that returns `left` shows. -/
def finished (left : Bool) (status : Int) : List Kind := if left then [.finished status] else []

/-- The sweep of `shutdown`, with what happens to the tasks. -/
def sweep : Nat → WorkerPoolI64 → (Nat → PoolTaskResultI64) →
    List (Task × Kind) × WorkerPoolI64 × (Nat → PoolTaskResultI64)
  | 0, pool, results => ([], pool, results)
  | rounds + 1, pool, results =>
      if pool.count > 0 then
        let (task, pool) := take pool
        let (left, results) := resultFinish results task.result (-1) 0
        let (entries, pool, results) := sweep rounds pool results
        (Ledger.record task (.dequeued :: .destroyed :: finished left (-1)) ++ entries, pool,
          results)
      else ([], pool, results)

/-! ## Threads -/

/-- Where a thread is. A thread at a lock may also be waiting there. -/
inductive Pc
  | idle
  | submitLock (task : Task) (deadline : Int)
  | submitDestroy (task : Task)
  | submitFinish (task : Task)
  /-- `submit` without a callable: `task_destroy` waits for a result that nobody finishes. -/
  | submitHangs (result : Nat)
  | waitIdleLock (deadline : Int)
  | shutdownLock (cancelPending : Bool)
  | workerLock
  | workerInvoke (task : Task)
  | workerFinish (task : Task) (value : Int)
  | workerRelease
  | workerExited
  deriving DecidableEq, Repr

structure State (Thread : Type) where
  pool : WorkerPoolI64
  results : Nat → PoolTaskResultI64
  /-- The addresses up to this one are taken. -/
  created : Nat
  threads : Thread → Pc

/-- What a step shows: what happens to tasks, the result of `wait_idle_millis`, or the section of
`shutdown`. -/
inductive Action
  | tasks (entries : List (Task × Kind))
  | waitIdle (result : Bool)
  | shutdown (entries : List (Task × Kind))
  deriving DecidableEq, Repr

def Action.entries : Action → List (Task × Kind)
  | .tasks entries | .shutdown entries => entries
  | .waitIdle _ => []

/-- A section of `submit` at the time `now`: a task is turned down when there is no room in time
or the pool does not accept tasks. -/
def submitSection (pool : WorkerPoolI64) (task : Task) (deadline now : Int) :
    List Kind × WorkerPoolI64 × Pc :=
  if pool.accepting ≠ 0 ∧ pool.count ≥ pool.capacity then
    if remainingMillis now deadline ≤ 0 then ([.rejected], pool, .submitDestroy task)
    else ([], pool, .submitLock task deadline)
  else if pool.accepting = 0 then ([.rejected], pool, .submitDestroy task)
  else ([.queued], append pool task, .idle)

/-- A section of `wait_idle_millis` at the time `now`. -/
def waitIdleSection (pool : WorkerPoolI64) (deadline now : Int) : Option Bool :=
  if pool.count ≠ 0 ∨ pool.active ≠ 0 then
    if remainingMillis now deadline ≤ 0 then some false else none
  else some true

/-- The section of `shutdown`. -/
def shutdownSection (pool : WorkerPoolI64) (results : Nat → PoolTaskResultI64)
    (cancelPending : Bool) :
    List (Task × Kind) × WorkerPoolI64 × (Nat → PoolTaskResultI64) :=
  let pool := { pool with accepting := 0 }
  let (entries, pool, results) :=
    if cancelPending then sweep pool.count.toNat pool results else ([], pool, results)
  (entries, { pool with stopping := 1 }, results)

/-- The first section of a round of `worker_loop`. -/
def workerSection (pool : WorkerPoolI64) : List (Task × Kind) × WorkerPoolI64 × Pc :=
  if pool.count = 0 ∧ pool.stopping = 0 then ([], pool, .workerLock)
  else if pool.count = 0 ∧ pool.stopping ≠ 0 then ([], pool, .workerExited)
  else
    let (task, pool) := take pool
    (Ledger.record task [.dequeued], { pool with active := Word.wrap (pool.active + 1) },
      .workerInvoke task)

/-- The last section of a round of `worker_loop`. -/
def workerReleaseSection (pool : WorkerPoolI64) : WorkerPoolI64 :=
  { pool with active := Word.wrap (pool.active - 1) }

section

variable {Thread : Type} [DecidableEq Thread]

/-- The state after a thread has gone on to `pc`. -/
def State.goto (state : State Thread) (thread : Thread) (pc : Pc) : State Thread :=
  { state with threads := Function.update state.threads thread pc }

/-- A step of one thread. The clock says anything, and a callable returns anything. Calls with a
negative timeout and a `submit` without memory for a result return at once and are left out. -/
inductive Step : State Thread → Action → State Thread → Prop
  | submit {state : State Thread} {thread : Thread} (callable timeout now : Int) :
      state.threads thread = .idle → 0 ≤ timeout → callable ≠ 0 →
      Step state (.tasks (Ledger.record ⟨callable, state.created + 1⟩ [.submitted]))
        { state.goto thread
            (.submitLock ⟨callable, state.created + 1⟩ (deadlineNanos now timeout)) with
          results := Function.update state.results (state.created + 1) ⟨0, 0⟩
          created := state.created + 1 }
  | submitNull {state : State Thread} {thread : Thread} :
      state.threads thread = .idle →
      Step state (.tasks [])
        { state.goto thread (.submitHangs (state.created + 1)) with
          results := Function.update state.results (state.created + 1) ⟨0, 0⟩
          created := state.created + 1 }
  | submitSection {state : State Thread} {thread : Thread} {task : Task} {deadline : Int}
      {kinds : List Kind} {pool : WorkerPoolI64} {pc : Pc} (now : Int) :
      state.threads thread = .submitLock task deadline →
      submitSection state.pool task deadline now = (kinds, pool, pc) →
      Step state (.tasks (Ledger.record task kinds)) { state.goto thread pc with pool }
  | submitDestroy {state : State Thread} {thread : Thread} {task : Task} :
      state.threads thread = .submitDestroy task →
      Step state (.tasks (Ledger.record task [.destroyed])) (state.goto thread (.submitFinish task))
  | submitFinish {state : State Thread} {thread : Thread} {task : Task} {left : Bool}
      {results : Nat → PoolTaskResultI64} :
      state.threads thread = .submitFinish task →
      resultFinish state.results task.result (-1) 0 = (left, results) →
      Step state (.tasks (Ledger.record task (finished left (-1))))
        { state.goto thread .idle with results }
  | waitIdle {state : State Thread} {thread : Thread} (timeout now : Int) :
      state.threads thread = .idle → 0 ≤ timeout →
      Step state (.tasks []) (state.goto thread (.waitIdleLock (deadlineNanos now timeout)))
  | waitIdleAgain {state : State Thread} {thread : Thread} {deadline : Int} (now : Int) :
      state.threads thread = .waitIdleLock deadline →
      waitIdleSection state.pool deadline now = none → Step state (.tasks []) state
  | waitIdleReturn {state : State Thread} {thread : Thread} {deadline : Int} {result : Bool}
      (now : Int) :
      state.threads thread = .waitIdleLock deadline →
      waitIdleSection state.pool deadline now = some result →
      Step state (.waitIdle result) (state.goto thread .idle)
  | shutdown {state : State Thread} {thread : Thread} (cancelPending : Bool) :
      state.threads thread = .idle →
      Step state (.tasks []) (state.goto thread (.shutdownLock cancelPending))
  | shutdownSection {state : State Thread} {thread : Thread} {cancelPending : Bool}
      {entries : List (Task × Kind)} {pool : WorkerPoolI64}
      {results : Nat → PoolTaskResultI64} :
      state.threads thread = .shutdownLock cancelPending →
      shutdownSection state.pool state.results cancelPending = (entries, pool, results) →
      Step state (.shutdown entries) { state.goto thread .idle with pool, results }
  | workerSection {state : State Thread} {thread : Thread} {entries : List (Task × Kind)}
      {pool : WorkerPoolI64} {pc : Pc} :
      state.threads thread = .workerLock →
      workerSection state.pool = (entries, pool, pc) →
      Step state (.tasks entries) { state.goto thread pc with pool }
  | workerInvoke {state : State Thread} {thread : Thread} {task : Task} (value : Int) :
      state.threads thread = .workerInvoke task →
      Step state (.tasks (Ledger.record task [.executed]))
        (state.goto thread (.workerFinish task value))
  | workerFinish {state : State Thread} {thread : Thread} {task : Task} {value : Int}
      {left : Bool} {results : Nat → PoolTaskResultI64} :
      state.threads thread = .workerFinish task value →
      resultFinish state.results task.result 1 value = (left, results) →
      Step state (.tasks (Ledger.record task (finished left 1)))
        { state.goto thread .workerRelease with results }
  | workerRelease {state : State Thread} {thread : Thread} :
      state.threads thread = .workerRelease →
      Step state (.tasks [])
        { state.goto thread .workerLock with pool := workerReleaseSection state.pool }

/-- The pool `create` leaves. Its workers are about to begin and the other threads are outside
of the pool. -/
def Initial (workers : List Thread) (requested : Int) (state : State Thread) : Prop :=
  workers.Nodup ∧
  (∃ queue : List Task, create workers.length requested queue = some state.pool ∧
    (queue.length : Int) = state.pool.capacity) ∧
  (∀ thread, state.threads thread = if thread ∈ workers then .workerLock else .idle)

def interleavings (workers : List Thread) (requested : Int) : System (State Thread) Action :=
  ⟨Initial workers requested, Step⟩

end

/-! ## What a run has done -/

/-- What has happened to the tasks, oldest first. -/
def history (actions : List Action) : List (Task × Kind) := actions.flatMap Action.entries

/-- How often a task has met with something. -/
def times (kind : Kind) (actions : List Action) (task : Task) : Nat :=
  (history actions).count (task, kind)

/-- How often the result of a task has left status 0. -/
def finishes (actions : List Action) (task : Task) : Nat :=
  (Ledger.life (history actions) task).countP Kind.isFinish

/-- The tasks that have met with something, in order. -/
def tasksOf (kind : Kind) (entries : List (Task × Kind)) : List Task :=
  entries.filterMap (fun entry => if entry.2 = kind then some entry.1 else none)

/-- The tasks queued and not yet taken off the queue. -/
def inQueue (entries : List (Task × Kind)) : List Task :=
  (tasksOf .queued entries).drop (tasksOf .dequeued entries).length

/-- A submitter or a worker with a task in its hands, and what has happened to the task so far. -/
def hold : Pc → Option (Task × List Kind)
  | .submitLock task _ => some (task, [.submitted])
  | .submitDestroy task => some (task, [.submitted, .rejected])
  | .submitFinish task => some (task, [.submitted, .rejected, .destroyed])
  | .workerInvoke task => some (task, [.submitted, .queued, .dequeued])
  | .workerFinish task _ => some (task, [.submitted, .queued, .dequeued, .executed])
  | _ => none

/-- The worker is between the two sections of a round. -/
def running : Pc → Bool
  | .workerInvoke _ | .workerFinish _ _ | .workerRelease => true
  | _ => false

end Raz.Thread.Pool
