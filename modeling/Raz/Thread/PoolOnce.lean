import Raz.Thread.Pool

/-!
# Every task of the worker pool is settled once

A task is in the hands of its submitter, in the queue, in the hands of a worker, or settled, and
its life tells which. The words of the pool count the tasks in the queue and the workers in a
round, and the status of a result is what the life of its task says.

Result: `exactly_once`: tasks, results, counters and `wait_idle_millis` along every run.
-/

namespace Raz.Thread.Pool

open Transition Ledger List Function

variable {more : List (Task × Kind)} {kinds : List Kind} {pool' : WorkerPoolI64}

/-! ## The invariant -/

/-- The three lives of a task. -/
def Complete (kinds : List Kind) : Prop :=
  kinds = [.submitted, .rejected, .destroyed, .finished (-1)] ∨
  kinds = [.submitted, .queued, .dequeued, .executed, .finished 1] ∨
  kinds = [.submitted, .queued, .dequeued, .destroyed, .finished (-1)]

/-- The status of a result after what has happened to its task. -/
def outcome (kinds : List Kind) : Int :=
  kinds.foldl (fun status kind =>
    match kind with
    | .finished status => status
    | _ => status) 0

/-- The ring holds the tasks in the queue. -/
structure Queue (entries : List (Task × Kind)) (pool : WorkerPoolI64) : Prop where
  stream : Ring.Stream pool.queue pool.capacity pool.head pool.tail (tasksOf .queued entries)
    (tasksOf .dequeued entries)
  mask_eq : pool.mask = pool.capacity - 1
  count_eq : pool.count = (inQueue entries).length

/-- Every task has a result of its own, with the status its life says. -/
structure Accounts (entries : List (Task × Kind)) (created : Nat)
    (results : Nat → PoolTaskResultI64) : Prop where
  address : ∀ {task : Task}, life entries task ≠ [] → 0 < task.result ∧ task.result ≤ created
  own : ∀ {task other : Task}, life entries task ≠ [] → life entries other ≠ [] →
    task.result = other.result → task = other
  status : ∀ {task : Task}, life entries task ≠ [] →
    (results task.result).status = outcome (life entries task)

variable {entries : List (Task × Kind)} {pool : WorkerPoolI64} {created : Nat}
  {results : Nat → PoolTaskResultI64} {task : Task}

/-! ## The queue -/

theorem tasksOf_append (kind : Kind) (left right : List (Task × Kind)) :
    tasksOf kind (left ++ right) = tasksOf kind left ++ tasksOf kind right :=
  filterMap_append

theorem inQueue_note (entries : List (Task × Kind)) (hqueued : tasksOf .queued more = [])
    (hdequeued : tasksOf .dequeued more = []) :
    inQueue (entries ++ more) = inQueue entries := by
  unfold inQueue
  rw [tasksOf_append, tasksOf_append, hqueued, hdequeued, append_nil, append_nil]

section

variable (h : Queue entries pool)

include h

theorem Queue.note {more : List (Task × Kind)}
    (hqueued : tasksOf .queued more = []) (hdequeued : tasksOf .dequeued more = []) :
    Queue (entries ++ more) pool := by
  have hin := inQueue_note entries hqueued hdequeued
  refine ⟨?_, h.mask_eq, ?_⟩
  · rw [tasksOf_append, tasksOf_append, hqueued, hdequeued, append_nil, append_nil]
    exact h.stream
  · rw [hin]
    exact h.count_eq

theorem Queue.length_inQueue : ((inQueue entries).length : Int) =
      (tasksOf .queued entries).length - (tasksOf .dequeued entries).length :=
  h.stream.length_queue

theorem Queue.count_le : pool.count ≤ pool.capacity := by
  have hlen := h.length_inQueue
  have hroom := h.stream.room
  have hcount := h.count_eq
  omega

theorem Queue.append (hroom : pool.count < pool.capacity) (task : Task) :
    inQueue (entries ++ record task [.queued]) = inQueue entries ++ [task] ∧
      Queue (entries ++ record task [.queued]) (append pool task) := by
  have hlen := h.length_inQueue
  have hcount := h.count_eq
  have hlt := h.stream.isCapacity.lt
  have hqueued : tasksOf .queued (entries ++ record task [.queued]) =
      tasksOf .queued entries ++ [task] := tasksOf_append _ _ _
  have hdequeued : tasksOf .dequeued (entries ++ record task [.queued]) =
      tasksOf .dequeued entries := (tasksOf_append _ _ _).trans (append_nil _)
  have hin : inQueue (entries ++ record task [.queued]) = inQueue entries ++ [task] := by
    unfold inQueue
    rw [hqueued, hdequeued, drop_append_of_le_length h.stream.got_prefix.length_le]
  refine ⟨hin, ?_, h.mask_eq, ?_⟩
  · rw [hqueued, hdequeued]
    have hpush := h.stream.push task (by omega)
    rw [← h.mask_eq] at hpush
    exact hpush
  · rw [hin, length_append, length_singleton]
    simp only [Pool.append]
    rw [Word.wrap_of_range (by omega) (by omega)]
    omega

theorem Queue.take (hsome : 0 < pool.count) :
    inQueue entries = (take pool).1 :: inQueue (entries ++ record (take pool).1 [.dequeued]) ∧
      Queue (entries ++ record (take pool).1 [.dequeued]) (take pool).2 := by
  have hlen := h.length_inQueue
  have hcount := h.count_eq
  have hlt := h.stream.isCapacity.lt
  have hle := h.count_le
  have hqueued : tasksOf .queued (entries ++ record (Pool.take pool).1 [.dequeued]) =
      tasksOf .queued entries := (tasksOf_append _ _ _).trans (append_nil _)
  have hdequeued : tasksOf .dequeued (entries ++ record (Pool.take pool).1 [.dequeued]) =
      tasksOf .dequeued entries ++ [(Pool.take pool).1] := tasksOf_append _ _ _
  have hpop := h.stream.pop (by omega)
  rw [← h.mask_eq] at hpop
  have hin : inQueue entries = (Pool.take pool).1 ::
      inQueue (entries ++ record (Pool.take pool).1 [.dequeued]) := by
    unfold inQueue
    rw [hqueued, hdequeued, length_append, length_singleton]
    have hfront := h.stream.front (by omega)
    rw [← h.mask_eq] at hfront
    exact hfront
  refine ⟨hin, ?_, h.mask_eq, ?_⟩
  · rw [hqueued, hdequeued]
    exact hpop
  have hlength := congrArg List.length hin
  rw [length_cons] at hlength
  simp only [Pool.take] at hlength ⊢
  rw [Word.wrap_of_range (by omega) (by omega)]
  omega

end

/-! ## The results -/

theorem outcome_append (kinds more : List Kind) :
    outcome (kinds ++ more) = more.foldl (fun status kind =>
      match kind with
      | .finished status => status
      | _ => status) (outcome kinds) := List.foldl_append

/-- A task with a life has had one before, or it is the task of the new entries. -/
theorem life_before {other : Task} (h : life (entries ++ record task kinds) other ≠ []) :
    other = task ∨ life entries other ≠ [] := by
  by_cases heq : other = task
  · exact .inl heq
  · rw [life_extend_of_ne heq] at h
    exact .inr h

theorem life_kept (hlife : life entries task ≠ []) {other : Task}
    (h : life (entries ++ record task kinds) other ≠ []) : life entries other ≠ [] :=
  (life_before h).elim (fun heq => heq ▸ hlife) id

section

variable (h : Accounts entries created results)

include h

theorem Accounts.note (hlife : life entries task ≠ [])
    {kinds : List Kind} (hkinds : outcome (life entries task ++ kinds) =
      outcome (life entries task)) :
    Accounts (entries ++ record task kinds) created results := by
  refine ⟨fun hother => h.address (life_kept hlife hother),
    fun hleft hright => h.own (life_kept hlife hleft) (life_kept hlife hright),
    fun {other} hother => ?_⟩
  rw [h.status (life_kept hlife hother)]
  by_cases heq : other = task
  · subst heq
    rw [life_extend_self, hkinds]
  · rw [life_extend_of_ne heq]

theorem Accounts.finish (hlife : life entries task ≠ [])
    (hopen : outcome (life entries task) = 0) (status value : Int) :
    ∃ results', resultFinish results task.result status value = (true, results') ∧
      Accounts (entries ++ record task [.finished status]) created results' := by
  obtain ⟨haddr, _⟩ := h.address hlife
  have hstatus := h.status hlife
  rw [hopen] at hstatus
  refine ⟨update results task.result ⟨status, value⟩, ?_, ?_⟩
  · unfold resultFinish
    rw [if_neg (by omega), if_neg (fun hne => hne hstatus)]
  refine ⟨fun hother => h.address (life_kept hlife hother),
    fun hleft hright => h.own (life_kept hlife hleft) (life_kept hlife hright),
    fun {other} hother => ?_⟩
  have hbefore := life_kept hlife hother
  by_cases heq : other = task
  · subst heq
    rw [update_self, life_extend_self, outcome_append]
    rfl
  · rw [update_of_ne, life_extend_of_ne heq, h.status hbefore]
    exact fun hsame => heq (h.own hbefore hlife hsame)

theorem Accounts.life_new (callable : Int) :
    life entries ⟨callable, created + 1⟩ = [] := by
  by_cases hlife : life entries ⟨callable, created + 1⟩ = []
  · exact hlife
  · have := (h.address hlife).2
    simp only at this
    omega

theorem Accounts.allocate :
    Accounts entries (created + 1) (Function.update results (created + 1) ⟨0, 0⟩) := by
  refine ⟨fun hlife => ?_, h.own, fun {other} hlife => ?_⟩
  · have := h.address hlife
    omega
  · have := h.address hlife
    rw [update_of_ne (by omega)]
    exact h.status hlife

theorem Accounts.create (callable : Int) :
    Accounts (entries ++ record ⟨callable, created + 1⟩ [.submitted]) (created + 1)
      (Function.update results (created + 1) ⟨0, 0⟩) := by
  have hnew := h.life_new callable
  refine ⟨fun {other} hother => ?_, fun {left right} hleft hright hsame => ?_,
    fun {other} hother => ?_⟩
  · rcases life_before hother with rfl | hother
    · exact ⟨Nat.succ_pos _, Nat.le_refl _⟩
    · have := h.address hother
      omega
  · rcases life_before hleft with rfl | hleft
    · rcases life_before hright with rfl | hright
      · rfl
      · have := h.address hright
        simp only at hsame
        omega
    · rcases life_before hright with rfl | hright
      · have := h.address hleft
        simp only at hsame
        omega
      · exact h.own hleft hright hsame
  · by_cases heq : other = ⟨callable, created + 1⟩
    · subst heq
      rw [update_self, life_extend_self, hnew]
      rfl
    have hbefore := (life_before hother).resolve_left heq
    have := h.address hbefore
    rw [update_of_ne (by omega), life_extend_of_ne heq]
    exact h.status hbefore

end

/-! ## The sweep -/

/-- The ledger of the pool. -/
def Books {Thread : Type} (entries : List (Task × Kind))
    (holder : Thread → Option (Task × List Kind)) : Prop :=
  Ledger [.submitted, .queued] Complete entries holder (inQueue entries) none

section

variable {Thread : Type} {holder : Thread → Option (Task × List Kind)}

theorem Books.life_front (h : Books entries holder) {later : List Task}
    (hfront : inQueue entries = task :: later) : life entries task = [.submitted, .queued] :=
  h.waits (by rw [hfront]; exact mem_cons_self)

theorem Books.cancel (h : Books entries holder)
    (hfront : inQueue entries = task :: inQueue (entries ++ record task [.dequeued])) :
    Books (entries ++ record task [.dequeued, .destroyed, .finished (-1)]) holder := by
  have hin : inQueue (entries ++ record task [.dequeued, .destroyed, .finished (-1)]) =
      inQueue (entries ++ record task [.dequeued]) := by
    unfold inQueue
    simp only [tasksOf_append]
    rfl
  unfold Books at h ⊢
  rw [hfront] at h
  rw [hin]
  exact h.cancel (.inr (.inr rfl))

/-- The sweep queues nothing and leaves the other words of the pool alone. -/
theorem sweep_frame (rounds : Nat) :
    ∀ {more : List (Task × Kind)} {pool pool' : WorkerPoolI64}
      {results results' : Nat → PoolTaskResultI64},
      sweep rounds pool results = (more, pool', results') →
      tasksOf .queued more = [] ∧ pool'.active = pool.active ∧
        pool'.accepting = pool.accepting := by
  induction rounds with
  | zero =>
    intro more pool pool' results results' hsweep
    cases hsweep
    exact ⟨rfl, rfl, rfl⟩
  | succ rounds ih =>
    intro more pool pool' results results' hsweep
    unfold sweep at hsweep
    split at hsweep
    · rcases hfinish : resultFinish results (take pool).1.result (-1) 0 with ⟨left, finished'⟩
      rcases hrest : sweep rounds (take pool).2 finished' with ⟨rest, swept, last⟩
      simp only [hfinish, hrest] at hsweep
      obtain ⟨hnone, hactive, haccepting⟩ := ih hrest
      cases hsweep
      refine ⟨?_, hactive, haccepting⟩
      rw [tasksOf_append, hnone, append_nil]
      cases left <;> rfl
    · cases hsweep
      exact ⟨rfl, rfl, rfl⟩

/-- Every round of the sweep settles the task at the head of the queue. -/
theorem sweep_keeps (rounds : Nat) :
    ∀ {entries more : List (Task × Kind)} {pool pool' : WorkerPoolI64}
      {results results' : Nat → PoolTaskResultI64},
      Books entries holder → Queue entries pool → Accounts entries created results →
      sweep rounds pool results = (more, pool', results') →
      Books (entries ++ more) holder ∧ Queue (entries ++ more) pool' ∧
        Accounts (entries ++ more) created results' := by
  induction rounds with
  | zero =>
    intro entries more pool pool' results results' hbooks hqueue haccounts hsweep
    cases hsweep
    rw [append_nil]
    exact ⟨hbooks, hqueue, haccounts⟩
  | succ rounds ih =>
    intro entries more pool pool' results results' hbooks hqueue haccounts hsweep
    unfold sweep at hsweep
    split at hsweep
    · rename_i hsome
      obtain ⟨hfront, htake⟩ := hqueue.take hsome
      have hlife := hbooks.life_front hfront
      have hcancelled := hbooks.cancel hfront
      have hrest := @Queue.note _ _ htake (record (take pool).1 [.destroyed, .finished (-1)])
        rfl rfl
      rw [append_assoc, ← record_append, singleton_append] at hrest
      have hnoted := @Accounts.note _ _ _ (take pool).1 haccounts
        (by rw [hlife]; exact cons_ne_nil _ _) [.dequeued, .destroyed] (by rw [hlife]; rfl)
      obtain ⟨results'', hfinish, hfin⟩ := @Accounts.finish _ _ _ (take pool).1 hnoted
        (by rw [life_extend_self, hlife]; exact cons_ne_nil _ _)
        (by rw [life_extend_self, hlife]; rfl) (-1) 0
      rw [append_assoc, ← record_append] at hfin
      simp only [hfinish] at hsweep
      have hswept := ih hcancelled hrest hfin rfl
      cases hsweep
      rw [← append_assoc]
      exact hswept
    · cases hsweep
      rw [append_nil]
      exact ⟨hbooks, hqueue, haccounts⟩

end

/-! ## The workers -/

section

variable {Thread : Type} [DecidableEq Thread] {workers : List Thread} {threads : Thread → Pc}
  {thread : Thread} {pc : Pc}

/-- How many workers are in a round. -/
def crew (workers : List Thread) (threads : Thread → Pc) : Nat :=
  workers.countP (fun worker => running (threads worker))

theorem crew_same (h : running pc = running (threads thread)) :
    crew workers (Function.update threads thread pc) = crew workers threads := by
  unfold crew
  congr 1
  funext worker
  by_cases heq : worker = thread
  · subst heq
    rw [update_self, h]
  · rw [update_of_ne heq]

theorem crew_of_not_mem (h : thread ∉ workers) :
    crew workers (Function.update threads thread pc) = crew workers threads := by
  unfold crew
  refine countP_congr (fun worker hworker => ?_)
  have hne : worker ≠ thread := fun heq => h (heq ▸ hworker)
  rw [update_of_ne hne]

theorem crew_start (hnodup : workers.Nodup) (hmem : thread ∈ workers)
    (hold : running (threads thread) = false) (hnew : running pc = true) :
    crew workers (Function.update threads thread pc) = crew workers threads + 1 := by
  induction workers with
  | nil => exact absurd hmem not_mem_nil
  | cons worker workers ih =>
    obtain ⟨hnot, hnodup⟩ := nodup_cons.mp hnodup
    unfold crew at ih ⊢
    rw [countP_cons, countP_cons]
    rcases mem_cons.mp hmem with rfl | hmem
    · have hrest := @crew_of_not_mem _ _ workers threads thread pc hnot
      unfold crew at hrest
      rw [hrest, update_self, hold, hnew]
      rfl
    · have hne : worker ≠ thread := fun heq => hnot (heq ▸ hmem)
      rw [ih hnodup hmem, update_of_ne hne]
      omega

theorem crew_stop (hnodup : workers.Nodup) (hmem : thread ∈ workers)
    (hold : running (threads thread) = true) (hnew : running pc = false) :
    crew workers threads = crew workers (Function.update threads thread pc) + 1 := by
  have hback := @crew_start _ _ workers (update threads thread pc) thread
    (threads thread) hnodup hmem (by rw [update_self]; exact hnew) hold
  rw [update_idem, update_eq_self] at hback
  exact hback

omit [DecidableEq Thread] in
theorem crew_le : crew workers threads ≤ workers.length := List.countP_le_length

end

/-! ## The steps -/

/-- The thread is in `worker_loop`. -/
def worksAs : Pc → Bool
  | .workerLock | .workerInvoke _ | .workerFinish _ _ | .workerRelease | .workerExited => true
  | _ => false

section

variable {Thread : Type} [DecidableEq Thread] {workers : List Thread} {state next : State Thread}
  {action : Action}

structure Consistent (workers : List Thread) (entries : List (Task × Kind))
    (state : State Thread) : Prop where
  nodup : workers.Nodup
  few : workers.length ≤ 1024
  books : Books entries (hold ∘ state.threads)
  queue : Queue entries state.pool
  accounts : Accounts entries state.created state.results
  active_eq : state.pool.active = crew workers state.threads
  hired : ∀ thread, worksAs (state.threads thread) = true → thread ∈ workers

section

variable {thread : Thread} {old pc : Pc} {kinds : List Kind}

omit [DecidableEq Thread] in
theorem Consistent.life_held (h : Consistent workers entries state)
    (hheld : hold (state.threads thread) = some (task, kinds)) : life entries task = kinds :=
  h.books.held hheld

theorem hold_ne_nil (pc : Pc) (task : Task) : hold pc ≠ some (task, []) := by
  cases pc <;> exact nofun

variable {entries' : List (Task × Kind)} {pool : WorkerPoolI64}
  {results : Nat → PoolTaskResultI64} {created : Nat} (h : Consistent workers entries state)
  (hat : state.threads thread = old) (hworks : worksAs pc = worksAs old)

include h hat hworks

theorem Consistent.move
    (hbooks : Books entries' (Function.update (hold ∘ state.threads) thread (hold pc)))
    (hqueue : Queue entries' pool) (haccounts : Accounts entries' created results)
    (hactive : pool.active = crew workers (Function.update state.threads thread pc)) :
    Consistent workers entries' { state.goto thread pc with pool, results, created } where
  nodup := h.nodup
  few := h.few
  books := by
    show Books entries' (hold ∘ update state.threads thread pc)
    rw [comp_update]
    exact hbooks
  queue := hqueue
  accounts := haccounts
  active_eq := hactive
  hired := by
    intro other hother
    simp only [State.goto] at hother
    by_cases heq : other = thread
    · subst heq
      rw [update_self, hworks, ← hat] at hother
      exact h.hired other hother
    · rw [update_of_ne heq] at hother
      exact h.hired other hother

variable (hrunning : running pc = running old)

include hrunning

theorem Consistent.goOn
    (hbooks : Books entries' (Function.update (hold ∘ state.threads) thread (hold pc)))
    (hqueue : Queue entries' pool) (haccounts : Accounts entries' created results)
    (hactive : pool.active = state.pool.active) :
    Consistent workers entries' { state.goto thread pc with pool, results, created } := by
  refine h.move hat hworks hbooks hqueue haccounts ?_
  rw [crew_same (hat ▸ hrunning), hactive]
  exact h.active_eq

omit hworks hrunning in
theorem Consistent.books_same (hhold : hold pc = hold old) :
    Books entries (Function.update (hold ∘ state.threads) thread (hold pc)) := by
  subst hat
  rw [hhold]
  exact (update_eq_self (f := hold ∘ state.threads) thread).symm ▸ h.books

/-- A thread goes on with nothing in its hands before and after. -/
theorem Consistent.quiet (hhold : hold pc = hold old) :
    Consistent workers entries (state.goto thread pc) :=
  h.goOn hat hworks hrunning (h.books_same hat hhold) h.queue h.accounts rfl

variable (pc) in
/-- A thread notes what it has done with the task in its hands. -/
theorem Consistent.note {kind : Kind} (hheld : hold old = some (task, kinds))
    (hnext : hold pc = some (task, kinds ++ [kind])) (hne : kinds ≠ [])
    (hopen : outcome (kinds ++ [kind]) = outcome kinds)
    (hqueued : tasksOf .queued (record task [kind]) = [])
    (hdequeued : tasksOf .dequeued (record task [kind]) = []) :
    Consistent workers (entries ++ record task [kind]) (state.goto thread pc) := by
  rw [← hat] at hheld
  have hlife := h.life_held hheld
  refine h.goOn hat hworks hrunning ?_ (h.queue.note hqueued hdequeued)
    (h.accounts.note (hlife ▸ hne) (by rw [hlife, hopen])) rfl
  unfold Books
  rw [hnext, inQueue_note entries hqueued hdequeued]
  exact h.books.extend hheld [kind]

end

section

variable (h : Consistent workers entries state)

include h

theorem Consistent.submitSection {thread : Thread} {task : Task} {deadline now : Int}
    {kinds : List Kind} {pool : WorkerPoolI64} {pc : Pc}
    (hat : state.threads thread = .submitLock task deadline)
    (hsec : submitSection state.pool task deadline now = (kinds, pool, pc)) :
    Consistent workers (entries ++ record task kinds) { state.goto thread pc with pool } := by
  have hheld : hold (state.threads thread) = some (task, [.submitted]) := by rw [hat]; rfl
  have hlife := h.life_held hheld
  -- Turned down for one reason or the other.
  have hreject : Consistent workers (entries ++ record task [.rejected])
      (state.goto thread (.submitDestroy task)) :=
    h.note (.submitDestroy task) hat rfl rfl rfl rfl (cons_ne_nil _ _) rfl rfl rfl
  unfold Pool.submitSection at hsec
  split at hsec
  · split at hsec
    · cases hsec
      exact hreject
    cases hsec
    have hsame : Consistent workers entries (state.goto thread (.submitLock task deadline)) :=
      h.quiet hat rfl rfl rfl
    rw [show record task ([] : List Kind) = [] from rfl, append_nil]
    exact hsame
  · rename_i hroom
    split at hsec
    · cases hsec
      exact hreject
    rename_i haccepting
    cases hsec
    have hfree : state.pool.count < state.pool.capacity :=
      Int.not_le.mp (fun hfull => hroom ⟨haccepting, hfull⟩)
    obtain ⟨hin, hqueue⟩ := h.queue.append hfree task
    refine h.goOn hat rfl rfl ?_ hqueue
      (h.accounts.note (hlife ▸ cons_ne_nil _ _) (by rw [hlife]; rfl)) rfl
    unfold Books
    rw [hin]
    exact h.books.enqueue hheld rfl

theorem Consistent.workerSection {thread : Thread} {more : List (Task × Kind)}
    {pool : WorkerPoolI64} {pc : Pc}
    (hat : state.threads thread = .workerLock)
    (hsec : workerSection state.pool = (more, pool, pc)) :
    Consistent workers (entries ++ more) { state.goto thread pc with pool } := by
  unfold Pool.workerSection at hsec
  split at hsec
  · cases hsec
    rw [append_nil]
    exact h.quiet hat rfl rfl rfl
  rename_i hwait
  split at hsec
  · cases hsec
    rw [append_nil]
    exact h.quiet hat rfl rfl rfl
  rename_i hexit
  cases hsec
  have hcount := h.queue.count_eq
  have hne : state.pool.count ≠ 0 := by
    intro hzero
    rcases Decidable.em (state.pool.stopping = 0) with hrunning | hstopping
    · exact hwait ⟨hzero, hrunning⟩
    · exact hexit ⟨hzero, hstopping⟩
  have hsome : 0 < state.pool.count := by omega
  obtain ⟨hfront, hqueue⟩ := h.queue.take hsome
  have hlife := h.books.life_front hfront
  have hmem : thread ∈ workers := h.hired thread (by rw [hat]; rfl)
  have haccounts := @Accounts.note _ _ _ (take state.pool).1 h.accounts
    (by rw [hlife]; exact cons_ne_nil _ _) [.dequeued] (by rw [hlife]; rfl)
  refine h.move hat rfl ?_ ⟨hqueue.stream, hqueue.mask_eq, hqueue.count_eq⟩
    haccounts ?_
  · have hbooks := h.books
    unfold Books at hbooks ⊢
    rw [hfront] at hbooks
    exact hbooks.dequeue (by simp only [comp_apply, hat]; rfl) [.dequeued]
  · have hfew := h.few
    have hle := @crew_le _ workers state.threads
    have hactive := h.active_eq
    show Word.wrap (state.pool.active + 1) = _
    rw [crew_start h.nodup hmem (by rw [hat]; rfl) rfl,
      Word.wrap_of_range (by omega) (by omega)]
    omega

theorem Consistent.shutdownSection {thread : Thread} {cancelPending : Bool} {pool : WorkerPoolI64}
    {results : Nat → PoolTaskResultI64}
    (hat : state.threads thread = .shutdownLock cancelPending)
    (hsec : shutdownSection state.pool state.results cancelPending = (more, pool, results)) :
    Consistent workers (entries ++ more) { state.goto thread .idle with pool, results } := by
  have hclosed : Queue entries { state.pool with accepting := 0 } :=
    ⟨h.queue.stream, h.queue.mask_eq, h.queue.count_eq⟩
  unfold Pool.shutdownSection at hsec
  cases cancelPending with
  | false =>
    cases hsec
    rw [append_nil]
    exact h.goOn hat rfl rfl (h.books_same hat rfl)
      ⟨h.queue.stream, h.queue.mask_eq, h.queue.count_eq⟩ h.accounts rfl
  | true =>
    simp only [if_true] at hsec
    rcases hsweep : sweep state.pool.count.toNat { state.pool with accepting := 0 }
      state.results with ⟨swept, pool', results'⟩
    obtain ⟨hbooks, hqueue, haccounts⟩ := sweep_keeps _ (h.books_same hat rfl) hclosed h.accounts
      hsweep
    obtain ⟨_, hactive, _⟩ := sweep_frame _ hsweep
    rw [hsweep] at hsec
    cases hsec
    exact h.goOn hat rfl rfl hbooks ⟨hqueue.stream, hqueue.mask_eq, hqueue.count_eq⟩ haccounts
      hactive

/-- A task in somebody's hands is finished, by its submitter or by a worker. -/
theorem Consistent.finish {thread : Thread} {old pc : Pc} {task : Task} {kinds : List Kind}
    {status value : Int} {left : Bool} {results : Nat → PoolTaskResultI64}
    (hat : state.threads thread = old)
    (hheld : hold old = some (task, kinds)) (hne : kinds ≠ [])
    (hopen : outcome kinds = 0) (hcomplete : Complete (kinds ++ [.finished status]))
    (hworks : worksAs pc = worksAs old) (hhold : hold pc = none)
    (hrunning : running pc = running old)
    (hfinish : resultFinish state.results task.result status value = (left, results)) :
    Consistent workers (entries ++ record task (finished left status))
      { state.goto thread pc with results } := by
  rw [← hat] at hheld
  have hlife := h.life_held hheld
  obtain ⟨results', hleft, haccounts⟩ := h.accounts.finish (hlife ▸ hne)
    (hlife ▸ hopen) status value
  rw [hleft] at hfinish
  cases hfinish
  refine h.goOn hat hworks hrunning ?_ (h.queue.note rfl rfl) haccounts rfl
  unfold Books
  rw [hhold, inQueue_note entries rfl rfl]
  exact h.books.release hheld hcomplete

theorem Consistent.step (hstep : Step state action next) :
    Consistent workers (entries ++ action.entries) next := by
  cases hstep with
  | submit callable timeout now hat _ _ =>
    have hnew := h.accounts.life_new callable
    refine h.goOn hat rfl rfl ?_ (h.queue.note rfl rfl) (h.accounts.create callable) rfl
    unfold Books
    rw [Action.entries, inQueue_note entries rfl rfl]
    exact h.books.create (by rw [comp_apply, hat]; rfl) hnew (cons_ne_nil _ _)
      (fun other task => hold_ne_nil _ task) [.submitted]
  | submitNull hat =>
    rw [Action.entries, append_nil]
    exact h.goOn hat rfl rfl (h.books_same hat rfl) h.queue h.accounts.allocate rfl
  | submitSection now hat hsec => exact h.submitSection hat hsec
  | submitDestroy hat =>
    rw [Action.entries]
    exact h.note (.submitFinish _) hat rfl rfl rfl rfl (cons_ne_nil _ _) rfl rfl rfl
  | submitFinish hat hfinish =>
    exact h.finish hat rfl (cons_ne_nil _ _) rfl (.inl rfl) rfl rfl rfl hfinish
  | waitIdle timeout now hat _ =>
    rw [Action.entries, append_nil]
    exact h.quiet hat rfl rfl rfl
  | waitIdleAgain now hat _ =>
    rw [Action.entries, append_nil]
    exact h
  | waitIdleReturn now hat _ =>
    rw [Action.entries, append_nil]
    exact h.quiet hat rfl rfl rfl
  | shutdown cancelPending hat =>
    rw [Action.entries, append_nil]
    exact h.quiet hat rfl rfl rfl
  | shutdownSection hat hsec => exact h.shutdownSection hat hsec
  | workerSection hat hsec => exact h.workerSection hat hsec
  | workerInvoke value hat =>
    rw [Action.entries]
    exact h.note (.workerFinish _ value) hat rfl rfl rfl rfl (cons_ne_nil _ _) rfl rfl rfl
  | workerFinish hat hfinish =>
    exact h.finish hat rfl (cons_ne_nil _ _) rfl (.inr (.inl rfl)) rfl rfl rfl hfinish
  | workerRelease hat =>
    rename_i thread
    rw [Action.entries, append_nil]
    refine h.move hat rfl (h.books_same hat rfl)
      ⟨h.queue.stream, h.queue.mask_eq, h.queue.count_eq⟩ h.accounts ?_
    have hstop := @crew_stop _ _ workers state.threads thread .workerLock h.nodup
      (h.hired thread (by rw [hat]; rfl)) (by rw [hat]; rfl) rfl
    have hfew := h.few
    have hle := @crew_le _ workers state.threads
    have hactive := h.active_eq
    show Word.wrap (state.pool.active - 1) = _
    rw [Word.wrap_of_range (by omega) (by omega)]
    omega

end

/-! ## Shutdown -/

theorem submitSection_frame {pool : WorkerPoolI64} {task : Task} {deadline now : Int} {pc : Pc}
    (hsec : Pool.submitSection pool task deadline now = (kinds, pool', pc))
    (hclosed : pool.accepting = 0) :
    pool'.accepting = 0 ∧ tasksOf .queued (record task kinds) = [] := by
  unfold Pool.submitSection at hsec
  rw [if_neg (fun hfull => hfull.1 hclosed), if_pos hclosed] at hsec
  cases hsec
  exact ⟨hclosed, rfl⟩

theorem workerSection_frame {pool : WorkerPoolI64} {pc : Pc}
    (hsec : Pool.workerSection pool = (more, pool', pc)) :
    pool'.accepting = pool.accepting ∧ tasksOf .queued more = [] := by
  unfold Pool.workerSection at hsec
  split at hsec
  · cases hsec
    exact ⟨rfl, rfl⟩
  split at hsec
  · cases hsec
    exact ⟨rfl, rfl⟩
  · cases hsec
    exact ⟨rfl, rfl⟩

theorem shutdownSection_frame {pool : WorkerPoolI64} {cancelPending : Bool}
    {results results' : Nat → PoolTaskResultI64}
    (hsec : Pool.shutdownSection pool results cancelPending = (more, pool', results')) :
    pool'.accepting = 0 ∧ tasksOf .queued more = [] := by
  unfold Pool.shutdownSection at hsec
  cases cancelPending with
  | false =>
    cases hsec
    exact ⟨rfl, rfl⟩
  | true =>
    simp only [if_true] at hsec
    rcases hsweep : sweep pool.count.toNat { pool with accepting := 0 } results with
      ⟨swept, pool'', results''⟩
    obtain ⟨hnone, _, haccepting⟩ := sweep_frame _ hsweep
    rw [hsweep] at hsec
    cases hsec
    exact ⟨haccepting, hnone⟩

/-- A pool that accepts no tasks queues none and goes on accepting none. -/
theorem closed_step (hclosed : state.pool.accepting = 0) (hstep : Step state action next) :
    next.pool.accepting = 0 ∧ tasksOf .queued action.entries = [] := by
  cases hstep with
  | submitSection _ _ hsec => exact submitSection_frame hsec hclosed
  | submitFinish _ _ =>
    rename_i left _ _ _
    exact ⟨hclosed, by cases left <;> rfl⟩
  | shutdownSection _ hsec => exact shutdownSection_frame hsec
  | workerSection _ hsec =>
    obtain ⟨haccepting, hnone⟩ := workerSection_frame hsec
    exact ⟨haccepting.trans hclosed, hnone⟩
  | workerFinish _ _ =>
    rename_i left _ _ _
    exact ⟨hclosed, by cases left <;> rfl⟩
  | _ => exact ⟨hclosed, rfl⟩

theorem shutdown_step (hstep : Step state (.shutdown more) next) : next.pool.accepting = 0 := by
  cases hstep with
  | shutdownSection _ hsec => exact (shutdownSection_frame hsec).1

/-- A pool that is stopping accepts nothing, and a worker only leaves one without tasks. -/
structure Retired (state : State Thread) : Prop where
  stopped : state.pool.stopping ≠ 0 → state.pool.accepting = 0
  exited : ∀ thread, state.threads thread = .workerExited →
    state.pool.stopping ≠ 0 ∧ state.pool.count = 0

theorem Retired.move (h : Retired state) {thread : Thread} {pc : Pc} {pool : WorkerPoolI64}
    {results : Nat → PoolTaskResultI64} {created : Nat}
    (hstopped : pool.stopping ≠ 0 → pool.accepting = 0)
    (hkept : state.pool.stopping ≠ 0 ∧ state.pool.count = 0 →
      pool.stopping ≠ 0 ∧ pool.count = 0)
    (hpc : pc = .workerExited → pool.stopping ≠ 0 ∧ pool.count = 0) :
    Retired { state.goto thread pc with pool, results, created } := by
  refine ⟨hstopped, fun other hother => ?_⟩
  simp only [State.goto] at hother
  by_cases heq : other = thread
  · rw [heq, update_self] at hother
    exact hpc hother
  · rw [update_of_ne heq] at hother
    exact hkept (h.exited other hother)

theorem shutdownSection_empty {pool : WorkerPoolI64} {cancelPending : Bool}
    {results results' : Nat → PoolTaskResultI64}
    (hsec : Pool.shutdownSection pool results cancelPending = (more, pool', results')) :
    pool'.stopping = 1 ∧ (pool.count = 0 → pool'.count = 0) := by
  unfold Pool.shutdownSection at hsec
  cases cancelPending with
  | false =>
    cases hsec
    exact ⟨rfl, id⟩
  | true =>
    cases hsec
    refine ⟨rfl, fun hcount => ?_⟩
    simp only [hcount]
    rfl

theorem Retired.step (h : Retired state) (hstep : Step state action next) : Retired next := by
  cases hstep with
  | submitSection now hat hsec =>
    unfold Pool.submitSection at hsec
    split at hsec
    · split at hsec
      · cases hsec
        exact h.move h.stopped id nofun
      · cases hsec
        exact h.move h.stopped id nofun
    split at hsec
    · cases hsec
      exact h.move h.stopped id nofun
    · -- a task is only queued while the pool accepts
      rename_i haccepting
      cases hsec
      exact h.move h.stopped (fun hdone => absurd (h.stopped hdone.1) haccepting) nofun
  | shutdownSection hat hsec =>
    obtain ⟨hstopping, hempty⟩ := shutdownSection_empty hsec
    have hone : (1 : Int) ≠ 0 := by decide
    exact h.move (fun _ => (shutdownSection_frame hsec).1)
      (fun hdone => ⟨hstopping ▸ hone, hempty hdone.2⟩) nofun
  | workerSection hat hsec =>
    unfold Pool.workerSection at hsec
    split at hsec
    · cases hsec
      exact h.move h.stopped id nofun
    split at hsec
    · rename_i hexit
      cases hsec
      exact h.move h.stopped id fun _ => ⟨hexit.2, hexit.1⟩
    · rename_i hwait hexit
      cases hsec
      exact h.move h.stopped (fun hdone => absurd ⟨hdone.2, hdone.1⟩ hexit) nofun
  | waitIdleAgain => exact h
  | _ => exact h.move h.stopped id nofun

/-! ## Runs -/

variable {actions : List Action} {requested : Int}

theorem history_snoc (actions : List Action) (action : Action) :
    history (actions ++ [action]) = history actions ++ action.entries := by
  simp [history]

theorem initial_consistent (h : Initial workers requested state) :
    Consistent workers [] state := by
  obtain ⟨hnodup, ⟨queue, hcreate, hlen⟩, hthreads⟩ := h
  have hhold : ∀ thread, hold (state.threads thread) = none := by
    intro thread
    rw [hthreads]
    split <;> rfl
  unfold create at hcreate
  simp only at hcreate
  split at hcreate
  · cases hcreate
  rename_i hvalid
  obtain ⟨_, hmany, hcap⟩ : ¬ (workers.length : Int) ≤ 0 ∧ ¬ (workers.length : Int) > 1024 ∧
        ¬ normalizedCapacity 1 288230376151711743 requested = 0 :=
    ⟨fun h => hvalid (.inl h), fun h => hvalid (.inr (.inl h)),
      fun h => hvalid (.inr (.inr h))⟩
  have hpool := (Option.some.inj hcreate).symm
  have hring : Ring.IsCapacity (normalizedCapacity 1 288230376151711743 requested) := by
    rcases @normalizedCapacity_spec 288230376151711743 requested (by decide) 0 (by decide) with
      hzero | ⟨j, _, hj, heq, _⟩
    · exact absurd hzero hcap
    · exact ⟨j, by omega, heq⟩
  rw [hpool] at hlen
  refine ⟨hnodup, by omega, Ledger.start (fun thread => hhold thread), ?_, ?_, ?_, ?_⟩
  · rw [hpool]
    exact ⟨Ring.Stream.start hring hlen, rfl, rfl⟩
  · exact ⟨fun hlife => absurd rfl hlife, fun hlife => absurd rfl hlife,
      fun hlife => absurd rfl hlife⟩
  · rw [hpool]
    have hcrew : crew workers state.threads = 0 := by
      refine countP_eq_zero.mpr (fun worker _ => ?_)
      rw [hthreads]
      split <;> exact Bool.false_ne_true
    rw [hcrew]
    rfl
  · intro thread hworks
    rw [hthreads] at hworks
    split at hworks
    · assumption
    · cases hworks

section

variable (hrun : Run (interleavings workers requested) actions state)

include hrun

theorem run_consistent :
    Consistent workers (history actions) state := by
  refine hrun.invariant (fun actions state => Consistent workers (history actions) state)
    (fun start hstart => initial_consistent hstart) (fun actions state action next h hstep => ?_)
  rw [history_snoc]
  exact h.step hstep

theorem run_retired : Retired state := by
  refine hrun.invariant (fun _ state => Retired state) (fun start hstart => ?_)
    fun actions state action next h hstep => h.step hstep
  obtain ⟨-, ⟨queue, hcreate, -⟩, hthreads⟩ := hstart
  unfold create at hcreate
  simp only at hcreate
  split at hcreate
  · cases hcreate
  have hpool := (Option.some.inj hcreate).symm
  refine ⟨fun hstopping => ?_, fun thread hexited => ?_⟩
  · rw [hpool] at hstopping
    exact absurd rfl hstopping
  rw [hthreads] at hexited
  split at hexited <;> cases hexited

theorem queued_after_shutdown :
    ∀ {before later : List Action} {more : List (Task × Kind)},
      actions = before ++ .shutdown more :: later →
        state.pool.accepting = 0 ∧ tasksOf .queued (history later) = [] := by
  induction hrun with
  | start _ =>
    intro before later more heq
    cases before <;> cases heq
  | next hrun hnext ih =>
    intro before later more heq
    rcases eq_nil_or_concat later with rfl | ⟨front, last, rfl⟩
    · obtain ⟨_, hlast⟩ := append_inj' heq rfl
      cases hlast
      exact ⟨shutdown_step hnext, rfl⟩
    rw [concat_eq_append, ← cons_append, ← append_assoc] at heq
    obtain ⟨hfront, hlast⟩ := append_inj' heq rfl
    cases hlast
    obtain ⟨hclosed, hnone⟩ := ih hfront
    obtain ⟨hstill, hquiet⟩ := closed_step hclosed hnext
    refine ⟨hstill, ?_⟩
    rw [concat_eq_append, history_snoc, tasksOf_append, hnone, hquiet]
    rfl

end

/-! ## Every task -/

/-- The lives of the tasks that are not settled. -/
def unsettled : List (List Kind) :=
  [[.submitted], [.submitted, .rejected], [.submitted, .rejected, .destroyed],
    [.submitted, .queued], [.submitted, .queued, .dequeued],
    [.submitted, .queued, .dequeued, .executed]]

omit [DecidableEq Thread] in
theorem Consistent.life_cases (h : Consistent workers entries state) (task : Task)
    (hlife : life entries task ≠ []) :
    life entries task ∈ unsettled ∨ Complete (life entries task) := by
  rcases Decidable.em (task ∈ inQueue entries) with hwaits | hnot
  · rw [h.books.waits hwaits]
    exact .inl (by decide)
  rcases Classical.em (∃ thread kinds, hold (state.threads thread) = some (task, kinds)) with
    ⟨thread, kinds, hheld⟩ | hnobody
  · rw [h.life_held hheld]
    left
    generalize state.threads thread = pc at hheld
    cases pc <;> cases hheld <;> decide
  · right
    have hrest := @Ledger.rest _ _ _ _ _ _ _ _ _ _ h.books task nofun
      (fun thread kinds hheld => hnobody ⟨thread, kinds, hheld⟩) hnot
    exact hrest.resolve_left hlife

/-- What a life says of the runs of the task, its destruction and its result. -/
structure Once (kinds : List Kind) : Prop where
  submitted : kinds.count .submitted = 1
  settled : kinds.count .executed + kinds.count .destroyed ≤ 1
  finished : kinds.countP Kind.isFinish ≤ 1
  outcome : outcome kinds ≠ 0 ↔ kinds.countP Kind.isFinish = 1
  executed : Pool.outcome kinds = 1 ↔
    kinds.countP Kind.isFinish = 1 ∧ kinds.count .executed = 1

theorem once_of_unsettled (h : kinds ∈ unsettled) : Once kinds := by
  revert kinds
  suffices hall : ∀ kinds ∈ unsettled, kinds.count .submitted = 1 ∧
      kinds.count .executed + kinds.count .destroyed ≤ 1 ∧
      kinds.countP Kind.isFinish ≤ 1 ∧
      (outcome kinds ≠ 0 ↔ kinds.countP Kind.isFinish = 1) ∧
      (outcome kinds = 1 ↔ kinds.countP Kind.isFinish = 1 ∧ kinds.count .executed = 1) by
    intro kinds hmem
    obtain ⟨hsubmitted, hsettled, hfin, houtcome, hexecuted⟩ := hall kinds hmem
    exact ⟨hsubmitted, hsettled, hfin, houtcome, hexecuted⟩
  decide

theorem once_of_complete (h : Complete kinds) :
    Once kinds ∧ kinds.count .executed + kinds.count .destroyed = 1 ∧
      kinds.countP Kind.isFinish = 1 := by
  rcases h with rfl | rfl | rfl
  · exact ⟨⟨by decide, by decide, by decide, by decide, by decide⟩, by decide, by decide⟩
  · exact ⟨⟨by decide, by decide, by decide, by decide, by decide⟩, by decide, by decide⟩
  · exact ⟨⟨by decide, by decide, by decide, by decide, by decide⟩, by decide, by decide⟩

/-- Along every interleaving: a task is run at most once or destroyed at most once, not both, its
result leaves status 0 at most once and with 1 if and only if it was run, and all of this has
happened when nobody has the task any more. Nothing is queued after a shutdown, the words of the
pool count the tasks, `wait_idle_millis` reports an idle pool only when both words are 0, and
nothing is in the queue once a worker has left. -/
theorem exactly_once (hrun : Run (interleavings workers requested) actions state) :
    (∀ task, (task, .submitted) ∈ history actions →
      times .submitted actions task = 1 ∧
      times .executed actions task + times .destroyed actions task ≤ 1 ∧
      finishes actions task ≤ 1 ∧
      ((state.results task.result).status ≠ 0 ↔ finishes actions task = 1) ∧
      ((state.results task.result).status = 1 ↔
        finishes actions task = 1 ∧ times .executed actions task = 1) ∧
      (task ∉ inQueue (history actions) →
        (∀ thread kinds, hold (state.threads thread) ≠ some (task, kinds)) →
        times .executed actions task + times .destroyed actions task = 1 ∧
          finishes actions task = 1)) ∧
    (∀ before later entries, actions = before ++ .shutdown entries :: later →
      ∀ task, (task, .queued) ∉ history later) ∧
    (state.pool.count = (inQueue (history actions)).length ∧
      state.pool.count ≤ state.pool.capacity ∧
      state.pool.active = workers.countP (fun worker => running (state.threads worker))) ∧
    (∀ next, Step state (.waitIdle true) next →
      state.pool.count = 0 ∧ state.pool.active = 0) ∧
    (∀ thread, state.threads thread = .workerExited → inQueue (history actions) = []) := by
  have h := run_consistent hrun
  refine ⟨fun task hsubmitted => ?_, fun before later entries heq task hqueued => ?_,
    ⟨h.queue.count_eq, h.queue.count_le, h.active_eq⟩, fun next hstep => ?_,
    fun thread hexited => ?_⟩
  · have hcount : 0 < (life (history actions) task).count .submitted := by
      rw [count_life]
      exact count_pos_iff.mpr hsubmitted
    have hlife : life (history actions) task ≠ [] := by
      intro hnil
      rw [hnil] at hcount
      exact absurd hcount (by decide)
    have honce : Once (life (history actions) task) := by
      rcases h.life_cases task hlife with hunsettled | hcomplete
      · exact once_of_unsettled hunsettled
      · exact (once_of_complete hcomplete).1
    unfold times finishes
    rw [h.accounts.status hlife, ← count_life, ← count_life, ← count_life]
    refine ⟨honce.submitted, honce.settled, honce.finished, honce.outcome, honce.executed,
      fun hnot hnobody => ?_⟩
    exact (once_of_complete ((h.books.rest nofun hnobody hnot).resolve_left hlife)).2
  · have hnone := (queued_after_shutdown hrun heq).2
    have hmem : task ∈ tasksOf .queued (history later) := mem_filterMap.mpr ⟨_, hqueued, if_pos rfl⟩
    rw [hnone] at hmem
    exact absurd hmem not_mem_nil
  · cases hstep with
    | waitIdleReturn now hat hsec =>
      unfold waitIdleSection at hsec
      split at hsec
      · split at hsec
        · cases hsec
        · cases hsec
      · rename_i hidle
        exact ⟨Decidable.not_not.mp (fun hne => hidle (.inl hne)),
          Decidable.not_not.mp (fun hne => hidle (.inr hne))⟩
  · have hempty := ((run_retired hrun).exited thread hexited).2
    rw [h.queue.count_eq] at hempty
    exact eq_nil_of_length_eq_zero (Int.ofNat_eq_zero.mp hempty)

end

/-- A worker runs the only task while its submitter waits for the pool to be idle. -/
theorem exactly_once_single :
    ∃ (actions : List Action) (state : State Bool),
      Run (interleavings [true] 1) actions state ∧
        (state.results 1).status = 1 ∧ times .executed actions ⟨5, 1⟩ = 1 ∧
        times .destroyed actions ⟨5, 1⟩ = 0 ∧ finishes actions ⟨5, 1⟩ = 1 := by
  have h0 : Run (interleavings [true] 1) []
      (⟨⟨[⟨0, 0⟩], 1, 0, 0, 0, 0, 0, 1, 0⟩, fun _ => ⟨0, 0⟩, 0,
        fun thread => if thread ∈ [true] then .workerLock else .idle⟩ : State Bool) :=
    Run.start ⟨by decide, ⟨[⟨0, 0⟩], rfl, rfl⟩, fun _ => rfl⟩
  have h1 := Run.next h0 (@Step.submit _ _ _ false 5 0 0 rfl (by decide) (by decide))
  have h2 := Run.next h1 (@Step.submitSection _ _ _ false _ _ _ _ _ 0 rfl rfl)
  have h3 := Run.next h2 (@Step.waitIdle _ _ _ false 1 0 rfl (by decide))
  have h4 := Run.next h3 (@Step.workerSection _ _ _ true _ _ _ rfl rfl)
  have h5 := Run.next h4 (@Step.waitIdleAgain _ _ _ false _ 0 rfl rfl)
  have h6 := Run.next h5 (@Step.workerInvoke _ _ _ true _ 9 rfl)
  have h7 := Run.next h6 (@Step.workerFinish _ _ _ true _ _ _ _ rfl rfl)
  obtain ⟨htasks, _⟩ := exactly_once h7
  obtain ⟨_, _, _, _, _, hsettled⟩ := htasks ⟨5, 1⟩ (by decide)
  obtain ⟨_, hfinishes⟩ := hsettled (by decide) (by
    intro thread kinds
    cases thread <;> exact nofun)
  exact ⟨_, _, h7, by decide, by decide, by decide, hfinishes⟩

end Raz.Thread.Pool
