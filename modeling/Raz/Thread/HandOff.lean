import Raz.Lib.Transition

/-!
# The hand-off of a result

A task's result has a mutex, a condition and four fields. One thread completes or cancels the
task through `result_finish`; the owner waits for it and calls `task_destroy`. The modules
`std::thread::pool` and `std::thread::scheduler` have a copy each of this hand-off. `task_destroy`
of the pool calls `task_wait` and loads the handles again; that of the scheduler has a loop of
its own.

`result_finish` releases the mutex before it notifies, so that the owner may destroy the
condition in between.

Results:
1. `no_use_after_destroy`: the runs in which the owner never destroys the condition between the
   release and the notification are those in which nothing destroyed is used.
2. `use_after_destroy`: a run in which the notification comes too late.
-/

namespace Raz.Thread.HandOff

open Transition Run

/-! ## The program -/

inductive Variant
  | pool
  | scheduler
  deriving DecidableEq, Repr

inductive Party
  | finisher
  | owner
  deriving DecidableEq, Repr

/-- What `task_destroy` destroys or frees. -/
inductive Resource
  | fields
  | mutex
  | condition
  deriving DecidableEq, Repr

/-- The result, with the holder of its mutex and what of it still exists. -/
structure Shared where
  holder : Option Party
  status : Int
  value : Int
  alive : Resource → Bool

def Shared.lock (shared : Shared) (party : Party) : Shared := { shared with holder := some party }

def Shared.unlock (shared : Shared) : Shared := { shared with holder := none }

def Shared.destroy (shared : Shared) (resource : Resource) : Shared :=
  { shared with alive := fun other => if other = resource then false else shared.alive other }

/-- The next access of `result_finish`. -/
inductive Finisher
  | idle
  | loadMutex (status value : Int)
  | loadCondition (status value : Int)
  | lock (status value : Int)
  | test (status value : Int)
  | storeValue (status value : Int)
  | storeStatus (status : Int)
  | unlock (left : Bool)
  | notify
  | done
  deriving DecidableEq, Repr

/-- What the owner has called. -/
inductive Mode
  | wait
  | waitMillis
  | destroy
  deriving DecidableEq, Repr

/-- The next access of the owner. `gone` has set `task.state` to 0. -/
inductive Owner
  | idle
  | loadMutex (mode : Mode)
  | loadCondition (mode : Mode)
  | lock (mode : Mode)
  | test (mode : Mode)
  | sleep (mode : Mode)
  | asleep (mode : Mode)
  | loadStatus (mode : Mode)
  | loadValue (mode : Mode)
  | unlock (mode : Mode)
  | unlockExpired
  | reloadMutex
  | reloadCondition
  | destroyCondition
  | destroyMutex
  | dealloc
  | gone
  deriving DecidableEq, Repr

/-- The next access of `result_finish`, with the resources it uses. A lock that is taken is tried
again. -/
def finish (shared : Shared) : Finisher → List Resource × Shared × Finisher
  | .idle => ([], shared, .idle)
  | .loadMutex status value => ([.fields], shared, .loadCondition status value)
  | .loadCondition status value => ([.fields], shared, .lock status value)
  | .lock status value =>
      if shared.holder = none then ([.mutex], shared.lock .finisher, .test status value)
      else ([.mutex], shared, .lock status value)
  | .test status value =>
      ([.fields], shared, if shared.status ≠ 0 then .unlock false else .storeValue status value)
  | .storeValue status value => ([.fields], { shared with value }, .storeStatus status)
  | .storeStatus status => ([.fields], { shared with status }, .unlock true)
  | .unlock left => ([.mutex], shared.unlock, if left then .notify else .done)
  | .notify => ([.condition], shared, .done)
  | .done => ([], shared, .done)

/-- Where the owner goes when the result has left status 0. -/
def afterTest : Variant → Mode → Owner
  | .scheduler, .destroy => .unlock .destroy
  | _, mode => .loadStatus mode

/-- Where it goes after it has released the mutex. -/
def afterUnlock : Variant → Mode → Owner
  | .pool, .destroy => .reloadMutex
  | .scheduler, .destroy => .destroyCondition
  | _, _ => .idle

/-- The next access of the owner. A timed wait may find its time over. -/
def own (variant : Variant) (expired : Bool) (shared : Shared) :
    Owner → List Resource × Shared × Owner
  | .idle => ([], shared, .idle)
  | .loadMutex mode => ([.fields], shared, .loadCondition mode)
  | .loadCondition mode => ([.fields], shared, .lock mode)
  | .lock mode =>
      if shared.holder = none then ([.mutex], shared.lock .owner, .test mode)
      else ([.mutex], shared, .lock mode)
  | .test mode =>
      ([.fields], shared,
        if shared.status = 0 then
          if mode = .waitMillis ∧ expired then .unlockExpired else .sleep mode
        else afterTest variant mode)
  | .sleep mode => ([.condition, .mutex], shared.unlock, .asleep mode)
  | .asleep mode =>
      if shared.holder = none then ([.condition, .mutex], shared.lock .owner, .test mode)
      else ([.condition, .mutex], shared, .asleep mode)
  | .loadStatus mode => ([.fields], shared, .loadValue mode)
  | .loadValue mode => ([.fields], shared, .unlock mode)
  | .unlock mode => ([.mutex], shared.unlock, afterUnlock variant mode)
  | .unlockExpired => ([.mutex], shared.unlock, .idle)
  | .reloadMutex => ([.fields], shared, .reloadCondition)
  | .reloadCondition => ([.fields], shared, .destroyCondition)
  | .destroyCondition => ([.condition], shared.destroy .condition, .destroyMutex)
  | .destroyMutex => ([.mutex], shared.destroy .mutex, .dealloc)
  | .dealloc => ([.fields], shared.destroy .fields, .gone)
  | .gone => ([], shared, .gone)

structure State where
  shared : Shared
  finisher : Finisher
  owner : Owner

/-- A step with the party that takes it and the resources it uses. The pool and the scheduler
finish a result with status 1 or -1. -/
inductive Step (variant : Variant) : State → Party × List Resource → State → Prop
  | resultFinish {state : State} (status value : Int) :
      state.finisher = .idle → status = 1 ∨ status = -1 →
      Step variant state (.finisher, []) { state with finisher := .loadMutex status value }
  | finish {state : State} {used : List Resource} {shared : Shared} {pc : Finisher} :
      finish state.shared state.finisher = (used, shared, pc) →
      Step variant state (.finisher, used) { state with shared, finisher := pc }
  | call {state : State} (mode : Mode) :
      state.owner = .idle → (mode = .wait → variant = .pool) →
      Step variant state (.owner, []) { state with owner := .loadMutex mode }
  | own {state : State} {used : List Resource} {shared : Shared} {pc : Owner}
      (expired : Bool) :
      own variant expired state.shared state.owner = (used, shared, pc) →
      Step variant state (.owner, used) { state with shared, owner := pc }

/-- A result that was just created. -/
def Initial (state : State) : Prop :=
  state = ⟨⟨none, 0, 0, fun _ => true⟩, .idle, .idle⟩

def interleavings (variant : Variant) : System State (Party × List Resource) :=
  ⟨Initial, Step variant⟩

/-- The step destroys the condition of a result that is released and not yet notified. -/
def Overtakes (state after : State) : Prop :=
  state.finisher = .notify ∧ state.owner = .destroyCondition ∧ after.owner = .destroyMutex

/-- Every next step uses only what exists. -/
def Safe (variant : Variant) (state : State) : Prop :=
  ∀ party used after, Step variant state (party, used) after →
    ∀ resource ∈ used, state.shared.alive resource = true

/-! ## The invariant -/

/-- Holds the mutex. -/
def Finisher.locks : Finisher → Bool
  | .test _ _ | .storeValue _ _ | .storeStatus _ | .unlock _ => true
  | _ => false

/-- Has stored the status. -/
def Finisher.stored : Finisher → Bool
  | .unlock true | .notify | .done => true
  | _ => false

/-- The status it is about to store. -/
def Finisher.status : Finisher → Option Int
  | .loadMutex status _ | .loadCondition status _ | .lock status _ | .test status _
  | .storeValue status _ | .storeStatus status => some status
  | _ => none

/-- Holds the mutex. -/
def Owner.locks : Owner → Bool
  | .test _ | .sleep _ | .loadStatus _ | .loadValue _ | .unlock _ | .unlockExpired => true
  | _ => false

/-- Has seen the result leave status 0 and not yet returned. -/
def Owner.seen : Owner → Bool
  | .loadStatus _ | .loadValue _ | .unlock _ | .reloadMutex | .reloadCondition
  | .destroyCondition | .destroyMutex | .dealloc | .gone => true
  | _ => false

/-- What `task_destroy` has left. -/
def Owner.left : Owner → Resource → Bool
  | .destroyMutex, .condition => false
  | .dealloc, .condition | .dealloc, .mutex => false
  | .gone, _ => false
  | _, _ => true

structure Consistent (state : State) : Prop where
  finisher_locks : state.shared.holder = some .finisher ↔ state.finisher.locks = true
  owner_locks : state.shared.holder = some .owner ↔ state.owner.locks = true
  stored : state.shared.status = 0 ↔ state.finisher.stored = false
  proper : ∀ status, state.finisher.status = some status → status ≠ 0
  finished : state.finisher ≠ .unlock false
  seen : state.owner.seen = true → state.finisher = .notify ∨ state.finisher = .done
  alive : ∀ resource, state.shared.alive resource = state.owner.left resource
  notified : state.shared.alive .condition = false → state.finisher = .done

variable {variant : Variant} {state : State} {used : List Resource} {shared : Shared}

/-! ## The finisher -/

section

variable (h : Consistent state)

include h

theorem Consistent.finisher_goes (pc : Finisher)
    (hlocks : pc.locks = state.finisher.locks) (hstored : pc.stored = state.finisher.stored)
    (hproper : ∀ status, pc.status = some status → status ≠ 0) (hfin : pc ≠ .unlock false)
    (hend : state.finisher = .notify ∨ state.finisher = .done → pc = .done) :
    Consistent { state with finisher := pc } where
  finisher_locks := by
    rw [hlocks]
    exact h.finisher_locks
  owner_locks := h.owner_locks
  stored := by
    rw [hstored]
    exact h.stored
  proper := hproper
  finished := hfin
  seen := fun hseen => .inr (hend (h.seen hseen))
  alive := h.alive
  notified := fun hdead => hend (.inr (h.notified hdead))

/-- While the finisher has not stored the status the owner has seen nothing and the result is
whole. -/
theorem Consistent.unseen (hne : state.finisher ≠ .notify)
    (hdone : state.finisher ≠ .done) :
    state.owner.seen = false ∧ state.shared.alive .condition = true := by
  refine ⟨Bool.eq_false_iff.mpr (fun hseen => ?_), ?_⟩
  · rcases h.seen hseen with hnotify | hdone'
    · exact hne hnotify
    · exact hdone hdone'
  · cases hcondition : state.shared.alive .condition with
    | true => rfl
    | false => exact absurd (h.notified hcondition) hdone

theorem Consistent.owner_waits (hlocks : state.finisher.locks = true) :
    state.owner.locks = false := by
  refine Bool.eq_false_iff.mpr (fun howner => ?_)
  have hfinisher := h.finisher_locks.mpr hlocks
  rw [h.owner_locks.mpr howner] at hfinisher
  cases hfinisher

theorem Consistent.finish {pc : Finisher}
    (hstep : finish state.shared state.finisher = (used, shared, pc)) :
    Consistent { state with shared, finisher := pc } := by
  obtain ⟨before, finisher, owner⟩ := state
  have hproper := h.proper
  cases finisher with
  | idle =>
    cases hstep
    exact h.finisher_goes .idle rfl rfl nofun nofun nofun
  | loadMutex status value =>
    cases hstep
    exact h.finisher_goes _ rfl rfl hproper nofun nofun
  | loadCondition status value =>
    cases hstep
    exact h.finisher_goes _ rfl rfl hproper nofun nofun
  | lock status value =>
    simp only [HandOff.finish] at hstep
    split at hstep
    · rename_i hfree
      cases hstep
      obtain ⟨hunseen, hcondition⟩ := h.unseen nofun nofun
      have howner := h.owner_locks
      rw [hfree] at howner
      refine ⟨⟨fun _ => rfl, fun _ => rfl⟩, ⟨nofun, fun hlocks => ?_⟩, ?_, hproper, nofun,
        fun hseen => ?_, h.alive, fun hdead => ?_⟩
      · exact absurd (howner.mpr hlocks) nofun
      · exact h.stored
      · exact absurd hseen (by rw [hunseen]; exact Bool.false_ne_true)
      · exact absurd (hcondition.symm.trans hdead) nofun
    · cases hstep
      exact h.finisher_goes _ rfl rfl hproper nofun nofun
  | test status value =>
    -- Nobody else stores the status.
    have hzero := h.stored.mpr rfl
    simp only [HandOff.finish] at hstep
    rw [if_neg (fun hne => hne hzero)] at hstep
    cases hstep
    exact h.finisher_goes _ rfl rfl hproper nofun nofun
  | storeValue status value =>
    cases hstep
    have hnext := h.finisher_goes (.storeStatus status) rfl rfl hproper nofun nofun
    exact ⟨hnext.finisher_locks, hnext.owner_locks, hnext.stored, hnext.proper, hnext.finished,
      hnext.seen, hnext.alive, hnext.notified⟩
  | storeStatus status =>
    cases hstep
    obtain ⟨hunseen, hcondition⟩ := h.unseen nofun nofun
    refine ⟨h.finisher_locks, h.owner_locks, ⟨fun hzero => ?_, nofun⟩, nofun, nofun,
      fun hseen => ?_, h.alive, fun hdead => ?_⟩
    · exact absurd hzero (hproper status rfl)
    · exact absurd hseen (by rw [hunseen]; exact Bool.false_ne_true)
    · exact absurd (hcondition.symm.trans hdead) nofun
  | unlock left =>
    cases hstep
    have hleft : left = true := by
      cases left with
      | true => rfl
      | false => exact absurd rfl h.finished
    subst hleft
    obtain ⟨hunseen, hcondition⟩ := h.unseen nofun nofun
    have howner := h.owner_waits rfl
    refine ⟨⟨nofun, nofun⟩, ⟨nofun, fun hlocks => ?_⟩, h.stored, nofun, nofun, fun _ => .inl rfl,
      h.alive, fun hdead => ?_⟩
    · exact absurd hlocks (by rw [howner]; exact Bool.false_ne_true)
    · exact absurd (hcondition.symm.trans hdead) nofun
  | notify =>
    cases hstep
    exact h.finisher_goes _ rfl rfl nofun nofun (fun _ => rfl)
  | done =>
    cases hstep
    exact h.finisher_goes _ rfl rfl nofun nofun (fun _ => rfl)

end

/-! ## The owner -/

section

variable (h : Consistent state)

include h

theorem Consistent.owner_goes (pc : Owner) (hlocks : pc.locks = state.owner.locks)
    (hseen : pc.seen = true → state.finisher = .notify ∨ state.finisher = .done)
    (hleft : pc.left = state.owner.left) : Consistent { state with owner := pc } where
  finisher_locks := h.finisher_locks
  owner_locks := by
    rw [hlocks]
    exact h.owner_locks
  stored := h.stored
  proper := h.proper
  finished := h.finished
  seen := hseen
  alive := by
    intro resource
    rw [hleft]
    exact h.alive resource
  notified := h.notified

theorem Consistent.owner_locks_mutex (pc : Owner) (hfree : state.shared.holder = none)
    (hlocks : pc.locks = true) (hseen : pc.seen = false) (hleft : pc.left = state.owner.left) :
    Consistent { state with shared := state.shared.lock .owner, owner := pc } where
  finisher_locks := by
    have hfinisher := h.finisher_locks
    rw [hfree] at hfinisher
    exact ⟨nofun, fun hholds => absurd (hfinisher.mpr hholds) nofun⟩
  owner_locks := ⟨fun _ => hlocks, fun _ => rfl⟩
  stored := h.stored
  proper := h.proper
  finished := h.finished
  seen := fun hsees => by rw [hseen] at hsees; cases hsees
  alive := by
    intro resource
    rw [hleft]
    exact h.alive resource
  notified := h.notified

theorem Consistent.owner_unlocks (pc : Owner) (hholds : state.owner.locks = true)
    (hlocks : pc.locks = false) (hseen : pc.seen = true → state.owner.seen = true)
    (hleft : pc.left = state.owner.left) :
    Consistent { state with shared := state.shared.unlock, owner := pc } where
  finisher_locks := by
    refine ⟨nofun, fun hfinisher => ?_⟩
    rw [h.owner_waits hfinisher] at hholds
    cases hholds
  owner_locks := ⟨nofun, fun howner => by rw [hlocks] at howner; cases howner⟩
  stored := h.stored
  proper := h.proper
  finished := h.finished
  seen := fun hsees => h.seen (hseen hsees)
  alive := by
    intro resource
    rw [hleft]
    exact h.alive resource
  notified := h.notified

/-- A finisher that has stored the status and lets the owner have the mutex is past its
release. -/
theorem Consistent.seen_of_status (hholds : state.owner.locks = true)
    (hstatus : state.shared.status ≠ 0) :
    state.finisher = .notify ∨ state.finisher = .done := by
  have hstored : state.finisher.stored ≠ false := fun hfalse => hstatus (h.stored.mpr hfalse)
  have hfree : state.finisher.locks ≠ true := by
    intro hlocks
    rw [h.owner_waits hlocks] at hholds
    cases hholds
  generalize state.finisher = pc at hstored hfree
  cases pc with
  | notify => exact .inl rfl
  | done => exact .inr rfl
  | unlock left => exact absurd rfl hfree
  | _ => exact absurd rfl hstored

theorem Consistent.owner_destroys (pc : Owner) (resource : Resource)
    (hdone : state.finisher = .done) (hlocks : pc.locks = state.owner.locks)
    (hleft : ∀ other, pc.left other = if other = resource then false else state.owner.left other) :
    Consistent { state with shared := state.shared.destroy resource, owner := pc } where
  finisher_locks := h.finisher_locks
  owner_locks := by
    rw [hlocks]
    exact h.owner_locks
  stored := h.stored
  proper := h.proper
  finished := h.finished
  seen := fun _ => .inr hdone
  alive := by
    intro other
    simp only [Shared.destroy]
    rw [hleft, h.alive]
  notified := fun _ => hdone

theorem Consistent.own {pc : Owner} {expired : Bool}
    (hallowed : state.owner = .destroyCondition → state.finisher ≠ .notify)
    (hstep : own variant expired state.shared state.owner = (used, shared, pc)) :
    Consistent { state with shared, owner := pc } := by
  obtain ⟨before, finisher, owner⟩ := state
  cases owner with
  | idle =>
    cases hstep
    exact h.owner_goes _ rfl nofun rfl
  | loadMutex mode =>
    cases hstep
    exact h.owner_goes _ rfl nofun rfl
  | loadCondition mode =>
    cases hstep
    exact h.owner_goes _ rfl nofun rfl
  | lock mode =>
    simp only [HandOff.own] at hstep
    split at hstep
    · rename_i hfree
      cases hstep
      exact h.owner_locks_mutex _ hfree rfl rfl rfl
    · cases hstep
      exact h.owner_goes _ rfl nofun rfl
  | test mode =>
    simp only [HandOff.own] at hstep
    cases hstep
    split
    · split
      · exact h.owner_goes _ rfl nofun rfl
      · exact h.owner_goes _ rfl nofun rfl
    · rename_i hstatus
      have hseen := h.seen_of_status rfl hstatus
      cases variant <;> cases mode <;> exact h.owner_goes _ rfl (fun _ => hseen) rfl
  | sleep mode =>
    cases hstep
    exact h.owner_unlocks _ rfl rfl nofun rfl
  | asleep mode =>
    simp only [HandOff.own] at hstep
    split at hstep
    · rename_i hfree
      cases hstep
      exact h.owner_locks_mutex _ hfree rfl rfl rfl
    · cases hstep
      exact h.owner_goes _ rfl nofun rfl
  | loadStatus mode =>
    cases hstep
    exact h.owner_goes _ rfl (fun _ => h.seen rfl) rfl
  | loadValue mode =>
    cases hstep
    exact h.owner_goes _ rfl (fun _ => h.seen rfl) rfl
  | unlock mode =>
    cases hstep
    cases variant <;> cases mode <;> exact h.owner_unlocks _ rfl rfl (fun _ => rfl) rfl
  | unlockExpired =>
    cases hstep
    exact h.owner_unlocks _ rfl rfl nofun rfl
  | reloadMutex =>
    cases hstep
    exact h.owner_goes _ rfl (fun _ => h.seen rfl) rfl
  | reloadCondition =>
    cases hstep
    exact h.owner_goes _ rfl (fun _ => h.seen rfl) rfl
  | destroyCondition =>
    cases hstep
    have hdone := (h.seen rfl).resolve_left (hallowed rfl)
    exact h.owner_destroys _ .condition hdone rfl (by intro other; cases other <;> rfl)
  | destroyMutex =>
    cases hstep
    have hdone := h.notified (by rw [h.alive]; rfl)
    exact h.owner_destroys _ .mutex hdone rfl (by intro other; cases other <;> rfl)
  | dealloc =>
    cases hstep
    have hdone := h.notified (by rw [h.alive]; rfl)
    exact h.owner_destroys _ .fields hdone rfl (by intro other; cases other <;> rfl)
  | gone =>
    cases hstep
    exact h.owner_goes _ rfl (fun _ => h.seen rfl) rfl

end

/-! ## Runs -/

theorem initial_consistent (h : Initial state) : Consistent state := by
  rw [show state = _ from h]
  exact ⟨⟨nofun, nofun⟩, ⟨nofun, nofun⟩, ⟨fun _ => rfl, fun _ => rfl⟩, nofun, nofun, nofun,
    fun _ => rfl, nofun⟩

theorem Consistent.step {event : Party × List Resource} {after : State} (h : Consistent state)
    (hstep : Step variant state event after) (hallowed : ¬ Overtakes state after) :
    Consistent after := by
  cases hstep with
  | resultFinish status value hidle hstatus =>
    refine h.finisher_goes _ (by rw [hidle]; rfl) (by rw [hidle]; rfl) ?_ nofun
      (by rw [hidle]; exact nofun)
    rintro _ ⟨⟩
    rcases hstatus with rfl | rfl <;> decide
  | finish hfinish => exact h.finish hfinish
  | call mode hidle _ => exact h.owner_goes _ (by rw [hidle]; rfl) nofun (by rw [hidle]; rfl)
  | own expired hown =>
    refine h.own (fun hdestroy hnotify => hallowed ⟨hnotify, hdestroy, ?_⟩) hown
    rw [hdestroy] at hown
    cases hown
    rfl

theorem left_of_condition {pc : Owner} (h : pc.left .condition = true) (resource : Resource) :
    pc.left resource = true := by
  cases pc with
  | destroyMutex => cases h
  | dealloc => cases h
  | gone => cases h
  | _ => rfl

theorem left_of_own {expired : Bool} {owner pc : Owner}
    (hstep : own variant expired state.shared owner = (used, shared, pc)) :
    ∀ resource ∈ used, owner.left resource = true := by
  intro resource hused
  cases owner with
  | lock mode =>
    simp only [own] at hstep
    split at hstep <;> cases hstep <;> rfl
  | asleep mode =>
    simp only [own] at hstep
    split at hstep <;> cases hstep <;> rfl
  | destroyMutex =>
    cases hstep
    rw [List.mem_singleton.mp hused]
    rfl
  | dealloc =>
    cases hstep
    rw [List.mem_singleton.mp hused]
    rfl
  | gone =>
    cases hstep
    cases hused
  | _ => rfl

theorem Consistent.safe (h : Consistent state) : Safe variant state := by
  intro party used after hstep resource hused
  rw [h.alive]
  cases hstep with
  | resultFinish _ _ _ _ => cases hused
  | finish hfinish =>
    -- Until the finisher is done the owner has not destroyed anything.
    refine left_of_condition ?_ resource
    rw [← h.alive]
    cases hcondition : state.shared.alive .condition with
    | true => rfl
    | false =>
      rw [h.notified hcondition] at hfinish
      cases hfinish
      cases hused
  | call _ _ _ => cases hused
  | own expired hown => exact left_of_own hown resource hused

/-- In every run in which the owner never destroys the condition of a result that is released
and not yet notified, no step locks, unlocks, notifies or reads what is destroyed or freed. Where
it does, the notification that follows uses the destroyed condition. -/
theorem no_use_after_destroy (variant : Variant) : (∀ events state,
      Run ((interleavings variant).restrict (fun state _ after => ¬ Overtakes state after))
        events state → Safe variant state) ∧
    (∀ events state event after, Run (interleavings variant) events state →
      Step variant state event after → Overtakes state after → ¬ Safe variant after) := by
  constructor
  · intro events state hrun
    refine Consistent.safe (hrun.invariant (fun _ state => Consistent state)
      (fun start hstart => initial_consistent hstart) ?_)
    rintro _ middle event after h ⟨hstep, hallowed⟩
    exact h.step hstep hallowed
  · rintro events state event after hrun hstep ⟨hnotify, hdestroy, hdestroyed⟩ hsafe
    have hfinisher : after.finisher = .notify ∧ after.shared.alive .condition = false := by
      cases hstep with
      | resultFinish _ _ hidle _ =>
        rw [hnotify] at hidle
        cases hidle
      | finish _ =>
        rw [hdestroy] at hdestroyed
        cases hdestroyed
      | call _ hidle _ =>
        rw [hdestroy] at hidle
        cases hidle
      | own expired hown =>
        rw [hdestroy] at hown
        cases hown
        exact ⟨hnotify, rfl⟩
    have hdead := hsafe .finisher [.condition] _
      (.finish (by rw [hfinisher.1]; rfl)) .condition (List.mem_singleton_self _)
    rw [hfinisher.2] at hdead
    cases hdead

/-- The owner of a timer is asleep when its result is finished, and destroys it afterwards. -/
theorem no_use_after_destroy_notified :
    ∃ events state, Run (interleavings .scheduler) events state ∧ state.owner = .gone ∧
      Safe .scheduler state := by
  have h0 : Run ((interleavings .scheduler).restrict (fun state _ after =>
      ¬ Overtakes state after)) [] ⟨⟨none, 0, 0, fun _ => true⟩, .idle, .idle⟩ := start rfl
  have h1 := next h0 ⟨.call .destroy rfl nofun, nofun⟩
  have h2 := next h1 ⟨.own false rfl, nofun⟩
  have h3 := next h2 ⟨.own false rfl, nofun⟩
  have h4 := next h3 ⟨.own false rfl, nofun⟩
  have h5 := next h4 ⟨.own false rfl, nofun⟩
  have h6 := next h5 ⟨.own false rfl, nofun⟩
  have h7 := next h6 ⟨.resultFinish 1 9 rfl (.inl rfl), nofun⟩
  have h8 := next h7 ⟨.finish rfl, nofun⟩
  have h9 := next h8 ⟨.finish rfl, nofun⟩
  have h10 := next h9 ⟨.finish rfl, nofun⟩
  have h11 := next h10 ⟨.finish rfl, nofun⟩
  have h12 := next h11 ⟨.finish rfl, nofun⟩
  have h13 := next h12 ⟨.finish rfl, nofun⟩
  have h14 := next h13 ⟨.finish rfl, nofun⟩
  have h15 := next h14 ⟨.finish rfl, nofun⟩
  have h16 := next h15 ⟨.own false rfl, nofun⟩
  have h17 := next h16 ⟨.own false rfl, nofun⟩
  have h18 := next h17 ⟨.own false rfl, nofun⟩
  have h19 := next h18 ⟨.own false rfl, nofun⟩
  have h20 := next h19 ⟨.own false rfl, nofun⟩
  have h21 := next h20 ⟨.own false rfl, nofun⟩
  exact ⟨_, _, h21.of_restrict, rfl, (no_use_after_destroy .scheduler).1 _ _ h21⟩

/-- A step of the finisher, and one of the owner. -/
def finishing (state : State) : State :=
  let (_, shared, pc) := finish state.shared state.finisher
  { state with shared, finisher := pc }

def owning (variant : Variant) (state : State) : State :=
  let (_, shared, pc) := own variant false state.shared state.owner
  { state with shared, owner := pc }

theorem run_finishing {events : List (Party × List Resource)}
    (h : Run (interleavings variant) events state) (steps : Nat) :
    ∃ events, Run (interleavings variant) events (steps.repeat finishing state) := by
  induction steps with
  | zero => exact ⟨_, h⟩
  | succ steps ih =>
    obtain ⟨_, hrun⟩ := ih
    exact ⟨_, hrun.next (.finish rfl)⟩

theorem run_owning {events : List (Party × List Resource)}
    (h : Run (interleavings variant) events state) (steps : Nat) :
    ∃ events, Run (interleavings variant) events (steps.repeat (owning variant) state) := by
  induction steps with
  | zero => exact ⟨_, h⟩
  | succ steps ih =>
    obtain ⟨_, hrun⟩ := ih
    exact ⟨_, hrun.next (.own false rfl)⟩

/-- The owner sees the status, destroys the condition, and the notification uses it. -/
theorem use_after_destroy :
    (∃ events state, Run (interleavings .pool) events state ∧ ¬ Safe .pool state) ∧
    (∃ events state, Run (interleavings .scheduler) events state ∧ ¬ Safe .scheduler state) := by
  constructor
  · have h0 : Run (interleavings .pool) [] ⟨⟨none, 0, 0, fun _ => true⟩, .idle, .idle⟩ :=
      .start rfl
    obtain ⟨_, h1⟩ := run_finishing (h0.next (.resultFinish 1 9 rfl (.inl rfl))) 7
    obtain ⟨_, h2⟩ := run_owning (h1.next (.call .destroy rfl nofun)) 10
    refine ⟨_, _, h2, fun hsafe => ?_⟩
    have hdead := hsafe _ _ _ (.finish rfl) .condition (List.mem_singleton_self _)
    cases hdead
  · have h0 : Run (interleavings .scheduler) [] ⟨⟨none, 0, 0, fun _ => true⟩, .idle, .idle⟩ :=
      .start rfl
    obtain ⟨_, h1⟩ := run_finishing (h0.next (.resultFinish (-1) 0 rfl (.inr rfl))) 7
    obtain ⟨_, h2⟩ := run_owning (h1.next (.call .destroy rfl nofun)) 6
    refine ⟨_, _, h2, fun hsafe => ?_⟩
    have hdead := hsafe _ _ _ (.finish rfl) .condition (List.mem_singleton_self _)
    cases hdead

end Raz.Thread.HandOff
