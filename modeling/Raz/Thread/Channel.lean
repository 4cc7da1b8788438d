import Mathlib.Logic.Function.Basic
import Raz.Lib.Transition
import Raz.Thread.Capacity

/-!
# The bounded channel

Translation of `std::thread::channel`. Every entry point holds the mutex of the channel from its
lock to its next wait or unlock, and from its wake-up to its next wait or unlock; such a section
is one step. A thread that waits may go on at any moment: it is notified, it wakes spuriously, or
its wait times out. The clock and the cancellation token are read anew in every section.
-/

namespace Raz.Thread.Channel

open Transition

/-! ## The program -/

structure ReceiveI64 where
  received : Bool
  value : Int
  deriving DecidableEq, Repr

structure CancellableReceiveI64 where
  status : Int
  value : Int
  deriving DecidableEq, Repr

/-- `ChannelI64`. The mutex and the conditions are not part of the state: sections are atomic
and waits may end at any moment. -/
structure ChannelI64 where
  data : List Int
  capacity : Int
  mask : Int
  head : Int
  tail : Int
  count : Int
  closed : Bool
  deriving DecidableEq, Repr

/-- `create`, with the memory the allocation returns, if it and the creation of the mutex and of
the conditions succeed. -/
def create (requested : Int) (allocated : Option (List Int)) : ChannelI64 :=
  let capacity := normalizedCapacity 1 576460752303423487 requested
  if capacity = 0 then ⟨[], 0, 0, 0, 0, 0, true⟩
  else
    match allocated with
    | none => ⟨[], 0, 0, 0, 0, 0, true⟩
    | some data => ⟨data, capacity, capacity - 1, 0, 0, 0, false⟩

def valid (channel : ChannelI64) : Bool := channel.capacity > 0

def pushLocked (channel : ChannelI64) (value : Int) : ChannelI64 :=
  let slot := Word.land channel.tail channel.mask
  { channel with
    data := Arena.set channel.data slot value
    tail := Word.wrap (channel.tail + 1)
    count := Word.wrap (channel.count + 1) }

def popLocked (channel : ChannelI64) : Int × ChannelI64 :=
  let slot := Word.land channel.head channel.mask
  (Arena.get channel.data slot,
    { channel with
      head := Word.wrap (channel.head + 1)
      count := Word.wrap (channel.count - 1) })

/-! The sections. A section without a result ends in a wait, and its wake-up begins it again. -/

def trySend (channel : ChannelI64) (value : Int) : Option Bool × ChannelI64 :=
  if channel.closed ∨ channel.count ≥ channel.capacity then (some false, channel)
  else (some true, pushLocked channel value)

def send (channel : ChannelI64) (value : Int) : Option Bool × ChannelI64 :=
  if ¬ channel.closed ∧ channel.count ≥ channel.capacity then (none, channel)
  else if channel.closed then (some false, channel)
  else (some true, pushLocked channel value)

def sendMillis (channel : ChannelI64) (value deadline now : Int) : Option Bool × ChannelI64 :=
  if ¬ channel.closed ∧ channel.count ≥ channel.capacity then
    if remainingMillis now deadline ≤ 0 then (some false, channel) else (none, channel)
  else if channel.closed then (some false, channel)
  else (some true, pushLocked channel value)

def sendCancellable (channel : ChannelI64) (value : Int) (requested : Bool) :
    Option Int × ChannelI64 :=
  if ¬ channel.closed ∧ channel.count ≥ channel.capacity then
    if requested then (some (-1), channel) else (none, channel)
  else if requested then (some (-1), channel)
  else if channel.closed then (some 0, channel)
  else (some 1, pushLocked channel value)

def tryReceive (channel : ChannelI64) : Option ReceiveI64 × ChannelI64 :=
  if channel.count ≤ 0 then (some ⟨false, 0⟩, channel)
  else
    let (value, channel) := popLocked channel
    (some ⟨true, value⟩, channel)

def receive (channel : ChannelI64) : Option ReceiveI64 × ChannelI64 :=
  if channel.count ≤ 0 ∧ ¬ channel.closed then (none, channel)
  else if channel.count ≤ 0 then (some ⟨false, 0⟩, channel)
  else
    let (value, channel) := popLocked channel
    (some ⟨true, value⟩, channel)

def receiveMillis (channel : ChannelI64) (deadline now : Int) :
    Option ReceiveI64 × ChannelI64 :=
  if channel.count ≤ 0 ∧ ¬ channel.closed then
    if remainingMillis now deadline ≤ 0 then (some ⟨false, 0⟩, channel) else (none, channel)
  else if channel.count ≤ 0 then (some ⟨false, 0⟩, channel)
  else
    let (value, channel) := popLocked channel
    (some ⟨true, value⟩, channel)

def receiveCancellable (channel : ChannelI64) (requested : Bool) :
    Option CancellableReceiveI64 × ChannelI64 :=
  if ¬ channel.closed ∧ channel.count ≤ 0 then
    if requested then (some ⟨-1, 0⟩, channel) else (none, channel)
  else if requested then (some ⟨-1, 0⟩, channel)
  else if channel.count ≤ 0 then (some ⟨0, 0⟩, channel)
  else
    let (value, channel) := popLocked channel
    (some ⟨1, value⟩, channel)

def close (channel : ChannelI64) : ChannelI64 := { channel with closed := true }

/-! ## Calls -/

/-- The entry points with their arguments. Of a token a call sees first whether it is valid. -/
inductive Call
  | trySend (value : Int)
  | send (value : Int)
  | sendMillis (value timeout : Int)
  | sendCancellable (value : Int) (token : Bool)
  | tryReceive
  | receive
  | receiveMillis (timeout : Int)
  | receiveCancellable (token : Bool)
  | close
  deriving DecidableEq, Repr

def Call.isSend : Call → Bool
  | .trySend _ | .send _ | .sendMillis _ _ | .sendCancellable _ _ => true
  | _ => false

inductive Report
  | sent (result : Bool)
  | sentStatus (result : Int)
  | received (result : ReceiveI64)
  | receivedStatus (result : CancellableReceiveI64)
  | closed
  deriving DecidableEq, Repr

/-- What a call returns before it locks the mutex, if it returns there. -/
def refuse (channel : ChannelI64) : Call → Option Report
  | .trySend _ | .send _ => if ¬ valid channel then some (.sent false) else none
  | .sendMillis _ timeout =>
      if ¬ valid channel ∨ timeout < 0 then some (.sent false) else none
  | .sendCancellable _ token =>
      if ¬ valid channel ∨ ¬ token then some (.sentStatus 0) else none
  | .tryReceive | .receive => if ¬ valid channel then some (.received ⟨false, 0⟩) else none
  | .receiveMillis timeout =>
      if ¬ valid channel ∨ timeout < 0 then some (.received ⟨false, 0⟩) else none
  | .receiveCancellable token =>
      if ¬ valid channel ∨ ¬ token then some (.receivedStatus ⟨0, 0⟩) else none
  | .close => if ¬ valid channel then some .closed else none

/-- The deadline of a call that begins at the time `now`; only the timed calls have one. -/
def deadline (now : Int) : Call → Int
  | .sendMillis _ timeout | .receiveMillis timeout => deadlineNanos now timeout
  | _ => 0

/-- A section of a call, at the time `now` and with what the token says. -/
def advance (channel : ChannelI64) (deadline now : Int) (requested : Bool) :
    Call → Option Report × ChannelI64
  | .trySend value => (trySend channel value).map (Option.map .sent) id
  | .send value => (send channel value).map (Option.map .sent) id
  | .sendMillis value _ => (sendMillis channel value deadline now).map (Option.map .sent) id
  | .sendCancellable value _ =>
      (sendCancellable channel value requested).map (Option.map .sentStatus) id
  | .tryReceive => (tryReceive channel).map (Option.map .received) id
  | .receive => (receive channel).map (Option.map .received) id
  | .receiveMillis _ => (receiveMillis channel deadline now).map (Option.map .received) id
  | .receiveCancellable _ =>
      (receiveCancellable channel requested).map (Option.map .receivedStatus) id
  | .close => (some .closed, close channel)

/-- A thread is outside of the channel, or in a call whose next section may run. -/
inductive Pc
  | idle
  | inside (call : Call) (deadline : Int)
  deriving DecidableEq, Repr

structure State (Thread : Type) where
  channel : ChannelI64
  threads : Thread → Pc

/-- What a step shows: a call returns before it locks the mutex, it begins, it waits, or it
returns. -/
inductive Event
  | refused (call : Call) (report : Report)
  | began (call : Call)
  | waited (call : Call)
  | returned (call : Call) (report : Report)
  deriving DecidableEq, Repr

section

variable {Thread : Type} [DecidableEq Thread]

/-- The clock and the token say anything. -/
inductive Step : State Thread → Thread × Event → State Thread → Prop
  | refused {state : State Thread} {thread : Thread} {call : Call} {report : Report} :
      state.threads thread = .idle → refuse state.channel call = some report →
      Step state (thread, .refused call report) state
  | began {state : State Thread} {thread : Thread} {call : Call} (now : Int) :
      state.threads thread = .idle → refuse state.channel call = none →
      Step state (thread, .began call)
        { state with
          threads := Function.update state.threads thread (.inside call (deadline now call)) }
  | waited {state : State Thread} {thread : Thread} {call : Call} {deadline : Int}
      {channel : ChannelI64} (now : Int) (requested : Bool) :
      state.threads thread = .inside call deadline →
      advance state.channel deadline now requested call = (none, channel) →
      Step state (thread, .waited call) { state with channel }
  | returned {state : State Thread} {thread : Thread} {call : Call} {deadline : Int}
      {report : Report} {channel : ChannelI64} (now : Int) (requested : Bool) :
      state.threads thread = .inside call deadline →
      advance state.channel deadline now requested call = (some report, channel) →
      Step state (thread, .returned call report)
        { channel, threads := Function.update state.threads thread .idle }

/-- The channel of `create`, with the cells it asked for, and no thread in a call. -/
def Initial (requested : Int) (allocated : Option (List Int)) (state : State Thread) : Prop :=
  state.channel = create requested allocated ∧
    (state.channel.data.length : Int) = state.channel.capacity ∧
    ∀ thread, state.threads thread = .idle

def interleavings (Thread : Type) [DecidableEq Thread] (requested : Int)
    (allocated : Option (List Int)) : System (State Thread) (Thread × Event) :=
  ⟨Initial requested allocated, Step⟩

end

/-! ## What a run has done -/

/-- The value of a send that reports success. -/
def sentValue : Event → Option Int
  | .returned (.trySend value) (.sent true) | .returned (.send value) (.sent true)
  | .returned (.sendMillis value _) (.sent true)
  | .returned (.sendCancellable value _) (.sentStatus 1) => some value
  | _ => none

def receivedValue : Event → Option Int
  | .returned _ (.received ⟨true, value⟩) | .returned _ (.receivedStatus ⟨1, value⟩) => some value
  | _ => none

/-- A send that has begun or returned without success. -/
def FailedSend (event : Event) : Prop :=
  match event with
  | .refused call _ | .waited call => call.isSend = true
  | .returned call _ => call.isSend = true ∧ sentValue event = none
  | .began _ => False

/-- A receive that has looked at the channel reports that it is closed, or that there is nothing to
receive. A call that is refused for its arguments has not looked, and reports nothing of it. -/
def ReportsClosed : Event → Prop
  | .returned _ (.received result) => result.received = false
  | .returned _ (.receivedStatus result) => result.status = 0
  | _ => False

def sent {Thread : Type} (events : List (Thread × Event)) : List Int :=
  events.filterMap (fun event => sentValue event.2)

def received {Thread : Type} (events : List (Thread × Event)) : List Int :=
  events.filterMap (fun event => receivedValue event.2)

end Raz.Thread.Channel
