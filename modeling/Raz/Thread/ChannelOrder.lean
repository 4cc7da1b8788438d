import Raz.Thread.Channel

/-!
# The order of the bounded channel

With `sent` the values of the sends that reported success and `received` those of the receives,
the ring is a stream of `sent` that `received` has left. A section waits, fails, pushes, pops or
closes, and nothing else.

Result: `first_in_first_out`: the values, the failures, the closed channel and the counters, along
every run.
-/

namespace Raz.Thread.Channel

open Transition List

/-! ## Sections -/

/-- What a section of a call does. -/
inductive Section (channel : ChannelI64) (call : Call) : Option Report → ChannelI64 → Prop
  | wait : Section channel call none channel
  | fail (report : Report) :
      call ≠ .close → sentValue (.returned call report) = none →
      receivedValue (.returned call report) = none →
      (ReportsClosed (.returned call report) → channel.count ≤ 0) →
      Section channel call (some report) channel
  | push (report : Report) (value : Int) :
      call.isSend = true → sentValue (.returned call report) = some value →
      receivedValue (.returned call report) = none →
      channel.closed = false → channel.count < channel.capacity →
      Section channel call (some report) (pushLocked channel value)
  | pop (report : Report) :
      call.isSend = false → sentValue (.returned call report) = none →
      receivedValue (.returned call report) = some (popLocked channel).1 → 0 < channel.count →
      Section channel call (some report) (popLocked channel).2
  | close : call = .close → Section channel call (some .closed) (close channel)

variable {channel after : ChannelI64} {call : Call} {report : Option Report}

/-- A channel that is not closed and has not been seen full has room. -/
theorem room_of_open (hfull : ¬ (¬ channel.closed = true ∧ channel.count ≥ channel.capacity))
    (hopen : ¬ channel.closed = true) : channel.count < channel.capacity :=
  Int.not_le.mp (fun hge => hfull ⟨hopen, hge⟩)

theorem advance_cases {deadline now : Int} {requested : Bool}
    (h : advance channel deadline now requested call = (report, after)) :
    Section channel call report after := by
  cases call with
  | trySend value =>
    simp only [advance, trySend] at h
    split at h
    · cases h
      exact .fail _ Call.noConfusion rfl rfl False.elim
    rename_i hopen
    obtain ⟨hopen, hroom⟩ := not_or.mp hopen
    cases h
    exact .push _ value rfl rfl rfl (Bool.eq_false_iff.mpr hopen) (Int.not_le.mp hroom)
  | send value =>
    simp only [advance, send] at h
    split at h
    · cases h
      exact .wait
    rename_i hfull
    split at h
    · cases h
      exact .fail _ Call.noConfusion rfl rfl False.elim
    · rename_i hopen
      cases h
      exact .push _ value rfl rfl rfl (Bool.eq_false_iff.mpr hopen) (room_of_open hfull hopen)
  | sendMillis value timeout =>
    simp only [advance, sendMillis] at h
    split at h
    · split at h
      · cases h
        exact .fail _ Call.noConfusion rfl rfl False.elim
      · cases h
        exact .wait
    · rename_i hfull
      split at h
      · cases h
        exact .fail _ Call.noConfusion rfl rfl False.elim
      · rename_i hopen
        cases h
        exact .push _ value rfl rfl rfl (Bool.eq_false_iff.mpr hopen) (room_of_open hfull hopen)
  | sendCancellable value token =>
    simp only [advance, sendCancellable] at h
    split at h
    · split at h
      · cases h
        exact .fail _ Call.noConfusion rfl rfl False.elim
      · cases h
        exact .wait
    · rename_i hfull
      split at h
      · cases h
        exact .fail _ Call.noConfusion rfl rfl False.elim
      split at h
      · cases h
        exact .fail _ Call.noConfusion rfl rfl False.elim
      · rename_i hopen
        cases h
        exact .push _ value rfl rfl rfl (Bool.eq_false_iff.mpr hopen) (room_of_open hfull hopen)
  | tryReceive =>
    simp only [advance, tryReceive] at h
    split at h
    · rename_i hempty
      cases h
      exact .fail _ Call.noConfusion rfl rfl (fun _ => hempty)
    · rename_i hsome
      cases h
      exact .pop _ rfl rfl rfl (Int.not_le.mp hsome)
  | receive =>
    simp only [advance, receive] at h
    split at h
    · cases h
      exact .wait
    split at h
    · rename_i hempty
      cases h
      exact .fail _ Call.noConfusion rfl rfl (fun _ => hempty)
    · rename_i hsome
      cases h
      exact .pop _ rfl rfl rfl (Int.not_le.mp hsome)
  | receiveMillis timeout =>
    simp only [advance, receiveMillis] at h
    split at h
    · rename_i hwait
      split at h
      · cases h
        exact .fail _ Call.noConfusion rfl rfl (fun _ => hwait.1)
      · cases h
        exact .wait
    · split at h
      · rename_i hempty
        cases h
        exact .fail _ Call.noConfusion rfl rfl (fun _ => hempty)
      · rename_i hsome
        cases h
        exact .pop _ rfl rfl rfl (Int.not_le.mp hsome)
  | receiveCancellable token =>
    simp only [advance, receiveCancellable] at h
    split at h
    · rename_i hwait
      split at h
      · cases h
        exact .fail _ Call.noConfusion rfl rfl (fun _ => hwait.2)
      · cases h
        exact .wait
    · split at h
      · -- Cancelled, with a value waiting or not: the report is not that of a closed channel.
        cases h
        exact .fail _ Call.noConfusion rfl rfl (fun hclosed => nomatch hclosed)
      split at h
      · rename_i hempty
        cases h
        exact .fail _ Call.noConfusion rfl rfl (fun _ => hempty)
      · rename_i hsome
        cases h
        exact .pop _ rfl rfl rfl (Int.not_le.mp hsome)
  | close =>
    cases h
    exact .close rfl

/-! ## The queue -/

/-- The channel between what was sent and what was received. -/
structure Consistent (channel : ChannelI64) (sent received : List Int) : Prop where
  stream : Ring.Stream channel.data channel.capacity channel.head channel.tail sent received
  mask_eq : channel.mask = channel.capacity - 1
  count_eq : channel.count = sent.length - received.length

section

variable {sent received : List Int}

theorem Consistent.push (h : Consistent channel sent received)
    (hroom : channel.count < channel.capacity) (value : Int) :
    Consistent (pushLocked channel value) (sent ++ [value]) received := by
  have hcount := h.count_eq
  have hle := h.stream.got_prefix.length_le
  have hlt := h.stream.isCapacity.lt
  have hpush := h.stream.push value (by omega)
  rw [← h.mask_eq] at hpush
  refine ⟨hpush, h.mask_eq, ?_⟩
  simp only [pushLocked]
  rw [Word.wrap_of_range (by omega) (by omega), length_append, length_singleton]
  omega

theorem Consistent.pop (h : Consistent channel sent received) (hsome : 0 < channel.count) :
    Consistent (popLocked channel).2 sent (received ++ [(popLocked channel).1]) := by
  have hcount := h.count_eq
  have hroom := h.stream.room
  have hlt := h.stream.isCapacity.lt
  have hpop := h.stream.pop (by omega)
  rw [← h.mask_eq] at hpop
  refine ⟨hpop, h.mask_eq, ?_⟩
  simp only [popLocked]
  rw [Word.wrap_of_range (by omega) (by omega), length_append, length_singleton]
  omega

end

/-! ## Runs -/

section

variable {Thread : Type} [DecidableEq Thread] {events : List (Thread × Event)}
  {state next : State Thread} {thread : Thread} {event : Event}

omit [DecidableEq Thread] in
theorem sent_snoc (events : List (Thread × Event)) (thread : Thread) (event : Event) :
    sent (events ++ [(thread, event)]) = sent events ++ (sentValue event).toList := by
  cases hval : sentValue event <;> simp [sent, hval]

omit [DecidableEq Thread] in
theorem received_snoc (events : List (Thread × Event)) (thread : Thread) (event : Event) :
    received (events ++ [(thread, event)]) =
      received events ++ (receivedValue event).toList := by
  cases hval : receivedValue event <;> simp [received, hval]

/-- A step is a section that returns, or leaves the channel alone. -/
theorem step_cases (h : Step state (thread, event) next) :
    (next.channel = state.channel ∧ sentValue event = none ∧ receivedValue event = none ∧
      ¬ ReportsClosed event ∧ event ≠ .returned .close .closed) ∨
    (∃ call report, event = .returned call report ∧
      Section state.channel call (some report) next.channel) := by
  cases h with
  | refused _ _ => exact .inl ⟨rfl, rfl, rfl, False.elim, Event.noConfusion⟩
  | began _ _ _ => exact .inl ⟨rfl, rfl, rfl, False.elim, Event.noConfusion⟩
  | waited now requested _ hwait =>
    cases advance_cases hwait
    exact .inl ⟨rfl, rfl, rfl, False.elim, Event.noConfusion⟩
  | returned now requested _ hreturn => exact .inr ⟨_, _, rfl, advance_cases hreturn⟩

theorem Consistent.step (h : Consistent state.channel (sent events) (received events))
    (hstep : Step state (thread, event) next) :
    Consistent next.channel (sent (events ++ [(thread, event)]))
      (received (events ++ [(thread, event)])) := by
  rw [sent_snoc, received_snoc]
  rcases step_cases hstep with ⟨hsame, hsent, hreceived, _⟩ | ⟨call, report, rfl, hsec⟩
  · rw [hsame, hsent, hreceived, Option.toList_none, append_nil, append_nil]
    exact h
  generalize hnext : next.channel = after at hsec
  cases hsec with
  | fail _ _ hsent hreceived _ =>
    rw [hsent, hreceived, Option.toList_none, append_nil, append_nil]
    exact h
  | push _ value _ hsent hreceived _ hroom =>
    rw [hsent, hreceived, Option.toList_none, Option.toList_some, append_nil]
    exact h.push hroom value
  | pop _ _ hsent hreceived hsome =>
    rw [hsent, hreceived, Option.toList_none, Option.toList_some, append_nil]
    exact h.pop hsome
  | close hclose =>
    subst hclose
    rw [show sentValue (.returned .close .closed) = none from rfl,
      show receivedValue (.returned .close .closed) = none from rfl, Option.toList_none,
      append_nil, append_nil]
    exact ⟨h.stream, h.mask_eq, h.count_eq⟩

theorem closed_step (hclosed : state.channel.closed = true)
    (hstep : Step state (thread, event) next) :
    next.channel.closed = true ∧ sentValue event = none := by
  rcases step_cases hstep with ⟨hsame, hsent, _⟩ | ⟨call, report, rfl, hsec⟩
  · rw [hsame]
    exact ⟨hclosed, hsent⟩
  generalize hnext : next.channel = after at hsec
  cases hsec with
  | fail _ _ hsent _ _ => exact ⟨hclosed, hsent⟩
  | push _ value _ _ _ hopen _ =>
    rw [hclosed] at hopen
    cases hopen
  | pop _ _ hsent _ _ => exact ⟨hclosed, hsent⟩
  | close hclose =>
    subst hclose
    exact ⟨rfl, rfl⟩

theorem close_step (hstep : Step state (thread, .returned .close .closed) next) :
    next.channel.closed = true := by
  rcases step_cases hstep with ⟨_, _, _, _, hne⟩ | ⟨call, report, heq, hsec⟩
  · exact absurd rfl hne
  cases heq
  generalize hnext : next.channel = after at hsec
  cases hsec with
  | fail _ hne _ _ _ => exact absurd rfl hne
  | push _ _ hsend _ _ _ _ => cases hsend
  | pop _ _ _ hreceived _ => cases hreceived
  | close _ => rfl

theorem failed_send_step (hfailed : FailedSend event) (hstep : Step state (thread, event) next) :
    next.channel = state.channel := by
  rcases step_cases hstep with ⟨hsame, _⟩ | ⟨call, report, rfl, hsec⟩
  · exact hsame
  obtain ⟨hsend, hnone⟩ := hfailed
  generalize hnext : next.channel = after at hsec
  cases hsec with
  | fail _ _ _ _ _ => rfl
  | push _ _ _ hsent _ _ _ =>
    rw [hnone] at hsent
    cases hsent
  | pop _ hreceive _ _ _ =>
    rw [hsend] at hreceive
    cases hreceive
  | close hclose =>
    subst hclose
    cases hsend

theorem value_of_reports_closed (h : ReportsClosed event) :
    sentValue event = none ∧ receivedValue event = none := by
  cases event with
  | refused _ _ => exact ⟨rfl, rfl⟩
  | began _ => exact ⟨rfl, rfl⟩
  | waited _ => exact ⟨rfl, rfl⟩
  | returned call report =>
    cases report with
    | sent _ => exact h.elim
    | sentStatus _ => exact h.elim
    | received result =>
      obtain ⟨flag, value⟩ := result
      have hflag : flag = false := h
      subst hflag
      cases call <;> exact ⟨rfl, rfl⟩
    | receivedStatus result =>
      obtain ⟨status, value⟩ := result
      have hstatus : status = 0 := h
      subst hstatus
      cases call <;> exact ⟨rfl, rfl⟩
    | closed => exact h.elim

theorem reports_closed_step (hclosed : ReportsClosed event)
    (hstep : Step state (thread, event) next) : state.channel.count ≤ 0 := by
  rcases step_cases hstep with ⟨_, _, _, hne, _⟩ | ⟨call, report, rfl, hsec⟩
  · exact absurd hclosed hne
  generalize hnext : next.channel = after at hsec
  cases hsec with
  | fail _ _ _ _ hempty => exact hempty hclosed
  | push _ _ _ hsent _ _ _ =>
    rw [(value_of_reports_closed hclosed).1] at hsent
    cases hsent
  | pop _ _ _ hreceived _ =>
    rw [(value_of_reports_closed hclosed).2] at hreceived
    cases hreceived
  | close _ => exact hclosed.elim

/-! ## Created channels -/

variable {requested : Int} {allocated : Option (List Int)}

/-- A channel that was created is empty, and its capacity is a power of two. -/
theorem create_consistent (hvalid : valid (create requested allocated) = true)
    (hlen : ((create requested allocated).data.length : Int) =
      (create requested allocated).capacity) :
    Consistent (create requested allocated) [] [] ∧
      requested ≤ (create requested allocated).capacity := by
  unfold create at hvalid hlen ⊢
  simp only at hvalid hlen ⊢
  split at hvalid
  · cases hvalid
  rename_i hcap
  rw [if_neg hcap] at hlen ⊢
  cases allocated with
  | none => cases hvalid
  | some data =>
    rcases @normalizedCapacity_spec 576460752303423487 requested (by decide) 0 (by decide) with
      hzero | ⟨j, _, hj, heq, hle⟩
    · exact absurd hzero hcap
    have heq : normalizedCapacity 1 576460752303423487 requested = 2 ^ j := heq
    have hring : Ring.IsCapacity (normalizedCapacity 1 576460752303423487 requested) :=
      ⟨j, by omega, heq⟩
    refine ⟨⟨Ring.Stream.start hring hlen, rfl, rfl⟩, ?_⟩
    rw [heq]
    exact hle

omit [DecidableEq Thread] in
theorem refuse_of_invalid {channel : ChannelI64} (h : valid channel = false) (call : Call) :
    ∃ report, refuse channel call = some report := by
  have hnot : ¬ valid channel = true := by rw [h]; decide
  cases call with
  | trySend _ => exact ⟨_, if_pos hnot⟩
  | send _ => exact ⟨_, if_pos hnot⟩
  | sendMillis _ _ => exact ⟨_, if_pos (.inl hnot)⟩
  | sendCancellable _ _ => exact ⟨_, if_pos (.inl hnot)⟩
  | tryReceive => exact ⟨_, if_pos hnot⟩
  | receive => exact ⟨_, if_pos hnot⟩
  | receiveMillis _ => exact ⟨_, if_pos (.inl hnot)⟩
  | receiveCancellable _ => exact ⟨_, if_pos (.inl hnot)⟩
  | close => exact ⟨_, if_pos hnot⟩

theorem capacity_step (hstep : Step state (thread, event) next) :
    next.channel.capacity = state.channel.capacity := by
  rcases step_cases hstep with ⟨hsame, _⟩ | ⟨call, report, rfl, hsec⟩
  · rw [hsame]
  · generalize next.channel = after at hsec
    cases hsec <;> rfl

theorem create_invalid (hinvalid : valid (create requested allocated) = false) :
    create requested allocated = ⟨[], 0, 0, 0, 0, 0, true⟩ := by
  unfold create at hinvalid ⊢
  simp only at hinvalid ⊢
  split at hinvalid
  · rename_i hcap
    exact if_pos hcap
  rename_i hcap
  rw [if_neg hcap]
  cases allocated with
  | none => rfl
  | some data =>
    rcases @normalizedCapacity_spec 576460752303423487 requested (by decide) 0 (by decide) with
      hzero | ⟨j, _, _, heq, _⟩
    · exact absurd hzero hcap
    · have hpow : (0 : Int) < 2 ^ j := Int.pow_pos (by decide)
      have hpos : 0 < normalizedCapacity 1 576460752303423487 requested := heq.symm ▸ hpow
      exact absurd (decide_eq_true hpos) (Bool.eq_false_iff.mp hinvalid)

theorem run_consistent (hvalid : valid (create requested allocated) = true)
    (hrun : Run (interleavings Thread requested allocated) events state) :
    Consistent state.channel (sent events) (received events) ∧
      requested ≤ state.channel.capacity := by
  refine hrun.invariant (fun events state =>
    Consistent state.channel (sent events) (received events) ∧
      requested ≤ state.channel.capacity) ?_ ?_
  · rintro start ⟨hcreate, hlen, _⟩
    rw [hcreate] at hlen ⊢
    exact create_consistent hvalid hlen
  rintro events middle ⟨thread, event⟩ after ⟨hconsistent, hle⟩ hstep
  refine ⟨hconsistent.step hstep, ?_⟩
  rw [capacity_step hstep]
  exact hle

theorem run_of_invalid (hinvalid : valid (create requested allocated) = false)
    (hrun : Run (interleavings Thread requested allocated) events state) :
    state.channel = create requested allocated ∧ (∀ thread, state.threads thread = .idle) ∧
      sent events = [] ∧ received events = [] := by
  refine hrun.invariant (fun events state => state.channel = create requested allocated ∧
    (∀ thread, state.threads thread = .idle) ∧ sent events = [] ∧ received events = []) ?_ ?_
  · rintro start ⟨hcreate, _, hidle⟩
    exact ⟨hcreate, hidle, rfl, rfl⟩
  rintro events middle ⟨thread, event⟩ after ⟨hcreate, hidle, hsent, hreceived⟩ hstep
  rw [sent_snoc, received_snoc, hsent, hreceived]
  cases hstep with
  | refused _ _ => exact ⟨hcreate, hidle, rfl, rfl⟩
  | began _ _ hnone =>
    rw [← hcreate] at hinvalid
    obtain ⟨report, hrefuse⟩ := refuse_of_invalid hinvalid _
    rw [hrefuse] at hnone
    cases hnone
  | waited _ _ hinside _ =>
    rw [hidle] at hinside
    cases hinside
  | returned _ _ hinside _ =>
    rw [hidle] at hinside
    cases hinside

/-- After a close the channel stays closed and nothing is sent. -/
theorem sent_after_close (hrun : Run (interleavings Thread requested allocated) events state) :
    ∀ {before later : List (Thread × Event)} {thread : Thread},
      events = before ++ (thread, .returned .close .closed) :: later →
        state.channel.closed = true ∧ sent later = [] := by
  induction hrun with
  | start _ =>
    intro before later thread heq
    cases before <;> cases heq
  | next hrun hnext ih =>
    rename_i events middle after event
    intro before later thread heq
    rcases eq_nil_or_concat later with rfl | ⟨front, last, rfl⟩
    · obtain ⟨_, hlast⟩ := append_inj' heq rfl
      cases hlast
      exact ⟨close_step hnext, rfl⟩
    rw [concat_eq_append, ← cons_append, ← append_assoc] at heq
    obtain ⟨hfront, hlast⟩ := append_inj' heq rfl
    cases hlast
    obtain ⟨hclosed, hsent⟩ := ih hfront
    obtain ⟨hstill, hnone⟩ := closed_step hclosed hnext
    refine ⟨hstill, ?_⟩
    rw [concat_eq_append, show event = (event.1, event.2) from rfl, sent_snoc, hsent, hnone]
    rfl

/-- Along every interleaving: the received values are the first sent ones, a send without success
leaves the channel as it is, nothing is sent after a close, a receive reports a closed channel
only when all that was sent is received, and the counters agree. -/
theorem first_in_first_out (hrun : Run (interleavings Thread requested allocated) events state) :
    received events <+: sent events ∧
    (∀ thread event next, Step state (thread, event) next → FailedSend event →
      next.channel = state.channel) ∧
    (∀ before later thread, events = before ++ (thread, .returned .close .closed) :: later →
      sent later = []) ∧
    (∀ thread event next, Step state (thread, event) next → ReportsClosed event →
      state.channel.count = 0 ∧ received events = sent events) ∧
    Word.wrap (state.channel.tail - state.channel.head) = state.channel.count ∧
    0 ≤ state.channel.count ∧ state.channel.count ≤ state.channel.capacity ∧
    (valid state.channel = true →
      ∃ k : Nat, state.channel.capacity = 2 ^ k ∧ requested ≤ state.channel.capacity) := by
  have hafter : ∀ before later thread,
      events = before ++ (thread, .returned .close .closed) :: later → sent later = [] :=
    fun before later thread heq => (sent_after_close hrun heq).2
  cases hvalid : valid (create requested allocated) with
  | false =>
    obtain ⟨hcreate, _, hsent, hreceived⟩ := run_of_invalid hvalid hrun
    rw [create_invalid hvalid] at hcreate
    rw [hsent, hreceived, hcreate]
    exact ⟨prefix_rfl,
      fun _ _ _ hstep hfailed => (failed_send_step hfailed hstep).trans hcreate,
      hafter, fun _ _ _ _ _ => ⟨rfl, rfl⟩, by decide, by decide, by decide,
      fun h => absurd h (by decide)⟩
  | true =>
    obtain ⟨h, hrequested⟩ := run_consistent hvalid hrun
    have hcount := h.count_eq
    have hle := h.stream.got_prefix.length_le
    have hroom := h.stream.room
    refine ⟨h.stream.got_prefix, fun _ _ _ hstep hfailed => failed_send_step hfailed hstep,
      hafter, fun thread event next hstep hclosed => ?_, ?_, by omega, by omega, fun _ => ?_⟩
    · have hempty := reports_closed_step hclosed hstep
      exact ⟨by omega, h.stream.got_prefix.eq_of_length_le (by omega)⟩
    · rw [h.stream.distance, hcount]
    · obtain ⟨k, _, heq⟩ := h.stream.isCapacity
      exact ⟨k, heq, hrequested⟩

end

/-- The values are received in order while a second send waits for room. -/
theorem first_in_first_out_full :
    ∃ (events : List (Bool × Event)) (state : State Bool),
      Run (interleavings Bool 1 (some [0])) events state ∧
        received events = [7] ∧ sent events = [7, 8] ∧ received events <+: sent events := by
  have h0 : Run (interleavings Bool 1 (some [0])) []
      ⟨create 1 (some [0]), fun _ => .idle⟩ := Run.start ⟨rfl, rfl, fun _ => rfl⟩
  have h1 := Run.next h0 (@Step.began _ _ _ true (.send 7) 0 rfl rfl)
  have h2 := Run.next h1 (@Step.returned _ _ _ true _ _ _ _ 0 false rfl rfl)
  have h3 := Run.next h2 (@Step.began _ _ _ true (.sendMillis 8 5) 0 rfl rfl)
  have h4 := Run.next h3 (@Step.waited _ _ _ true _ _ _ 1 false rfl rfl)
  have h5 := Run.next h4 (@Step.began _ _ _ false (.receiveCancellable true) 0 rfl rfl)
  have h6 := Run.next h5 (@Step.returned _ _ _ false _ _ _ _ 0 false rfl rfl)
  have h7 := Run.next h6 (@Step.returned _ _ _ true _ _ _ _ 1 false rfl rfl)
  obtain ⟨horder, _⟩ := first_in_first_out h7
  exact ⟨_, _, h7, by decide, by decide, horder⟩

end Raz.Thread.Channel
