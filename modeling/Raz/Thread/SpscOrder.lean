import Raz.Thread.Spsc

/-!
# The order of the queue of one producer and one consumer

With `sent` the values published so far and `got` the values released, the head is the word of
`got.length` and the tail the word of `sent.length`, and the ring holds the rest of `sent`. What
a side has loaded of the other's counter is out of date, but only to its own disadvantage.

Result: `batches_in_order`: every run.
-/

namespace Raz.Thread.Spsc

open Transition List

/-! ## Channels that were created -/

structure Sound (channel : SpscI64) : Prop where
  isCapacity : Ring.IsCapacity channel.capacity
  mask_eq : channel.mask = channel.capacity - 1

theorem create_sound {requested : Int} {allocated : Bool}
    (h : valid (create requested allocated) = true) : Sound (create requested allocated) := by
  unfold create at h ⊢
  simp only at h ⊢
  split at h
  · cases h
  rename_i hvalid
  rw [if_neg hvalid]
  rcases @normalizedCapacity_spec 576460752303423487 requested (by decide) 1 (by decide) with
    hzero | ⟨j, _, hj, heq, _⟩
  · exact absurd (.inl hzero) hvalid
  · exact ⟨⟨j, by omega, heq⟩, rfl⟩

theorem create_invalid {requested : Int} {allocated : Bool}
    (h : valid (create requested allocated) = false) :
    create requested allocated = ⟨0, 0⟩ := by
  unfold create at h ⊢
  simp only at h ⊢
  split at h
  · rename_i hinvalid
    exact if_pos hinvalid
  rename_i hvalid
  rcases @normalizedCapacity_spec 576460752303423487 requested (by decide) 1 (by decide) with
    hzero | ⟨j, _, _, heq, _⟩
  · exact absurd (.inl hzero) hvalid
  · have hpow : (0 : Int) < 2 ^ j := Int.pow_pos (by decide)
    have hpos : 0 < normalizedCapacity 2 576460752303423487 requested := heq.symm ▸ hpow
    exact absurd (decide_eq_true hpos) (by rw [valid] at h; rw [h]; decide)

variable {channel : SpscI64}

theorem Sound.slot_eq (h : Sound channel) (position : Int) :
    slot channel position = position % channel.capacity := by
  unfold slot
  rw [h.mask_eq]
  exact Ring.slot_eq h.isCapacity position

theorem Sound.slot_wrap (h : Sound channel) (position : Int) :
    slot channel (Word.wrap position) = position % channel.capacity := by
  rw [h.slot_eq, Ring.wrap_emod h.isCapacity]

theorem Sound.emod_range (h : Sound channel) (position : Int) :
    0 ≤ position % channel.capacity ∧ position % channel.capacity < channel.capacity :=
  ⟨Int.emod_nonneg _ (by have := h.isCapacity.pos; omega), Int.emod_lt_of_pos _ h.isCapacity.pos⟩

/-! ## The invariant -/

/-- `got` has left the ring and the rest of `sent` is in it. -/
def MemoryFact (channel : SpscI64) (sent got : List Int) (memory : Memory) : Prop :=
  Ring.Stream memory.cells channel.capacity memory.head memory.tail sent got

/-- What the producer can rely on. -/
def ProducerFact (channel : SpscI64) (sent got : List Int) (memory : Memory) : Producer → Prop
  | .idle | .sendTail _ => True
  | .sendHead _ tail => tail = memory.tail
  | .sendStore _ tail =>
      tail = memory.tail ∧ (sent.length : Int) + 1 ≤ got.length + channel.capacity
  | .sendPublish value tail =>
      tail = memory.tail ∧ (sent.length : Int) + 1 ≤ got.length + channel.capacity ∧
        Ring.Holds memory.cells sent.length [value]
  | .manyTail values count => 0 < count ∧ count ≤ values.length
  | .manyHead values count tail => tail = memory.tail ∧ 0 < count ∧ count ≤ values.length
  | .manyFirst values amount tail =>
      tail = memory.tail ∧ 0 < amount ∧ amount ≤ values.length ∧
        (sent.length : Int) + amount ≤ got.length + channel.capacity
  | .manySecond values amount tail first =>
      tail = memory.tail ∧ 0 < amount ∧ amount ≤ values.length ∧
        (sent.length : Int) + amount ≤ got.length + channel.capacity ∧
        first = channel.capacity - (sent.length : Int) % channel.capacity ∧ first < amount ∧
        Ring.Holds memory.cells sent.length (values.take first.toNat)
  | .manyPublish values amount tail =>
      tail = memory.tail ∧ 0 < amount ∧ amount ≤ values.length ∧
        (sent.length : Int) + amount ≤ got.length + channel.capacity ∧
        Ring.Holds memory.cells sent.length (values.take amount.toNat)

/-- What the consumer can rely on. -/
def ConsumerFact (channel : SpscI64) (sent got : List Int) (memory : Memory) : Consumer → Prop
  | .idle | .receiveHead => True
  | .receiveTail head => head = memory.head
  | .receiveLoad head => head = memory.head ∧ (got.length : Int) + 1 ≤ sent.length
  | .receiveRelease head value =>
      head = memory.head ∧ (got.length : Int) + 1 ≤ sent.length ∧
        [value] = (sent.drop got.length).take 1
  | .manyHead count => 0 < count
  | .manyTail count head => head = memory.head ∧ 0 < count
  | .manyFirst amount head =>
      head = memory.head ∧ 0 < amount ∧ (got.length : Int) + amount ≤ sent.length
  | .manySecond amount head first output =>
      head = memory.head ∧ 0 < amount ∧ (got.length : Int) + amount ≤ sent.length ∧
        first = channel.capacity - (got.length : Int) % channel.capacity ∧ first < amount ∧
        output = (sent.drop got.length).take first.toNat
  | .manyRelease amount head output =>
      head = memory.head ∧ 0 < amount ∧ (got.length : Int) + amount ≤ sent.length ∧
        output = (sent.drop got.length).take amount.toNat

section

variable {sent got : List Int} {memory : Memory}

/-- The consumer keeps what it has seen when more is published. -/
theorem ConsumerFact.publish {pc : Consumer} (hle : got.length ≤ sent.length)
    (values : List Int) (tail : Int) (h : ConsumerFact channel sent got memory pc) :
    ConsumerFact channel (sent ++ values) got { memory with tail } pc := by
  have hmore : ((sent ++ values).length : Int) = sent.length + values.length := by
    rw [length_append]
    omega
  have htake : ∀ {count : Nat}, (got.length : Int) + count ≤ sent.length →
      ((sent ++ values).drop got.length).take count = (sent.drop got.length).take count := by
    intro count hcount
    rw [drop_append_of_le_length hle, take_append_of_le_length]
    rw [length_drop]
    omega
  cases pc with
  | idle => trivial
  | receiveHead => trivial
  | receiveTail head => exact h
  | receiveLoad head => exact ⟨h.1, by rw [hmore]; have := h.2; omega⟩
  | receiveRelease head value =>
    refine ⟨h.1, by rw [hmore]; have := h.2.1; omega, ?_⟩
    rw [htake (by have := h.2.1; omega)]
    exact h.2.2
  | manyHead count => exact h
  | manyTail count head => exact h
  | manyFirst amount head => exact ⟨h.1, h.2.1, by rw [hmore]; have := h.2.2; omega⟩
  | manySecond amount head first output =>
    obtain ⟨hhead, hpos, hamount, hfirst, hless, hout⟩ := h
    refine ⟨hhead, hpos, by rw [hmore]; omega, hfirst, hless, ?_⟩
    rw [htake (by omega)]
    exact hout
  | manyRelease amount head output =>
    obtain ⟨hhead, hpos, hamount, hout⟩ := h
    refine ⟨hhead, hpos, by rw [hmore]; omega, ?_⟩
    rw [htake (by omega)]
    exact hout

/-- The producer keeps the room it has seen when more is released. -/
theorem ProducerFact.release {pc : Producer} (values : List Int) (head : Int)
    (h : ProducerFact channel sent got memory pc) :
    ProducerFact channel sent (got ++ values) { memory with head } pc := by
  have hmore : ((got ++ values).length : Int) = got.length + values.length := by
    rw [length_append]
    omega
  cases pc with
  | idle => trivial
  | sendTail value => trivial
  | sendHead value tail => exact h
  | sendStore value tail => exact ⟨h.1, by rw [hmore]; have := h.2; omega⟩
  | sendPublish value tail => exact ⟨h.1, by rw [hmore]; have := h.2.1; omega, h.2.2⟩
  | manyTail values count => exact h
  | manyHead values count tail => exact h
  | manyFirst values amount tail =>
    obtain ⟨htail, hpos, hamount, hroom⟩ := h
    exact ⟨htail, hpos, hamount, by rw [hmore]; omega⟩
  | manySecond values amount tail first =>
    obtain ⟨htail, hpos, hamount, hroom, hrest⟩ := h
    exact ⟨htail, hpos, hamount, by rw [hmore]; omega, hrest⟩
  | manyPublish values amount tail =>
    obtain ⟨htail, hpos, hamount, hroom, hholds⟩ := h
    exact ⟨htail, hpos, hamount, by rw [hmore]; omega, hholds⟩

theorem firstSpan_eq (hsound : Sound channel) (position amount : Int) :
    firstSpan channel (Word.wrap position) amount =
      min amount (channel.capacity - position % channel.capacity) := by
  unfold firstSpan
  simp only
  rw [hsound.slot_wrap]
  split <;> omega

/-! ## The accesses -/

theorem take_two_spans {α : Type} (values : List α) {first amount : Int} (h0 : 0 ≤ first)
    (h : first ≤ amount) :
    values.take first.toNat ++ (values.drop first.toNat).take (amount - first).toNat =
      values.take amount.toNat := by
  rw [← take_add]
  congr 1
  omega

section

variable {events : List Action} {state : State} {action : Action}

structure Consistent (channel : SpscI64) (events : List Action) (state : State) : Prop where
  memory : MemoryFact channel (published events) (obtained events) state.memory
  producer : ProducerFact channel (published events) (obtained events) state.memory
    state.producer
  consumer : ConsumerFact channel (published events) (obtained events) state.memory
    state.consumer

theorem Consistent.quiet {memory : Memory} {producer : Producer} {consumer : Consumer}
    (haction : action = .silent ∨ action = .full ∨ action = .empty)
    (hmemory : MemoryFact channel (published events) (obtained events) memory)
    (hproducer : ProducerFact channel (published events) (obtained events) memory producer)
    (hconsumer : ConsumerFact channel (published events) (obtained events) memory consumer) :
    Consistent channel (events ++ [action]) ⟨memory, producer, consumer⟩ := by
  have hpublished : published (events ++ [action]) = published events := by
    rcases haction with rfl | rfl | rfl <;> simp [published]
  have hobtained : obtained (events ++ [action]) = obtained events := by
    rcases haction with rfl | rfl | rfl <;> simp [obtained]
  constructor
  · rw [hpublished, hobtained]
    exact hmemory
  · rw [hpublished, hobtained]
    exact hproducer
  · rw [hpublished, hobtained]
    exact hconsumer

/-- The consumer does not look at the cells beyond what it has published to it. -/
theorem ConsumerFact.write {sent got : List Int} {memory : Memory} {pc : Consumer}
    (cells : List Int) (h : ConsumerFact channel sent got memory pc) :
    ConsumerFact channel sent got { memory with cells } pc := by
  cases pc <;> exact h

theorem Consistent.publish (h : Consistent channel events state) (values : List Int)
    (hroom : ((published events).length : Int) + values.length ≤
      (obtained events).length + channel.capacity)
    (hholds : Ring.Holds state.memory.cells (published events).length values) {tail : Int}
    (htail : tail = Word.wrap (state.memory.tail + values.length)) :
    Consistent channel (events ++ [.published values])
      { state with memory := { state.memory with tail }, producer := .idle } := by
  subst htail
  have hpublished : published (events ++ [.published values]) = published events ++ values := by
    simp [published]
  have hobtained : obtained (events ++ [.published values]) = obtained events := by
    simp [obtained]
  constructor
  · rw [hpublished, hobtained]
    exact h.memory.publish hroom hholds
  · trivial
  · rw [hpublished, hobtained]
    exact h.consumer.publish h.memory.got_prefix.length_le values _

theorem Consistent.release (h : Consistent channel events state) {values : List Int}
    {count : Nat} (hcount : (obtained events).length + count ≤ (published events).length)
    (hvals : values = ((published events).drop (obtained events).length).take count)
    {head : Int} (hhead : head = Word.wrap (state.memory.head + count)) :
    Consistent channel (events ++ [.obtained values])
      { state with memory := { state.memory with head }, consumer := .idle } := by
  subst hhead
  have hpublished : published (events ++ [.obtained values]) = published events := by
    simp [published]
  have hobtained : obtained (events ++ [.obtained values]) = obtained events ++ values := by
    simp [obtained]
  constructor
  · rw [hpublished, hobtained, hvals]
    exact h.memory.release hcount
  · rw [hpublished, hobtained]
    exact h.producer.release values _
  · trivial

theorem Consistent.produce (hsound : Sound channel) (h : Consistent channel events state)
    {memory : Memory} {pc : Producer}
    (hstep : produce channel state.memory state.producer = (action, memory, pc)) :
    Consistent channel (events ++ [action]) { state with memory, producer := pc } := by
  have hm := h.memory
  have hp := h.producer
  have hc := h.consumer
  have hdistance := hm.distance
  have hlen := hm.length
  have hlt := hsound.isCapacity.lt
  obtain ⟨hcell0, hcell1⟩ := hsound.emod_range (published events).length
  have hslot : slot channel state.memory.tail = (published events).length % channel.capacity := by
    rw [hm.tail_eq, hsound.slot_wrap]
  have hspan := firstSpan_eq hsound (published events).length
  rw [← hm.tail_eq] at hspan
  cases hold : state.producer with
  | idle =>
    rw [hold] at hstep
    cases hstep
    exact Consistent.quiet (.inl rfl) hm trivial hc
  | sendTail value =>
    rw [hold] at hstep
    cases hstep
    exact Consistent.quiet (.inl rfl) hm rfl hc
  | sendHead value tail =>
    rw [hold] at hstep hp
    have hp : tail = state.memory.tail := hp
    subst hp
    simp only [Spsc.produce] at hstep
    rw [hdistance] at hstep
    split at hstep
    · cases hstep
      exact Consistent.quiet (.inr (.inl rfl)) hm trivial hc
    · cases hstep
      exact Consistent.quiet (.inl rfl) hm ⟨rfl, by omega⟩ hc
  | sendStore value tail =>
    rw [hold] at hstep hp
    obtain ⟨rfl, hroom⟩ := hp
    cases hstep
    rw [hslot]
    have hwrite := hm.write _ [value] (Int.le_refl _) hroom
    have hnew := hm.span (published events).length [value] hcell1
    exact Consistent.quiet (.inl rfl) hwrite ⟨rfl, hroom, hnew⟩ (hc.write _)
  | sendPublish value tail =>
    rw [hold] at hstep hp
    obtain ⟨rfl, hroom, hholds⟩ := hp
    cases hstep
    exact h.publish [value] hroom hholds rfl
  | manyTail values count =>
    rw [hold] at hstep hp
    cases hstep
    exact Consistent.quiet (.inl rfl) hm ⟨rfl, hp⟩ hc
  | manyHead values count tail =>
    rw [hold] at hstep hp
    obtain ⟨rfl, hcount, hvals⟩ := hp
    simp only [Spsc.produce] at hstep
    have hroom := hm.room
    have hle := hm.got_prefix.length_le
    rw [hdistance, Word.wrap_of_range (by omega) (by omega)] at hstep
    -- The amount is the count, or what the head that was loaded leaves free.
    generalize hamount : (if count > channel.capacity -
        (((published events).length : Int) - (obtained events).length) then
      channel.capacity - (((published events).length : Int) - (obtained events).length)
      else count) = amount at hstep
    have hbound : amount ≤ count ∧ (published events).length + amount ≤
        (obtained events).length + channel.capacity := by
      rw [← hamount]
      split <;> omega
    split at hstep
    · cases hstep
      exact Consistent.quiet (.inr (.inl rfl)) hm trivial hc
    · cases hstep
      exact Consistent.quiet (.inl rfl) hm ⟨rfl, by omega, by omega, hbound.2⟩ hc
  | manyFirst values amount tail =>
    rw [hold] at hstep hp
    obtain ⟨rfl, hamount, hvals, hroom⟩ := hp
    simp only [Spsc.produce] at hstep
    rw [hspan, hslot] at hstep
    generalize hfirst : min amount (channel.capacity -
      (published events).length % channel.capacity) = first at hstep
    have hlength : ((values.take first.toNat).length : Int) = first := by
      rw [length_take]
      omega
    have hwrite := hm.write _ (values.take first.toNat) (Int.le_refl _) (by rw [hlength]; omega)
    have hnew := hm.span (published events).length (values.take first.toNat)
      (by rw [hlength]; omega)
    split at hstep
    · cases hstep
      exact Consistent.quiet (.inl rfl) hwrite
        ⟨rfl, hamount, hvals, hroom, by omega, by omega, hnew⟩ (hc.write _)
    -- The span of the batch ends before the end of the ring.
    have hwhole : first = amount := by omega
    subst hwhole
    cases hstep
    exact Consistent.quiet (.inl rfl) hwrite ⟨rfl, hamount, hvals, hroom, hnew⟩ (hc.write _)
  | manySecond values amount tail first =>
    rw [hold] at hstep hp
    obtain ⟨rfl, hamount, hvals, hroom, hfirst, hless, hholds⟩ := hp
    -- The rest goes to the positions after the first span, from the first cell on.
    generalize hrest : (values.drop first.toNat).take (amount - first).toNat = rest
    have hle := hm.got_prefix.length_le
    have hlength : (rest.length : Int) = amount - first := by
      rw [← hrest, length_take, length_drop]
      omega
    have htaken : ((values.take first.toNat).length : Int) = first := by
      rw [length_take]
      omega
    have hcell : ((published events).length + first) % channel.capacity = 0 := by
      rw [hfirst]
      exact Ring.emod_add_to_end _ _
    have hwrite := hm.write ((published events).length + first) rest (by omega) (by omega)
    have hnew := hm.span ((published events).length + first) rest (by rw [hcell]; omega)
    have hold := @Ring.Holds.writeSpan_other _ _ _ _ _ hholds rest
      ((published events).length + first) (by omega) (by omega)
    rw [hlen, hcell] at hold
    rw [hcell] at hwrite hnew
    have hboth := hold.append (by rw [htaken]; exact hnew) (by rw [Ring.length_writeSpan]; omega)
    rw [← hrest, take_two_spans values (by omega) (by omega)] at hboth
    simp only [Spsc.produce] at hstep
    rw [hrest] at hstep
    cases hstep
    rw [hrest] at hboth
    exact Consistent.quiet (.inl rfl) hwrite ⟨rfl, hamount, hvals, hroom, hboth⟩ (hc.write _)
  | manyPublish values amount tail =>
    rw [hold] at hstep hp
    obtain ⟨rfl, hamount, hvals, hroom, hholds⟩ := hp
    have hlength : ((values.take amount.toNat).length : Int) = amount := by
      rw [length_take]
      omega
    cases hstep
    exact h.publish _ (by rw [hlength]; exact hroom) hholds (by rw [hlength])

theorem Consistent.consume (hsound : Sound channel) (h : Consistent channel events state)
    {memory : Memory} {pc : Consumer}
    (hstep : consume channel state.memory state.consumer = (action, memory, pc)) :
    Consistent channel (events ++ [action]) { state with memory, consumer := pc } := by
  have hm := h.memory
  have hp := h.producer
  have hc := h.consumer
  have hdistance := hm.distance
  have hle := hm.got_prefix.length_le
  have hroom := hm.room
  have hslot : slot channel state.memory.head =
      ((obtained events).length + 0) % channel.capacity := by
    rw [hm.head_eq, hsound.slot_wrap, Int.add_zero]
  have hspan := firstSpan_eq hsound (obtained events).length
  rw [← hm.head_eq] at hspan
  obtain ⟨hcell0, hcell1⟩ := hsound.emod_range (obtained events).length
  cases hold : state.consumer with
  | idle =>
    rw [hold] at hstep
    cases hstep
    exact Consistent.quiet (.inl rfl) hm hp trivial
  | receiveHead =>
    rw [hold] at hstep
    cases hstep
    exact Consistent.quiet (.inl rfl) hm hp rfl
  | receiveTail head =>
    rw [hold] at hstep hc
    have hc : head = state.memory.head := hc
    subst hc
    simp only [Spsc.consume] at hstep
    split at hstep
    · cases hstep
      exact Consistent.quiet (.inr (.inr rfl)) hm hp trivial
    rename_i hne
    have hsome : (obtained events).length ≠ (published events).length := by
      intro heq
      exact hne (by rw [hm.head_eq, hm.tail_eq, heq])
    cases hstep
    exact Consistent.quiet (.inl rfl) hm hp ⟨rfl, by omega⟩
  | receiveLoad head =>
    rw [hold] at hstep hc
    obtain ⟨rfl, hsome⟩ := hc
    have hread := @Ring.Stream.read _ _ _ _ _ _ _ _ hm 0 1 (by omega) (by omega) (by omega)
      (by rw [Int.add_zero]; omega)
    rw [Ring.readSpan, Arena.range_singleton] at hread
    cases hstep
    rw [hslot]
    exact Consistent.quiet (.inl rfl) hm hp ⟨rfl, hsome, hread⟩
  | receiveRelease head value =>
    rw [hold] at hstep hc
    obtain ⟨rfl, hsome, hval⟩ := hc
    cases hstep
    exact h.release (by omega) hval rfl
  | manyHead count =>
    rw [hold] at hstep hc
    cases hstep
    exact Consistent.quiet (.inl rfl) hm hp ⟨rfl, hc⟩
  | manyTail count head =>
    rw [hold] at hstep hc
    obtain ⟨rfl, hcount⟩ := hc
    simp only [Spsc.consume] at hstep
    rw [hdistance] at hstep
    generalize hamount : (if ((published events).length : Int) - (obtained events).length > count
      then count else ((published events).length : Int) - (obtained events).length) =
        amount at hstep
    have hbound : (obtained events).length + amount ≤ (published events).length := by
      rw [← hamount]
      split <;> omega
    split at hstep
    · cases hstep
      exact Consistent.quiet (.inr (.inr rfl)) hm hp trivial
    · cases hstep
      exact Consistent.quiet (.inl rfl) hm hp ⟨rfl, by omega, hbound⟩
  | manyFirst amount head =>
    rw [hold] at hstep hc
    obtain ⟨rfl, hamount, hsome⟩ := hc
    simp only [Spsc.consume] at hstep
    rw [hspan, hslot] at hstep
    generalize hfirst : min amount (channel.capacity -
      (obtained events).length % channel.capacity) = first at hstep
    rw [hm.read (Int.le_refl _) (by omega) (by omega) (by rw [Int.add_zero]; omega)] at hstep
    split at hstep
    · cases hstep
      exact Consistent.quiet (.inl rfl) hm hp ⟨rfl, hamount, hsome, by omega, by omega, rfl⟩
    -- The span of the batch ends before the end of the ring.
    have hwhole : first = amount := by omega
    subst hwhole
    cases hstep
    exact Consistent.quiet (.inl rfl) hm hp ⟨rfl, hamount, hsome, rfl⟩
  | manySecond amount head first output =>
    rw [hold] at hstep hc
    obtain ⟨rfl, hamount, hsome, hfirst, hless, hout⟩ := hc
    have hcell : ((obtained events).length + first) % channel.capacity = 0 := by
      rw [hfirst]
      exact Ring.emod_add_to_end _ _
    have hread := @Ring.Stream.read _ _ _ _ _ _ _ _ hm first (amount - first) (by omega) (by omega)
      (by omega) (by rw [hcell]; omega)
    rw [hcell] at hread
    simp only [Spsc.consume] at hstep
    rw [hread, hout, take_two_spans _ (by omega) (by omega)] at hstep
    cases hstep
    exact Consistent.quiet (.inl rfl) hm hp ⟨rfl, hamount, hsome, rfl⟩
  | manyRelease amount head output =>
    rw [hold] at hstep hc
    obtain ⟨rfl, hamount, hsome, hout⟩ := hc
    cases hstep
    exact h.release (by omega) hout (by rw [show (amount.toNat : Int) = amount by omega])

/-! ## The copies -/

theorem Consistent.writes_free (hsound : Sound channel) (h : Consistent channel events state) :
    ∀ cell ∈ writes channel state.producer, ¬ Occupied channel events cell := by
  have hm := h.memory
  have hp := h.producer
  have hle := hm.got_prefix.length_le
  obtain ⟨hcell0, hcell1⟩ := hsound.emod_range (published events).length
  have hslot : slot channel state.memory.tail = (published events).length % channel.capacity := by
    rw [hm.tail_eq, hsound.slot_wrap]
  -- A cell of a position behind the tail is not one of a position before it.
  have hfree : ∀ position : Int, (published events).length ≤ position →
      position < (obtained events).length + channel.capacity →
      ¬ Occupied channel events (position % channel.capacity) := by
    rintro position hge hlt ⟨other, hother, hbefore, heq⟩
    rw [hsound.slot_eq] at heq
    have := Ring.eq_of_emod_eq heq (by omega) (by omega)
    omega
  intro cell hcell
  cases hold : state.producer with
  | sendStore value tail =>
    rw [hold] at hp hcell
    obtain ⟨rfl, hroom⟩ := hp
    rcases mem_singleton.mp hcell with rfl
    rw [hslot]
    exact hfree _ (Int.le_refl _) (by omega)
  | manyFirst values amount tail =>
    rw [hold] at hp hcell
    obtain ⟨rfl, hamount, hvals, hroom⟩ := hp
    have hfirst := firstSpan_eq hsound (published events).length amount
    rw [← hm.tail_eq] at hfirst
    have hcell := Arena.mem_range.mp hcell
    rw [hslot, hfirst] at hcell
    have hpos : ((published events).length +
        (cell - (published events).length % channel.capacity)) % channel.capacity = cell := by
      rw [Ring.emod_add_of_lt hsound.isCapacity.pos (by omega) (by omega)]
      omega
    rw [← hpos]
    exact hfree _ (by omega) (by omega)
  | manySecond values amount tail first =>
    rw [hold] at hp hcell
    obtain ⟨rfl, hamount, hvals, hroom, hfirst, hless, hholds⟩ := hp
    have hcell := Arena.mem_range.mp hcell
    have hzero : ((published events).length + first) % channel.capacity = 0 := by
      rw [hfirst]
      exact Ring.emod_add_to_end _ _
    have hpos : ((published events).length + first + cell) % channel.capacity = cell := by
      rw [Ring.emod_add_of_lt hsound.isCapacity.pos (by omega) (by omega), hzero, Int.zero_add]
    rw [← hpos]
    exact hfree _ (by omega) (by omega)
  | _ =>
    rw [hold] at hcell
    cases hcell

theorem Consistent.reads_occupied (hsound : Sound channel) (h : Consistent channel events state) :
    ∀ cell ∈ reads channel state.consumer, Occupied channel events cell := by
  have hm := h.memory
  have hc := h.consumer
  have hroom := hm.room
  obtain ⟨hcell0, hcell1⟩ := hsound.emod_range (obtained events).length
  have hslot : slot channel state.memory.head = (obtained events).length % channel.capacity := by
    rw [hm.head_eq, hsound.slot_wrap]
  intro cell hcell
  cases hold : state.consumer with
  | receiveLoad head =>
    rw [hold] at hc hcell
    obtain ⟨rfl, hsome⟩ := hc
    rcases mem_singleton.mp hcell with rfl
    rw [hslot]
    exact ⟨_, Int.le_refl _, by omega, hsound.slot_eq _⟩
  | manyFirst amount head =>
    rw [hold] at hc hcell
    obtain ⟨rfl, hamount, hsome⟩ := hc
    have hfirst := firstSpan_eq hsound (obtained events).length amount
    rw [← hm.head_eq] at hfirst
    have hcell := Arena.mem_range.mp hcell
    rw [hslot, hfirst] at hcell
    refine ⟨(obtained events).length + (cell - (obtained events).length % channel.capacity),
      by omega, by omega, ?_⟩
    rw [hsound.slot_eq, Ring.emod_add_of_lt hsound.isCapacity.pos (by omega) (by omega)]
    omega
  | manySecond amount head first output =>
    rw [hold] at hc hcell
    obtain ⟨rfl, hamount, hsome, hfirst, hless, hout⟩ := hc
    have hcell := Arena.mem_range.mp hcell
    have hzero : ((obtained events).length + first) % channel.capacity = 0 := by
      rw [hfirst]
      exact Ring.emod_add_to_end _ _
    refine ⟨(obtained events).length + first + cell, by omega, by omega, ?_⟩
    rw [hsound.slot_eq, Ring.emod_add_of_lt hsound.isCapacity.pos (by omega) (by omega), hzero,
      Int.zero_add]
  | _ =>
    rw [hold] at hcell
    cases hcell

/-! ## Runs -/

theorem Consistent.step (hsound : Sound channel) (h : Consistent channel events state)
    {after : State} (hstep : Step channel state action after) :
    Consistent channel (events ++ [action]) after := by
  cases hstep with
  | trySend value _ _ => exact Consistent.quiet (.inl rfl) h.memory trivial h.consumer
  | trySendMany values count _ _ hcount hvals =>
    exact Consistent.quiet (.inl rfl) h.memory ⟨hcount, hvals⟩ h.consumer
  | tryReceive _ _ => exact Consistent.quiet (.inl rfl) h.memory h.producer trivial
  | tryReceiveMany count _ _ hcount =>
    exact Consistent.quiet (.inl rfl) h.memory h.producer hcount
  | produce _ hnext => exact h.produce hsound hnext
  | consume _ hnext => exact h.consume hsound hnext

theorem run_consistent (hsound : Sound channel)
    (hrun : Run (interleavings channel) events state) : Consistent channel events state := by
  refine hrun.invariant (Consistent channel) (fun start hstart => ?_)
    (fun _ _ _ _ h hstep => h.step hsound hstep)
  obtain ⟨hhead, htail, hlen, hproducer, hconsumer⟩ := hstart
  refine ⟨?_, ?_, ?_⟩
  · unfold MemoryFact
    rw [hhead, htail]
    exact Ring.Stream.start hsound.isCapacity hlen
  · rw [hproducer]
    trivial
  · rw [hconsumer]
    trivial

theorem run_of_invalid (hinvalid : valid channel = false)
    (hrun : Run (interleavings channel) events state) :
    events = [] ∧ state.memory.head = 0 ∧ state.memory.tail = 0 ∧
      state.producer = .idle ∧ state.consumer = .idle := by
  refine hrun.invariant (fun events state => events = [] ∧ state.memory.head = 0 ∧
    state.memory.tail = 0 ∧ state.producer = .idle ∧ state.consumer = .idle) ?_ ?_
  · rintro start ⟨hhead, htail, _, hproducer, hconsumer⟩
    exact ⟨rfl, hhead, htail, hproducer, hconsumer⟩
  rintro _ middle _ _ ⟨_, _, _, hproducer, hconsumer⟩ hstep
  cases hstep with
  | trySend _ hvalid _ => rw [hinvalid] at hvalid; cases hvalid
  | trySendMany _ _ hvalid _ _ _ => rw [hinvalid] at hvalid; cases hvalid
  | tryReceive hvalid _ => rw [hinvalid] at hvalid; cases hvalid
  | tryReceiveMany _ hvalid _ _ => rw [hinvalid] at hvalid; cases hvalid
  | produce hbusy _ => exact absurd hproducer hbusy
  | consume hbusy _ => exact absurd hconsumer hbusy

/-- The consumer's values, with those of a batch half copied, are the first the producer
enqueued. -/
theorem Consistent.obtained_prefix (h : Consistent channel events state) :
    obtained events ++ inHand state.consumer <+: published events := by
  have hc := h.consumer
  have hgot := h.memory.got_prefix
  -- What is in hand is the front of what is waiting.
  have hfront : ∀ {output : List Int} {count : Nat},
      output = ((published events).drop (obtained events).length).take count →
      obtained events ++ output <+: published events := by
    rintro output count rfl
    refine ⟨((published events).drop (obtained events).length).drop count, ?_⟩
    rw [append_assoc, take_append_drop]
    exact prefix_iff_eq_append.mp hgot
  cases hold : state.consumer with
  | receiveRelease head value =>
    rw [hold] at hc
    exact hfront hc.2.2
  | manySecond amount head first output =>
    rw [hold] at hc
    exact hfront hc.2.2.2.2.2
  | manyRelease amount head output =>
    rw [hold] at hc
    exact hfront hc.2.2.2
  | _ =>
    simp only [inHand, append_nil]
    exact hgot

/-- Along every interleaving the consumer's values are the first the producer enqueued, the
distance of the counters is between 0 and the capacity, and no copy reads a slot not yet
published or overwrites one not yet released. -/
theorem batches_in_order {requested : Int} {allocated : Bool}
    (hrun : Run (interleavings (create requested allocated)) events state) :
    (obtained events ++ inHand state.consumer <+: published events) ∧
    (0 ≤ Word.wrap (state.memory.tail - state.memory.head) ∧
      Word.wrap (state.memory.tail - state.memory.head) ≤
        (create requested allocated).capacity) ∧
    (∀ cell ∈ reads (create requested allocated) state.consumer,
      Occupied (create requested allocated) events cell) ∧
    (∀ cell ∈ writes (create requested allocated) state.producer,
      ¬ Occupied (create requested allocated) events cell) := by
  cases hvalid : valid (create requested allocated) with
  | false =>
    obtain ⟨rfl, hhead, htail, hproducer, hconsumer⟩ := run_of_invalid hvalid hrun
    rw [hhead, htail, hproducer, hconsumer]
    refine ⟨prefix_rfl, ⟨by decide, ?_⟩, fun _ h => absurd h not_mem_nil,
      fun _ h => absurd h not_mem_nil⟩
    rw [create_invalid hvalid]
    decide
  | true =>
    have hsound := create_sound hvalid
    have h := run_consistent hsound hrun
    have hle := h.memory.got_prefix.length_le
    have hroom := h.memory.room
    rw [h.memory.distance]
    exact ⟨h.obtained_prefix, ⟨by omega, by omega⟩, h.reads_occupied hsound, h.writes_free hsound⟩

end

end

/-- A batch that wraps around is sent and received while the consumer is half way through. -/
theorem batches_in_order_wrapped :
    ∃ (events : List Action) (state : State),
      Run (interleavings (create 2 true)) events state ∧
        obtained events = [7] ∧ inHand state.consumer = [8] ∧ [7, 8] <+: published events := by
  have h0 : Run (interleavings (create 2 true)) [] ⟨⟨0, 0, [0, 0]⟩, .idle, .idle⟩ :=
    Run.start ⟨rfl, rfl, rfl, rfl, rfl⟩
  have h1 := Run.next h0 (Step.trySend 7 rfl rfl)
  have h2 := Run.next h1 (Step.produce (by decide) rfl)
  have h3 := Run.next h2 (Step.produce (by decide) rfl)
  have h4 := Run.next h3 (Step.produce (by decide) rfl)
  have h5 := Run.next h4 (Step.produce (by decide) rfl)
  have h6 := Run.next h5 (Step.tryReceive rfl rfl)
  have h7 := Run.next h6 (Step.consume (by decide) rfl)
  have h8 := Run.next h7 (Step.consume (by decide) rfl)
  have h9 := Run.next h8 (Step.consume (by decide) rfl)
  have h10 := Run.next h9 (Step.consume (by decide) rfl)
  have h11 := Run.next h10 (Step.trySendMany [8, 9] 2 rfl rfl (by decide) (by decide))
  have h12 := Run.next h11 (Step.produce (by decide) rfl)
  have h13 := Run.next h12 (Step.produce (by decide) rfl)
  have h14 := Run.next h13 (Step.produce (by decide) rfl)
  have h15 := Run.next h14 (Step.produce (by decide) rfl)
  have h16 := Run.next h15 (Step.produce (by decide) rfl)
  have h17 := Run.next h16 (Step.tryReceiveMany 2 rfl rfl (by decide))
  have h18 := Run.next h17 (Step.consume (by decide) rfl)
  have h19 := Run.next h18 (Step.consume (by decide) rfl)
  have h20 := Run.next h19 (Step.consume (by decide) rfl)
  obtain ⟨horder, _⟩ := batches_in_order h20
  exact ⟨_, _, h20, by decide, by decide, horder⟩

end Raz.Thread.Spsc
