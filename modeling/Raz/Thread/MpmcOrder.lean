import Raz.Thread.Mpmc

/-!
# The order of the queue of many producers and consumers

The sequence word of a slot tells who owns it. For the position `p` of the slot in the window of
the last `capacity` claims it is `p` while the producer writes, `p + 1` when the value is there,
and `p + capacity` when the consumer has left. A thread that is about to claim a position holds
a stale copy of it, which is of use only while the position is still the next one, and then the
word is as the thread has seen it.

Result: `fifo`: values, order, capacity and ownership along every run.
-/

namespace Raz.Thread.Mpmc

open Transition List Arena Function

variable {action : Action}

/-! ## Queues that were created -/

/-- What `create` guarantees of a valid queue. -/
structure Sound (queue : MpmcI64) : Prop where
  isCapacity : Ring.IsCapacity queue.capacity
  two_le : 2 ≤ queue.capacity
  mask_eq : queue.mask = queue.capacity - 1

theorem create_sound {requested : Int} {allocated : Bool}
    (h : valid (create requested allocated) = true) : Sound (create requested allocated) := by
  unfold create at h ⊢
  simp only at h ⊢
  split at h
  · cases h
  rename_i hvalid
  rw [if_neg hvalid]
  rcases @normalizedCapacity_spec 576460752303423479 requested (by decide) 1 (by decide) with
    hzero | ⟨j, h1, hj, heq, _⟩
  · exact absurd (.inl hzero) hvalid
  have heq' : normalizedCapacity 2 576460752303423479 requested = 2 ^ j := heq
  refine ⟨⟨j, by omega, heq'⟩, ?_, rfl⟩
  show 2 ≤ normalizedCapacity 2 576460752303423479 requested
  rw [heq']
  obtain ⟨i, rfl⟩ : ∃ i, j = i + 1 := ⟨j - 1, by omega⟩
  have hpos : (0 : Int) < 2 ^ i := Int.pow_pos (by decide)
  rw [Int.pow_succ]
  omega

variable {queue : MpmcI64}

section

variable (h : Sound queue)

include h

theorem Sound.slot_eq (position : Int) :
    slot queue position = position % queue.capacity := by
  unfold slot
  rw [h.mask_eq]
  exact Ring.slot_eq h.isCapacity position

theorem Sound.slot_range (position : Int) :
    0 ≤ slot queue position ∧ slot queue position < queue.capacity := by
  have := h.two_le
  rw [h.slot_eq]
  exact ⟨Int.emod_nonneg _ (by omega), Int.emod_lt_of_pos _ (by omega)⟩

theorem Sound.slot_injective {left right : Int}
    (heq : slot queue left = slot queue right) (hlt : left < right + queue.capacity)
    (hgt : right < left + queue.capacity) : left = right := by
  rw [h.slot_eq, h.slot_eq] at heq
  exact Ring.eq_of_emod_eq heq hlt hgt

theorem Sound.slot_lap (position : Int) :
    slot queue (position + queue.capacity) = slot queue position := by
  rw [h.slot_eq, h.slot_eq, Ring.emod_add_capacity]

end

/-! ## The invariant -/

/-- The sequence word of the slot of a position. -/
def Memory.word (memory : Memory) (queue : MpmcI64) (position : Int) : Int :=
  Arena.get memory.sequence (slot queue position)

/-- The value word of the slot of a position. -/
def Memory.stored (memory : Memory) (queue : MpmcI64) (position : Int) : Int :=
  Arena.get memory.values (slot queue position)

/-- `position` is claimed by a producer that has not published it. -/
structure Writing (queue : MpmcI64) (memory : Memory) (position : Int) : Prop where
  ge : memory.dequeue ≤ position
  lt : position < memory.enqueue
  word : memory.word queue position = position

/-- `position` is claimed by a consumer that has not released it, and its value is there. -/
structure Reading (queue : MpmcI64) (sent : List Int) (memory : Memory) (position : Int) :
    Prop where
  nonneg : 0 ≤ position
  lt : position < memory.dequeue
  window : memory.enqueue ≤ position + queue.capacity
  word : memory.word queue position = position + 1
  value : sent[position.toNat]? = some (memory.stored queue position)

/-- What a thread can rely on before its next access. -/
def PcFact (queue : MpmcI64) (sent : List Int) (memory : Memory) : Pc → Prop
  | .idle | .sendLoad _ | .receiveLoad => True
  | .sendObserve _ position => 0 ≤ position ∧ position ≤ memory.enqueue
  | .sendExchange _ position =>
      0 ≤ position ∧ position ≤ memory.enqueue ∧
        (position = memory.enqueue → memory.word queue position = position)
  | .sendWrite value position =>
      Writing queue memory position ∧ sent[position.toNat]? = some value
  | .sendPublish value position =>
      Writing queue memory position ∧ sent[position.toNat]? = some value ∧
        memory.stored queue position = value
  | .receiveObserve position => 0 ≤ position ∧ position ≤ memory.dequeue
  | .receiveExchange position =>
      0 ≤ position ∧ position ≤ memory.dequeue ∧
        (position = memory.dequeue →
          position < memory.enqueue ∧ memory.word queue position = position + 1)
  | .receiveRead position => Reading queue sent memory position
  | .receiveRelease position value =>
      Reading queue sent memory position ∧ sent[position.toNat]? = some value

/-- The owner of a slot, by the position of the window it has. -/
def SlotFact (queue : MpmcI64) (sent : List Int) (memory : Memory) (position : Int) : Prop :=
  (memory.dequeue ≤ position → memory.word queue position = position ∨
    (memory.word queue position = position + 1 ∧
      sent[position.toNat]? = some (memory.stored queue position))) ∧
  (position < memory.dequeue → memory.word queue position = position + 1 ∨
    memory.word queue position = position + queue.capacity)

/-- The shared words. -/
structure MemoryFact (queue : MpmcI64) (sent : List Int) (memory : Memory) : Prop where
  sequence_length : (memory.sequence.length : Int) = queue.capacity
  values_length : (memory.values.length : Int) = queue.capacity
  enqueue_eq : memory.enqueue = sent.length
  dequeue_nonneg : 0 ≤ memory.dequeue
  dequeue_le : memory.dequeue ≤ memory.enqueue
  window : memory.enqueue ≤ memory.dequeue + queue.capacity
  range : ∀ index, 0 ≤ Arena.get memory.sequence index ∧
    Arena.get memory.sequence index < memory.enqueue + queue.capacity
  bound : memory.enqueue < 2 ^ 63 - queue.capacity
  slots : ∀ position, memory.enqueue - queue.capacity ≤ position → position < memory.enqueue →
    SlotFact queue sent memory position

/-! ## Memory updates -/

section

variable {memory : Memory} {sent : List Int} {position other word value : Int}

theorem word_setSequence_self (hsound : Sound queue)
    (hlen : (memory.sequence.length : Int) = queue.capacity)
    (h : slot queue other = slot queue position) :
    (memory.setSequence (slot queue position) word).word queue other = word := by
  obtain ⟨h0, h1⟩ := hsound.slot_range position
  unfold Memory.word Memory.setSequence
  rw [h]
  exact get_set_self h0 (by omega)

theorem word_setSequence_other (h : slot queue other ≠ slot queue position) :
    (memory.setSequence (slot queue position) word).word queue other = memory.word queue other :=
  get_set_ne (fun heq => h heq.symm)

theorem stored_setValue_self (hsound : Sound queue)
    (hlen : (memory.values.length : Int) = queue.capacity) :
    (memory.setValue (slot queue position) value).stored queue position = value := by
  obtain ⟨h0, h1⟩ := hsound.slot_range position
  exact get_set_self h0 (by omega)

theorem stored_setValue_other (h : slot queue other ≠ slot queue position) :
    (memory.setValue (slot queue position) value).stored queue other = memory.stored queue other :=
  get_set_ne (fun heq => h heq.symm)

theorem word_congr (memory : Memory) (h : slot queue other = slot queue position) :
    memory.word queue other = memory.word queue position := by
  unfold Memory.word
  rw [h]

theorem slot_ne_of_word {word' : Int} (h : memory.word queue other = word)
    (h' : memory.word queue position = word') (hne : word ≠ word') :
    slot queue other ≠ slot queue position :=
  fun heq => hne (h.symm.trans ((word_congr memory heq).trans h'))

theorem getElem?_grow {index : Nat} (h : sent[index]? = some value) (more : List Int) :
    (sent ++ more)[index]? = some value := by
  rw [List.getElem?_append_left (List.getElem?_eq_some_iff.mp h).1]
  exact h

/-- A slot is read in one lap and written in another, never both. -/
theorem Writing.slot_ne_of_reading (hsound : Sound queue) (hwriting : Writing queue memory position)
    (hword : memory.word queue other = other + 1) : slot queue other ≠ slot queue position := by
  intro heq
  have hcongr := word_congr memory heq
  rw [hword, hwriting.word] at hcongr
  have htwo := hsound.two_le
  have := hsound.slot_injective heq (by omega) (by omega)
  omega

end

/-! ## One access -/

section

variable {memory : Memory} {sent : List Int} {position value : Int} {pc : Pc}

section

variable (hsound : Sound queue) (hm : MemoryFact queue sent memory)
  (hword : memory.word queue memory.enqueue = memory.enqueue)

include hsound hm hword

/-- The slot of the next position is free only when its last position was released. -/
theorem MemoryFact.window_lt : memory.enqueue < memory.dequeue + queue.capacity := by
  have htwo := hsound.two_le
  have hwindow := hm.window
  rcases Int.lt_or_eq_of_le hwindow with hlt | heq
  · exact hlt
  have hslot : slot queue memory.dequeue = slot queue memory.enqueue := by
    rw [heq, hsound.slot_lap]
  have hcongr := word_congr memory hslot
  obtain ⟨hback, _⟩ := hm.slots memory.dequeue (by omega) (by omega)
  rcases hback (Int.le_refl _) with hback | ⟨hback, _⟩
  · omega
  · omega

theorem MemoryFact.claim (hbound : memory.enqueue + 1 < 2 ^ 63 - queue.capacity) (value : Int) :
    MemoryFact queue (sent ++ [value]) { memory with enqueue := memory.enqueue + 1 } where
  sequence_length := hm.sequence_length
  values_length := hm.values_length
  enqueue_eq := by
    have := hm.enqueue_eq
    simp only [length_append, length_singleton]
    omega
  dequeue_nonneg := hm.dequeue_nonneg
  dequeue_le := by
    have := hm.dequeue_le
    simp only
    omega
  window := by
    have := hm.window_lt hsound hword
    simp only
    omega
  range := fun index => by
    obtain ⟨h0, h1⟩ := hm.range index
    exact ⟨h0, by simp only; omega⟩
  bound := hbound
  slots := fun p hge hlt => by
    have hle := hm.dequeue_le
    simp only at hge hlt
    rcases Int.lt_or_eq_of_le (Int.lt_add_one_iff.mp hlt) with hlt | rfl
    · obtain ⟨hback, hfront⟩ := hm.slots p (by omega) hlt
      refine ⟨fun h => ?_, hfront⟩
      rcases hback h with hback | ⟨hback, hval⟩
      · exact .inl hback
      · exact .inr ⟨hback, getElem?_grow hval [value]⟩
    · exact ⟨fun _ => .inl hword, fun h => absurd h (by simp only; omega)⟩

end

/-- What a thread relies on carries over to a later memory, if what it holds does. -/
theorem PcFact.carry {sent' : List Int} {memory' : Memory} (h : PcFact queue sent memory pc)
    (henqueue : memory.enqueue ≤ memory'.enqueue) (hdequeue : memory.dequeue ≤ memory'.dequeue)
    (hsent : ∀ {index : Nat} {v}, sent[index]? = some v → sent'[index]? = some v)
    (hwriting : ∀ {p}, held pc = some p → Writing queue memory p →
      Writing queue memory' p ∧ memory'.stored queue p = memory.stored queue p)
    (hreading : ∀ {p}, held pc = some p → Reading queue sent memory p →
      Reading queue sent' memory' p)
    (hnext : memory'.enqueue = memory.enqueue →
      memory.word queue memory.enqueue = memory.enqueue →
      memory'.word queue memory.enqueue = memory.enqueue)
    (hfirst : memory'.dequeue = memory.dequeue →
      memory.word queue memory.dequeue = memory.dequeue + 1 →
      memory'.word queue memory.dequeue = memory.dequeue + 1) : PcFact queue sent' memory' pc := by
  cases pc with
  | idle => trivial
  | sendLoad v => trivial
  | receiveLoad => trivial
  | sendObserve v p => exact ⟨h.1, Int.le_trans h.2 henqueue⟩
  | sendExchange v p =>
    obtain ⟨h0, hle, hword⟩ := h
    refine ⟨h0, Int.le_trans hle henqueue, fun heq => ?_⟩
    obtain rfl : p = memory.enqueue := by omega
    exact hnext heq.symm (hword rfl)
  | sendWrite v p => exact ⟨(hwriting rfl h.1).1, hsent h.2⟩
  | sendPublish v p =>
    obtain ⟨hw, hstored⟩ := hwriting rfl h.1
    exact ⟨hw, hsent h.2.1, hstored.trans h.2.2⟩
  | receiveObserve p => exact ⟨h.1, Int.le_trans h.2 hdequeue⟩
  | receiveExchange p =>
    obtain ⟨h0, hle, hword⟩ := h
    refine ⟨h0, Int.le_trans hle hdequeue, fun heq => ?_⟩
    obtain rfl : p = memory.dequeue := by omega
    obtain ⟨hlt, hword⟩ := hword rfl
    exact ⟨Int.lt_of_lt_of_le hlt henqueue, hfirst heq.symm hword⟩
  | receiveRead p => exact hreading rfl h
  | receiveRelease p v => exact ⟨hreading rfl h.1, hsent h.2⟩

theorem PcFact.claim (hsound : Sound queue)
    (hword : memory.word queue memory.enqueue = memory.enqueue) (value : Int)
    (h : PcFact queue sent memory pc) :
    PcFact queue (sent ++ [value]) { memory with enqueue := memory.enqueue + 1 } pc := by
  refine h.carry (Int.le_of_lt (Int.lt_succ _)) (Int.le_refl _) (fun h => getElem?_grow h [value])
    (fun _ hw => ⟨⟨hw.ge, Int.lt_trans hw.lt (Int.lt_succ _), hw.word⟩, rfl⟩)
    (fun {p} _ hr => ⟨hr.nonneg, hr.lt, ?_, hr.word, getElem?_grow hr.value [value]⟩)
    (fun _ hword => hword) (fun _ hword => hword)
  have htwo := hsound.two_le
  rcases Int.lt_or_eq_of_le hr.window with hlt | heq
  · exact hlt
  -- A lap behind, the consumer would still hold the slot that the producer has seen free.
  have hslot : slot queue p = slot queue memory.enqueue := by
    rw [heq, hsound.slot_lap]
  have hcongr := word_congr memory hslot
  rw [hr.word, hword] at hcongr
  omega

theorem MemoryFact.take (hm : MemoryFact queue sent memory) (hlt : memory.dequeue < memory.enqueue)
    (hword : memory.word queue memory.dequeue = memory.dequeue + 1) :
    MemoryFact queue sent { memory with dequeue := memory.dequeue + 1 } where
  sequence_length := hm.sequence_length
  values_length := hm.values_length
  enqueue_eq := hm.enqueue_eq
  dequeue_nonneg := by
    have := hm.dequeue_nonneg
    simp only
    omega
  dequeue_le := hlt
  window := by
    have := hm.window
    simp only
    omega
  range := hm.range
  bound := hm.bound
  slots := fun p hge hlt' => by
    obtain ⟨hback, hfront⟩ := hm.slots p hge hlt'
    refine ⟨fun h => hback (by simp only at h; omega), fun h => ?_⟩
    rcases Int.lt_or_eq_of_le (Int.lt_add_one_iff.mp h) with hlt | rfl
    · exact hfront hlt
    · exact .inl hword

theorem PcFact.take (hword : memory.word queue memory.dequeue = memory.dequeue + 1)
    (h : PcFact queue sent memory pc) :
    PcFact queue sent { memory with dequeue := memory.dequeue + 1 } pc := by
  refine h.carry (Int.le_refl _) (Int.le_of_lt (Int.lt_succ _)) id
    (fun _ hw => ⟨⟨?_, hw.lt, hw.word⟩, rfl⟩)
    (fun _ hr => ⟨hr.nonneg, Int.lt_trans hr.lt (Int.lt_succ _), hr.window, hr.word, hr.value⟩)
    (fun _ hword => hword) (fun _ hword => hword)
  rcases Int.lt_or_eq_of_le hw.ge with hlt | rfl
  · exact hlt
  · have := hw.word
    omega

theorem MemoryFact.write (hsound : Sound queue) (hm : MemoryFact queue sent memory)
    (hw : Writing queue memory position) (value : Int) :
    MemoryFact queue sent (memory.setValue (slot queue position) value) :=
  { hm with
    values_length := by
      unfold Memory.setValue
      rw [Arena.length_set]
      exact hm.values_length
    slots := fun p hge hlt => by
      obtain ⟨hback, hfront⟩ := hm.slots p hge hlt
      refine ⟨fun h => ?_, hfront⟩
      rcases hback h with hback | ⟨hback, hval⟩
      · exact .inl hback
      · refine .inr ⟨hback, ?_⟩
        rw [stored_setValue_other (hw.slot_ne_of_reading hsound hback)]
        exact hval }

/-- The value word of a slot is of no concern to the threads that do not hold it. -/
theorem PcFact.write (hsound : Sound queue) (hw : Writing queue memory position) (value : Int)
    (hheld : held pc ≠ some position) (h : PcFact queue sent memory pc) :
    PcFact queue sent (memory.setValue (slot queue position) value) pc := by
  refine h.carry (Int.le_refl _) (Int.le_refl _) id
    (fun hp hw' => ⟨⟨hw'.ge, hw'.lt, hw'.word⟩, stored_setValue_other ?_⟩)
    (fun _ hr => ⟨hr.nonneg, hr.lt, hr.window, hr.word, ?_⟩) (fun _ hword => hword)
    (fun _ hword => hword)
  · exact slot_ne_of_word hw'.word hw.word (fun heq => hheld (heq ▸ hp))
  · rw [stored_setValue_other (hw.slot_ne_of_reading hsound hr.word)]
    exact hr.value

theorem MemoryFact.setSequence (hsound : Sound queue) (hm : MemoryFact queue sent memory)
    {word : Int} (h0 : 0 ≤ word) (h1 : word < memory.enqueue + queue.capacity)
    (hge : memory.enqueue - queue.capacity ≤ position) (hlt : position < memory.enqueue)
    (hslot : (memory.setSequence (slot queue position) word).word queue position = word →
      SlotFact queue sent (memory.setSequence (slot queue position) word) position) :
    MemoryFact queue sent (memory.setSequence (slot queue position) word) :=
  { hm with
    sequence_length := by
      unfold Memory.setSequence
      rw [Arena.length_set]
      exact hm.sequence_length
    range := fun index => by
      obtain ⟨hfirst, hlast⟩ := hsound.slot_range position
      have hlen := hm.sequence_length
      unfold Memory.setSequence
      rw [get_set hfirst (by omega)]
      split
      · exact ⟨h0, h1⟩
      · exact hm.range index
    slots := fun p hge' hlt' => by
      simp only [Memory.setSequence] at hge' hlt'
      by_cases heq : slot queue p = slot queue position
      · obtain rfl := hsound.slot_injective heq (by omega) (by omega)
        exact hslot (word_setSequence_self hsound hm.sequence_length rfl)
      have hother := hm.slots p hge' hlt'
      unfold SlotFact at hother ⊢
      rw [word_setSequence_other heq]
      exact hother }

theorem PcFact.setSequence (word : Int) (hheld : held pc ≠ some position)
    (h : PcFact queue sent memory pc)
    (hwriting : ∀ {p}, p ≠ position → Writing queue memory p →
      slot queue p ≠ slot queue position)
    (hreading : ∀ {p}, p ≠ position → Reading queue sent memory p →
      slot queue p ≠ slot queue position)
    (hnext : memory.word queue memory.enqueue = memory.enqueue →
      slot queue memory.enqueue ≠ slot queue position)
    (hfirst : memory.word queue memory.dequeue = memory.dequeue + 1 →
      slot queue memory.dequeue ≠ slot queue position) :
    PcFact queue sent (memory.setSequence (slot queue position) word) pc := by
  have hne {p : Int} (hp : held pc = some p) : p ≠ position := fun heq => hheld (heq ▸ hp)
  refine h.carry (Int.le_refl _) (Int.le_refl _) id (fun hp hw => ⟨⟨hw.ge, hw.lt, ?_⟩, rfl⟩)
    (fun hp hr => ⟨hr.nonneg, hr.lt, hr.window, ?_, hr.value⟩)
    (fun _ hword => (word_setSequence_other (hnext hword)).trans hword)
    (fun _ hword => (word_setSequence_other (hfirst hword)).trans hword)
  · exact (word_setSequence_other (hwriting (hne hp) hw)).trans hw.word
  · exact (word_setSequence_other (hreading (hne hp) hr)).trans hr.word

section

variable (hsound : Sound queue)

include hsound

theorem MemoryFact.publish (hm : MemoryFact queue sent memory)
    (hw : Writing queue memory position)
    (hval : sent[position.toNat]? = some (memory.stored queue position)) :
    MemoryFact queue sent (memory.setSequence (slot queue position) (position + 1)) := by
  have hge := hw.ge
  have hlt := hw.lt
  have hnonneg := hm.dequeue_nonneg
  have hwindow := hm.window
  exact hm.setSequence hsound (by omega) (by omega) (by omega) hlt fun hword =>
    ⟨fun _ => .inr ⟨hword, hval⟩, fun h => absurd h (Int.not_lt.mpr hge)⟩

theorem PcFact.publish (hw : Writing queue memory position)
    (hheld : held pc ≠ some position) (h : PcFact queue sent memory pc) :
    PcFact queue sent (memory.setSequence (slot queue position) (position + 1)) pc :=
  h.setSequence _ hheld (fun hne hw' => slot_ne_of_word hw'.word hw.word hne)
    (fun _ hr => hw.slot_ne_of_reading hsound hr.word)
    (fun hword => slot_ne_of_word hword hw.word (Int.ne_of_gt hw.lt))
    (fun hword => hw.slot_ne_of_reading hsound hword)

theorem MemoryFact.release (hm : MemoryFact queue sent memory)
    (hr : Reading queue sent memory position) :
    MemoryFact queue sent
      (memory.setSequence (slot queue position) (position + queue.capacity)) := by
  have hlt := hr.lt
  have hnonneg := hr.nonneg
  have hwindow := hr.window
  have hle := hm.dequeue_le
  exact hm.setSequence hsound (by omega) (by omega) (by omega) (by omega) fun hword =>
    ⟨fun h => absurd hlt (Int.not_lt.mpr h), fun _ => .inr hword⟩

theorem PcFact.release (hr : Reading queue sent memory position)
    (hheld : held pc ≠ some position) (h : PcFact queue sent memory pc) :
    PcFact queue sent
      (memory.setSequence (slot queue position) (position + queue.capacity)) pc := by
  have htwo := hsound.two_le
  have hlt := hr.lt
  refine h.setSequence _ hheld (fun _ hw heq => hw.slot_ne_of_reading hsound hr.word heq.symm)
    (fun hne hr' => slot_ne_of_word hr'.word hr.word (by omega)) (fun hword hslot => ?_)
    (fun hword => slot_ne_of_word hword hr.word (by omega))
  have hcongr := word_congr memory hslot
  rw [hword, hr.word] at hcongr
  have := hsound.slot_injective hslot (by omega) (by omega)
  omega

end

theorem PcFact.of_held (h : PcFact queue sent memory pc) (hheld : held pc = some position) :
    Writing queue memory position ∨ Reading queue sent memory position := by
  cases pc with
  | sendWrite v p =>
    cases hheld
    exact .inl h.1
  | sendPublish v p =>
    cases hheld
    exact .inl h.1
  | receiveRead p =>
    cases hheld
    exact .inr h
  | receiveRelease p v =>
    cases hheld
    exact .inr h.1
  | _ => cases hheld

/-! ## What an access can be -/

/-- The position a consumer has claimed and not released. -/
def reading : Pc → Option Int
  | .receiveRead position | .receiveRelease position _ => some position
  | _ => none

/-- The accesses of a thread, by what they change. -/
inductive Change (queue : MpmcI64) (sent : List Int) (memory : Memory) :
    Pc → Action → Memory → Pc → Prop
  | quiet {pc after : Pc} {action : Action} :
      action = .silent ∨ action = .full ∨ action = .empty → held after = held pc →
      reading after = reading pc → PcFact queue sent memory after →
      Change queue sent memory pc action memory after
  | claim (value : Int) :
      memory.word queue memory.enqueue = memory.enqueue →
      Change queue sent memory (.sendExchange value memory.enqueue)
        (.claimed memory.enqueue value) { memory with enqueue := memory.enqueue + 1 }
        (.sendWrite value memory.enqueue)
  | take :
      memory.dequeue < memory.enqueue →
      memory.word queue memory.dequeue = memory.dequeue + 1 →
      Change queue sent memory (.receiveExchange memory.dequeue) (.taken memory.dequeue)
        { memory with dequeue := memory.dequeue + 1 } (.receiveRead memory.dequeue)
  | write (value position : Int) :
      Change queue sent memory (.sendWrite value position) .silent
        (memory.setValue (slot queue position) value) (.sendPublish value position)
  | publish (value position : Int) :
      Change queue sent memory (.sendPublish value position) (.sent position)
        (memory.setSequence (slot queue position) (position + 1)) .idle
  | release (position value : Int) :
      Change queue sent memory (.receiveRelease position value) (.received position value)
        (memory.setSequence (slot queue position) (position + queue.capacity)) .idle

/-- Words and positions stay in the range, so nothing wraps around. -/
theorem advance_change (hsound : Sound queue) (hm : MemoryFact queue sent memory)
    (hpc : PcFact queue sent memory pc) {memory' : Memory} {after : Pc} (hidle : pc ≠ .idle)
    (h : advance queue memory pc = (action, memory', after)) :
    Change queue sent memory pc action memory' after := by
  have htwo := hsound.two_le
  have hbound := hm.bound
  have hle := hm.dequeue_le
  have hnonneg := hm.dequeue_nonneg
  cases pc with
  | idle => exact absurd rfl hidle
  | sendLoad value =>
    cases h
    exact .quiet (.inl rfl) rfl rfl ⟨by omega, Int.le_refl _⟩
  | sendObserve value position =>
    obtain ⟨h0, h1⟩ := hpc
    obtain ⟨hr0, hr1⟩ := hm.range (slot queue position)
    simp only [advance] at h
    rw [Word.wrap_of_range (by omega) (by omega)] at h
    split at h
    · cases h
      exact .quiet (.inl rfl) rfl rfl ⟨h0, h1, fun _ => by unfold Memory.word; omega⟩
    split at h
    · cases h
      exact .quiet (.inr (.inl rfl)) rfl rfl trivial
    · cases h
      exact .quiet (.inl rfl) rfl rfl trivial
  | sendExchange value position =>
    obtain ⟨h0, h1, hword⟩ := hpc
    simp only [advance] at h
    split at h
    · rename_i heq
      subst heq
      rw [Word.wrap_of_range (by omega) (by omega)] at h
      cases h
      exact .claim value (hword rfl)
    · cases h
      exact .quiet (.inl rfl) rfl rfl trivial
  | sendWrite value position =>
    cases h
    exact .write value position
  | sendPublish value position =>
    obtain ⟨hw, _⟩ := hpc
    have := hw.ge
    have := hw.lt
    simp only [advance] at h
    rw [Word.wrap_of_range (by omega) (by omega)] at h
    cases h
    exact .publish value position
  | receiveLoad =>
    cases h
    exact .quiet (.inl rfl) rfl rfl ⟨hnonneg, Int.le_refl _⟩
  | receiveObserve position =>
    obtain ⟨h0, h1⟩ := hpc
    obtain ⟨hr0, hr1⟩ := hm.range (slot queue position)
    simp only [advance] at h
    rw [Word.wrap_of_range (show -(2 ^ 63) ≤ position + 1 by omega) (by omega),
      Word.wrap_of_range (by omega) (by omega)] at h
    split at h
    · rename_i hword
      have hword' : memory.word queue position = position + 1 := by
        unfold Memory.word
        omega
      cases h
      refine .quiet (.inl rfl) rfl rfl ⟨h0, h1, fun heq => ⟨?_, hword'⟩⟩
      rcases Int.lt_or_eq_of_le hle with hlt | hempty
      · omega
      -- On an empty queue the slot is that of the position a lap before, already taken.
      have hslot : slot queue (position - queue.capacity) = slot queue position := by
        rw [← hsound.slot_lap, Int.sub_add_cancel]
      have hcongr := word_congr memory hslot
      obtain ⟨_, hfront⟩ := hm.slots (position - queue.capacity) (by omega) (by omega)
      rcases hfront (by omega) with hfront | hfront
      · omega
      · omega
    · split at h
      · cases h
        exact .quiet (.inr (.inr rfl)) rfl rfl trivial
      · cases h
        exact .quiet (.inl rfl) rfl rfl trivial
  | receiveExchange position =>
    obtain ⟨h0, h1, hword⟩ := hpc
    simp only [advance] at h
    split at h
    · rename_i heq
      subst heq
      obtain ⟨hlt, hword⟩ := hword rfl
      rw [Word.wrap_of_range (by omega) (by omega)] at h
      cases h
      exact .take hlt hword
    · cases h
      exact .quiet (.inl rfl) rfl rfl trivial
  | receiveRead position =>
    cases h
    exact .quiet (.inl rfl) rfl rfl ⟨hpc, hpc.value⟩
  | receiveRelease position value =>
    obtain ⟨hr, _⟩ := hpc
    have := hr.nonneg
    have := hr.lt
    simp only [advance] at h
    rw [Word.wrap_of_range (by omega) (by omega)] at h
    cases h
    exact .release position value

end

/-! ## All threads -/

section

variable {Thread : Type} [DecidableEq Thread] {events : List (Thread × Action)}
  {state after : State Thread} {event : Thread × Action} {thread : Thread}

/-- No slot has two holders. -/
def Unique (threads : Thread → Pc) : Prop :=
  ∀ left right position, held (threads left) = some position →
    held (threads right) = some position → left = right

theorem Unique.update {threads : Thread → Pc} (h : Unique threads) {pc : Pc}
    (hnew : ∀ position, held pc = some position → ∀ other, other ≠ thread →
      held (threads other) ≠ some position) :
    Unique (Function.update threads thread pc) := by
  intro left right position hl hr
  by_cases hleft : left = thread
  · by_cases hright : right = thread
    · rw [hleft, hright]
    · rw [hleft, update_self] at hl
      rw [update_of_ne hright] at hr
      exact absurd hr (hnew position hl right hright)
  · rw [update_of_ne hleft] at hl
    by_cases hright : right = thread
    · rw [hright, update_self] at hr
      exact absurd hl (hnew position hr left hleft)
    · rw [update_of_ne hright] at hr
      exact h left right position hl hr

theorem Unique.update_of_held {threads : Thread → Pc} (h : Unique threads) {pc : Pc}
    (hheld : held pc = held (threads thread) ∨ held pc = none) :
    Unique (Function.update threads thread pc) := by
  refine h.update (fun position hp other hne ho => ?_)
  rcases hheld with heq | hnone
  · exact hne (h other thread position ho (by rw [← heq]; exact hp))
  · rw [hnone] at hp
    cases hp

/-- The words, the threads and the claims agree. -/
structure Consistent (queue : MpmcI64) (events : List (Thread × Action))
    (state : State Thread) : Prop where
  memory : MemoryFact queue (claimedValues events) state.memory
  pcs : ∀ thread, PcFact queue (claimedValues events) state.memory (state.threads thread)
  unique : Unique state.threads
  claimed : claimedPositions events = Arena.range 0 state.memory.enqueue
  taken : takenPositions events = Arena.range 0 state.memory.dequeue

/-- Facts of the other threads carry over, and the thread has its own. -/
theorem pcs_update {threads : Thread → Pc} {sent sent' : List Int} {memory memory' : Memory}
    {pc : Pc} (hpcs : ∀ thread, PcFact queue sent memory (threads thread))
    (hframe : ∀ other, other ≠ thread → PcFact queue sent memory (threads other) →
      PcFact queue sent' memory' (threads other))
    (hpc : PcFact queue sent' memory' pc) (other : Thread) :
    PcFact queue sent' memory' (Function.update threads thread pc other) := by
  by_cases heq : other = thread
  · rw [heq, update_self]
    exact hpc
  · rw [update_of_ne heq]
    exact hframe other heq (hpcs other)

omit [DecidableEq Thread] in
theorem consistent_initial (hsound : Sound queue) (h : Initial queue state) :
    Consistent queue [] state := by
  obtain ⟨henqueue, hdequeue, hsequence, hvals, hidle⟩ := h
  have htwo := hsound.two_le
  have hcell : ∀ index, 0 ≤ index → index < queue.capacity →
      get state.memory.sequence index = index := by
    intro index h0 h1
    rw [hsequence, Arena.get_eq_getElem h0 (by simp; omega), Arena.getElem_range]
    omega
  refine
    { memory :=
        { sequence_length := by rw [hsequence]; simp; omega
          values_length := hvals
          enqueue_eq := henqueue
          dequeue_nonneg := by omega
          dequeue_le := by omega
          window := by omega
          range := fun index => ?_
          bound := by
            obtain ⟨k, hk, heq⟩ := hsound.isCapacity
            have hpow : (2 : Nat) ^ k ≤ 2 ^ 62 := Nat.pow_le_pow_right (by decide) hk
            have hcast : ((2 : Int) ^ k) = ((2 ^ k : Nat) : Int) := by simp
            rw [henqueue, heq, hcast]
            omega
          slots := fun position hge hlt => ?_ }
      pcs := fun thread => by rw [hidle thread]; trivial
      unique := fun left right position hl _ => by
        rw [hidle left] at hl
        cases hl
      claimed := by rw [henqueue]; rfl
      taken := by rw [hdequeue]; rfl }
  · rcases Int.lt_or_le index 0 with hneg | h0
    · rw [get_of_neg hneg, henqueue]
      exact ⟨Int.le_refl _, show (0 : Int) < _ by omega⟩
    rcases Int.lt_or_le index queue.capacity with hlt | hge
    · rw [hcell index h0 hlt]
      omega
    · rw [get_of_ge (by rw [hsequence]; simp; omega), henqueue]
      exact ⟨Int.le_refl _, show (0 : Int) < _ by omega⟩
  · refine ⟨fun h => absurd h (by omega), fun _ => .inr ?_⟩
    have hslot : slot queue position = position + queue.capacity := by
      rw [← hsound.slot_lap, hsound.slot_eq]
      exact Int.emod_eq_of_lt (by omega) (by omega)
    unfold Memory.word
    rw [hslot]
    exact hcell _ (by omega) (by omega)

omit [DecidableEq Thread] in
theorem Consistent.held_window (h : Consistent queue events state) {position : Int}
    (hheld : held (state.threads thread) = some position) :
    state.memory.enqueue ≤ position + queue.capacity ∧ position < state.memory.enqueue := by
  have hwindow := h.memory.window
  have hle := h.memory.dequeue_le
  rcases (h.pcs thread).of_held hheld with hw | hr
  · exact ⟨by have := hw.ge; omega, hw.lt⟩
  · exact ⟨hr.window, by have := hr.lt; omega⟩

omit [DecidableEq Thread] in
theorem claims_keep {action : Action} (h : ∀ position value, action ≠ .claimed position value) :
    claims (events ++ [(thread, action)]) = claims events := by
  unfold claims
  rw [filterMap_append]
  cases action with
  | claimed position value => exact absurd rfl (h position value)
  | _ => exact append_nil _

omit [DecidableEq Thread] in
theorem takenPositions_keep (h : ∀ position, action ≠ .taken position) :
    takenPositions (events ++ [(thread, action)]) = takenPositions events := by
  unfold takenPositions
  rw [filterMap_append]
  cases action with
  | taken position => exact absurd rfl (h position)
  | _ => exact append_nil _

theorem Consistent.keep (h : Consistent queue events state) {action : Action} {memory : Memory}
    {pc : Pc} (hclaimed : ∀ position value, action ≠ .claimed position value)
    (htaken : ∀ position, action ≠ .taken position)
    (henqueue : memory.enqueue = state.memory.enqueue)
    (hdequeue : memory.dequeue = state.memory.dequeue)
    (hheld : held pc = held (state.threads thread) ∨ held pc = none)
    (hmemory : MemoryFact queue (claimedValues events) memory)
    (hothers : ∀ other, other ≠ thread →
      PcFact queue (claimedValues events) state.memory (state.threads other) →
      PcFact queue (claimedValues events) memory (state.threads other))
    (hpc : PcFact queue (claimedValues events) memory pc) :
    Consistent queue (events ++ [(thread, action)])
      { memory, threads := Function.update state.threads thread pc } := by
  have hclaims := @claims_keep _ events thread _ hclaimed
  have hvals : claimedValues (events ++ [(thread, action)]) = claimedValues events :=
    congrArg (List.map Prod.snd) hclaims
  refine ⟨hvals ▸ hmemory, hvals ▸ pcs_update h.pcs hothers hpc,
    h.unique.update_of_held hheld, ?_, ?_⟩
  · unfold claimedPositions
    rw [hclaims, henqueue]
    exact h.claimed
  · rw [takenPositions_keep htaken, hdequeue]
    exact h.taken

theorem Consistent.change (hsound : Sound queue) (h : Consistent queue events state)
    {memory : Memory} {pc : Pc} (hbound : memory.enqueue < 2 ^ 63 - queue.capacity) (hchange :
      Change queue (claimedValues events) state.memory (state.threads thread) action memory pc) :
    Consistent queue (events ++ [(thread, action)])
      { memory, threads := Function.update state.threads thread pc } := by
  have hm := h.memory
  have hself := h.pcs thread
  have hheld : ∀ {position}, held (state.threads thread) = some position → ∀ other,
      other ≠ thread → held (state.threads other) ≠ some position :=
    fun hp other hne ho => hne (h.unique other thread _ ho hp)
  generalize hold : state.threads thread = old at hchange hself hheld
  cases hchange with
  | quiet haction hsame _ hpc =>
    refine h.keep ?_ ?_ rfl rfl (.inl (by rw [hold]; exact hsame)) hm (fun _ _ hother => hother) hpc
    all_goals rcases haction with rfl | rfl | rfl <;> nofun
  | claim value hword =>
    have hvals : claimedValues (events ++ [(thread, .claimed state.memory.enqueue value)]) =
        claimedValues events ++ [value] := by simp [claimedValues, claims]
    have hle := hm.dequeue_le
    have hnonneg := hm.dequeue_nonneg
    refine ⟨?_, ?_, h.unique.update ?_, ?_, ?_⟩
    · rw [hvals]
      exact hm.claim hsound hword hbound value
    · rw [hvals]
      refine pcs_update h.pcs (fun _ _ hother => hother.claim hsound hword value) ?_
      refine ⟨⟨hle, Int.lt_succ _, hword⟩, ?_⟩
      rw [show state.memory.enqueue.toNat = (claimedValues events).length by
        have := hm.enqueue_eq
        omega]
      simp
    · -- No thread holds a position that was not claimed.
      intro position hp other _ ho
      cases hp
      exact absurd (h.held_window ho).2 (Int.lt_irrefl _)
    · simp only [claimedPositions, claims, filterMap_append, filterMap_cons,
        filterMap_nil, map_append, map_cons, map_nil]
      rw [range_snoc (by omega)]
      exact congrArg (· ++ [state.memory.enqueue]) h.claimed
    · simpa [takenPositions] using h.taken
  | take hlt hword =>
    have hvals : claimedValues (events ++ [(thread, .taken state.memory.dequeue)]) =
        claimedValues events := by simp [claimedValues, claims]
    have hnonneg := hm.dequeue_nonneg
    refine ⟨?_, ?_, h.unique.update ?_, ?_, ?_⟩
    · rw [hvals]
      exact hm.take hlt hword
    · rw [hvals]
      refine pcs_update h.pcs (fun _ _ hother => hother.take hword) ?_
      refine ⟨hnonneg, Int.lt_succ _, hm.window, hword, ?_⟩
      obtain ⟨hback, _⟩ := hm.slots state.memory.dequeue (by have := hm.window; omega) hlt
      rcases hback (Int.le_refl _) with hback | ⟨_, hval⟩
      · omega
      · exact hval
    · -- Its producer has published it, and no other consumer has claimed it.
      intro position hp other _ ho
      cases hp
      rcases (h.pcs other).of_held ho with hw | hr
      · have := hw.word
        omega
      · exact absurd hr.lt (Int.lt_irrefl _)
    · simpa [claimedPositions, claims] using h.claimed
    · simp only [takenPositions, filterMap_append, filterMap_cons, filterMap_nil]
      rw [range_snoc hnonneg]
      exact congrArg (· ++ [state.memory.dequeue]) h.taken
  | write value position =>
    refine h.keep nofun nofun rfl rfl (.inl (by rw [hold]; rfl)) (hm.write hsound hself.1 value)
      (fun other hne hother => hother.write hsound hself.1 value (hheld rfl other hne)) ?_
    exact ⟨⟨hself.1.ge, hself.1.lt, hself.1.word⟩, hself.2,
      stored_setValue_self hsound hm.values_length⟩
  | publish value position =>
    refine h.keep nofun nofun rfl rfl (.inr rfl) (hm.publish hsound hself.1 ?_)
      (fun other hne hother => hother.publish hsound hself.1 (hheld rfl other hne)) trivial
    rw [hself.2.2]
    exact hself.2.1
  | release position value =>
    exact h.keep nofun nofun rfl rfl (.inr rfl) (hm.release hsound hself.1)
      (fun other hne hother => hother.release hsound hself.1 (hheld rfl other hne)) trivial

/-! ## Deliveries -/

/-- What consumers have got: every position they have claimed is received once, or about to
be. -/
structure Delivered (queue : MpmcI64) (events : List (Thread × Action))
    (state : State Thread) : Prop where
  values : ∀ thread position value, (thread, Action.received position value) ∈ events →
    0 ≤ position ∧ position < state.memory.dequeue ∧
      (claimedValues events)[position.toNat]? = some value
  once : (receivedPositions events).Nodup
  fresh : ∀ thread position, reading (state.threads thread) = some position →
    position ∉ receivedPositions events
  drained : ∀ position, 0 ≤ position → position < state.memory.dequeue →
    position ∈ receivedPositions events ∨
      ∃ thread, reading (state.threads thread) = some position

omit [DecidableEq Thread] in
theorem mem_receivedPositions {position : Int} :
    position ∈ receivedPositions events ↔
      ∃ thread value, (thread, Action.received position value) ∈ events := by
  unfold receivedPositions
  rw [mem_filterMap]
  constructor
  · rintro ⟨⟨thread, action⟩, hmem, heq⟩
    cases action <;> simp [reduceCtorEq] at heq
    subst heq
    exact ⟨thread, _, hmem⟩
  · rintro ⟨thread, value, hmem⟩
    exact ⟨_, hmem, rfl⟩

omit [DecidableEq Thread] in
theorem claimedValues_grow {index : Nat} {value : Int}
    (h : (claimedValues events)[index]? = some value) (event : Thread × Action) :
    (claimedValues (events ++ [event]))[index]? = some value := by
  unfold claimedValues claims at h ⊢
  rw [filterMap_append, map_append]
  exact getElem?_grow h _

omit [DecidableEq Thread] in
theorem Delivered.grow {later : State Thread} (h : Delivered queue events state)
    (haction : ∀ position value, action ≠ .received position value)
    (hdequeue : state.memory.dequeue ≤ later.memory.dequeue) (hfresh : ∀ thread position, reading
      (later.threads thread) = some position → reading (state.threads thread) = some position ∨
      position = state.memory.dequeue) (hdrained : ∀ position, 0 ≤ position → position <
      later.memory.dequeue → (position < state.memory.dequeue ∧ ∀ thread, reading (state.threads
      thread) = some position → reading (later.threads thread) = some position) ∨ ∃ thread, reading
      (later.threads thread) = some position) :
    Delivered queue (events ++ [(thread, action)]) later := by
  have hpositions : receivedPositions (events ++ [(thread, action)]) =
      receivedPositions events := by
    cases action with
    | received position value => exact absurd rfl (haction position value)
    | _ => simp [receivedPositions]
  refine ⟨fun other position value hmem => ?_, ?_, fun other position hread => ?_,
    fun position h0 hlt => ?_⟩
  · rcases mem_append.mp hmem with hmem | hmem
    · obtain ⟨h0, hlt, hval⟩ := h.values other position value hmem
      exact ⟨h0, Int.lt_of_lt_of_le hlt hdequeue, claimedValues_grow hval _⟩
    · cases mem_singleton.mp hmem
      exact absurd rfl (haction position value)
  · rw [hpositions]
    exact h.once
  · rw [hpositions]
    rcases hfresh other position hread with hread | rfl
    · exact h.fresh other position hread
    intro hmem
    obtain ⟨receiver, value, hmem⟩ := mem_receivedPositions.mp hmem
    obtain ⟨_, hlt, _⟩ := h.values receiver _ value hmem
    exact Int.lt_irrefl _ hlt
  · rw [hpositions]
    rcases hdrained position h0 hlt with ⟨hlt, hkeep⟩ | hread
    · rcases h.drained position h0 hlt with hmem | ⟨reader, hread⟩
      · exact .inl hmem
      · exact .inr ⟨reader, hkeep reader hread⟩
    · exact .inr hread

/-- A thread that reads what it read before leaves the readers as they are. -/
theorem reading_update {threads : Thread → Pc} {pc : Pc}
    (hsame : reading pc = reading (threads thread)) (other : Thread) :
    reading (Function.update threads thread pc other) = reading (threads other) := by
  by_cases heq : other = thread
  · rw [heq, update_self]
    exact hsame
  · rw [update_of_ne heq]

theorem Delivered.quiet (h : Delivered queue events state) {memory : Memory} {pc : Pc}
    (haction : ∀ position value, action ≠ .received position value)
    (hdequeue : memory.dequeue = state.memory.dequeue)
    (hreading : reading pc = reading (state.threads thread)) :
    Delivered queue (events ++ [(thread, action)])
      { memory, threads := Function.update state.threads thread pc } := by
  refine h.grow haction (Int.le_of_eq hdequeue.symm) (fun other position hread => ?_)
    (fun position _ hlt => .inl ⟨?_, fun other hread => ?_⟩)
  · rw [reading_update hreading] at hread
    exact .inl hread
  · rw [← hdequeue]
    exact hlt
  · rw [reading_update hreading]
    exact hread

theorem held_of_reading {pc : Pc} {position : Int} (h : reading pc = some position) :
    held pc = some position := by
  cases pc with
  | receiveRead _ => exact h
  | receiveRelease _ _ => exact h
  | _ => cases h

theorem Delivered.change (hconsistent : Consistent queue events state)
    (h : Delivered queue events state) {memory : Memory} {pc : Pc} (hchange : Change queue
      (claimedValues events) state.memory (state.threads thread) action memory pc) :
    Delivered queue (events ++ [(thread, action)])
      { memory, threads := Function.update state.threads thread pc } := by
  have hself := hconsistent.pcs thread
  generalize hold : state.threads thread = old at hchange hself
  cases hchange with
  | quiet haction _ hsame _ =>
    refine h.quiet ?_ rfl (by rw [hold]; exact hsame)
    intro position value heq
    subst heq
    simp at haction
  | claim value _ => exact h.quiet nofun rfl (by rw [hold]; rfl)
  | take hlt _ =>
    refine h.grow nofun (Int.le_of_lt (Int.lt_succ _)) (fun other position hread => ?_)
      (fun position _ hlt => ?_)
    · simp only at hread
      by_cases heq : other = thread
      · rw [heq, update_self] at hread
        cases hread
        exact .inr rfl
      · rw [update_of_ne heq] at hread
        exact .inl hread
    · rcases Int.lt_or_eq_of_le (Int.lt_add_one_iff.mp hlt) with hlt | rfl
      · refine .inl ⟨hlt, fun other hread => ?_⟩
        by_cases heq : other = thread
        · rw [heq, hold] at hread
          cases hread
        · exact (congrArg reading (update_of_ne heq _ _)).trans hread
      · refine .inr ⟨thread, ?_⟩
        simp only [update_self]
        rfl
  | write value position => exact h.quiet nofun rfl (by rw [hold]; rfl)
  | publish value position => exact h.quiet nofun rfl (by rw [hold]; rfl)
  | release position value =>
    obtain ⟨hreads, hval⟩ := hself
    have hread : reading (state.threads thread) = some position := by rw [hold]; rfl
    have hpositions : receivedPositions (events ++ [(thread, .received position value)]) =
        receivedPositions events ++ [position] := by simp [receivedPositions]
    refine ⟨fun other p v hmem => ?_, ?_, fun other p hother => ?_, fun p h0 hlt => ?_⟩
    · rcases mem_append.mp hmem with hmem | hmem
      · obtain ⟨h0, hlt, hval⟩ := h.values other p v hmem
        exact ⟨h0, hlt, claimedValues_grow hval _⟩
      · cases mem_singleton.mp hmem
        exact ⟨hreads.nonneg, hreads.lt, claimedValues_grow hval _⟩
    · rw [hpositions]
      refine nodup_append.mpr ⟨h.once, by simp, fun p hp q hq heq => ?_⟩
      rw [mem_singleton.mp hq] at heq
      exact h.fresh thread position hread (heq ▸ hp)
    · simp only at hother
      rw [hpositions]
      by_cases heq : other = thread
      · rw [heq, update_self] at hother
        cases hother
      rw [update_of_ne heq] at hother
      intro hmem
      rcases mem_append.mp hmem with hmem | hmem
      · exact h.fresh other p hother hmem
      -- Two threads would read the same position.
      rw [mem_singleton.mp hmem] at hother
      exact heq (hconsistent.unique other thread position (held_of_reading hother)
        (by rw [hold]; rfl))
    · rw [hpositions]
      rcases h.drained p h0 hlt with hmem | ⟨reader, hreader⟩
      · exact .inl (mem_append_left _ hmem)
      by_cases heq : reader = thread
      · rw [heq, hread] at hreader
        cases hreader
        exact .inl (mem_append_right _ (mem_singleton_self _))
      · exact .inr ⟨reader, (congrArg reading (update_of_ne heq _ _)).trans hreader⟩

/-! ## Every run -/

theorem run_invariant (hsound : Sound queue)
    (hrun : Run (interleavings Thread queue) events state) :
    Consistent queue events state ∧ Delivered queue events state := by
  refine Run.invariant
    (fun events state => Consistent queue events state ∧ Delivered queue events state)
    (fun state hinitial => ?_) (fun events state event after h hstep => ?_) hrun
  · have hidle := hinitial.2.2.2.2
    refine ⟨consistent_initial hsound hinitial, fun _ _ _ hmem => absurd hmem not_mem_nil,
      nodup_nil, fun thread position hread => ?_, fun position h0 hlt => ?_⟩
    · rw [hidle thread] at hread
      cases hread
    · rw [hinitial.2.1] at hlt
      exact absurd h0 (by omega)
  · obtain ⟨hconsistent, hdelivered⟩ := h
    obtain ⟨hstep, hbound⟩ := hstep
    have hcalled {thread : Thread} {pc : Pc} (hheld : held pc = none)
        (hpc : PcFact queue (claimedValues events) state.memory pc) :=
      @Consistent.keep queue Thread _ events state thread hconsistent .silent state.memory pc nofun
        nofun rfl rfl (.inr hheld) hconsistent.memory (fun _ _ hother => hother) hpc
    have hcall : ∀ {thread : Thread} {pc : Pc}, state.threads thread = .idle →
        reading pc = none → Delivered queue (events ++ [(thread, .silent)])
          { state with threads := update state.threads thread pc } :=
      fun hidle hread => hdelivered.quiet nofun rfl (by rw [hidle, hread]; rfl)
    cases hstep with
    | trySend value _ hidle => exact ⟨hcalled rfl trivial, hcall hidle rfl⟩
    | tryReceive _ hidle => exact ⟨hcalled rfl trivial, hcall hidle rfl⟩
    | access hidle hadvance =>
      have hchange := advance_change hsound hconsistent.memory (hconsistent.pcs _) hidle hadvance
      exact ⟨hconsistent.change hsound hbound hchange, hdelivered.change hconsistent hchange⟩

theorem run_of_invalid (hinvalid : valid queue = false)
    (hrun : Run (interleavings Thread queue) events state) :
    events = [] ∧ ∀ thread, state.threads thread = .idle := by
  refine Run.invariant (fun events state => events = [] ∧ ∀ thread, state.threads thread = .idle)
    (fun state (hinitial : Initial queue state) => ⟨rfl, hinitial.2.2.2.2⟩)
    (fun events state event after h hstep => ?_) hrun
  cases hstep.1 with
  | trySend _ hvalid _ => exact absurd hvalid (by rw [hinvalid]; decide)
  | tryReceive hvalid _ => exact absurd hvalid (by rw [hinvalid]; decide)
  | access hidle _ => exact absurd (h.2 _) hidle

/-- The positions that are claimed and not received. -/
def unreceived (events : List (Thread × Action)) : List Int :=
  (claimedPositions events).filter (fun position => position ∉ receivedPositions events)

omit [DecidableEq Thread] in
theorem length_unreceived_le (hsound : Sound queue) (hconsistent : Consistent queue events state)
    (hdelivered : Delivered queue events state) :
    ((unreceived events).length : Int) ≤ queue.capacity := by
  have hwindow := hconsistent.memory.window
  have hlast : ∀ position, 0 ≤ position → position < state.memory.enqueue - queue.capacity →
      position ∈ receivedPositions events := by
    intro position h0 hlt
    rcases hdelivered.drained position h0 (by omega) with hmem | ⟨reader, hread⟩
    · exact hmem
    · have := (hconsistent.held_window (held_of_reading hread)).1
      omega
  unfold unreceived
  rw [hconsistent.claimed]
  have htwo := hsound.two_le
  rcases Int.lt_or_le state.memory.enqueue queue.capacity with hfew | hmany
  · have hlen := length_filter_le (fun position => decide (position ∉ receivedPositions events))
      (range 0 state.memory.enqueue)
    rw [Arena.length_range] at hlen
    omega
  · rw [range_append (show 0 ≤ state.memory.enqueue - queue.capacity by omega)
      (show state.memory.enqueue - queue.capacity ≤ state.memory.enqueue by omega),
      filter_append, filter_eq_nil_iff.mpr, nil_append]
    · have hlen := length_filter_le (fun position => decide (position ∉ receivedPositions events))
        (range (state.memory.enqueue - queue.capacity) state.memory.enqueue)
      rw [Arena.length_range] at hlen
      omega
    · intro position hmem
      obtain ⟨h0, hlt⟩ := mem_range.mp hmem
      simpa using hlast position h0 hlt

omit [DecidableEq Thread] in
theorem exists_claimed {count : Int} (hclaimed : claimedPositions events = Arena.range 0 count)
    {position value : Int} (h0 : 0 ≤ position)
    (h : (claimedValues events)[position.toNat]? = some value) :
    ∃ sender, (sender, Action.claimed position value) ∈ events := by
  unfold claimedValues at h
  rw [List.getElem?_map] at h
  obtain ⟨⟨claimed, sent⟩, hclaim, rfl⟩ := Option.map_eq_some_iff.mp h
  have hpos : (claimedPositions events)[position.toNat]? = some claimed := by
    unfold claimedPositions
    rw [List.getElem?_map, hclaim]
    rfl
  rw [hclaimed] at hpos
  obtain ⟨hlt, hpos⟩ := List.getElem?_eq_some_iff.mp hpos
  rw [Arena.getElem_range] at hpos
  have heq : claimed = position := by omega
  subst heq
  obtain ⟨⟨sender, action⟩, hmem, haction⟩ := mem_filterMap.mp (mem_of_getElem? hclaim)
  cases action <;> simp [reduceCtorEq] at haction
  obtain ⟨rfl, rfl⟩ := haction
  exact ⟨sender, hmem⟩

/-- Along every interleaving: a received value was sent at its position, no position is received
twice, producers and consumers claim positions in order, at most `capacity` claimed positions
are unreceived, and no slot has two holders. -/
theorem fifo {requested : Int} {allocated : Bool}
    (hrun : Run (interleavings Thread (create requested allocated)) events state) :
    (∀ thread position value, (thread, Action.received position value) ∈ events →
      ∃ sender, (sender, Action.claimed position value) ∈ events) ∧
    (receivedPositions events).Nodup ∧
    claimedPositions events = Arena.range 0 (claimedPositions events).length ∧
    takenPositions events = Arena.range 0 (takenPositions events).length ∧
    (∀ position ∈ receivedPositions events, position ∈ takenPositions events) ∧
    ((unreceived events).length : Int) ≤ (create requested allocated).capacity ∧
    (∀ left right position other, left ≠ right →
      held (state.threads left) = some position → held (state.threads right) = some other →
      slot (create requested allocated) position ≠ slot (create requested allocated) other) := by
  cases hvalid : valid (create requested allocated) with
  | false =>
    obtain ⟨rfl, hidle⟩ := run_of_invalid hvalid hrun
    refine ⟨fun _ _ _ h => absurd h not_mem_nil, nodup_nil, rfl, rfl,
      fun _ h => absurd h not_mem_nil, ?_, fun left right position other _ hl _ => ?_⟩
    · unfold create
      simp only
      split
      · exact Int.le_refl _
      rename_i hcreated
      have hpos : valid (create requested allocated) = true := by
        unfold create valid
        rw [if_neg hcreated]
        rcases @normalizedCapacity_spec 576460752303423479 requested (by decide) 1 (by decide)
          with hzero | ⟨j, _, _, heq, _⟩
        · exact absurd (.inl hzero) hcreated
        have hpow : (0 : Int) < 2 ^ j := Int.pow_pos (by decide)
        have heq' : normalizedCapacity 2 576460752303423479 requested = 2 ^ j := heq
        rw [heq']
        exact decide_eq_true hpow
      rw [hvalid] at hpos
      cases hpos
    · rw [hidle left] at hl
      cases hl
  | true =>
    have hsound := create_sound hvalid
    obtain ⟨hconsistent, hdelivered⟩ := run_invariant hsound hrun
    have hm := hconsistent.memory
    have hlength : ∀ {positions : List Int} {count : Int}, 0 ≤ count →
        positions = range 0 count → positions = range 0 positions.length := by
      intro positions count h0 heq
      have hlen : (positions.length : Int) = count := by
        rw [heq, Arena.length_range]
        omega
      rw [hlen]
      exact heq
    refine ⟨fun thread position value hmem => ?_, hdelivered.once,
      hlength (by have := hm.enqueue_eq; omega) hconsistent.claimed,
      hlength hm.dequeue_nonneg hconsistent.taken, fun position hmem => ?_,
      length_unreceived_le hsound hconsistent hdelivered,
      fun left right position other hne hl hr hslot => ?_⟩
    · obtain ⟨h0, _, hval⟩ := hdelivered.values thread position value hmem
      exact exists_claimed hconsistent.claimed h0 hval
    · obtain ⟨thread, value, hmem⟩ := mem_receivedPositions.mp hmem
      obtain ⟨h0, hlt, _⟩ := hdelivered.values thread position value hmem
      rw [hconsistent.taken]
      exact mem_range.mpr ⟨h0, hlt⟩
    · -- Held positions lie in one lap, so the same slot means the same position.
      obtain ⟨hge, hlt⟩ := hconsistent.held_window hl
      obtain ⟨hge', hlt'⟩ := hconsistent.held_window hr
      have heq := hsound.slot_injective hslot (by omega) (by omega)
      subst heq
      exact hne (hconsistent.unique left right position hl hr)

end

/-- One thread sends 7, the other receives it. -/
theorem fifo_handOff :
    ∃ (events : List (Bool × Action)) (state : State Bool),
      Run (interleavings Bool (create 2 true)) events state ∧
        (false, Action.received 0 7) ∈ events ∧
        ∃ sender, (sender, Action.claimed 0 7) ∈ events := by
  have h0 : Run (interleavings Bool (create 2 true)) [] ⟨⟨0, 0, [0, 1], [0, 0]⟩, fun _ => .idle⟩ :=
    Run.start ⟨rfl, rfl, rfl, rfl, fun _ => rfl⟩
  have h1 := Run.next h0 ⟨@Step.trySend _ _ _ _ true 7 rfl rfl, by decide⟩
  have h2 := Run.next h1 ⟨@Step.access _ _ _ _ true _ _ _ (by decide) rfl, by decide⟩
  have h3 := Run.next h2 ⟨@Step.access _ _ _ _ true _ _ _ (by decide) rfl, by decide⟩
  have h4 := Run.next h3 ⟨@Step.access _ _ _ _ true _ _ _ (by decide) rfl, by decide⟩
  have h5 := Run.next h4 ⟨@Step.access _ _ _ _ true _ _ _ (by decide) rfl, by decide⟩
  have h6 := Run.next h5 ⟨@Step.access _ _ _ _ true _ _ _ (by decide) rfl, by decide⟩
  have h7 := Run.next h6 ⟨@Step.tryReceive _ _ _ _ false rfl rfl, by decide⟩
  have h8 := Run.next h7 ⟨@Step.access _ _ _ _ false _ _ _ (by decide) rfl, by decide⟩
  have h9 := Run.next h8 ⟨@Step.access _ _ _ _ false _ _ _ (by decide) rfl, by decide⟩
  have h10 := Run.next h9 ⟨@Step.access _ _ _ _ false _ _ _ (by decide) rfl, by decide⟩
  have h11 := Run.next h10 ⟨@Step.access _ _ _ _ false _ _ _ (by decide) rfl, by decide⟩
  have h12 := Run.next h11 ⟨@Step.access _ _ _ _ false _ _ _ (by decide) rfl, by decide⟩
  obtain ⟨hvals, _⟩ := fifo h12
  exact ⟨_, _, h12, by decide, hvals false 0 7 (by decide)⟩

end Raz.Thread.Mpmc
