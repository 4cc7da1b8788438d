import Raz.Lib.Arena
import Raz.Lib.Word

/-!
# Ring buffers

A ring has a power-of-two capacity. Positions only grow, and the cell of a position is found by
masking, also after the position has wrapped around as a word. A queue occupies consecutive
positions.

Results:
1. `Holds.append`, `Holds.drop`: a queue built and consumed in parts.
2. `Stream.push`, `Stream.pop`, `Stream.publish`, `Stream.release`: the values that pass through
   a ring, with counters that are words.
-/

namespace Ring

variable {α : Type} [Inhabited α]

/-- A power of two that fits a word, with room to spare. -/
def IsCapacity (capacity : Int) : Prop := ∃ k : Nat, k ≤ 62 ∧ capacity = 2 ^ k

theorem IsCapacity.pos {capacity : Int} (h : IsCapacity capacity) : 0 < capacity := by
  obtain ⟨k, _, rfl⟩ := h
  exact Int.pow_pos (by decide)

theorem IsCapacity.lt {capacity : Int} (h : IsCapacity capacity) : capacity < 2 ^ 63 := by
  obtain ⟨k, hk, rfl⟩ := h
  have hpow : (2 : Nat) ^ k ≤ 2 ^ 62 := Nat.pow_le_pow_right (by decide) hk
  have hcast : ((2 : Int) ^ k) = ((2 ^ k : Nat) : Int) := by simp
  rw [hcast]
  omega

/-! ## Positions -/

theorem slot_eq {capacity : Int} (h : IsCapacity capacity) (position : Int) :
    Word.land position (capacity - 1) = position % capacity := by
  obtain ⟨k, hk, rfl⟩ := h
  exact Word.land_mask (Nat.le_succ_of_le hk) position

theorem wrap_emod {capacity : Int} (h : IsCapacity capacity) (position : Int) :
    Word.wrap position % capacity = position % capacity := by
  obtain ⟨k, hk, rfl⟩ := h
  exact Word.emod_wrap (by omega) position

/-- Positions less than a lap apart have different cells. -/
theorem eq_of_emod_eq {capacity left right : Int} (h : left % capacity = right % capacity)
    (hlt : left < right + capacity) (hgt : right < left + capacity) : left = right := by
  have hdvd : capacity ∣ left - right := Int.dvd_of_emod_eq_zero
    (Int.emod_eq_emod_iff_emod_sub_eq_zero.mp h)
  rcases Int.lt_trichotomy left right with hless | heq | hmore
  · have hle := Int.le_of_dvd (by omega) ((Int.dvd_neg (a := capacity)).mpr hdvd)
    omega
  · exact heq
  · have hle := Int.le_of_dvd (by omega) hdvd
    omega

/-- A lap later the cell is the same. -/
theorem emod_add_capacity (position capacity : Int) :
    (position + capacity) % capacity = position % capacity := Int.add_emod_right _ _

/-- Positions of a span that does not reach the end of the ring. -/
theorem emod_add_of_lt {capacity position offset : Int} (hpos : 0 < capacity) (h0 : 0 ≤ offset)
    (h : position % capacity + offset < capacity) :
    (position + offset) % capacity = position % capacity + offset := by
  have hge := Int.emod_nonneg position (show capacity ≠ 0 by omega)
  rw [← Int.emod_emod_of_dvd (position + offset) (Int.dvd_refl capacity),
    ← Int.emod_add_emod, Int.emod_emod_of_dvd _ (Int.dvd_refl capacity)]
  exact Int.emod_eq_of_lt (by omega) h

/-- A span that reaches the end of the ring is followed by the first cell. -/
theorem emod_add_to_end (position capacity : Int) :
    (position + (capacity - position % capacity)) % capacity = 0 := by
  have hdiv := Int.mul_ediv_add_emod position capacity
  rw [show position + (capacity - position % capacity) =
      capacity * (position / capacity) + capacity by omega,
    emod_add_capacity, Int.mul_emod_right]

/-! ## Queues -/

/-- The cells of the positions from `head` on hold the queue. -/
structure Holds (cells : List α) (head : Int) (queue : List α) : Prop where
  fits : queue.length ≤ cells.length
  value : ∀ (k : Nat) (h : k < queue.length),
    Arena.get cells ((head + k) % cells.length) = queue[k]

variable {cells : List α} {head : Int} {queue : List α} {value : α}

theorem Holds.nil (cells : List α) (head : Int) : Holds cells head [] :=
  ⟨Nat.zero_le _, fun k h => absurd h (Nat.not_lt_zero k)⟩

omit [Inhabited α] in
theorem cell_lt {cells : List α} (h : 0 < cells.length) (position : Int) :
    0 ≤ position % cells.length ∧ position % cells.length < cells.length :=
  ⟨Int.emod_nonneg _ (by omega), Int.emod_lt_of_pos _ (by omega)⟩

/-- Dropping values from the front advances the head. -/
theorem Holds.drop (h : Holds cells head queue) (count : Nat) :
    Holds cells (head + count) (queue.drop count) := by
  refine ⟨by rw [List.length_drop]; exact Nat.le_trans (Nat.sub_le _ _) h.fits, fun k hk => ?_⟩
  rw [List.length_drop] at hk
  rw [List.getElem_drop, ← h.value (count + k) (by omega)]
  rw [show head + count + (k : Int) = head + ((count + k : Nat) : Int) by omega]

theorem Holds.append {later : List α} (h : Holds cells head queue)
    (hlater : Holds cells (head + queue.length) later)
    (hfits : queue.length + later.length ≤ cells.length) :
    Holds cells head (queue ++ later) := by
  refine ⟨by rw [List.length_append]; exact hfits, fun k hk => ?_⟩
  rw [List.length_append] at hk
  by_cases hlt : k < queue.length
  · rw [List.getElem_append_left hlt]
    exact h.value k hlt
  · rw [List.getElem_append_right (by omega), ← hlater.value (k - queue.length) (by omega)]
    rw [show head + (k : Int) = head + queue.length + ((k - queue.length : Nat) : Int) by omega]

/-! ## Spans -/

/-- Copy values into consecutive cells. -/
def writeSpan (cells : List α) (index : Int) : List α → List α
  | [] => cells
  | value :: values => writeSpan (Arena.set cells index value) (index + 1) values

/-- Copy values out of consecutive cells. -/
def readSpan (cells : List α) (index count : Int) : List α :=
  (Arena.range index (index + count)).map (Arena.get cells)

omit [Inhabited α] in
@[simp] theorem length_writeSpan (values : List α) :
    ∀ (cells : List α) (index : Int), (writeSpan cells index values).length = cells.length := by
  induction values with
  | nil => intros; rfl
  | cons value values ih =>
    intro cells index
    rw [writeSpan, ih, Arena.length_set]

theorem get_writeSpan_other (values : List α) :
    ∀ {cells : List α} {index other : Int}, other < index ∨ index + values.length ≤ other →
      Arena.get (writeSpan cells index values) other = Arena.get cells other := by
  induction values with
  | nil => intros; rfl
  | cons value values ih =>
    intro cells index other h
    rw [List.length_cons] at h
    rw [writeSpan, ih (by omega), Arena.get_set_ne (by omega)]

theorem get_writeSpan (values : List α) :
    ∀ {cells : List α} {index : Int}, 0 ≤ index → index + values.length ≤ cells.length →
      ∀ (k : Nat) (h : k < values.length),
        Arena.get (writeSpan cells index values) (index + k) = values[k] := by
  induction values with
  | nil => exact fun _ _ k h => absurd h (Nat.not_lt_zero k)
  | cons value values ih =>
    intro cells index h0 hle k hk
    rw [List.length_cons] at hle hk
    rw [writeSpan]
    cases k with
    | zero =>
      rw [get_writeSpan_other values (by omega)]
      simp only [Int.natCast_zero, Int.add_zero, List.getElem_cons_zero]
      exact Arena.get_set_self h0 (by omega)
    | succ k =>
      have hnext := @ih (Arena.set cells index value) (index + 1) (by omega)
        (by rw [Arena.length_set]; omega) k (by omega)
      rw [List.getElem_cons_succ, ← hnext]
      rw [show index + ((k + 1 : Nat) : Int) = index + 1 + (k : Int) by omega]

/-- A span of positions that does not wrap holds what was copied into it. -/
theorem Holds.writeSpan {values : List α} {position : Int} (hpos : 0 < cells.length)
    (hle : position % cells.length + values.length ≤ cells.length) :
    Holds (writeSpan cells (position % cells.length) values) position values := by
  obtain ⟨h0, _⟩ := cell_lt hpos position
  refine ⟨by rw [length_writeSpan]; omega, fun k hk => ?_⟩
  rw [length_writeSpan, emod_add_of_lt (by omega) (by omega) (by omega)]
  exact get_writeSpan values h0 hle k hk

/-- It leaves the positions less than a lap before it alone. -/
theorem Holds.writeSpan_other (h : Holds cells head queue) {values : List α} {position : Int}
    (hge : head + queue.length ≤ position)
    (hle : position + values.length ≤ head + cells.length) :
    Holds (Ring.writeSpan cells (position % cells.length) values) head queue := by
  refine ⟨by rw [length_writeSpan]; exact h.fits, fun k hk => ?_⟩
  rw [length_writeSpan, get_writeSpan_other, h.value k hk]
  by_cases hin : position % cells.length ≤ (head + k) % cells.length ∧
      (head + k) % cells.length < position % cells.length + values.length
  · -- The cell would be that of a position of the span.
    obtain ⟨_, hlt⟩ := cell_lt (show 0 < cells.length by omega) (head + k)
    have hshift : (position + ((head + k) % cells.length - position % cells.length)) %
        cells.length = position % cells.length +
          ((head + k) % cells.length - position % cells.length) :=
      emod_add_of_lt (by omega) (by omega) (by omega)
    have := eq_of_emod_eq (hshift.trans (show _ = (head + k) % (cells.length : Int) by omega))
      (by omega) (by omega)
    omega
  · omega

theorem Holds.readSpan (h : Holds cells head queue) {count : Int}
    (hcount : count ≤ queue.length) (hspan : head % cells.length + count ≤ cells.length) :
    readSpan cells (head % cells.length) count = queue.take count.toNat := by
  have hfits := h.fits
  refine List.ext_getElem (by simp [Ring.readSpan]; omega) (fun k hk _ => ?_)
  simp only [Ring.readSpan, List.length_map, Arena.length_range] at hk
  simp only [Ring.readSpan, List.getElem_map, Arena.getElem_range, List.getElem_take]
  rw [← emod_add_of_lt (by omega) (by omega) (by omega)]
  exact h.value k (by omega)

/-! ## Streams -/

/-- The values `sent` pass through the ring: `got` have left it and the rest are in it. -/
structure Stream (cells : List α) (capacity head tail : Int) (sent got : List α) : Prop where
  isCapacity : IsCapacity capacity
  length : (cells.length : Int) = capacity
  head_eq : head = Word.wrap got.length
  tail_eq : tail = Word.wrap sent.length
  got_prefix : got <+: sent
  room : (sent.length : Int) ≤ got.length + capacity
  holds : Holds cells got.length (sent.drop got.length)

namespace Stream

variable {capacity tail : Int} {sent got : List α}

theorem start (hcap : IsCapacity capacity) (hlen : (cells.length : Int) = capacity) :
    Stream cells capacity 0 0 [] [] where
  isCapacity := hcap
  length := hlen
  head_eq := by rw [List.length_nil, Int.natCast_zero]; decide
  tail_eq := by rw [List.length_nil, Int.natCast_zero]; decide
  got_prefix := List.prefix_rfl
  room := by
    have := hcap.pos
    simp only [List.length_nil]
    omega
  holds := Holds.nil _ _

section

variable (h : Stream cells capacity head tail sent got)

include h

theorem length_queue : ((sent.drop got.length).length : Int) = sent.length - got.length := by
  have := h.got_prefix.length_le
  rw [List.length_drop]
  omega

/-- The distance of the counters, whatever they have wrapped to. -/
theorem distance : Word.wrap (tail - head) = sent.length - got.length := by
  have := h.got_prefix.length_le
  have := h.room
  have := h.isCapacity.lt
  rw [h.tail_eq, h.head_eq, Word.wrap_wrap_sub_wrap]
  exact Word.wrap_of_range (by omega) (by omega)

theorem slot_head : Word.land head (capacity - 1) = got.length % capacity := by
  rw [slot_eq h.isCapacity, h.head_eq, wrap_emod h.isCapacity]

theorem slot_tail : Word.land tail (capacity - 1) = sent.length % capacity := by
  rw [slot_eq h.isCapacity, h.tail_eq, wrap_emod h.isCapacity]

/-- What a span behind the tail holds after a copy into it. -/
theorem span (position : Int) (values : List α)
    (hle : position % capacity + values.length ≤ capacity) :
    Holds (Ring.writeSpan cells (position % capacity) values) position values := by
  have hpos := h.isCapacity.pos
  rw [← h.length] at hle hpos ⊢
  exact Holds.writeSpan (by omega) hle

/-- Copying behind the tail. -/
theorem write (position : Int) (values : List α) (hge : (sent.length : Int) ≤ position)
    (hle : position + values.length ≤ got.length + capacity) :
    Stream (Ring.writeSpan cells (position % capacity) values) capacity head tail sent got := by
  have hlen := h.length
  have hqueue := h.length_queue
  refine { h with length := by rw [length_writeSpan]; exact hlen, holds := ?_ }
  rw [← hlen] at hle ⊢
  exact h.holds.writeSpan_other (by omega) hle

end

/-- Publishing what was copied behind the tail. -/
theorem publish (h : Stream cells capacity head tail sent got) {values : List α}
    (hroom : (sent.length : Int) + values.length ≤ got.length + capacity)
    (hholds : Holds cells sent.length values) :
    Stream cells capacity head (Word.wrap (tail + values.length)) (sent ++ values) got where
  isCapacity := h.isCapacity
  length := h.length
  head_eq := h.head_eq
  tail_eq := by
    rw [h.tail_eq, Word.wrap_wrap_add, List.length_append]
    simp
  got_prefix := h.got_prefix.trans (List.prefix_append _ _)
  room := by
    rw [List.length_append]
    omega
  holds := by
    have hle := h.got_prefix.length_le
    have hqueue := h.length_queue
    have hlen := h.length
    rw [List.drop_append_of_le_length hle]
    refine h.holds.append ?_ (by omega)
    rw [show (got.length : Int) + (sent.drop got.length).length = sent.length by omega]
    exact hholds

/-- Releasing values from the head. -/
theorem release (h : Stream cells capacity head tail sent got) {count : Nat}
    (hle : got.length + count ≤ sent.length) :
    Stream cells capacity (Word.wrap (head + count)) tail sent
      (got ++ (sent.drop got.length).take count) := by
  have hlen : (got ++ (sent.drop got.length).take count).length = got.length + count := by
    rw [List.length_append, List.length_take, List.length_drop]
    omega
  refine
    { isCapacity := h.isCapacity
      length := h.length
      head_eq := ?_
      tail_eq := h.tail_eq
      got_prefix := ?_
      room := by have := h.room; omega
      holds := ?_ }
  · rw [h.head_eq, Word.wrap_wrap_add, hlen]
    simp
  · refine ⟨(sent.drop got.length).drop count, ?_⟩
    rw [List.append_assoc, List.take_append_drop]
    exact List.prefix_iff_eq_append.mp h.got_prefix
  · rw [hlen, ← List.drop_drop]
    exact h.holds.drop count

/-- The values waiting in the ring, one span of them. -/
theorem read (h : Stream cells capacity head tail sent got) {skip count : Int}
    (h0 : 0 ≤ skip) (hcount : 0 ≤ count) (hle : (got.length : Int) + skip + count ≤ sent.length)
    (hspan : (got.length + skip) % capacity + count ≤ capacity) :
    Ring.readSpan cells ((got.length + skip) % capacity) count =
      ((sent.drop got.length).drop skip.toNat).take count.toNat := by
  have hqueue := h.length_queue
  have hdrop := h.holds.drop skip.toNat
  rw [show (got.length : Int) + skip.toNat = got.length + skip by omega] at hdrop
  rw [← h.length] at hspan ⊢
  refine hdrop.readSpan ?_ hspan
  rw [List.length_drop]
  omega

/-- One value at the tail. -/
theorem push (h : Stream cells capacity head tail sent got) (value : α)
    (hroom : (sent.length : Int) < got.length + capacity) :
    Stream (Arena.set cells (Word.land tail (capacity - 1)) value) capacity head
      (Word.wrap (tail + 1)) (sent ++ [value]) got := by
  have hcell := Int.emod_lt_of_pos (sent.length : Int) h.isCapacity.pos
  have hwrite := h.write sent.length [value] (Int.le_refl _) hroom
  have hspan := h.span sent.length [value] hcell
  rw [h.slot_tail]
  exact @publish _ _ _ _ _ _ _ _ hwrite [value] hroom hspan

/-- The value at the head is the next to leave. -/
theorem front (h : Stream cells capacity head tail sent got) (hsome : got.length < sent.length) :
    sent.drop got.length =
      Arena.get cells (Word.land head (capacity - 1)) :: sent.drop (got.length + 1) := by
  have hfirst := h.holds.value 0 (by rw [List.length_drop]; omega)
  rw [h.length, Int.natCast_zero, Int.add_zero, ← h.slot_head, List.getElem_drop] at hfirst
  rw [hfirst]
  exact List.drop_eq_getElem_cons hsome

/-- One value from the head. -/
theorem pop (h : Stream cells capacity head tail sent got) (hsome : got.length < sent.length) :
    Stream cells capacity (Word.wrap (head + 1)) tail sent
      (got ++ [Arena.get cells (Word.land head (capacity - 1))]) := by
  have hrelease := @release _ _ _ _ _ _ _ _ h 1 hsome
  rw [h.front hsome, List.take_succ_cons, List.take_zero] at hrelease
  exact hrelease

end Stream

end Ring
