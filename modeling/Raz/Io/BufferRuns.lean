import Mathlib.Algebra.Order.Ring.Int
import Raz.Io.Buffer

/-!
# Runs of a byte buffer

Translation of `append`, `peek`, `read_into`, `shrink_to_fit` and `clear`. What is appended lies
outside of the buffer, and what is read into another block is the list of its bytes. A run has the
answer of the allocator beside every call; a call that asks for no block does not look at it.

Result: `run_queue`: a buffer is a queue of bytes.
-/

namespace Raz.Io.ByteBuffer

open List

variable {buffer : ByteBuffer}

/-- `append`, and `push` of one byte. -/
def append (buffer : ByteBuffer) (bytes : List UInt8) (granted : Bool) : Option ByteBuffer :=
  (buffer.reserve bytes.length granted).bind (·.commit bytes)

def peek (buffer : ByteBuffer) (offset : Int) : Option UInt8 :=
  if offset < 0 ∨ offset ≥ buffer.readable.length then none
  else buffer.raw[buffer.readPosition + offset.toNat]?

/-- `read_into`: what it reads, if it does not return -1. -/
def readInto (buffer : ByteBuffer) (requested : Int) : Option (List UInt8) × ByteBuffer :=
  if requested < 0 then (none, buffer)
  else
    let count := min requested.toNat buffer.readable.length
    (some (buffer.readable.take count),
      if count > 0 then (buffer.consume count).getD buffer else buffer)

/-- `alloc::vec::shrink_to_fit`: a vector without bytes gives its block back. -/
def shrink (buffer : ByteBuffer) (granted : Bool) : Bool × ByteBuffer :=
  if buffer.raw.length = buffer.capacity then (true, buffer)
  else if buffer.raw.length = 0 ∨ granted then
    (true, ⟨buffer.raw, buffer.raw.length, buffer.readPosition, buffer.position_le, Nat.le_refl _⟩)
  else (false, buffer)

def shrinkToFit (buffer : ByteBuffer) (granted : Bool) : Bool × ByteBuffer :=
  (if buffer.readPosition > 0 then buffer.compact else buffer).shrink granted

inductive Call
  | reserve (additional : Int)
  | append (bytes : List UInt8)
  | consume (count : Int)
  | readInto (requested : Int)
  | peek (offset : Int)
  | compact
  | shrinkToFit
  | clear
  deriving DecidableEq, Repr

inductive Report
  | done (ok : Bool)
  | read (bytes : Option (List UInt8))
  deriving DecidableEq, Repr

/-- A call that changes nothing when it returns false. -/
def attempt (buffer : ByteBuffer) (changed : Option ByteBuffer) : Report × ByteBuffer :=
  (.done changed.isSome, changed.getD buffer)

def perform (buffer : ByteBuffer) (granted : Bool) : Call → Report × ByteBuffer
  | .reserve additional =>
      buffer.attempt (if additional < 0 then none else buffer.reserve additional.toNat granted)
  | .append bytes => buffer.attempt (buffer.append bytes granted)
  | .consume count => buffer.attempt (if count < 0 then none else buffer.consume count.toNat)
  | .readInto requested => (buffer.readInto requested).map .read id
  | .peek offset => (.read ((buffer.peek offset).map ([·])), buffer)
  | .compact => (.done true, buffer.compact)
  | .shrinkToFit => (buffer.shrinkToFit granted).map .done id
  | .clear => (.done true, .empty buffer.capacity)

def Call.size : Call → Nat
  | .append bytes => bytes.length
  | _ => 0

/-- The calls, each with the answer of the allocator. -/
def run (buffer : ByteBuffer) : List (Call × Bool) → List Report × ByteBuffer
  | [] => ([], buffer)
  | (call, granted) :: calls =>
      ((buffer.perform granted call).2.run calls).map ((buffer.perform granted call).1 :: ·) id

/-! ## Queues -/

/-- The bytes fit behind so many that a vector holds. -/
def Fits (used : Nat) (count : Int) : Prop := 0 ≤ count ∧ used + count ≤ 9223372036854775807

instance (used : Nat) (count : Int) : Decidable (Fits used count) :=
  inferInstanceAs (Decidable (_ ∧ _))

/-- What a call does to a queue whose vector holds so many bytes, where there is room or not. -/
def meaning (used : Nat) (room : Bool) (queue : List UInt8) : Call → Report × List UInt8
  | .reserve additional => (.done (Fits used additional ∧ room), queue)
  | .append bytes =>
      if Fits used bytes.length ∧ room then (.done true, queue ++ bytes) else (.done false, queue)
  | .consume count =>
      if 0 ≤ count ∧ count ≤ queue.length then (.done true, queue.drop count.toNat)
      else (.done false, queue)
  | .readInto requested =>
      if requested < 0 then (.read none, queue)
      else (.read (some (queue.take requested.toNat)), queue.drop requested.toNat)
  | .peek offset => (.read ((if offset < 0 then none else queue[offset.toNat]?).map ([·])), queue)
  | .compact => (.done true, queue)
  | .shrinkToFit => (.done room, queue)
  | .clear => (.done true, [])

/-- What a call finds: the bytes that the vector holds, and whether it has room or gets it. -/
structure Found where
  used : Nat
  room : Bool

/-- The calls on a queue, each with what it finds. -/
def queueRun (queue : List UInt8) : List (Call × Found) → List Report × List UInt8
  | [] => ([], queue)
  | (call, found) :: calls =>
      (queueRun (meaning found.used found.room queue call).2 calls).map
        ((meaning found.used found.room queue call).1 :: ·) id

theorem reserve_fits (buffer : ByteBuffer) (additional : Nat) (granted : Bool) :
    (Fits buffer.raw.length additional ∧ ∃ next, buffer.reserve additional granted = some next ∧
      next.readable = buffer.readable ∧ next.raw.length + additional ≤ next.capacity ∧
      next.raw.length ≤ buffer.raw.length) ∨
    ((¬ Fits buffer.raw.length additional ∨ granted = false) ∧
      buffer.reserve additional granted = none) := by
  by_cases hfit : buffer.raw.length + additional ≤ 9223372036854775807
  · obtain ⟨hrefused, hnone⟩ | hdone := reserve_cases granted hfit
    · exact .inr ⟨.inr hrefused, hnone⟩
    · exact .inl ⟨⟨Int.natCast_nonneg _, by omega⟩, hdone⟩
  · exact .inr ⟨.inl fun h => hfit (by have := h.2; omega), if_pos (Nat.lt_of_not_le hfit)⟩

theorem shrink_spec (buffer : ByteBuffer) (granted : Bool) :
    ((buffer.shrink granted).1 = true ∨ granted = false ∧ (buffer.shrink granted).1 = false) ∧
      (buffer.shrink granted).2.readable = buffer.readable ∧
      (buffer.shrink granted).2.raw.length ≤ buffer.raw.length := by
  unfold shrink
  split
  · exact ⟨.inl rfl, rfl, Nat.le_refl _⟩
  split
  · exact ⟨.inl rfl, rfl, Nat.le_refl _⟩
  · rename_i hrefused
    exact ⟨.inr ⟨Bool.eq_false_iff.mpr fun h => hrefused (.inr h), rfl⟩, rfl, Nat.le_refl _⟩

theorem consume_cases (buffer : ByteBuffer) (count : Nat) :
    (count ≤ buffer.readable.length ∧ ∃ next, buffer.consume count = some next ∧
      next.readable = buffer.readable.drop count ∧ next.raw.length ≤ buffer.raw.length) ∨
    (¬ count ≤ buffer.readable.length ∧ buffer.consume count = none) := by
  by_cases hle : count ≤ buffer.readable.length
  · exact .inl ⟨hle, consume_spec hle⟩
  · exact .inr ⟨hle, dif_neg (buffer.length_readable ▸ hle)⟩

theorem peek_eq (offset : Int) :
    buffer.peek offset = if offset < 0 then none else buffer.readable[offset.toNat]? := by
  unfold peek
  by_cases hneg : offset < 0
  · rw [if_pos (.inl hneg), if_pos hneg]
  rw [if_neg hneg]
  by_cases hend : offset ≥ buffer.readable.length
  · rw [if_pos (.inr hend), getElem?_eq_none (by omega)]
  · rw [if_neg (not_or.mpr ⟨hneg, hend⟩), readable, getElem?_drop]

theorem shrinkToFit_spec (buffer : ByteBuffer) (granted : Bool) :
    ((buffer.shrinkToFit granted).1 = true ∨
      granted = false ∧ (buffer.shrinkToFit granted).1 = false) ∧
      (buffer.shrinkToFit granted).2.readable = buffer.readable ∧
      (buffer.shrinkToFit granted).2.raw.length ≤ buffer.raw.length := by
  unfold shrinkToFit
  split
  · obtain ⟨hdone, hread, hlen⟩ := buffer.compact.shrink_spec granted
    have hcompact : buffer.compact.raw.length ≤ buffer.raw.length := by
      simp [compact]
    exact ⟨hdone, hread, Nat.le_trans hlen hcompact⟩
  · exact buffer.shrink_spec granted

/-- **A call does what it means, and the vector only grows by what is appended.** There is room
where every block is granted. -/
theorem perform_spec (buffer : ByteBuffer) (granted : Bool) (call : Call) :
    ∃ room : Bool, (granted = true → room = true) ∧
      (buffer.perform granted call).map id readable =
        meaning buffer.raw.length room buffer.readable call ∧
      (buffer.perform granted call).2.raw.length ≤ buffer.raw.length + call.size := by
  cases call with
  | reserve additional =>
    by_cases hneg : additional < 0
    · exact ⟨granted, id, by simp [perform, attempt, meaning, Fits, hneg, Int.not_le.mpr hneg]⟩
    obtain ⟨count, rfl⟩ := Int.eq_ofNat_of_zero_le (Int.not_lt.mp hneg)
    obtain ⟨hfits, next, heq, hread, -, hlen⟩ | ⟨hfits | hrefused, heq⟩ :=
      buffer.reserve_fits count granted
    · exact ⟨true, fun _ => rfl,
        by simp [perform, attempt, meaning, hneg, hfits, heq, hread, hlen, Call.size]⟩
    · exact ⟨granted, id, by simp [perform, attempt, meaning, hneg, hfits, heq]⟩
    · rw [hrefused] at heq ⊢
      exact ⟨false, id, by simp [perform, attempt, meaning, hneg, heq]⟩
  | append bytes =>
    obtain ⟨hfits, grown, heq, hread, hroom, hlen⟩ | ⟨hfits | hrefused, heq⟩ :=
      buffer.reserve_fits bytes.length granted
    · obtain ⟨next, hnext, hread', hlen'⟩ := commit_spec hroom
      exact ⟨true, fun _ => rfl, by simp [perform, attempt, append, meaning, hfits, heq, hnext,
        hread', hread, hlen', hlen, Call.size]⟩
    · exact ⟨granted, id, by simp [perform, attempt, append, meaning, hfits, heq]⟩
    · rw [hrefused] at heq ⊢
      exact ⟨false, id, by simp [perform, attempt, append, meaning, heq]⟩
  | consume count =>
    refine ⟨granted, id, ?_⟩
    by_cases hneg : count < 0
    · simp [perform, attempt, meaning, hneg, Int.not_le.mpr hneg]
    obtain ⟨count, rfl⟩ := Int.eq_ofNat_of_zero_le (Int.not_lt.mp hneg)
    rcases buffer.consume_cases count with ⟨hle, next, heq, hread, hlen⟩ | ⟨hle, heq⟩
    · simp [perform, attempt, meaning, hneg, hle, heq, hread, hlen, Call.size]
    · simp [perform, attempt, meaning, hneg, hle, heq]
  | readInto requested =>
    refine ⟨granted, id, ?_⟩
    by_cases hneg : requested < 0
    · simp [perform, readInto, meaning, hneg]
    obtain ⟨next, heq, hread, hlen⟩ :=
      consume_spec (Nat.min_le_right requested.toNat buffer.readable.length)
    have htake : buffer.readable.take (min requested.toNat buffer.readable.length) =
        buffer.readable.take requested.toNat := take_eq_take_iff.mpr (by simp)
    have hdrop : buffer.readable.drop (min requested.toNat buffer.readable.length) =
        buffer.readable.drop requested.toNat := drop_eq_drop_iff.mpr (by simp)
    by_cases hpos : min requested.toNat buffer.readable.length > 0
    · simp only [perform, readInto, meaning, if_neg hneg, if_pos hpos, heq, htake]
      exact ⟨by rw [← hdrop, ← hread]; rfl, Nat.le_trans hlen (Nat.le_add_right _ _)⟩
    · simp only [perform, readInto, meaning, if_neg hneg, if_neg hpos, htake, ← hdrop]
      exact ⟨by rw [Nat.eq_zero_of_not_pos hpos]; rfl, Nat.le_add_right _ _⟩
  | peek offset =>
    exact ⟨granted, id, by simp [perform, meaning, peek_eq], Nat.le_add_right _ _⟩
  | compact =>
    exact ⟨granted, id, rfl, by simp [perform, compact, Call.size]⟩
  | shrinkToFit =>
    obtain ⟨hdone, hread, hlen⟩ := buffer.shrinkToFit_spec granted
    refine ⟨(buffer.shrinkToFit granted).1, fun hgranted => ?_, Prod.ext rfl hread, hlen⟩
    exact hdone.resolve_right fun hrefused =>
      Bool.false_ne_true (hrefused.1.symm.trans hgranted)
  | clear => exact ⟨granted, id, rfl, Nat.zero_le _⟩

end Raz.Io.ByteBuffer
