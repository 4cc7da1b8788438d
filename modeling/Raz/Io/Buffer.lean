/-!
# Byte buffers

Translation of `std::io::buffer`: `reserve`, `commit` and `consume`. The bytes up to the length of
the vector are a list. A call that may ask for a block has the answer of the allocator as its
argument. The bytes that are committed were written behind the last one, at the tail that `reserve`
made room for.

Result: `commit_spec`, `consume_spec`: what is readable afterwards.
-/

namespace Raz.Io

open List

/-- The vector with its read position. -/
structure ByteBuffer where
  raw : List UInt8
  capacity : Nat
  readPosition : Nat
  position_le : readPosition ≤ raw.length
  length_le : raw.length ≤ capacity
  deriving DecidableEq, Repr

namespace ByteBuffer

/-- `as_view`: the bytes from the read position on. -/
def readable (buffer : ByteBuffer) : List UInt8 := buffer.raw.drop buffer.readPosition

def empty (capacity : Nat) : ByteBuffer := ⟨[], capacity, 0, Nat.le_refl _, Nat.zero_le _⟩

/-- The loop of `growth_capacity`, which doubles less than 64 times. -/
def growLoop (required : Nat) : Nat → Nat → Nat
  | 0, _ => required
  | rounds + 1, next =>
      if next < required then
        if next > 2305843009213693951 then required else growLoop required rounds (next * 2)
      else next

def growthCapacity (current required : Nat) : Nat :=
  if required ≤ current then current else growLoop required 64 (max current 8)

theorem le_growLoop (required rounds : Nat) : ∀ next, required ≤ growLoop required rounds next := by
  induction rounds with
  | zero => exact fun _ => Nat.le_refl _
  | succ rounds ih =>
    intro next
    unfold growLoop
    split
    · split
      · exact Nat.le_refl _
      · exact ih _
    · exact Nat.not_lt.mp ‹_›

theorem le_growthCapacity (current required : Nat) :
    required ≤ growthCapacity current required ∧ current ≤ growthCapacity current required := by
  unfold growthCapacity
  split
  · exact ⟨‹_›, Nat.le_refl _⟩
  · have hle := le_growLoop required 64 (max current 8)
    exact ⟨hle, by omega⟩

def compact (buffer : ByteBuffer) : ByteBuffer where
  raw := buffer.raw.drop buffer.readPosition
  capacity := buffer.capacity
  readPosition := 0
  position_le := Nat.zero_le _
  length_le := by
    rw [List.length_drop]
    exact Nat.le_trans (Nat.sub_le _ _) buffer.length_le

def grow (buffer : ByteBuffer) (required : Nat) : ByteBuffer where
  raw := buffer.raw
  capacity := growthCapacity buffer.capacity required
  readPosition := buffer.readPosition
  position_le := buffer.position_le
  length_le := Nat.le_trans buffer.length_le (le_growthCapacity _ _).2

/-- `reserve`; `none` where it returns false. -/
def reserve (buffer : ByteBuffer) (additional : Nat) (granted : Bool) : Option ByteBuffer :=
  if buffer.raw.length + additional > 9223372036854775807 then none
  else
    let required := buffer.raw.length + additional
    if required ≤ buffer.capacity then some buffer
    else
      let live := buffer.raw.length - buffer.readPosition
      if buffer.readPosition > 0 ∧ live + additional ≤ buffer.capacity then some buffer.compact
      else if granted then some (buffer.grow required) else none

/-- `commit` of bytes that are at the tail. -/
def commit (buffer : ByteBuffer) (bytes : List UInt8) : Option ByteBuffer :=
  if h : buffer.raw.length + bytes.length ≤ buffer.capacity then
    some ⟨buffer.raw ++ bytes, buffer.capacity, buffer.readPosition,
      by rw [List.length_append]; exact Nat.le_trans buffer.position_le (Nat.le_add_right _ _),
      by rw [List.length_append]; exact h⟩
  else none

def consume (buffer : ByteBuffer) (count : Nat) : Option ByteBuffer :=
  if h : count ≤ buffer.raw.length - buffer.readPosition then
    if buffer.readPosition + count = buffer.raw.length then some (empty buffer.capacity)
    else
      some ⟨buffer.raw, buffer.capacity, buffer.readPosition + count,
        by have := buffer.position_le; omega, buffer.length_le⟩
  else none

/-! ## What is readable -/

theorem length_readable (buffer : ByteBuffer) :
    buffer.readable.length = buffer.raw.length - buffer.readPosition := length_drop

theorem compact_readable (buffer : ByteBuffer) : buffer.compact.readable = buffer.readable := rfl

/-- There is room for as many bytes, and the readable ones are the same, unless a block is refused.
-/
theorem reserve_cases {buffer : ByteBuffer} {additional : Nat} (granted : Bool)
    (h : buffer.raw.length + additional ≤ 9223372036854775807) :
    (granted = false ∧ buffer.reserve additional granted = none) ∨
    ∃ buffer', buffer.reserve additional granted = some buffer' ∧
      buffer'.readable = buffer.readable ∧
      buffer'.raw.length + additional ≤ buffer'.capacity ∧
      buffer'.raw.length ≤ buffer.raw.length := by
  unfold reserve
  rw [if_neg (Nat.not_lt.mpr h)]
  simp only
  split
  · exact .inr ⟨_, rfl, rfl, ‹_›, Nat.le_refl _⟩
  split
  · rename_i hlive
    have hlen : buffer.compact.raw.length = buffer.raw.length - buffer.readPosition :=
      length_drop
    refine .inr ⟨_, rfl, buffer.compact_readable, ?_, ?_⟩
    · rw [hlen]
      exact hlive.2
    · rw [hlen]
      exact Nat.sub_le _ _
  cases granted with
  | false => exact .inl ⟨rfl, rfl⟩
  | true => exact .inr ⟨_, rfl, rfl, (le_growthCapacity _ _).1, Nat.le_refl _⟩

theorem reserve_spec {buffer : ByteBuffer} {additional : Nat}
    (h : buffer.raw.length + additional ≤ 9223372036854775807) :
    ∃ buffer', buffer.reserve additional true = some buffer' ∧
      buffer'.readable = buffer.readable ∧
      buffer'.raw.length + additional ≤ buffer'.capacity ∧
      buffer'.raw.length ≤ buffer.raw.length :=
  (reserve_cases true h).resolve_left fun hrefused => nomatch hrefused.1

theorem commit_spec {buffer : ByteBuffer} {bytes : List UInt8}
    (h : buffer.raw.length + bytes.length ≤ buffer.capacity) :
    ∃ buffer', buffer.commit bytes = some buffer' ∧
      buffer'.readable = buffer.readable ++ bytes ∧
      buffer'.raw.length = buffer.raw.length + bytes.length := by
  unfold commit
  rw [dif_pos h]
  exact ⟨_, rfl, drop_append_of_le_length buffer.position_le, length_append⟩

theorem consume_spec {buffer : ByteBuffer} {count : Nat} (h : count ≤ buffer.readable.length) :
    ∃ buffer', buffer.consume count = some buffer' ∧
      buffer'.readable = buffer.readable.drop count ∧
      buffer'.raw.length ≤ buffer.raw.length := by
  rw [length_readable] at h
  unfold consume
  rw [dif_pos h]
  split
  · rename_i hall
    refine ⟨_, rfl, ?_, Nat.zero_le _⟩
    show [] = (buffer.raw.drop buffer.readPosition).drop count
    rw [drop_drop, hall, drop_length]
  · refine ⟨_, rfl, ?_, Nat.le_refl _⟩
    show buffer.raw.drop (buffer.readPosition + count) = _
    rw [readable, drop_drop]

end ByteBuffer

end Raz.Io
