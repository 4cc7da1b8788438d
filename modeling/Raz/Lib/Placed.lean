/-!
# Parts at an offset

A file that is read by offsets is a list of parts one behind the other. `At items offset part` says
that a part stands at an offset; the rules follow the layout of the file.

Result: `At.slice`, `At.getD`: what is read there.
-/

namespace Placed

open List

variable {offset : Nat}

variable {β ι : Type}

/-- The part stands at the offset. -/
def At (items : List β) (offset : Nat) (part : List β) : Prop :=
  ∃ front back, items = front ++ (part ++ back) ∧ front.length = offset

theorem At.whole (items : List β) : At items 0 items := ⟨[], [], by simp, rfl⟩

theorem At.append {items part : List β} (h : At items offset part) (more : List β) :
    At (items ++ more) offset part := by
  obtain ⟨front, back, rfl, hlen⟩ := h
  exact ⟨front, back ++ more, by simp only [append_assoc], hlen⟩

theorem At.of_append (front part : List β) : At (front ++ part) front.length part :=
  ⟨front, [], by rw [append_nil], rfl⟩

theorem At.left {items part more : List β} (h : At items offset (part ++ more)) :
    At items offset part := by
  obtain ⟨front, back, rfl, hlen⟩ := h
  exact ⟨front, more ++ back, by rw [append_assoc], hlen⟩

theorem At.right {items part more : List β} (h : At items offset (part ++ more)) :
    At items (offset + part.length) more := by
  obtain ⟨front, back, rfl, rfl⟩ := h
  exact ⟨front ++ part, back, by simp only [append_assoc], length_append⟩

/-- The part behind one of a known length. -/
theorem At.skip {items part more : List β} {size : Nat} (h : At items offset (part ++ more))
    (hsize : part.length = size) :
    At items (offset + size) more := hsize ▸ h.right

/-- A part of a part. -/
theorem At.trans {items part inner : List β} {more : Nat} (h : At items offset part)
    (hinner : At part more inner) : At items (offset + more) inner := by
  obtain ⟨front, back, rfl, rfl⟩ := hinner
  exact h.right.left

theorem At.le {items part : List β} (h : At items offset part) :
    offset + part.length ≤ items.length := by
  obtain ⟨front, back, rfl, rfl⟩ := h
  rw [length_append, length_append]
  exact Nat.add_le_add_left (Nat.le_add_right _ _) _

theorem At.drop {items part : List β} (h : At items offset part) :
    ∃ back, items.drop offset = part ++ back := by
  obtain ⟨front, back, rfl, rfl⟩ := h
  exact ⟨back, drop_left⟩

/-- The part is what is read at its offset. -/
theorem At.slice {items part : List β} (h : At items offset part) :
    (items.drop offset).take part.length = part := by
  obtain ⟨back, hdrop⟩ := h.drop
  rw [hdrop, take_left]

theorem At.getD {items more : List β} {item : β} (h : At items offset (item :: more)) (other : β) :
    items.getD offset other = item := by
  obtain ⟨back, hdrop⟩ := h.drop
  rw [getD_eq_getElem?_getD, ← Nat.add_zero offset, ← List.getElem?_drop, hdrop]
  rfl

/-- An item of a table of records that all have the same size. -/
theorem At.item {items : List β} {write : ι → List β} {size : Nat} {records : List ι}
    (hsize : ∀ record ∈ records, (write record).length = size) :
    ∀ {index : Nat} {record : ι}, At items offset (records.flatMap write) →
      records[index]? = some record → At items (offset + index * size) (write record) := by
  induction records generalizing offset with
  | nil =>
    intro index record _ hrecord
    rw [List.getElem?_nil] at hrecord
    cases hrecord
  | cons first records ih =>
    intro index record h hrecord
    rw [flatMap_cons] at h
    cases index with
    | zero =>
      rw [List.getElem?_cons_zero] at hrecord
      cases hrecord
      rw [Nat.zero_mul]
      exact h.left
    | succ index =>
      rw [List.getElem?_cons_succ] at hrecord
      have hrest := ih (fun other hother => hsize other (mem_cons_of_mem _ hother))
        (h.skip (hsize first mem_cons_self)) hrecord
      rwa [Nat.add_assoc, Nat.add_comm size, ← Nat.succ_mul] at hrest

end Placed
