import Mathlib.Data.List.Basic

/-!
# Positions in a list of items with widths

Items of positive widths stand one behind the other. An offset is between two items exactly if it is
the width of the items in front of a position.

Result: `total_take_lt`: a position further behind has a greater offset.
-/

namespace Offsets

variable {α : Type} (width : α → Nat)

/-- The width of the items together. -/
def total : List α → Nat
  | [] => 0
  | item :: items => width item + total items

/-- The number of the items in front of the offset; none if it is inside an item or outside. -/
def position : List α → Int → Option Nat
  | [], offset => if offset = 0 then some 0 else none
  | item :: items, offset =>
      if offset = 0 then some 0 else (position items (offset - width item)).map (· + 1)

variable {width} {items : List α}

/-- **The position of an offset**: the items in front of it have its width. -/
theorem position_eq_some (hwidth : ∀ item ∈ items, 0 < width item) {offset : Int} {k : Nat} :
    position width items offset = some k ↔
      k ≤ items.length ∧ offset = total width (items.take k) := by
  induction items generalizing offset k with
  | nil =>
    rw [position, List.take_nil, total, List.length_nil]
    split
    · rename_i hzero
      subst hzero
      exact ⟨fun h => ⟨Nat.le_of_eq (Option.some.inj h).symm, rfl⟩,
        fun h => congrArg some (Nat.le_zero.mp h.1).symm⟩
    · rename_i hne
      exact ⟨nofun, fun h => absurd h.2 hne⟩
  | cons item items ih =>
    obtain ⟨hitem, hrest⟩ := List.forall_mem_cons.mp hwidth
    rw [position]
    by_cases hzero : offset = 0
    · rw [if_pos hzero]
      constructor
      · rintro ⟨⟩
        exact ⟨Nat.zero_le _, hzero⟩
      rintro ⟨-, htotal⟩
      cases k with
      | zero => rfl
      | succ k =>
        rw [List.take_succ_cons, total] at htotal
        omega
    · rw [if_neg hzero, Option.map_eq_some_iff]
      constructor
      · rintro ⟨j, hj, rfl⟩
        obtain ⟨hle, htotal⟩ := (ih hrest).mp hj
        refine ⟨Nat.succ_le_succ hle, ?_⟩
        rw [List.take_succ_cons, total]
        omega
      · rintro ⟨hle, htotal⟩
        cases k with
        | zero => exact absurd htotal hzero
        | succ k =>
          rw [List.take_succ_cons, total] at htotal
          exact ⟨k, (ih hrest).mpr ⟨Nat.le_of_succ_le_succ hle, by omega⟩, rfl⟩

/-- A position further behind has a greater offset. -/
theorem total_take_lt (hwidth : ∀ item ∈ items, 0 < width item) {k m : Nat} (hlt : k < m)
    (hm : m ≤ items.length) : total width (items.take k) < total width (items.take m) := by
  induction items generalizing k m with
  | nil => exact absurd (Nat.lt_of_lt_of_le hlt hm) (Nat.not_lt_zero k)
  | cons item items ih =>
    obtain ⟨hitem, hrest⟩ := List.forall_mem_cons.mp hwidth
    obtain ⟨m, rfl⟩ := Nat.exists_eq_succ_of_ne_zero (Nat.ne_of_gt (Nat.zero_lt_of_lt hlt))
    rw [List.take_succ_cons, total]
    cases k with
    | zero => exact Nat.lt_of_lt_of_le hitem (Nat.le_add_right _ _)
    | succ k =>
      rw [List.take_succ_cons, total]
      exact Nat.add_lt_add_left
        (ih hrest (Nat.lt_of_succ_lt_succ hlt) (Nat.le_of_succ_le_succ hm)) _

end Offsets
