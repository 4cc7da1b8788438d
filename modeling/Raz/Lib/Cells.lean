import Mathlib.Data.List.Induction
import Raz.Lib.Access

/-!
# Memory that must be written before it is read

A block of cells, each empty until something is stored in it. A load of an empty cell is an access
outside, as is one behind the end, so that a program that runs on fresh cells without such an
access reads back only what it has stored.

Results:
1. `load_written`, `store_written`: cells that are filled from their start.
2. `moveUp_gap`, `fill_gap`: items moved up behind a gap, and the gap filled.
-/

namespace Cells

open Access List

variable {ε α : Type}

def load (cells : List (Option α)) (position : Nat) : Except (Fault ε) α :=
  match cells[position]? with
  | some (some value) => .ok value
  | _ => .error .outside

def store (cells : List (Option α)) (position : Nat) (value : α) :
    Except (Fault ε) (List (Option α)) :=
  if position < cells.length then .ok (cells.set position (some value)) else .error .outside

theorem load_append {below above : List (Option α)} {value : α} {position : Nat}
    (h : below.length = position) :
    (load (below ++ some value :: above) position : Except (Fault ε) α) = .ok value := by
  unfold load
  rw [List.getElem?_append_right (Nat.le_of_eq h), h, Nat.sub_self]
  rfl

theorem store_append {below above : List (Option α)} {cell : Option α} {value : α} {position : Nat}
    (h : below.length = position) :
    (store (below ++ cell :: above) position value : Except (Fault ε) _) =
      .ok (below ++ some value :: above) := by
  have hlt : position < (below ++ cell :: above).length := by
    rw [length_append, h]
    exact Nat.lt_add_of_pos_right (Nat.succ_pos _)
  unfold store
  rw [if_pos hlt, set_append_right _ _ (Nat.le_of_eq h), h, Nat.sub_self]
  rfl

/-! ## Filled from the start -/

/-- The cells once the items have been stored from the start. -/
def written (items : List α) (capacity : Nat) : List (Option α) :=
  items.map some ++ List.replicate (capacity - items.length) none

theorem written_full {items : List α} {capacity : Nat} (h : items.length = capacity) :
    written items capacity = items.map some := by
  unfold written
  rw [h, Nat.sub_self, replicate_zero, append_nil]

theorem load_written {items : List α} {capacity position : Nat} (h : position < items.length) :
    (load (written items capacity) position : Except (Fault ε) α) = .ok items[position] := by
  have hlen : ((items.take position).map (some : α → Option α)).length = position := by
    rw [length_map, length_take_of_le (Nat.le_of_lt h)]
  unfold written
  nth_rewrite 1 [← take_append_drop position items]
  rw [drop_eq_getElem_cons h, map_append, map_cons, append_assoc]
  exact load_append hlen

theorem store_written {items : List α} {capacity : Nat} {value : α} (h : items.length < capacity) :
    (store (written items capacity) items.length value : Except (Fault ε) _) =
      .ok (written (items ++ [value]) capacity) := by
  have hrest : capacity - items.length = (capacity - (items ++ [value]).length) + 1 := by
    rw [length_append, length_singleton]
    omega
  unfold written
  rw [hrest, replicate_succ, store_append (length_map _), map_append, append_assoc]
  rfl

/-! ## Moving up -/

/-- The items from `bottom` on are moved `distance` cells up, from the top down; `count` of them are
left. -/
def moveUp (distance bottom : Nat) : List (Option α) → Nat → Except (Fault ε) (List (Option α))
  | cells, 0 => .ok cells
  | cells, count + 1 => do
    let value ← load cells (bottom + count)
    let cells ← store cells (bottom + count + distance) value
    moveUp distance bottom cells count

/-- The `count` cells from a position on are given one value. -/
def fill (value : α) : List (Option α) → Nat → Nat → Except (Fault ε) (List (Option α))
  | cells, _, 0 => .ok cells
  | cells, position, count + 1 => do
    let cells ← store cells position value
    fill value cells (position + 1) count

/-- **Moving up**: the items end up behind a gap as wide as the one that they were moved over. -/
theorem moveUp_gap {below above : List (Option α)} {items : List α} : ∀ {gap : List (Option α)},
    gap ≠ [] → ∃ gap' : List (Option α), gap'.length = gap.length ∧
      (moveUp gap.length below.length (below ++ items.map some ++ gap ++ above) items.length :
        Except (Fault ε) _) = .ok (below ++ gap' ++ items.map some ++ above) := by
  induction items using List.reverseRecOn generalizing above with
  | nil =>
    intro gap _
    refine ⟨gap, rfl, ?_⟩
    rw [map_nil, append_nil, append_nil]
    rfl
  | append_singleton items item ih =>
    intro gap hgap
    obtain ⟨front, last, rfl⟩ : ∃ front last, gap = front ++ [last] :=
      ⟨gap.dropLast, gap.getLast hgap, (dropLast_concat_getLast hgap).symm⟩
    have hbelow : (below ++ items.map some).length = below.length + items.length := by
      rw [length_append, length_map]
    have hload : (load (below ++ items.map some ++ some item :: (front ++ [last] ++ above))
        (below.length + items.length) : Except (Fault ε) α) = .ok item := load_append hbelow
    have hstore : (store (below ++ items.map some ++ some item :: front ++ last :: above)
        (below.length + items.length + (front ++ [last]).length) item : Except (Fault ε) _) =
        .ok (below ++ items.map some ++ some item :: front ++ some item :: above) := by
      refine store_append ?_
      rw [length_append, hbelow, length_append]
      rfl
    obtain ⟨gap', hlen, hrest⟩ := @ih (some item :: above) (some item :: front) (cons_ne_nil _ _)
    have hsame : (some item :: front).length = (front ++ [last]).length := by
      rw [length_append, length_cons, length_singleton]
    refine ⟨gap', hlen.trans hsame, ?_⟩
    have hcount : (items ++ [item]).length = items.length + 1 := by
      rw [length_append, length_singleton]
    simp only [map_append, map_singleton, append_assoc, cons_append,
      nil_append] at hload hstore hrest ⊢
    rw [hcount, moveUp, hload]
    change (store _ _ _ >>= _) = _
    rw [hstore, ← hsame]
    exact hrest

/-- The gap is given the value. -/
theorem fill_gap {value : α} {above gap : List (Option α)} : ∀ {below : List (Option α)},
    (fill value (below ++ gap ++ above) below.length gap.length : Except (Fault ε) _) =
      .ok (below ++ List.replicate gap.length (some value) ++ above) := by
  induction gap with
  | nil => exact rfl
  | cons cell gap ih =>
    intro below
    have hnext := @ih (below ++ [some value])
    rw [length_append, length_singleton] at hnext
    rw [length_cons, fill, append_assoc, cons_append, store_append rfl]
    refine Eq.trans ?_ (hnext.trans ?_)
    · rw [append_assoc, append_assoc]
      rfl
    · rw [append_assoc, append_assoc, append_assoc, replicate_succ]
      rfl

end Cells
