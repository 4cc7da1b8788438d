import Mathlib.Data.Nat.Init
import Mathlib.Order.Bounds.Defs
import Mathlib.Order.Lattice.Nat

/-!
# Packing in order

Items with a size and an alignment are placed one after the other, each at the least offset of its
alignment that is not below the end of the one before.

Result: `offsets_disjoint`, `offsets_inside`: the items do not overlap, and end before the last end.
-/

namespace Packing

variable {alignment i : Nat} {item : Nat × Nat}

/-- The least multiple of the alignment from the value on. -/
def alignUp (value alignment : Nat) : Nat := (value + (alignment - 1)) / alignment * alignment

theorem dvd_alignUp (value alignment : Nat) : alignment ∣ alignUp value alignment :=
  Nat.dvd_mul_left ..

theorem le_alignUp (value : Nat) (h : 0 < alignment) : value ≤ alignUp value alignment := by
  have hmod := Nat.mod_lt (value + (alignment - 1)) h
  have hdiv := Nat.div_add_mod (value + (alignment - 1)) alignment
  rw [alignUp, Nat.mul_comm]
  omega

theorem alignUp_le (value : Nat) {offset : Nat} (h : 0 < alignment) (hdvd : alignment ∣ offset)
    (hle : value ≤ offset) : alignUp value alignment ≤ offset := by
  obtain ⟨count, rfl⟩ := hdvd
  rw [alignUp, Nat.mul_comm]
  refine Nat.mul_le_mul_left _ (Nat.lt_succ_iff.mp ((Nat.div_lt_iff_lt_mul h).mpr ?_))
  rw [Nat.succ_mul, Nat.mul_comm count]
  omega

/-- **Aligning up gives the least multiple from a value on.** -/
theorem alignUp_isLeast (value : Nat) (h : 0 < alignment) :
    IsLeast {offset | alignment ∣ offset ∧ value ≤ offset} (alignUp value alignment) :=
  ⟨⟨dvd_alignUp .., le_alignUp value h⟩, fun _ hoff => alignUp_le _ h hoff.1 hoff.2⟩

/-- The offsets of items of a size and an alignment, the first one from the cursor on. -/
def offsets : Nat → List (Nat × Nat) → List Nat
  | _, [] => []
  | cursor, (size, alignment) :: items =>
    alignUp cursor alignment :: offsets (alignUp cursor alignment + size) items

/-- The end of the last item. -/
def finish : Nat → List (Nat × Nat) → Nat
  | cursor, [] => cursor
  | cursor, (size, alignment) :: items => finish (alignUp cursor alignment + size) items

/-- The largest alignment of the items, and of what came before them. -/
def maxAlignment : Nat → List (Nat × Nat) → Nat
  | before, [] => before
  | before, (_, alignment) :: items => maxAlignment (max before alignment) items

section
variable {items : List (Nat × Nat)}

@[simp] theorem length_offsets (cursor : Nat) (items : List (Nat × Nat)) :
    (offsets cursor items).length = items.length := by
  induction items generalizing cursor with
  | nil => rfl
  | cons item items ih => simp [offsets, ih]

theorem finish_append (cursor : Nat) (front items : List (Nat × Nat)) :
    finish cursor (front ++ items) = finish (finish cursor front) items := by
  induction front generalizing cursor with
  | nil => rfl
  | cons item front ih => exact ih _

theorem offsets_append (cursor : Nat) (front items : List (Nat × Nat)) :
    offsets cursor (front ++ items) =
      offsets cursor front ++ offsets (finish cursor front) items := by
  induction front generalizing cursor with
  | nil => rfl
  | cons item front ih => exact congrArg _ (ih _)

theorem maxAlignment_append (before : Nat) (front items : List (Nat × Nat)) :
    maxAlignment before (front ++ items) = maxAlignment (maxAlignment before front) items := by
  induction front generalizing before with
  | nil => rfl
  | cons item front ih => exact ih _

theorem le_finish (cursor : Nat) (h : ∀ item ∈ items, 0 < item.2) :
    cursor ≤ finish cursor items := by
  induction items generalizing cursor with
  | nil => exact le_rfl
  | cons item items ih =>
    have hstep := le_alignUp cursor (h item List.mem_cons_self)
    have hrest := ih (alignUp cursor item.2 + item.1) fun i hi => h i (List.mem_cons_of_mem _ hi)
    exact (hstep.trans (Nat.le_add_right ..)).trans hrest

/-- Where the item of an index is placed. -/
theorem getElem?_offsets (cursor : Nat) (h : items[i]? = some item) :
    (offsets cursor items)[i]? = some (alignUp (finish cursor (items.take i)) item.2) := by
  induction items generalizing cursor i with
  | nil => simp at h
  | cons first items ih =>
    cases i with
    | zero =>
      obtain rfl : first = item := by simpa using h
      rfl
    | succ i => exact ih _ (by simpa using h)

theorem finish_take_succ (cursor : Nat) (h : items[i]? = some item) :
    finish cursor (items.take (i + 1)) =
      alignUp (finish cursor (items.take i)) item.2 + item.1 := by
  rw [List.take_add_one, h, finish_append]
  rfl

theorem finish_take_le (h : ∀ item ∈ items, 0 < item.2) (cursor i : Nat) :
    finish cursor (items.take i) ≤ finish cursor items := by
  conv_rhs => rw [← List.take_append_drop i items, finish_append]
  exact le_finish _ fun item hitem => h item (List.mem_of_mem_drop hitem)

theorem finish_take_mono (h : ∀ item ∈ items, 0 < item.2) (cursor : Nat) {j : Nat} (hij : i ≤ j) :
    finish cursor (items.take i) ≤ finish cursor (items.take j) := by
  have htake : items.take i = (items.take j).take i := by rw [List.take_take, Nat.min_eq_left hij]
  rw [htake]
  exact finish_take_le (fun item hitem => h item (List.mem_of_mem_take hitem)) cursor i

/-- **An item ends before a later one begins.** -/
theorem offsets_disjoint (hpos : ∀ item ∈ items, 0 < item.2) (cursor : Nat) {j : Nat}
    {other : Nat × Nat} (hi : items[i]? = some item) (hj : items[j]? = some other) (hij : i < j) :
    alignUp (finish cursor (items.take i)) item.2 + item.1 ≤
      alignUp (finish cursor (items.take j)) other.2 := by
  rw [← finish_take_succ cursor hi]
  exact (finish_take_mono hpos cursor hij).trans
    (le_alignUp _ (hpos other (List.mem_of_getElem? hj)))

/-- **An item ends before the end of the last one.** -/
theorem offsets_inside (hpos : ∀ item ∈ items, 0 < item.2) (cursor : Nat)
    (hi : items[i]? = some item) :
    alignUp (finish cursor (items.take i)) item.2 + item.1 ≤ finish cursor items := by
  rw [← finish_take_succ cursor hi]
  exact finish_take_le hpos cursor _

/-- The largest alignment is one of the items', or the one before them. -/
theorem maxAlignment_isGreatest (before : Nat) (items : List (Nat × Nat)) :
    IsGreatest {a | a = before ∨ ∃ item ∈ items, item.2 = a} (maxAlignment before items) := by
  induction items generalizing before with
  | nil =>
    refine ⟨.inl rfl, ?_⟩
    rintro a (rfl | ⟨_, hmem, _⟩)
    · exact le_rfl
    · cases hmem
  | cons item items ih =>
    obtain ⟨hmem, hbound⟩ := ih (max before item.2)
    constructor
    · rcases hmem with heq | ⟨other, hother, heq⟩
      · rcases Nat.le_total before item.2 with hle | hle
        · exact .inr ⟨item, List.mem_cons_self, (heq.trans (Nat.max_eq_right hle)).symm⟩
        · exact .inl (heq.trans (Nat.max_eq_left hle))
      · exact .inr ⟨other, List.mem_cons_of_mem _ hother, heq⟩
    · have hmax := hbound (.inl rfl)
      rintro a (rfl | ⟨other, hother, rfl⟩)
      · exact (Nat.le_max_left ..).trans hmax
      · rcases List.mem_cons.mp hother with rfl | hother
        · exact (Nat.le_max_right ..).trans hmax
        · exact hbound (.inr ⟨other, hother, rfl⟩)

end

end Packing
