import Mathlib.Algebra.Order.Ring.Int
import Mathlib.Data.List.Basic
import Mathlib.Order.Defs.LinearOrder

/-!
# Binary heaps with a hole

A heap is a list in which no item is smaller than the one above it. Programs that sift do not swap
items: they keep the item aside, move others into the hole that it left, and put it down in the end.
The rules say when a hole may take the item, and what remains true when it moves up or down.

Results:
1. `UpReady.step`, `UpReady.ordered`: a hole on its way up.
2. `DownReady.step`, `DownReady.ordered`: a hole on its way down.
-/

namespace Heap

variable {α κ : Type} [LinearOrder κ] {key : α → κ} {items : List α} {hole : Nat} {item other : α}

/-- The position above a position. -/
def above (position : Nat) : Nat := (position - 1) / 2

theorem above_lt {position : Nat} (h : 0 < position) : above position < position := by
  unfold above
  omega

theorem above_eq_iff {position parent : Nat} (h : 0 < position) :
    above position = parent ↔ position = parent * 2 + 1 ∨ position = parent * 2 + 2 := by
  unfold above
  omega

/-- The item at a position is not smaller than the one at another. -/
def Edge (key : α → κ) (items : List α) (low high : Nat) : Prop :=
  ∀ lower ∈ items[low]?, ∀ higher ∈ items[high]?, key higher ≤ key lower

def Ordered (key : α → κ) (items : List α) : Prop :=
  ∀ position, 0 < position → Edge key items position (above position)

theorem ordered_nil : Ordered key ([] : List α) := fun _ _ _ h => nomatch h

/-- **The first item is a least one.** -/
theorem Ordered.root_le (h : Ordered key items) {first : α} (hfirst : items[0]? = some first) :
    ∀ {position : Nat} {item : α}, items[position]? = some item → key first ≤ key item := by
  intro position
  induction position using Nat.strongRecOn with
  | ind position ih =>
    intro item hitem
    rcases Nat.eq_zero_or_pos position with rfl | hpos
    · rw [hfirst] at hitem
      rw [Option.some.inj hitem]
    have hlt := above_lt hpos
    have hbound : above position < items.length :=
      Nat.lt_trans hlt (List.getElem?_eq_some_iff.mp hitem).1
    have habove := List.getElem?_eq_getElem hbound
    exact le_trans (ih _ hlt habove) (h position hpos item hitem _ habove)

theorem getElem?_set_ne {position : Nat} (h : position ≠ hole) :
    (items.set hole item)[position]? = items[position]? :=
  List.getElem?_set_ne (Ne.symm h)

theorem getElem?_set_self (h : hole < items.length) : (items.set hole item)[hole]? = some item := by
  rw [List.getElem?_set, if_pos rfl, if_pos h]

/-- An edge that does not touch the hole. -/
theorem Edge.set {low high : Nat} (h : Edge key items low high) (hlow : low ≠ hole)
    (hhigh : high ≠ hole) : Edge key (items.set hole item) low high := by
  unfold Edge
  rw [getElem?_set_ne hlow, getElem?_set_ne hhigh]
  exact h

/-- The item moves on to another hole. -/
theorem set_set_perm {next : Nat} (hhole : hole < items.length)
    (hother : items[next]? = some other) :
    ((items.set hole other).set next item).Perm (items.set hole item) := by
  obtain ⟨hnext, rfl⟩ := List.getElem?_eq_some_iff.mp hother
  rcases Nat.decEq hole next with hne | rfl
  · have hlen : (items.set hole item).length = items.length := List.length_set
    have hperm := @List.set_set_perm _ (items.set hole item) hole next (hlen.symm ▸ hhole)
      (hlen.symm ▸ hnext)
    rwa [List.getElem_set_ne hne, List.getElem_set_self, List.set_set] at hperm
  · rw [List.set_set]

/-! ## Up -/

/-- The item may be put into the hole if it is not smaller than the one above: the items below the
hole are not smaller than the item, nor than the one above the hole. -/
structure UpReady (key : α → κ) (items : List α) (hole : Nat) (item : α) : Prop where
  lt : hole < items.length
  others : ∀ position, 0 < position → position ≠ hole → above position ≠ hole →
    Edge key items position (above position)
  below : ∀ position, 0 < position → above position = hole →
    ∀ lower ∈ items[position]?, key item ≤ key lower
  around : ∀ position, 0 < position → above position = hole → 0 < hole →
    Edge key items position (above hole)

theorem UpReady.ordered (h : UpReady key items hole item)
    (habove : 0 < hole → ∀ higher ∈ items[above hole]?, key higher ≤ key item) :
    Ordered key (items.set hole item) := by
  intro position hpos
  by_cases hposition : position = hole
  · subst hposition
    intro lower hlower higher hhigher
    rw [getElem?_set_self h.lt] at hlower
    rw [getElem?_set_ne (Nat.ne_of_lt (above_lt hpos))] at hhigher
    cases hlower
    exact habove hpos higher hhigher
  · by_cases hbelow : above position = hole
    · intro lower hlower higher hhigher
      rw [getElem?_set_ne hposition] at hlower
      rw [hbelow, getElem?_set_self h.lt] at hhigher
      cases hhigher
      exact h.below position hpos hbelow lower hlower
    · exact (h.others position hpos hposition hbelow).set hposition hbelow

/-- The one above moves into the hole if it is larger than the item. -/
theorem UpReady.step (h : UpReady key items hole item) (hpos : 0 < hole)
    (hother : items[above hole]? = some other) (hlt : key item < key other) :
    UpReady key (items.set hole other) (above hole) item := by
  have hne : above hole ≠ hole := Nat.ne_of_lt (above_lt hpos)
  have hlow {position : Nat} (hposition : position ≠ hole) (hpositive : 0 < position) :
      ∀ lower ∈ items[position]?, above position = above hole → key other ≤ key lower := by
    intro lower hlower habove
    have hedge := h.others position hpositive hposition (habove ▸ hne)
    exact hedge lower hlower other (habove ▸ hother)
  constructor
  case lt =>
    rw [List.length_set]
    exact Nat.lt_trans (above_lt hpos) h.lt
  case others =>
    intro position hpositive hposition habove
    have hself : position ≠ hole := fun heq => habove (by rw [heq])
    by_cases hbelow : above position = hole
    · intro lower hlower higher hhigher
      rw [getElem?_set_ne hself] at hlower
      rw [hbelow, getElem?_set_self h.lt] at hhigher
      cases hhigher
      exact h.around position hpositive hbelow hpos lower hlower _ hother
    · exact (h.others position hpositive hself hbelow).set hself hbelow
  case below =>
    intro position hpositive habove lower hlower
    by_cases hself : position = hole
    · rw [hself, getElem?_set_self h.lt] at hlower
      cases hlower
      exact le_of_lt hlt
    · rw [getElem?_set_ne hself] at hlower
      exact le_trans (le_of_lt hlt) (hlow hself hpositive lower hlower habove)
  case around =>
    intro position hpositive habove hhigh lower hlower higher hhigher
    have hedge := h.others (above hole) hhigh hne
      (Nat.ne_of_lt (Nat.lt_trans (above_lt hhigh) (above_lt hpos)))
    rw [getElem?_set_ne (Nat.ne_of_lt (Nat.lt_trans (above_lt hhigh) (above_lt hpos)))] at hhigher
    have hle := hedge other hother higher hhigher
    by_cases hself : position = hole
    · rw [hself, getElem?_set_self h.lt] at hlower
      cases hlower
      exact hle
    · rw [getElem?_set_ne hself] at hlower
      exact le_trans hle (hlow hself hpositive lower hlower habove)

/-- The hole behind the last item. -/
theorem Ordered.upReady (h : Ordered key items) (junk item : α) :
    UpReady key (items ++ [junk]) items.length item where
  lt := by
    rw [List.length_append]
    exact Nat.lt_succ_self _
  others position hpos hne habove lower hlower higher hhigher := by
    have hlt : position < items.length := by
      have hbound := (List.getElem?_eq_some_iff.mp hlower).1
      rw [List.length_append, List.length_singleton] at hbound
      exact Nat.lt_of_le_of_ne (Nat.le_of_lt_succ hbound) hne
    rw [List.getElem?_append_left hlt] at hlower
    rw [List.getElem?_append_left (Nat.lt_trans (above_lt hpos) hlt)] at hhigher
    exact h position hpos lower hlower higher hhigher
  below position hpos habove lower hlower := by
    have hbound := (List.getElem?_eq_some_iff.mp hlower).1
    have hlt := above_lt hpos
    rw [List.length_append, List.length_singleton] at hbound
    omega
  around position hpos habove _ lower hlower := by
    have hbound := (List.getElem?_eq_some_iff.mp hlower).1
    have hlt := above_lt hpos
    rw [List.length_append, List.length_singleton] at hbound
    omega

/-! ## Down -/

/-- The item may be put into the hole if it is not larger than those below: the item is not smaller
than the one above the hole, nor are the items below the hole. -/
structure DownReady (key : α → κ) (items : List α) (hole : Nat) (item : α) : Prop where
  lt : hole < items.length
  others : ∀ position, 0 < position → position ≠ hole → above position ≠ hole →
    Edge key items position (above position)
  above : 0 < hole → ∀ higher ∈ items[above hole]?, key higher ≤ key item
  around : ∀ position, 0 < position → Heap.above position = hole → 0 < hole →
    Edge key items position (Heap.above hole)

theorem DownReady.ordered (h : DownReady key items hole item)
    (hbelow : ∀ position, 0 < position → Heap.above position = hole →
      ∀ lower ∈ items[position]?, key item ≤ key lower) :
    Ordered key (items.set hole item) :=
  UpReady.ordered ⟨h.lt, h.others, hbelow, h.around⟩ h.above

/-- The smaller one below moves into the hole if it is smaller than the item. -/
theorem DownReady.step (h : DownReady key items hole item) {child : Nat} (hpos : 0 < child)
    (hchild : Heap.above child = hole) (hother : items[child]? = some other)
    (hlt : key other < key item)
    (hleast : ∀ position, 0 < position → Heap.above position = hole →
      ∀ lower ∈ items[position]?, key other ≤ key lower) :
    DownReady key (items.set hole other) child item := by
  have hself : hole < child := hchild ▸ above_lt hpos
  have hhigh {position : Nat} (hpositive : 0 < position) (habove : Heap.above position = child) :
      position ≠ hole := by
    have := above_lt hpositive
    omega
  constructor
  case lt =>
    rw [List.length_set]
    exact (List.getElem?_eq_some_iff.mp hother).1
  case others =>
    intro position hpositive hposition habove
    by_cases hhole : position = hole
    · subst hhole
      intro lower hlower higher hhigher
      rw [getElem?_set_self h.lt] at hlower
      rw [getElem?_set_ne (Nat.ne_of_lt (above_lt hpositive))] at hhigher
      cases hlower
      exact h.around child hpos hchild hpositive _ hother higher hhigher
    · by_cases hbelow : Heap.above position = hole
      · intro lower hlower higher hhigher
        rw [getElem?_set_ne hhole] at hlower
        rw [hbelow, getElem?_set_self h.lt] at hhigher
        cases hhigher
        exact hleast position hpositive hbelow lower hlower
      · exact (h.others position hpositive hhole hbelow).set hhole hbelow
  case above =>
    intro _ higher hhigher
    rw [hchild, getElem?_set_self h.lt] at hhigher
    cases hhigher
    exact le_of_lt hlt
  case around =>
    intro position hpositive habove _ lower hlower higher hhigher
    rw [getElem?_set_ne (hhigh hpositive habove)] at hlower
    rw [hchild, getElem?_set_self h.lt] at hhigher
    cases hhigher
    have hne : position ≠ hole := hhigh hpositive habove
    exact h.others position hpositive hne (habove ▸ Nat.ne_of_gt hself) lower hlower _
      (habove ▸ hother)

/-- The hole at the top. -/
theorem Ordered.downReady (h : Ordered key items) (hne : items ≠ []) (item : α) :
    DownReady key items 0 item where
  lt := List.length_pos_of_ne_nil hne
  others position hpos _ _ := h position hpos
  above hpos := absurd hpos (Nat.lt_irrefl 0)
  around _ _ _ hpos := absurd hpos (Nat.lt_irrefl 0)

/-- A heap without its last item. -/
theorem Ordered.take (h : Ordered key items) (count : Nat) : Ordered key (items.take count) := by
  intro position hpos lower hlower higher hhigher
  have hsub {place : Nat} {found : α} (hfound : (items.take count)[place]? = some found) :
      items[place]? = some found := by
    rw [List.getElem?_take] at hfound
    split at hfound
    · exact hfound
    · cases hfound
  exact h position hpos lower (hsub hlower) higher (hsub hhigher)

end Heap
