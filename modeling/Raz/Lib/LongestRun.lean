import Mathlib.Data.List.Basic

/-!
# The first longest run

The first of the longest runs of items with a property, for a search that walks over a list and
keeps the best run so far.

Result: `Found.skip`, `Found.keep`, `Found.better`: what the search keeps up as it passes an item
without the property, or a whole run.
-/

namespace LongestRun

open List

variable {α : Type} {p : α → Prop} {items front middle : List α} {start length least : Nat}

/-- The items from a position on have the property. -/
def IsRun (p : α → Prop) (items : List α) (start length : Nat) : Prop :=
  ∀ position, start ≤ position → position < start + length →
    ∃ item, items[position]? = some item ∧ p item

/-- The first of the longest runs, which is not shorter than `least`. -/
structure FirstLongest (p : α → Prop) (items : List α) (least start length : Nat) : Prop where
  least_le : least ≤ length
  run : IsRun p items start length
  longest : ∀ {other size : Nat}, IsRun p items other size → size ≤ length
  first : ∀ {other : Nat}, IsRun p items other length → start ≤ other

theorem FirstLongest.unique {start' length' : Nat} (h : FirstLongest p items least start length)
    (h' : FirstLongest p items least start' length') : start = start' ∧ length = length' := by
  obtain rfl := Nat.le_antisymm (h'.longest h.run) (h.longest h'.run)
  exact ⟨Nat.le_antisymm (h.first h'.run) (h'.first h.run), rfl⟩

theorem IsRun.end_le (h : IsRun p items start length) (hpos : 0 < length) :
    start + length ≤ items.length := by
  obtain ⟨item, hitem, -⟩ := h (start + length - 1) (by omega) (by omega)
  obtain ⟨hlt, -⟩ := List.getElem?_eq_some_iff.mp hitem
  omega

theorem IsRun.append (h : IsRun p front start length) (back : List α) :
    IsRun p (front ++ back) start length := by
  intro position hle hlt
  obtain ⟨item, hitem, hp⟩ := h position hle hlt
  obtain ⟨hinside, -⟩ := List.getElem?_eq_some_iff.mp hitem
  exact ⟨item, by rw [List.getElem?_append_left hinside, hitem], hp⟩

theorem IsRun.of_append (h : IsRun p (front ++ middle) start length)
    (hend : start + length ≤ front.length) : IsRun p front start length := by
  intro position hle hlt
  obtain ⟨item, hitem, hp⟩ := h position hle hlt
  rw [List.getElem?_append_left (Nat.lt_of_lt_of_le hlt hend)] at hitem
  exact ⟨item, hitem, hp⟩

theorem isRun_middle (h : ∀ item ∈ middle, p item) :
    IsRun p (front ++ middle) front.length middle.length := by
  intro position hle hlt
  have hinside : position - front.length < middle.length := by omega
  refine ⟨middle[position - front.length], ?_, h _ (getElem_mem hinside)⟩
  rw [List.getElem?_append_right hle, List.getElem?_eq_getElem hinside]

/-- A run as a part of the list. -/
theorem IsRun.parts (h : IsRun p items start length) (hpos : 0 < length) :
    ∃ left middle right, items = left ++ middle ++ right ∧ left.length = start ∧
      middle.length = length ∧ ∀ item ∈ middle, p item := by
  have hend := h.end_le hpos
  have hmiddle : ((items.drop start).take length).length = length := by
    rw [length_take, length_drop]
    omega
  refine ⟨items.take start, (items.drop start).take length, (items.drop start).drop length, ?_,
    length_take_of_le (by omega), hmiddle, fun item hitem => ?_⟩
  · rw [append_assoc, take_append_drop, take_append_drop]
  obtain ⟨position, hlt, rfl⟩ := getElem_of_mem hitem
  rw [hmiddle] at hlt
  obtain ⟨item, hplace, hp⟩ := h (start + position) (by omega) (by omega)
  obtain ⟨_, hval⟩ := List.getElem?_eq_some_iff.mp hplace
  rw [getElem_take, getElem_drop, hval]
  exact hp

/-! ## The search -/

/-- The best run of the items passed so far, if one is long enough. -/
def Found (p : α → Prop) (front : List α) (least : Nat) (best : Option Nat) (length : Nat) : Prop :=
  match best with
  | none => length = 0 ∧ ∀ {other size : Nat}, IsRun p front other size → size < least
  | some start => FirstLongest p front least start length

/-- No run goes on behind the items passed so far. -/
def Closed (p : α → Prop) (front : List α) : Prop := ∀ item ∈ front.getLast?, ¬ p item

theorem closed_concat {item : α} (h : ¬ p item) : Closed p (front ++ [item]) := by
  intro last hlast
  rw [List.getLast?_concat] at hlast
  exact Option.some.inj hlast ▸ h

/-- A run ends where the items passed so far do, or starts there. -/
theorem IsRun.split (h : IsRun p (front ++ middle) start length) (hclosed : Closed p front)
    (hpos : 0 < length) : IsRun p front start length ∨
      (front.length ≤ start ∧ start + length ≤ front.length + middle.length) := by
  by_cases hend : start + length ≤ front.length
  · exact .inl (h.of_append hend)
  by_cases hstart : front.length ≤ start
  · refine .inr ⟨hstart, ?_⟩
    rw [← length_append]
    exact h.end_le hpos
  have hlast : front.length - 1 < front.length := by omega
  obtain ⟨item, hitem, hp⟩ := h (front.length - 1) (by omega) (by omega)
  rw [List.getElem?_append_left hlast, ← List.getLast?_eq_getElem?] at hitem
  exact absurd hp (hclosed item hitem)

variable {best : Option Nat}

section

variable (h : Found p front least best length)

include h

/-- An item without the property. -/
theorem Found.skip {item : α} (hleast : 0 < least)
    (hitem : ¬ p item) : Found p (front ++ [item]) least best length := by
  have hback {other size : Nat} (hrun : IsRun p (front ++ [item]) other size) (hpos : 0 < size) :
      IsRun p front other size := by
    refine hrun.of_append (Nat.not_lt.mp fun hlt => ?_)
    have hend := hrun.end_le hpos
    rw [length_append, length_singleton] at hend
    obtain ⟨last, hlast, hp⟩ := hrun front.length (by omega) hlt
    rw [List.getElem?_concat_length] at hlast
    exact hitem (Option.some.inj hlast ▸ hp)
  cases best with
  | none =>
    refine ⟨h.1, fun {other size} hrun => ?_⟩
    obtain rfl | hpos := Nat.eq_zero_or_pos size
    · exact hleast
    · exact h.2 (hback hrun hpos)
  | some start =>
    have hlen : 0 < length := Nat.lt_of_lt_of_le hleast h.least_le
    refine ⟨h.least_le, h.run.append _, fun {other size} hrun => ?_, fun hrun =>
      h.first (hback hrun hlen)⟩
    obtain rfl | hpos := Nat.eq_zero_or_pos size
    · exact Nat.zero_le _
    · exact h.longest (hback hrun hpos)

/-- A run that is too short, or not longer than the best. -/
theorem Found.keep (hleast : 0 < least)
    (hclosed : Closed p front) (hshort : ¬ (least ≤ middle.length ∧ length < middle.length)) :
    Found p (front ++ middle) least best length := by
  cases best with
  | none =>
    obtain ⟨rfl, hnone⟩ := h
    refine ⟨rfl, fun {other size} hrun => ?_⟩
    obtain rfl | hpos := Nat.eq_zero_or_pos size
    · exact hleast
    obtain hrun | hinside := hrun.split hclosed hpos
    · exact hnone hrun
    · omega
  | some start =>
    have hlen : 0 < length := Nat.lt_of_lt_of_le hleast h.least_le
    have hle := h.least_le
    have hend := h.run.end_le hlen
    refine ⟨hle, h.run.append _, fun {other size} hrun => ?_, fun {other} hrun => ?_⟩
    · obtain rfl | hpos := Nat.eq_zero_or_pos size
      · exact Nat.zero_le _
      obtain hrun | hinside := hrun.split hclosed hpos
      · exact h.longest hrun
      · omega
    · obtain hrun | hinside := hrun.split hclosed hlen
      · exact h.first hrun
      · omega

/-- A longer run than the best. -/
theorem Found.better (hclosed : Closed p front)
    (hmiddle : ∀ item ∈ middle, p item) (hleast : least ≤ middle.length)
    (hlonger : length < middle.length) :
    FirstLongest p (front ++ middle) least front.length middle.length := by
  have hbefore {other size : Nat} (hrun : IsRun p front other size) : size < middle.length := by
    cases best with
    | none => exact Nat.lt_of_lt_of_le (h.2 hrun) hleast
    | some start => exact Nat.lt_of_le_of_lt (h.longest hrun) hlonger
  refine ⟨hleast, isRun_middle hmiddle, fun {other size} hrun => ?_, fun {other} hrun => ?_⟩
  · obtain rfl | hpos := Nat.eq_zero_or_pos size
    · exact Nat.zero_le _
    obtain hrun | hinside := hrun.split hclosed hpos
    · exact Nat.le_of_lt (hbefore hrun)
    · omega
  · obtain hrun | hinside := hrun.split hclosed (Nat.zero_lt_of_lt hlonger)
    · exact absurd (hbefore hrun) (Nat.lt_irrefl _)
    · exact hinside.1

end

end LongestRun
