import Mathlib.Data.Finset.Card
import Mathlib.Data.List.Nodup
import Mathlib.Logic.Relation

/-!
# Marking what is reached

A queue of items that are marked but not yet looked at: the first is taken, and the items next to
it that are not marked yet are marked and put at the end.

Result: `mem_spread_of_reaches`: with enough fuel all that is reached from the start is marked.
-/

namespace Spread

open List

variable {α : Type} [DecidableEq α]

def spread (next : α → List α) : Nat → List α → List α → List α
  | 0, _, marked => marked
  | _, [], marked => marked
  | fuel + 1, item :: queue, marked =>
    let found := (next item).filter (· ∉ marked)
    spread next fuel (queue ++ found) (marked ++ found)

theorem spread_nil (next : α → List α) (fuel : Nat) (marked : List α) :
    spread next fuel [] marked = marked := by cases fuel <;> rfl

/-- What is marked and not in the queue has all that is next to it marked. -/
def Looked (next : α → List α) (queue marked : List α) : Prop :=
  ∀ item ∈ marked, item ∈ queue ∨ ∀ other ∈ next item, other ∈ marked

variable {next : α → List α}

theorem subset_spread (fuel : Nat) :
    ∀ {queue marked : List α}, ∀ item ∈ marked, item ∈ spread next fuel queue marked := by
  induction fuel with
  | zero => exact fun item h => h
  | succ fuel ih =>
    intro queue marked item h
    cases queue with
    | nil => exact h
    | cons first queue => exact ih item (mem_append_left _ h)

theorem Looked.step {item : α} {queue marked : List α} (h : Looked next (item :: queue) marked) :
    Looked next (queue ++ (next item).filter (· ∉ marked))
      (marked ++ (next item).filter (· ∉ marked)) := by
  intro other hother
  rcases mem_append.mp hother with hmarked | hfound
  · rcases h other hmarked with hqueue | hlooked
    · rcases mem_cons.mp hqueue with rfl | hqueue
      · -- the item that was taken: what is next to it is marked now
        refine .inr fun found hfound => ?_
        by_cases hmem : found ∈ marked
        · exact mem_append_left _ hmem
        · exact mem_append_right _ (mem_filter.mpr ⟨hfound, decide_eq_true hmem⟩)
      · exact .inl (mem_append_left _ hqueue)
    · exact .inr fun found hfound => mem_append_left _ (hlooked found hfound)
  · exact .inl (mem_append_right _ hfound)

theorem card_sdiff_append (all : Finset α) (marked : List α) {found : List α} (hnodup : found.Nodup)
    (hall : ∀ item ∈ found, item ∈ all) (hnew : ∀ item ∈ found, item ∉ marked) :
    (all \ (marked ++ found).toFinset).card + found.length = (all \ marked.toFinset).card := by
  have hsub : found.toFinset ⊆ all \ marked.toFinset := by
    intro item h
    have hmem := mem_toFinset.mp h
    exact Finset.mem_sdiff.mpr ⟨hall item hmem, fun hmarked =>
      hnew item hmem (mem_toFinset.mp hmarked)⟩
  have hrest : all \ (marked ++ found).toFinset = (all \ marked.toFinset) \ found.toFinset := by
    rw [toFinset_append, Finset.sdiff_union_distrib, Finset.sdiff_sdiff_left']
  rw [hrest, ← toFinset_card_of_nodup hnodup]
  exact Finset.card_sdiff_add_card_eq_card hsub

/-- A round for every item that is ever marked is enough to look at all of them. -/
theorem looked_spread {all : Finset α} (hnodup : ∀ item, (next item).Nodup)
    (hall : ∀ item, ∀ other ∈ next item, other ∈ all) (fuel : Nat) :
    ∀ {queue marked : List α}, Looked next queue marked →
      queue.length + (all \ marked.toFinset).card ≤ fuel →
      Looked next [] (spread next fuel queue marked) := by
  induction fuel with
  | zero =>
    intro queue marked h hfuel
    have hqueue : queue = [] :=
      length_eq_zero_iff.mp (Nat.eq_zero_of_add_eq_zero_right (Nat.le_zero.mp hfuel))
    exact hqueue ▸ h
  | succ fuel ih =>
    intro queue marked h hfuel
    cases queue with
    | nil => exact h
    | cons item queue =>
      refine ih h.step ?_
      have hcard := card_sdiff_append all marked
        ((hnodup item).filter fun other => decide (other ∉ marked))
        (fun other hother => hall item other (mem_filter.mp hother).1)
        (fun other hother => of_decide_eq_true (mem_filter.mp hother).2)
      rw [length_append]
      rw [length_cons] at hfuel
      omega

theorem mem_spread_of_reaches (all : Finset α) (hnodup : ∀ item, (next item).Nodup)
    (hall : ∀ item, ∀ other ∈ next item, other ∈ all) {fuel : Nat} {start : List α}
    (hfuel : start.length + all.card ≤ fuel) {item other : α} (hitem : item ∈ start)
    (h : Relation.ReflTransGen (fun a b => b ∈ next a) item other) :
    other ∈ spread next fuel start start := by
  have hlooked : Looked next [] (spread next fuel start start) := by
    refine looked_spread hnodup hall fuel (fun item h => .inl h) (Nat.le_trans ?_ hfuel)
    exact Nat.add_le_add_left (Finset.card_le_card Finset.sdiff_subset) _
  induction h with
  | refl => exact subset_spread fuel item hitem
  | tail _ hstep ih =>
    rcases hlooked _ ih with hqueue | hnext
    · exact absurd hqueue not_mem_nil
    · exact hnext _ hstep

end Spread
