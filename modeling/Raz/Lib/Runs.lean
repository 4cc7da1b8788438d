import Mathlib.Data.List.SplitBy
import Mathlib.Order.Lattice

/-!
# Runs of items with one key

A list that is sorted by a key falls into runs, one for each key.

Result: `Runs.pairwise_lt`: the keys of the runs of a sorted list increase.
-/

namespace Runs

open List

variable {α κ : Type} [LinearOrder κ]

/-- The longest pieces of a list in which neighbours have the same key. -/
def runs (key : α → κ) (items : List α) : List (List α) :=
  items.splitBy fun a b => key a == key b

variable {key : α → κ} {items : List α}

theorem flatten_runs (key : α → κ) (items : List α) : (runs key items).flatten = items :=
  flatten_splitBy _ items

theorem ne_nil {run : List α} (h : run ∈ runs key items) : run ≠ [] :=
  ne_nil_of_mem_splitBy h

theorem key_eq {run : List α} (h : run ∈ runs key items) :
    run.Pairwise fun a b => key a = key b := by
  have hchain : run.IsChain fun a b => key a = key b :=
    (isChain_of_mem_splitBy h).imp fun a b hab => eq_of_beq hab
  have : IsTrans α fun a b => key a = key b := ⟨fun _ _ _ => Eq.trans⟩
  exact hchain.pairwise

theorem key_eq_head {first : α} {rest : List α} (h : first :: rest ∈ runs key items)
    {item : α} (hitem : item ∈ first :: rest) : key item = key first := by
  rcases mem_cons.mp hitem with rfl | hrest
  · rfl
  · exact ((pairwise_cons.mp (key_eq h)).1 item hrest).symm

/-- The last of a run is below all that follows, if neighbouring runs differ in their keys. -/
theorem pairwise_of_chain : ∀ {parts : List (List α)},
    parts.flatten.Pairwise (fun a b => key a ≤ key b) →
    parts.IsChain (fun r s => ∃ hr hs, (key (r.getLast hr) == key (s.head hs)) = false) →
    parts.Pairwise fun r s => ∀ a ∈ r, ∀ b ∈ s, key a < key b
  | [], _, _ => List.Pairwise.nil
  | [r], _, _ => List.pairwise_singleton _ _
  | r :: s :: parts, hsorted, hchain => by
    rw [List.flatten_cons, List.pairwise_append] at hsorted
    obtain ⟨hrun, hrest, hcross⟩ := hsorted
    rw [List.isChain_cons_cons] at hchain
    obtain ⟨⟨hr, hs, hdiffer⟩, htail⟩ := hchain
    refine List.pairwise_cons.mpr ⟨fun other hother a ha b hb => ?_, pairwise_of_chain hrest htail⟩
    have hlast : key a ≤ key (r.getLast hr) := hrun.rel_getLast_of_rel_getLast_getLast ha le_rfl
    have hhead : s.head hs ∈ (s :: parts).flatten := mem_flatten.mpr ⟨s, mem_cons_self, head_mem hs⟩
    have hless : key (r.getLast hr) < key (s.head hs) :=
      lt_of_le_of_ne (hcross _ (getLast_mem hr) _ hhead) (ne_of_beq_false hdiffer)
    have hback : key (s.head hs) ≤ key b := by
      have hmem : b ∈ (s :: parts).flatten := mem_flatten.mpr ⟨other, hother, hb⟩
      obtain ⟨first, rest, rfl⟩ := exists_cons_of_ne_nil hs
      rcases mem_cons.mp hmem with rfl | hmem
      · exact le_rfl
      · exact (pairwise_cons.mp hrest).1 b hmem
    exact lt_of_le_of_lt hlast (lt_of_lt_of_le hless hback)

/-- In a sorted list the keys of the runs increase. -/
theorem pairwise_lt (h : items.Pairwise fun a b => key a ≤ key b) :
    (runs key items).Pairwise fun r s => ∀ a ∈ r, ∀ b ∈ s, key a < key b := by
  refine pairwise_of_chain ?_ (isChain_getLast_head_splitBy (fun a b => key a == key b) items)
  rwa [flatten_runs]

end Runs
