/-!
# Finite maps

Maps over keys with an equality, as functions, and the lists of pairs that enumerate them.

Result: `Enumerates.length_eq`: the number of keys of a map is one number.
-/

namespace FiniteMap

open List

section
variable {κ ν : Type} [BEq κ]

/-- The map with another value at a key, or none. -/
def update (map : κ → Option ν) (key : κ) (value : Option ν) : κ → Option ν :=
  fun other => if key == other then value else map other

/-- The pairs of a map, each key once. -/
structure Enumerates (map : κ → Option ν) (pairs : List (κ × ν)) : Prop where
  distinct : pairs.Pairwise fun first second => (first.1 == second.1) = false
  mem : ∀ key value, map key = some value ↔
    ∃ pair ∈ pairs, (pair.1 == key) = true ∧ pair.2 = value

/-- The number of keys that have a value: every list of the pairs has this length. -/
def Size (map : κ → Option ν) (size : Nat) : Prop :=
  (∃ pairs, Enumerates map pairs) ∧ ∀ pairs, Enumerates map pairs → pairs.length = size

variable [EquivBEq κ]

/-- Distinct keys that are all found in a list are at most as many. -/
theorem length_le_of_mem (keys : List κ) :
    ∀ others : List κ, keys.Pairwise (fun first second => (first == second) = false) →
      (∀ key ∈ keys, ∃ other ∈ others, (other == key) = true) → keys.length ≤ others.length := by
  induction keys with
  | nil => exact fun _ _ _ => Nat.zero_le _
  | cons key keys ih =>
    intro others hdist hfound
    obtain ⟨hkey, hdist⟩ := pairwise_cons.mp hdist
    obtain ⟨other, hother, hequal⟩ := hfound key mem_cons_self
    obtain ⟨front, back, rfl⟩ := append_of_mem hother
    have hrest : keys.length ≤ (front ++ back).length := by
      refine ih (front ++ back) hdist fun key' hmem => ?_
      obtain ⟨other', hother', hequal'⟩ := hfound key' (mem_cons_of_mem _ hmem)
      refine ⟨other', ?_, hequal'⟩
      rcases mem_append.mp hother' with hfront | hback
      · exact mem_append_left _ hfront
      rcases mem_cons.mp hback with rfl | hback
      · have hsame := BEq.trans (BEq.symm hequal) hequal'
        rw [hkey key' hmem] at hsame
        cases hsame
      · exact mem_append_right _ hback
    rw [length_append] at hrest ⊢
    exact Nat.succ_le_succ hrest

theorem Enumerates.length_le {map : κ → Option ν} {pairs pairs' : List (κ × ν)}
    (h : Enumerates map pairs) (h' : Enumerates map pairs') : pairs.length ≤ pairs'.length := by
  have hle := length_le_of_mem (pairs.map Prod.fst) (pairs'.map Prod.fst)
    (pairwise_map.mpr h.distinct) (by
      intro key hkey
      obtain ⟨pair, hpair, rfl⟩ := mem_map.mp hkey
      obtain ⟨pair', hpair', hequal, -⟩ :=
        (h'.mem pair.1 pair.2).mp ((h.mem pair.1 pair.2).mpr ⟨pair, hpair, BEq.refl _, rfl⟩)
      exact ⟨pair'.1, mem_map_of_mem hpair', hequal⟩)
  rw [length_map, length_map] at hle
  exact hle

/-- **The number of keys of a map is one number.** -/
theorem Enumerates.length_eq {map : κ → Option ν} {pairs pairs' : List (κ × ν)}
    (h : Enumerates map pairs) (h' : Enumerates map pairs') : pairs.length = pairs'.length :=
  Nat.le_antisymm (h.length_le h') (h'.length_le h)

theorem Enumerates.size {map : κ → Option ν} {pairs : List (κ × ν)} (h : Enumerates map pairs) :
    Size map pairs.length := ⟨⟨pairs, h⟩, fun _ h' => h'.length_eq h⟩

end

end FiniteMap
