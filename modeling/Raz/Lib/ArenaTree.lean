import Mathlib.Data.List.Basic
import Mathlib.Data.List.Range

/-!
# Trees in an arena

The nodes of a tree are numbered in the order in which they are met from the root, and each has a
link to its first child and one to its next sibling; a negative link is none. A chain of siblings
takes a stretch of the numbers, and every number of the stretch is met once.

Results:
1. `Chain.at`: the children of every node are such a chain.
2. `Chain.snoc`: a tree is linked behind the last sibling.
-/

namespace ArenaTree

variable {first first' next next' : Nat → Int} {good good' : Nat → List Nat → Prop}

/-- From a link on, the trees of the siblings take the numbers from `lo` to `hi`, and each node is
good with its children. -/
inductive Chain (first next : Nat → Int) (good : Nat → List Nat → Prop) :
    Int → Nat → Nat → List Nat → Prop
  | nil {link : Int} {lo : Nat} : link < 0 → Chain first next good link lo lo []
  | cons {lo mid hi : Nat} {children rest : List Nat} : good lo children →
      Chain first next good (first lo) (lo + 1) mid children →
      Chain first next good (next lo) mid hi rest → Chain first next good lo lo hi (lo :: rest)

/-- The numbers met from a link on: a node, then those below it, then its next siblings. -/
def walk (first next : Nat → Int) : Nat → Int → List Nat
  | 0, _ => []
  | fuel + 1, link =>
      if link < 0 then []
      else
        link.toNat ::
          (walk first next fuel (first link.toNat) ++ walk first next fuel (next link.toNat))

/-- The siblings from a link on. -/
def siblings (next : Nat → Int) : Nat → Int → List Nat
  | 0, _ => []
  | fuel + 1, link =>
      if link < 0 then [] else link.toNat :: siblings next fuel (next link.toNat)

section

variable {link : Int} {lo mid hi : Nat} {items : List Nat}

theorem Chain.le (h : Chain first next good link lo hi items) : lo ≤ hi := by
  induction h with
  | nil => exact le_rfl
  | cons _ _ _ ihc ihr => exact Nat.le_trans (Nat.le_of_succ_le ihc) ihr

theorem Chain.eq_of_nil (h : Chain first next good link lo hi []) : lo = hi := by
  cases h with
  | nil => rfl

/-- The siblings are numbers of the stretch, in order. -/
theorem Chain.sorted (h : Chain first next good link lo hi items) :
    (∀ item ∈ items, lo ≤ item ∧ item < hi) ∧ items.Pairwise (· < ·) := by
  induction h with
  | nil => exact ⟨nofun, .nil⟩
  | cons _ hc hr _ ihr =>
    obtain ⟨hrange, hpairwise⟩ := ihr
    have hbelow := hc.le
    have hbehind := hr.le
    refine ⟨List.forall_mem_cons.mpr ⟨⟨le_rfl, by omega⟩, fun item hitem => ?_⟩,
      List.pairwise_cons.mpr ⟨fun item hitem => ?_, hpairwise⟩⟩
    · have hitem := hrange item hitem
      omega
    · have hitem := hrange item hitem
      omega

/-- A node and its children are in the stretch. -/
theorem Chain.items_range (h : Chain first next good link (lo + 1) mid items) (hle : mid ≤ hi) :
    ∀ item ∈ lo :: items, lo ≤ item ∧ item < hi := by
  have hbelow := h.le
  refine List.forall_mem_cons.mpr ⟨⟨le_rfl, by omega⟩, fun item hitem => ?_⟩
  have hrange := h.sorted.1 item hitem
  omega

section

variable (h : Chain first next good link lo hi items)

include h

theorem Chain.length_le : items.length ≤ hi - lo := by
  induction h with
  | nil => exact Nat.zero_le _
  | cons _ hc hr _ ihr =>
    have hbelow := hc.le
    have hbehind := hr.le
    rw [List.length_cons]
    omega

/-- **A walk meets the stretch in order.** -/
theorem Chain.walk_eq :
    ∀ {fuel : Nat}, hi - lo ≤ fuel → walk first next fuel link = List.range' lo (hi - lo) := by
  induction h with
  | nil hlink =>
    intro fuel _
    rw [Nat.sub_self]
    cases fuel with
    | zero => rfl
    | succ fuel => exact if_pos hlink
  | @cons lo mid hi _ _ hgood hc hr ihc ihr =>
    intro fuel hfuel
    have hbelow := hc.le
    have hbehind := hr.le
    obtain ⟨fuel, rfl⟩ := Nat.exists_eq_succ_of_ne_zero (show fuel ≠ 0 by omega)
    have hcount : hi - lo = (mid - (lo + 1)) + (hi - mid) + 1 := by omega
    have hstart : lo + 1 + 1 * (mid - (lo + 1)) = mid := by omega
    rw [walk, if_neg (by omega), Int.toNat_natCast, ihc (by omega), ihr (by omega), hcount,
      List.range'_succ, ← List.range'_append, hstart]

theorem Chain.siblings_eq : ∀ {fuel : Nat}, hi - lo ≤ fuel → siblings next fuel link = items := by
  induction h with
  | nil hlink =>
    intro fuel _
    cases fuel with
    | zero => rfl
    | succ fuel => exact if_pos hlink
  | cons _ hc hr _ ihr =>
    intro fuel hfuel
    have hbelow := hc.le
    have hbehind := hr.le
    obtain ⟨fuel, rfl⟩ := Nat.exists_eq_succ_of_ne_zero (show fuel ≠ 0 by omega)
    rw [siblings, if_neg (by omega), Int.toNat_natCast, ihr (by omega)]

/-- **The children of every node** are a chain of the stretch. -/
theorem Chain.at {index : Nat} (hlo : lo ≤ index) (hhi : index < hi) :
    ∃ mid children, mid ≤ hi ∧ good index children ∧
      Chain first next good (first index) (index + 1) mid children := by
  induction h with
  | nil => exact absurd hhi (Nat.not_lt.mpr hlo)
  | @cons lo mid hi children _ hgood hc hr ihc ihr =>
    have hbehind := hr.le
    rcases Nat.lt_trichotomy index lo with hlt | rfl | hgt
    · exact absurd hlo (Nat.not_le.mpr hlt)
    · exact ⟨mid, children, hbehind, hgood, hc⟩
    rcases Nat.lt_or_ge index mid with hinside | houtside
    · obtain ⟨mid', children', hmid, hbelow⟩ := ihc hgt hinside
      exact ⟨mid', children', Nat.le_trans hmid hbehind, hbelow⟩
    · exact ihr houtside hhi

/-- The links of other nodes do not matter. -/
theorem Chain.congr (hlinks : ∀ index, lo ≤ index → index < hi → first' index = first index ∧ next'
    index = next index) (hgood : ∀ index children, (∀ item ∈ index :: children, lo ≤ item ∧ item <
    hi) → good index children → good' index children) :
    Chain first' next' good' link lo hi items := by
  induction h with
  | nil hlink => exact .nil hlink
  | @cons lo mid hi children _ hhere hc hr ihc ihr =>
    have hbelow := hc.le
    have hbehind := hr.le
    obtain ⟨hfirst, hnext⟩ := hlinks lo le_rfl (by omega)
    have hchildren := ihc (fun index hlo hhi => hlinks index (by omega) (by omega))
      fun index children hitems => hgood index children fun item hitem => by
        have hitem := hitems item hitem
        omega
    have hrest := ihr (fun index hlo hhi => hlinks index (by omega) hhi)
      fun index children hitems => hgood index children fun item hitem => by
        have hitem := hitems item hitem
        omega
    rw [← hfirst] at hchildren
    rw [← hnext] at hrest
    exact .cons (hgood lo children (hc.items_range hbehind) hhere) hchildren hrest

end

/-- **A tree is linked behind the last sibling.** -/
theorem Chain.snoc (h : Chain first next good link lo mid items) {last : Nat}
    (hlast : last ∈ items.getLast?) (htree : Chain first next good mid mid hi [mid])
    (hfirst : ∀ index, lo ≤ index → index < hi → first' index = first index)
    (hlink : next' last = mid)
    (hnext : ∀ index, lo ≤ index → index < hi → index ≠ last → next' index = next index)
    (hgood : ∀ index children, (∀ item ∈ index :: children, lo ≤ item ∧ item < hi) →
      good index children → good' index children) :
    Chain first' next' good' link lo hi (items ++ [mid]) := by
  induction h with
  | nil => nomatch hlast
  | @cons lo inner mid children rest hhere hc hr _ ihr =>
    have hbelow := hc.le
    have hbehind := hr.le
    have htop := htree.le
    have hrange := hr.sorted.1
    -- the last sibling is not below the first one
    have hplace : last = lo ∧ rest = [] ∨ inner ≤ last ∧ last ∈ rest.getLast? := by
      cases rest with
      | nil => exact .inl ⟨(Option.some.inj hlast).symm, rfl⟩
      | cons item rest =>
        have hmem : last ∈ (item :: rest).getLast? := by
          rwa [List.getLast?_cons_cons] at hlast
        exact .inr ⟨(hrange last (List.mem_of_mem_getLast? hmem)).1, hmem⟩
    have hchildren : Chain first' next' good' (first' lo) (lo + 1) inner children := by
      rw [hfirst lo le_rfl (by omega)]
      refine hc.congr (fun index hlo hhi => ⟨hfirst index (by omega) (by omega), ?_⟩)
        fun index children hitems => hgood index children fun item hitem => ?_
      · exact hnext index (by omega) (by omega) (by omega)
      · have hitem := hitems item hitem
        omega
    have hrest : Chain first' next' good' (next' lo) inner hi (rest ++ [mid]) := by
      obtain ⟨rfl, rfl⟩ | ⟨hle, hmem⟩ := hplace
      · obtain rfl := hr.eq_of_nil
        rw [hlink]
        refine htree.congr (fun index hlo hhi => ⟨hfirst index (by omega) hhi, ?_⟩)
          fun index children hitems => hgood index children fun item hitem => ?_
        · exact hnext index (by omega) hhi (by omega)
        · have hitem := hitems item hitem
          omega
      · rw [hnext lo le_rfl (by omega) (by omega)]
        exact ihr hmem htree (fun index hlo => hfirst index (by omega)) hlink
          (fun index hlo => hnext index (by omega)) fun index children hitems =>
            hgood index children fun item hitem => by
              have hitem := hitems item hitem
              omega
    exact .cons (hgood lo children (hc.items_range (by omega)) hhere) hchildren hrest

end

end ArenaTree
