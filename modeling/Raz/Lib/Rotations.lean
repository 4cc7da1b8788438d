import Mathlib.Data.Finset.Card
import Mathlib.Data.List.Chain

/-!
# Rotations

A relation that leads from each of finitely many members to exactly one other and back splits them
into rotations: lists in which each member leads to the one behind it, and the last to the first.

Results:
1. `eq_head_of_next`: a path that leads back to itself leads back to its start.
2. `IsRotation.closed_append`: a set that the relation does not leave or enter stays so when a
   rotation is added.
-/

namespace Rotations

open List

/-- **Moves whose targets are distinct and all read** read distinct origins, all of them targets. -/
theorem origins_of_targets {α β : Type} [DecidableEq β] (moves : Finset α) (target origin : α → β)
    (hdist : Set.InjOn target moves)
    (hread : ∀ move ∈ moves, ∃ other ∈ moves, target move = origin other) :
    (∀ other ∈ moves, ∃ move ∈ moves, target move = origin other) ∧ Set.InjOn origin moves := by
  have hsub : moves.image target ⊆ moves.image origin := by
    intro place hplace
    obtain ⟨move, hmove, rfl⟩ := Finset.mem_image.mp hplace
    obtain ⟨other, hother, heq⟩ := hread move hmove
    exact Finset.mem_image.mpr ⟨other, hother, heq.symm⟩
  have hcard : (moves.image target).card = moves.card := Finset.card_image_iff.mpr hdist
  -- there are no more origins than moves, and no fewer than targets
  have himage : moves.image target = moves.image origin :=
    Finset.eq_of_subset_of_card_le hsub (hcard ▸ Finset.card_image_le)
  refine ⟨fun other hother => ?_, ?_⟩
  · have hmem : origin other ∈ moves.image target := himage ▸ Finset.mem_image_of_mem origin hother
    exact Finset.mem_image.mp hmem
  · exact Finset.card_image_iff.mp (himage ▸ hcard)

variable {α : Type}

/-- A search for what only one member is finds it. -/
theorem find?_eq_some_of_unique {test : α → Bool} {wanted : α} {members : List α}
    (hmem : wanted ∈ members) (htest : test wanted = true)
    (hunique : ∀ member ∈ members, test member = true → member = wanted) :
    members.find? test = some wanted := by
  cases hfind : members.find? test with
  | none => exact absurd htest (List.find?_eq_none.mp hfind wanted hmem)
  | some member => rw [hunique member (List.mem_of_find?_eq_some hfind) (List.find?_some hfind)]

/-- Each live member leads to exactly one, and is led to from at most one. -/
structure Permutes (live : α → Prop) (next : α → α → Prop) : Prop where
  next_exists : ∀ member, live member → ∃ other, live other ∧ next member other
  next_unique : ∀ {member other other'}, live member → live other → live other' →
    next member other → next member other' → other = other'
  previous_unique : ∀ {member member' other}, live member → live member' → live other →
    next member other → next member' other → member = member'

/-- Each member leads to the one behind it, and the last to the first. -/
structure IsRotation (next : α → α → Prop) (cycle : List α) : Prop where
  chain : cycle.IsChain next
  closed : ∀ last ∈ cycle.getLast?, ∀ first ∈ cycle.head?, next last first

/-- The relation does not lead into a set of members or out of it. -/
def Closed (live : α → Prop) (next : α → α → Prop) (members : List α) : Prop :=
  ∀ {member other}, live member → live other → next member other →
    (member ∈ members ↔ other ∈ members)

variable {live : α → Prop} {next : α → α → Prop} {cycle members : List α}

section

variable (h : IsRotation next cycle)

include h

theorem IsRotation.next_of_mem {member : α} (hmem : member ∈ cycle) :
    ∃ other ∈ cycle, next member other := by
  obtain ⟨front, back, rfl⟩ := append_of_mem hmem
  cases back with
  | nil =>
    obtain ⟨first, hfirst⟩ : ∃ first, first ∈ (front ++ [member]).head? := by
      cases front with
      | nil => exact ⟨member, rfl⟩
      | cons first front => exact ⟨first, rfl⟩
    exact ⟨first, mem_of_mem_head? hfirst, h.closed member (List.getLast?_concat) first hfirst⟩
  | cons other back =>
    have hchain := (isChain_append.mp h.chain).2.1
    exact ⟨other, by simp, (isChain_cons_cons.mp hchain).1⟩

theorem IsRotation.previous_of_mem {other : α} (hmem : other ∈ cycle) :
    ∃ member ∈ cycle, next member other := by
  obtain ⟨front, back, rfl⟩ := append_of_mem hmem
  rcases eq_nil_or_concat front with rfl | ⟨front, member, rfl⟩
  · obtain ⟨last, hlast⟩ : ∃ last, last ∈ ([] ++ other :: back).getLast? :=
      Option.isSome_iff_exists.mp (by simp)
    exact ⟨last, mem_of_getLast? hlast, h.closed last hlast other rfl⟩
  · have hchain := (isChain_append.mp h.chain).2.2
    exact ⟨member, by simp, hchain member (by simp) other rfl⟩

/-- The images of the members of a rotation rotate as they do. -/
theorem IsRotation.map {β : Type} {next' : β → β → Prop} {f : α → β}
    (hmap : ∀ member ∈ cycle, ∀ other ∈ cycle, next member other → next' (f member) (f other)) :
    IsRotation next' (cycle.map f) := by
  refine ⟨(isChain_map f).mpr (h.chain.imp_of_mem_imp fun member other hmem hother =>
    hmap member hmem other hother), fun last hlast first hfirst => ?_⟩
  rw [List.getLast?_map, Option.mem_map] at hlast
  rw [List.head?_map, Option.mem_map] at hfirst
  obtain ⟨last, hlast, rfl⟩ := hlast
  obtain ⟨first, hfirst, rfl⟩ := hfirst
  exact hmap last (mem_of_getLast? hlast) first (mem_of_mem_head? hfirst)
    (h.closed last hlast first hfirst)

end

/-- **A path that leads back to itself** leads back to its start. -/
theorem eq_head_of_next (hpermutes : Permutes live next) {first last other : α} {path : List α}
    (hchain : (first :: path).IsChain next) (hnodup : (first :: path).Nodup)
    (hlive : ∀ member ∈ first :: path, live member) (hlast : last ∈ (first :: path).getLast?)
    (hnext : next last other) (hmem : other ∈ first :: path) : other = first := by
  rcases mem_cons.mp hmem with heq | hmem'
  · exact heq
  obtain ⟨front, back, rfl⟩ := append_of_mem hmem'
  -- the member before the other one would be the last one too
  obtain ⟨previous, hprev⟩ : ∃ previous, previous ∈ (first :: front).getLast? :=
    Option.isSome_iff_exists.mp (by simp)
  rw [← cons_append] at hchain hnodup hlive hlast
  have hstep : next previous other := (isChain_append.mp hchain).2.2 previous hprev other rfl
  have hinFront : previous ∈ first :: front := mem_of_getLast? hprev
  have hinBack : last ∈ other :: back := by
    rw [List.getLast?_append_of_ne_nil _ (cons_ne_nil _ _)] at hlast
    exact mem_of_getLast? hlast
  have hsame : previous = last := hpermutes.previous_unique (hlive _ (mem_append_left _ hinFront))
      (hlive _ (mem_append_right _ hinBack))
      (hlive _ (mem_append_right _ mem_cons_self)) hstep hnext
  have hapart := (nodup_append.mp hnodup).2.2 previous hinFront
  exact absurd rfl (hapart previous (hsame ▸ hinBack))

theorem IsRotation.closed_append (h : IsRotation next cycle) (hpermutes : Permutes live next)
    (hlive : ∀ member ∈ cycle, live member) (hclosed : Closed live next members) :
    Closed live next (cycle ++ members) := by
  intro member other hmember hother hnext
  rw [mem_append, mem_append]
  refine or_congr ⟨fun hmem => ?_, fun hmem => ?_⟩ (hclosed hmember hother hnext)
  · obtain ⟨other', hmem', hnext'⟩ := h.next_of_mem hmem
    exact hpermutes.next_unique hmember hother (hlive _ hmem') hnext hnext' ▸ hmem'
  · obtain ⟨member', hmem', hnext'⟩ := h.previous_of_mem hmem
    exact hpermutes.previous_unique hmember (hlive _ hmem') hother hnext hnext' ▸ hmem'

end Rotations
