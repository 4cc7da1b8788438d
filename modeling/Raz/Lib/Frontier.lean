import Mathlib.Algebra.Order.BigOperators.Group.Finset

/-!
# Rounds over marked nodes

Each node has a value that depends on the values of others. A loop computes the marked nodes anew,
from the last to the first, and marks for the next round those that depend on one that has changed.

Result: `Lawful.propagate_spec`: there is a last round, after which all nodes have their values.
-/

namespace Frontier

open List

variable {σ : Type}

structure System (σ : Type) where
  nodes : Nat
  transfer : (Nat → σ) → Nat → σ
  dependents : Nat → List Nat

structure State (σ : Type) where
  values : Nat → σ
  marked : List Nat

section

variable [DecidableEq σ] (p : System σ)

def System.visit (dirty : List Nat) (state : State σ) (node : Nat) : State σ :=
  if node ∉ dirty ∨ p.transfer state.values node = state.values node then state
  else
    { values := Function.update state.values node (p.transfer state.values node)
      marked := state.marked ++ p.dependents node }

def System.round (dirty : List Nat) (values : Nat → σ) : State σ :=
  (range p.nodes).reverse.foldl (p.visit dirty) { values := values, marked := [] }

/-- The values after the last round and the number of rounds; none when the fuel runs out. -/
def System.propagate : Nat → List Nat → (Nat → σ) → Nat → Option ((Nat → σ) × Nat)
  | _, [], values, rounds => some (values, rounds)
  | 0, _ :: _, _, _ => none
  | fuel + 1, dirty, values, rounds =>
    let state := p.round dirty values
    System.propagate fuel state.marked state.values (rounds + 1)

end

variable [PartialOrder σ]

/-- Values that grow up to a bound, and the nodes that look at a node. -/
structure Lawful (p : System σ) (size : σ → Nat) (bound : Nat) : Prop where
  mono : Monotone p.transfer
  depends : ∀ values node value, ∀ other < p.nodes, other ∉ p.dependents node →
    p.transfer (Function.update values node value) other = p.transfer values other
  size_lt : StrictMono size
  size_le : ∀ value, size value ≤ bound

variable {p : System σ} {size : σ → Nat} {bound : Nat}

/-- The sizes of all values. -/
def System.total (p : System σ) (size : σ → Nat) (values : Nat → σ) : Nat :=
  ∑ node ∈ Finset.range p.nodes, size (values node)

theorem Lawful.total_le (h : Lawful p size bound) (values : Nat → σ) :
    p.total size values ≤ p.nodes * bound := by
  refine (Finset.sum_le_card_nsmul _ _ bound fun node _ => h.size_le _).trans_eq ?_
  rw [Finset.card_range]
  rfl

/-- In a round that has some nodes left: the total size was `before` at its start. -/
structure Within (p : System σ) (size : σ → Nat) (good : (Nat → σ) → Prop) (before : Nat)
    (dirty left : List Nat) (state : State σ) : Prop where
  grows : state.values ≤ p.transfer state.values
  holds : good state.values
  settled : ∀ node < p.nodes, p.transfer state.values node = state.values node ∨
    node ∈ state.marked ∨ node ∈ dirty ∧ node ∈ left
  more : state.marked = [] ∨ before < p.total size state.values
  le : before ≤ p.total size state.values

variable [DecidableEq σ] (h : Lawful p size bound) {good : (Nat → σ) → Prop}
  (hgood : ∀ values node, values ≤ p.transfer values → good values →
    good (Function.update values node (p.transfer values node)))
  {before : Nat} {dirty : List Nat}

include h hgood

/-- **A visit.** -/
theorem Lawful.visit {left : List Nat} {state : State σ} {node : Nat} (hnode : node < p.nodes)
    (hw : Within p size good before dirty (node :: left) state) :
    Within p size good before dirty left (p.visit dirty state node) := by
  unfold System.visit
  split
  · rename_i hsame
    refine { hw with settled := fun other hother => ?_ }
    rcases hw.settled other hother with hval | hmarked | ⟨hdirty, hmem⟩
    · exact .inl hval
    · exact .inr (.inl hmarked)
    · rcases mem_cons.mp hmem with rfl | hmem
      · exact .inl (hsame.resolve_left (not_not_intro hdirty))
      · exact .inr (.inr ⟨hdirty, hmem⟩)
  · rename_i hne
    have hmore : state.values ≤
        Function.update state.values node (p.transfer state.values node) :=
      le_update_iff.mpr ⟨hw.grows node, fun _ _ => le_refl _⟩
    have hless : Function.update state.values node (p.transfer state.values node) ≤
        p.transfer state.values := update_le_iff.mpr ⟨le_refl _, fun other _ => hw.grows other⟩
    have hlt : before < p.total size
        (Function.update state.values node (p.transfer state.values node)) := by
      refine Nat.lt_of_le_of_lt hw.le (Finset.sum_lt_sum (fun other _ =>
        h.size_lt.monotone (hmore other)) ⟨node, Finset.mem_range.mpr hnode, ?_⟩)
      rw [Function.update_self]
      exact h.size_lt (lt_of_le_of_ne (hw.grows node) fun heq => hne (.inr heq.symm))
    refine ⟨hless.trans (h.mono hmore), hgood _ _ hw.grows hw.holds, fun other hother => ?_,
      .inr hlt, hlt.le⟩
    by_cases hdepends : other ∈ p.dependents node
    · exact .inr (.inl (mem_append_right _ hdepends))
    · rw [h.depends _ _ _ other hother hdepends]
      dsimp only
      rcases eq_or_ne other node with rfl | hother'
      · rw [Function.update_self]
        exact .inl rfl
      · rw [Function.update_of_ne hother']
        rcases hw.settled other hother with hval | hmarked | ⟨hdirty, hmem⟩
        · exact .inl hval
        · exact .inr (.inl (mem_append_left _ hmarked))
        · exact .inr (.inr ⟨hdirty, (mem_cons.mp hmem).resolve_left hother'⟩)

theorem Lawful.visits {left : List Nat} (hleft : ∀ node ∈ left, node < p.nodes) {state : State σ}
    (hw : Within p size good before dirty left state) :
    Within p size good before dirty [] (left.foldl (p.visit dirty) state) := by
  induction left generalizing state with
  | nil => exact hw
  | cons node left ih =>
    exact ih (forall_mem_cons.mp hleft).2 (h.visit hgood (hleft node mem_cons_self) hw)

/-- **There is a last round**, and then all nodes have their values. -/
theorem Lawful.propagate_spec : ∀ {fuel : Nat} {dirty : List Nat} {values : Nat → σ} {rounds : Nat},
    values ≤ p.transfer values → good values →
    (∀ node < p.nodes, p.transfer values node = values node ∨ node ∈ dirty) →
    dirty = [] ∨ p.nodes * bound < fuel + p.total size values →
    ∃ last rounds', (∀ more ≥ fuel, p.propagate more dirty values rounds = some (last, rounds')) ∧
      good last ∧ ∀ node < p.nodes, p.transfer last node = last node
  | _, [], values, rounds, _, hholds, hsettled, _ =>
    ⟨values, rounds, fun more _ => by cases more <;> rfl, hholds,
      fun node hnode => (hsettled node hnode).resolve_right not_mem_nil⟩
  | 0, _ :: _, values, _, _, _, _, hfuel => by
    have hle := h.total_le values
    exact absurd (hfuel.resolve_left (cons_ne_nil _ _)) (by omega)
  | fuel + 1, first :: dirty, values, rounds, hgrows, hholds, hsettled, hfuel => by
    have hfuel := hfuel.resolve_left (cons_ne_nil _ _)
    have hround := h.visits hgood (fun node hnode => mem_range.mp (mem_reverse.mp hnode))
      (⟨hgrows, hholds, fun node hnode => (hsettled node hnode).imp_right fun hdirty =>
        .inr ⟨hdirty, mem_reverse.mpr (mem_range.mpr hnode)⟩, .inl rfl, Nat.le_refl _⟩ :
        Within p size good (p.total size values) (first :: dirty) (range p.nodes).reverse
          { values := values, marked := [] })
    obtain ⟨last, rounds', hrun, hlast⟩ := @Lawful.propagate_spec fuel _ _ (rounds + 1)
      hround.grows hround.holds
      (fun node hnode => (hround.settled node hnode).imp_right fun h =>
        h.resolve_right fun h => not_mem_nil h.2)
      (hround.more.imp_right fun hlt => by omega)
    refine ⟨last, rounds', fun more hmore => ?_, hlast⟩
    cases more with
    | zero => nomatch hmore
    | succ more => exact hrun more (Nat.le_of_succ_le_succ hmore)

end Frontier
