import Mathlib.Logic.Relation
import Raz.Forge.Verifier

/-!
# Dominators and paths

Results:
1. `Function.dominators_exact`: what is reached and what dominates, in terms of paths.
2. `Scope.verifyUses_exact`: so is what an operation may use.
-/

namespace Raz.Forge

open List Relation

variable {function : Function} {index candidate : Nat}

/-- A path from the entry leads to the block. -/
def Function.Leads (function : Function) (index : Nat) : Prop :=
  ReflTransGen (fun source target => target ∈ function.successorsOf source) 0 index

/-- So does one that never enters the candidate. -/
def Function.Misses (function : Function) (candidate index : Nat) : Prop :=
  candidate ≠ 0 ∧ ReflTransGen
    (fun source target => target ∈ function.successorsOf source ∧ target ≠ candidate) 0 index

theorem Function.Reachable.lt (h : function.Reachable index) : index < function.blocks.length := by
  refine Nat.lt_of_not_le fun hge => ?_
  rw [← function.reachable_inv.1] at hge
  simp [Function.Reachable, List.getElem?_eq_none hge] at h

theorem Function.Reachable.leads (h : function.Reachable index) : function.Leads index := by
  refine Sweep.settle_keeps
    (fun reachable : List Bool => ∀ index, reachable.getD index false = true →
      function.Leads index) ?_ _ _ ?_ index h
  · intro update hupdate reachable hinv index hidx
    obtain ⟨edge, hedge, rfl⟩ := mem_map.mp hupdate
    unfold markReachable at hidx
    split at hidx
    · by_cases hsame : edge.2 = index
      · exact hsame ▸ (hinv edge.1 ‹_›).tail (Function.mem_edges.mp hedge)
      · rw [getD_eq_getElem?_getD, List.getElem?_set_ne hsame, ← getD_eq_getElem?_getD] at hidx
        exact hinv index hidx
    · exact hinv index hidx
  · intro index hidx
    cases index with
    | zero => exact .refl
    | succ index =>
      rw [getD_eq_getElem?_getD, List.getElem?_set_ne (Nat.zero_ne_add_one index)] at hidx
      rw [List.getElem?_replicate] at hidx
      split at hidx <;> cases hidx

theorem Function.Leads.reachable (h : function.Leads index)
    (hpos : 0 < function.blocks.length) : function.Reachable index := by
  induction h with
  | refl => exact Function.reachable_zero hpos
  | tail _ hedge ih => exact Function.reachable_succ ih hedge

/-- What lies on every path to a reachable block is reachable. -/
theorem Function.Reachable.on_path (h : function.Reachable index)
    (hmiss : ¬ function.Misses candidate index) : function.Reachable candidate := by
  have hpos := Nat.zero_lt_of_lt h.lt
  have hpath := h.leads
  refine Decidable.byContradiction fun hnot =>
    hmiss ⟨fun hzero => hnot (hzero ▸ Function.reachable_zero hpos), ?_⟩
  clear h hmiss
  induction hpath with
  | refl => exact .refl
  | tail hsrc hedge ih =>
    exact ih.tail ⟨hedge, fun hsame =>
      hnot (hsame ▸ Function.Leads.reachable (hsrc.tail hedge) hpos)⟩

theorem Function.Misses.not_dominates (h : function.Misses candidate index) :
    ¬ function.Dominates candidate index := by
  obtain ⟨hzero, hpath⟩ := h
  induction hpath with
  | refl => exact fun hdom => hzero (Function.dominates_zero hdom)
  | @tail source target hsrc hedge ih =>
    intro hdom
    have hreach : function.Reachable source :=
      Function.Leads.reachable (hsrc.lift id fun _ _ h => h.1)
        (Nat.zero_lt_of_lt (Function.lt_of_mem_successorsOf hedge.1).1)
    by_cases htarget : target = 0
    · exact hzero (Function.dominates_zero (htarget ▸ hdom))
    · exact (Function.dominators_edge hreach hedge.1 htarget hdom).elim (hedge.2 ·.symm) ih

theorem Function.Reachable.dominates (h : function.Reachable index)
    (hmiss : ¬ function.Misses candidate index) : function.Dominates candidate index := by
  -- an update only takes away what some path misses
  refine Sweep.settle_keeps (fun dominators : List (List Nat) => ∀ index,
    function.Reachable index → ¬ function.Misses candidate index →
      candidate ∈ dominators.getD index []) ?_ _ _ ?_ index h hmiss
  · intro update hupdate dominators hinv index hidx hmiss
    obtain ⟨place, -, rfl⟩ := mem_map.mp hupdate
    unfold Function.updateDominators
    split
    · rw [getD_set]
      split
      · rename_i hsame
        refine Function.mem_commonDominators.mpr ⟨(hidx.on_path hmiss).lt, ?_⟩
        refine Decidable.or_iff_not_imp_left.mpr fun hne source hsrc => ?_
        obtain ⟨hedge, hreach⟩ := Function.mem_reachablePredecessors.mp hsrc
        rw [hsame.1] at hne hedge
        exact hinv source hreach fun hpath =>
          hmiss ⟨hpath.1, hpath.2.tail ⟨hedge, Ne.symm hne⟩⟩
      · exact hinv index hidx hmiss
    · exact hinv index hidx hmiss
  · intro index hidx hmiss
    have hon := hidx.on_path hmiss
    rw [Function.getD_initialDominators hidx.lt]
    split
    · rename_i hzero
      refine mem_singleton.mpr (Decidable.byContradiction fun hne => hmiss ⟨hne, ?_⟩)
      exact hzero ▸ .refl
    · exact Function.mem_blockSet.mpr ⟨hon.lt, decide_eq_true hon⟩

/-- **The verifier reaches the blocks to which a path from the entry leads, and what dominates one
of them is what lies on every such path.** -/
theorem Function.dominators_exact (function : Function) (index candidate : Nat) :
    (function.Reachable index ↔ 0 < function.blocks.length ∧ function.Leads index) ∧
      (function.Reachable index →
        (function.Dominates candidate index ↔ ¬ function.Misses candidate index)) :=
  ⟨⟨fun h => ⟨Nat.zero_lt_of_lt h.lt, h.leads⟩, fun h => h.2.reachable h.1⟩,
    fun h => ⟨fun hdom hmiss => hmiss.not_dominates hdom, h.dominates⟩⟩

theorem Scope.available_iff (scope : Scope) {definition : Definition} {position : Nat} :
    scope.available definition position = true ↔
      (0 < scope.function.blocks.length ∧ scope.function.Leads scope.block →
        if definition.block = scope.block then definition.operation ≤ position
        else ¬ scope.function.Misses definition.block scope.block) := by
  by_cases hreach : scope.function.Reachable scope.block
  · have hpath := And.intro (Nat.zero_lt_of_lt hreach.lt) hreach.leads
    simp only [Scope.available, hreach, hpath]
    split
    · simp
    · simpa using ⟨fun hdom hmiss => hmiss.not_dominates hdom, hreach.dominates⟩
  · refine iff_of_true ?_ fun hpath => absurd (hpath.2.reachable hpath.1) hreach
    simp [Scope.available, hreach]

/-- **An operation may use the names that have a definition in front of it**: in its own block, or
in one that lies on every path to it. -/
theorem Scope.verifyUses_exact (scope : Scope) (position : Nat) (operation : Operation) :
    scope.verifyUses position operation = [] ↔
      ∀ name, .value name ∈ operation.uses ++ operation.successorArguments.flatten →
        ∃ definition, scope.definitions.find (.value name) = some definition ∧
          (0 < scope.function.blocks.length ∧ scope.function.Leads scope.block →
            if definition.block = scope.block then definition.operation ≤ position
            else ¬ scope.function.Misses definition.block scope.block) := by
  rw [Scope.verifyUses, ← flatMap_append, flatMap_eq_nil_iff]
  constructor
  · intro h name hmem
    have huse := h _ hmem
    unfold Scope.verifyUse at huse
    cases hfind : scope.definitions.find (.value name) with
    | none => simp only [hfind] at huse; cases huse
    | some definition =>
      simp only [hfind] at huse
      exact ⟨definition, rfl, scope.available_iff.mp (by simpa using report_eq_nil.mp huse)⟩
  · intro h operand hmem
    cases operand with
    | symbol => rfl
    | literal => rfl
    | value name =>
      obtain ⟨definition, hfind, havailable⟩ := h name hmem
      simp only [Scope.verifyUse, hfind]
      exact report_eq_nil.mpr (by simpa using scope.available_iff.mpr havailable)

end Raz.Forge
