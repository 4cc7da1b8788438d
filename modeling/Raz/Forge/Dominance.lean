import Raz.Forge.Ir
import Raz.Lib.Sweep

/-!
# Reachability and dominators

The control-flow graph of a function as the verifier computes it, blocks by their index: the blocks
that the entry reaches, and for each block a set of dominators, found by shrinking the set of all
reachable blocks.

Result: `Function.dominators_edge`: across an edge from a reachable block, the dominators of its end
are its end and dominators of its start.
-/

namespace Raz.Forge

open List

variable {function : Function} {index source target candidate : Nat}

/-! ## The graph -/

def Function.blockIndex (function : Function) (name : String) : Option Nat :=
  function.blocks.findIdx? (·.name == name)

def Function.successorsOf (function : Function) (index : Nat) : List Nat :=
  match function.blocks[index]? with
  | none => []
  | some block => block.operations.flatMap fun operation =>
    operation.successors.filterMap function.blockIndex

def Function.predecessorsOf (function : Function) (index : Nat) : List Nat :=
  (List.range function.blocks.length).filter fun source =>
    (function.successorsOf source).contains index

def Function.edges (function : Function) : List (Nat × Nat) :=
  (List.range function.blocks.length).flatMap fun source =>
    (function.successorsOf source).map fun target => (source, target)

theorem Function.blockIndex_lt {name : String} (h : function.blockIndex name = some index) :
    index < function.blocks.length :=
  (List.findIdx?_eq_some_iff_findIdx_eq.mp h).1

theorem Function.lt_of_mem_successorsOf (h : target ∈ function.successorsOf source) :
    source < function.blocks.length ∧ target < function.blocks.length := by
  unfold Function.successorsOf at h
  cases hblock : function.blocks[source]? with
  | none => rw [hblock] at h; exact absurd h not_mem_nil
  | some block =>
    rw [hblock] at h
    obtain ⟨operation, -, htarget⟩ := mem_flatMap.mp h
    obtain ⟨name, -, hname⟩ := mem_filterMap.mp htarget
    exact ⟨(List.getElem?_eq_some_iff.mp hblock).1, Function.blockIndex_lt hname⟩

theorem Function.mem_edges :
    (source, target) ∈ function.edges ↔ target ∈ function.successorsOf source := by
  constructor
  · intro h
    obtain ⟨other, -, hpair⟩ := mem_flatMap.mp h
    obtain ⟨next, hnext, heq⟩ := mem_map.mp hpair
    cases heq
    exact hnext
  · intro h
    exact mem_flatMap.mpr ⟨source,
      List.mem_range.mpr (Function.lt_of_mem_successorsOf h).1,
      mem_map.mpr ⟨target, h, rfl⟩⟩

theorem Function.mem_predecessorsOf :
    source ∈ function.predecessorsOf target ↔ target ∈ function.successorsOf source := by
  unfold Function.predecessorsOf
  rw [mem_filter, List.mem_range, contains_iff_mem]
  exact ⟨fun h => h.2, fun h => ⟨(Function.lt_of_mem_successorsOf h).1, h⟩⟩

/-! ## Reachable blocks -/

def markReachable (edge : Nat × Nat) (reachable : List Bool) : List Bool :=
  if reachable.getD edge.1 false then reachable.set edge.2 true else reachable

def Function.reachable (function : Function) : List Bool :=
  Sweep.settle (function.edges.map markReachable) function.blocks.length
    ((List.replicate function.blocks.length false).set 0 true)

def Function.Reachable (function : Function) (index : Nat) : Prop :=
  function.reachable.getD index false = true

instance (function : Function) (index : Nat) : Decidable (function.Reachable index) :=
  inferInstanceAs (Decidable (_ = true))

theorem count_set_true {reachable : List Bool} (h : reachable[index]? = some false) :
    (reachable.set index true).count false < reachable.count false := by
  obtain ⟨hlt, hget⟩ := List.getElem?_eq_some_iff.mp h
  rw [List.count_set hlt, hget]
  have hpos : 0 < reachable.count false := count_pos_iff.mpr (hget ▸ getElem_mem hlt)
  simp only [beq_self_eq_true, if_true]
  exact Nat.sub_lt hpos Nat.one_pos

theorem markReachable_descends (function : Function) :
    Sweep.Descends
      (fun reachable : List Bool => reachable.length = function.blocks.length ∧
        (0 < function.blocks.length → reachable.getD 0 false = true))
      (fun reachable => reachable.count false) (function.edges.map markReachable) where
  keeps update hupdate reachable hinv := by
    obtain ⟨edge, -, rfl⟩ := mem_map.mp hupdate
    unfold markReachable
    split
    · refine ⟨by rw [List.length_set]; exact hinv.1, fun hpos => ?_⟩
      rw [getD_eq_getElem?_getD, List.getElem?_set]
      split
      · rename_i hzero
        rw [if_pos (hzero ▸ hinv.1 ▸ hpos)]
        rfl
      · rw [← getD_eq_getElem?_getD]
        exact hinv.2 hpos
    · exact hinv
  lowers update hupdate reachable hinv := by
    obtain ⟨edge, hedge, rfl⟩ := mem_map.mp hupdate
    unfold markReachable
    split
    · cases hold : reachable[edge.2]? with
      | none => exact .inl (set_eq_of_length_le (List.getElem?_eq_none_iff.mp hold))
      | some old =>
        cases old with
        | false => exact .inr (count_set_true hold)
        | true =>
          refine .inl ?_
          obtain ⟨hlt, hget⟩ := List.getElem?_eq_some_iff.mp hold
          rw [← hget]
          exact set_getElem_self hlt
    · exact .inl rfl

theorem Function.reachable_inv (function : Function) :
    function.reachable.length = function.blocks.length ∧
      (0 < function.blocks.length → function.Reachable 0) ∧
      ∀ edge ∈ function.edges, markReachable edge function.reachable = function.reachable := by
  have hstart : ((List.replicate function.blocks.length false).set 0 true).length =
      function.blocks.length := by rw [List.length_set, length_replicate]
  have hzero : 0 < function.blocks.length →
      ((List.replicate function.blocks.length false).set 0 true).getD 0 false = true := by
    intro hpos
    have hlen : 0 < (List.replicate function.blocks.length false).length := by
      rw [length_replicate]
      exact hpos
    rw [getD_eq_getElem?_getD, List.getElem?_set_self hlen]
    rfl
  have hinv := (markReachable_descends function).settle_inv function.blocks.length _ ⟨hstart, hzero⟩
  refine ⟨hinv.1, hinv.2, fun edge hedge => ?_⟩
  refine (markReachable_descends function).settle_fixed _ _ ⟨hstart, hzero⟩ ?_ _
    (mem_map_of_mem hedge)
  exact Nat.le_trans count_le_length (Nat.le_of_eq hstart)

theorem Function.reachable_zero (h : 0 < function.blocks.length) :
    function.Reachable 0 := function.reachable_inv.2.1 h

/-- **A successor of a reachable block is reachable.** -/
theorem Function.reachable_succ (hsrc : function.Reachable source)
    (hedge : target ∈ function.successorsOf source) :
    function.Reachable target := by
  obtain ⟨hlen, -, hfixed⟩ := function.reachable_inv
  have hmark := hfixed (source, target) (Function.mem_edges.mpr hedge)
  have hset : function.reachable.set target true = function.reachable :=
    (if_pos hsrc : markReachable (source, target) function.reachable = _).symm.trans hmark
  rw [Function.Reachable, ← hset, getD_eq_getElem?_getD, List.getElem?_set_self
    (hlen ▸ (Function.lt_of_mem_successorsOf hedge).2)]
  rfl

/-! ## Dominators -/

/-- The blocks of the function that meet a condition, as a set. -/
def Function.blockSet (function : Function) (member : Nat → Bool) : List Nat :=
  (List.range function.blocks.length).filter member

def Function.reachablePredecessors (function : Function) (index : Nat) : List Nat :=
  (function.predecessorsOf index).filter (function.Reachable ·)

/-- The block itself, and what dominates each reachable predecessor. -/
def Function.commonDominators (function : Function) (dominators : List (List Nat)) (index : Nat) :
    List Nat :=
  function.blockSet fun candidate => candidate == index ||
    (function.reachablePredecessors index).all fun source =>
      (dominators.getD source []).contains candidate

/-- The verifier recomputes the set of every reachable block but the entry. -/
def Function.Recomputed (function : Function) (index : Nat) : Prop :=
  index ≠ 0 ∧ function.Reachable index ∧ function.reachablePredecessors index ≠ []

instance (function : Function) (index : Nat) : Decidable (function.Recomputed index) :=
  inferInstanceAs (Decidable (_ ∧ _ ∧ _))

def Function.updateDominators (function : Function) (index : Nat)
    (dominators : List (List Nat)) : List (List Nat) :=
  if function.Recomputed index then
    dominators.set index (function.commonDominators dominators index)
  else dominators

def Function.initialDominators (function : Function) : List (List Nat) :=
  (List.range function.blocks.length).map fun index =>
    if index = 0 then [0]
    else if function.Reachable index then function.blockSet (function.Reachable ·)
    else [index]

def Function.dominators (function : Function) : List (List Nat) :=
  Sweep.settle ((List.range function.blocks.length).map function.updateDominators)
    (function.blocks.length * function.blocks.length) function.initialDominators

/-- A block dominates another: the verifier's answer. -/
def Function.Dominates (function : Function) (candidate index : Nat) : Prop :=
  candidate ∈ function.dominators.getD index []

instance (function : Function) (candidate index : Nat) :
    Decidable (function.Dominates candidate index) :=
  inferInstanceAs (Decidable (_ ∈ _))

/-- The state of the loop: sets of blocks, each above what the next step makes of it. -/
structure Function.Shrinking (function : Function) (dominators : List (List Nat)) : Prop where
  length_eq : dominators.length = function.blocks.length
  entry : dominators.getD 0 [] ⊆ [0]
  canonical : ∀ index, function.Recomputed index →
    ∃ member, dominators.getD index [] = function.blockSet member
  above : ∀ index, function.Recomputed index →
    function.commonDominators dominators index ⊆ dominators.getD index []

theorem Function.mem_blockSet {member : Nat → Bool} :
    index ∈ function.blockSet member ↔ index < function.blocks.length ∧ member index = true := by
  rw [Function.blockSet, mem_filter, List.mem_range]

theorem Function.mem_reachablePredecessors :
    source ∈ function.reachablePredecessors target ↔
      target ∈ function.successorsOf source ∧ function.Reachable source := by
  rw [Function.reachablePredecessors, mem_filter, Function.mem_predecessorsOf, decide_eq_true_iff]

theorem Function.mem_commonDominators {dominators : List (List Nat)} :
    candidate ∈ function.commonDominators dominators index ↔
      candidate < function.blocks.length ∧ (candidate = index ∨
        ∀ source ∈ function.reachablePredecessors index,
          candidate ∈ dominators.getD source []) := by
  rw [Function.commonDominators, Function.mem_blockSet, Bool.or_eq_true, beq_iff_eq, all_eq_true]
  simp only [contains_iff_mem]

theorem Function.blockSet_lt {inner outer : Nat → Bool}
    (h : function.blockSet inner ⊆ function.blockSet outer) :
    function.blockSet inner = function.blockSet outer ∨
      (function.blockSet inner).length < (function.blockSet outer).length := by
  have hinner : (function.blockSet outer).filter inner = function.blockSet inner := by
    rw [Function.blockSet, Function.blockSet, filter_filter]
    refine filter_congr fun index hidx => ?_
    cases hmember : inner index with
    | false => rfl
    | true =>
      have hmem := h (Function.mem_blockSet.mpr ⟨List.mem_range.mp hidx, hmember⟩)
      rw [(Function.mem_blockSet.mp hmem).2]
      rfl
  have hsub : (function.blockSet inner).Sublist (function.blockSet outer) := hinner ▸ filter_sublist
  rcases Nat.lt_or_eq_of_le hsub.length_le with hlt | heq
  · exact .inr hlt
  · exact .inl (hsub.eq_of_length heq)

theorem sum_map_set_lt {lists : List (List Nat)} {new : List Nat} (hidx : index < lists.length)
    (h : new.length < (lists.getD index []).length) :
    ((lists.set index new).map List.length).sum < (lists.map List.length).sum := by
  induction lists generalizing index with
  | nil => exact absurd hidx (Nat.not_lt_zero _)
  | cons first rest ih =>
    cases index with
    | zero =>
      simp only [set_cons_zero, map_cons, sum_cons]
      exact Nat.add_lt_add_right h _
    | succ index =>
      simp only [set_cons_succ, map_cons, sum_cons]
      exact Nat.add_lt_add_left (ih (Nat.lt_of_succ_lt_succ hidx) h) _

theorem getD_set {lists : List (List Nat)} {other : Nat} {new : List Nat} :
    (lists.set index new).getD other [] =
      if index = other ∧ index < lists.length then new else lists.getD other [] := by
  rw [getD_eq_getElem?_getD, List.getElem?_set, getD_eq_getElem?_getD]
  by_cases hsame : index = other
  · subst hsame
    by_cases hlt : index < lists.length
    · rw [if_pos rfl, if_pos hlt, if_pos ⟨rfl, hlt⟩]
      rfl
    · rw [if_pos rfl, if_neg hlt, if_neg (fun h => hlt h.2),
        List.getElem?_eq_none_iff.mpr (Nat.le_of_not_lt hlt)]
  · rw [if_neg hsame, if_neg (fun h => hsame h.1)]

theorem Function.commonDominators_mono {smaller larger : List (List Nat)}
    (h : ∀ source, smaller.getD source [] ⊆ larger.getD source []) :
    function.commonDominators smaller index ⊆ function.commonDominators larger index := by
  intro candidate hmem
  rw [Function.mem_commonDominators] at hmem ⊢
  exact ⟨hmem.1, hmem.2.imp id fun hall source hsrc => h source (hall source hsrc)⟩

theorem Function.Shrinking.set {dominators : List (List Nat)} (hinv : function.Shrinking dominators)
    (hidx : function.Recomputed index) :
    function.Shrinking (dominators.set index (function.commonDominators dominators index)) := by
  have hbelow : ∀ source,
      (dominators.set index (function.commonDominators dominators index)).getD source [] ⊆
        dominators.getD source [] := by
    intro source
    rw [getD_set]
    split
    · rename_i hsame
      exact hsame.1 ▸ hinv.above index hidx
    · exact fun _ => id
  refine ⟨by rw [List.length_set]; exact hinv.length_eq, fun _ h => hinv.entry (hbelow 0 h), ?_, ?_⟩
  · intro other hother
    rw [getD_set]
    split
    · exact ⟨_, rfl⟩
    · exact hinv.canonical other hother
  · intro other hother candidate hmem
    have hold := Function.commonDominators_mono hbelow hmem
    rw [getD_set]
    split
    · rename_i hsame
      exact hsame.1 ▸ hold
    · exact hinv.above other hother hold

theorem Function.updateDominators_descends (function : Function) :
    Sweep.Descends function.Shrinking (fun dominators => (dominators.map List.length).sum)
      ((List.range function.blocks.length).map function.updateDominators) where
  keeps update hupdate dominators hinv := by
    obtain ⟨index, -, rfl⟩ := mem_map.mp hupdate
    unfold Function.updateDominators
    split
    · rename_i hidx
      exact hinv.set hidx
    · exact hinv
  lowers update hupdate dominators hinv := by
    obtain ⟨index, hlt, rfl⟩ := mem_map.mp hupdate
    rw [List.mem_range, ← hinv.length_eq] at hlt
    unfold Function.updateDominators
    split
    · rename_i hidx
      obtain ⟨member, hmem⟩ := hinv.canonical index hidx
      have habove := hinv.above index hidx
      rw [hmem] at habove
      rcases Function.blockSet_lt habove with hsame | hless
      · refine .inl ?_
        have hget : function.commonDominators dominators index = dominators[index] := by
          rw [getD_eq_getElem?_getD, List.getElem?_eq_getElem hlt] at hmem
          exact hsame.trans hmem.symm
        rw [hget]
        exact set_getElem_self hlt
      · exact .inr (sum_map_set_lt hlt (hmem ▸ hless))
    · exact .inl rfl

theorem Function.getD_initialDominators (h : index < function.blocks.length) :
    function.initialDominators.getD index [] =
      if index = 0 then [0]
      else if function.Reachable index then function.blockSet (function.Reachable ·)
      else [index] := by
  rw [Function.initialDominators, getD_eq_getElem?_getD, List.getElem?_map, List.getElem?_range h]
  rfl

theorem Function.initialDominators_shrinking (function : Function) :
    function.Shrinking function.initialDominators where
  length_eq := by rw [Function.initialDominators, length_map, List.length_range]
  entry := by
    intro candidate hmem
    by_cases hpos : 0 < function.blocks.length
    · rw [Function.getD_initialDominators hpos, if_pos rfl] at hmem
      exact hmem
    · rw [Function.initialDominators, Nat.eq_zero_of_not_pos hpos] at hmem
      exact absurd hmem not_mem_nil
  canonical := by
    intro index hidx
    obtain ⟨source, hsrc⟩ := exists_mem_of_ne_nil _ hidx.2.2
    have hlt := (Function.lt_of_mem_successorsOf
      (Function.mem_reachablePredecessors.mp hsrc).1).2
    rw [Function.getD_initialDominators hlt, if_neg hidx.1, if_pos hidx.2.1]
    exact ⟨_, rfl⟩
  above := by
    intro index hidx candidate hmem
    obtain ⟨source, hsrc⟩ := exists_mem_of_ne_nil _ hidx.2.2
    obtain ⟨hedge, hreach⟩ := Function.mem_reachablePredecessors.mp hsrc
    obtain ⟨hsourceLt, hlt⟩ := Function.lt_of_mem_successorsOf hedge
    obtain ⟨hcandidate, hcases⟩ := Function.mem_commonDominators.mp hmem
    rw [Function.getD_initialDominators hlt, if_neg hidx.1, if_pos hidx.2.1,
      Function.mem_blockSet, decide_eq_true_iff]
    refine ⟨hcandidate, ?_⟩
    rcases hcases with rfl | hall
    · exact hidx.2.1
    have hfirst := hall source hsrc
    rw [Function.getD_initialDominators hsourceLt] at hfirst
    split at hfirst
    · rename_i hzero
      rw [mem_singleton.mp hfirst]
      exact Function.reachable_zero (Nat.lt_of_le_of_lt (Nat.zero_le _) hlt)
    · rw [Function.mem_blockSet, decide_eq_true_iff] at hfirst
      exact hfirst.2

theorem Function.sum_initialDominators_le (function : Function) :
    (function.initialDominators.map List.length).sum ≤
      function.blocks.length * function.blocks.length := by
  have hle : ∀ index ∈ List.range function.blocks.length, (if index = 0 then [0]
        else if function.Reachable index then function.blockSet (function.Reachable ·)
        else [index]).length ≤ function.blocks.length := by
    intro index hidx
    have hpos : 1 ≤ function.blocks.length :=
      Nat.lt_of_le_of_lt (Nat.zero_le _) (List.mem_range.mp hidx)
    split
    · exact hpos
    · split
      · exact Nat.le_trans (length_filter_le _ _) (Nat.le_of_eq List.length_range)
      · exact hpos
  have hsum : ∀ indices : List Nat, indices ⊆ List.range function.blocks.length →
      ((indices.map fun index =>
        (if index = 0 then [0]
        else if function.Reachable index then function.blockSet (function.Reachable ·)
        else [index]).length).sum) ≤ indices.length * function.blocks.length := by
    intro indices
    induction indices with
    | nil => exact fun _ => Nat.zero_le _
    | cons index indices ih =>
      intro hsub
      rw [map_cons, sum_cons, length_cons, Nat.succ_mul, Nat.add_comm]
      exact Nat.add_le_add (ih fun other hother => hsub (mem_cons_of_mem _ hother))
        (hle index (hsub mem_cons_self))
  have hall := hsum _ (List.Subset.refl _)
  rw [List.length_range] at hall
  rw [Function.initialDominators, map_map]
  exact hall

theorem Function.dominators_fixed (function : Function) :
    function.Shrinking function.dominators ∧ ∀ index < function.blocks.length,
      function.updateDominators index function.dominators = function.dominators :=
  ⟨function.updateDominators_descends.settle_inv _ _ function.initialDominators_shrinking,
    fun _ hidx => function.updateDominators_descends.settle_fixed _ _
      function.initialDominators_shrinking function.sum_initialDominators_le _
      (mem_map_of_mem (List.mem_range.mpr hidx))⟩

theorem Function.dominates_zero (h : function.Dominates candidate 0) : candidate = 0 :=
  mem_singleton.mp (function.dominators_fixed.1.entry h)

/-- **Across an edge from a reachable block, a dominator of the end is the end itself, or
dominates the start.** -/
theorem Function.dominators_edge (hsrc : function.Reachable source)
    (hedge : target ∈ function.successorsOf source) (htarget : target ≠ 0)
    (h : function.Dominates candidate target) :
    candidate = target ∨ function.Dominates candidate source := by
  have hpred := Function.mem_reachablePredecessors.mpr ⟨hedge, hsrc⟩
  have hlt := (Function.lt_of_mem_successorsOf hedge).2
  have hrecomputed : function.Recomputed target :=
    ⟨htarget, Function.reachable_succ hsrc hedge, ne_nil_of_mem hpred⟩
  obtain ⟨hinv, hfixed⟩ := function.dominators_fixed
  have hset : function.dominators.set target
      (function.commonDominators function.dominators target) = function.dominators :=
    (if_pos hrecomputed : function.updateDominators target function.dominators = _).symm.trans
      (hfixed target hlt)
  have hmem : candidate ∈ function.commonDominators function.dominators target := by
    rw [Function.Dominates, ← hset, getD_set,
      if_pos ⟨rfl, Nat.lt_of_lt_of_eq hlt hinv.length_eq.symm⟩] at h
    exact h
  exact (Function.mem_commonDominators.mp hmem).2.imp id fun hall => hall source hpred

end Raz.Forge
