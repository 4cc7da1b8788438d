import Raz.Borrowck.Loans
import Raz.Mir.Predecessors

/-!
# Paths through a function and the worklist over its blocks

A path is the list of blocks it enters, from the entry block of the function on. The
worklist of `Raz.Borrowck.solveFunction` is an instance of the general one, so that a
relation it preserves holds along every path.

Result: `solveFunction_path`: the induction principle of both move analyses.
-/

namespace Raz.Borrowck

open Raz.Mir List

variable {before : List Int} {block : Int} {σ : Type}

/-! ## Paths -/

def IsEdge (cfg : MirCfg) (block next : Int) : Prop :=
  Arena.get cfg.successorA block = next ∨ Arena.get cfg.successorB block = next

/-- A block of the function's own part of the numbering. -/
def InFunction (cfg : MirCfg) (function block : Int) : Prop :=
  cfg.firstBlock function ≤ block ∧
    block < cfg.firstBlock function + cfg.functionBlockCount function

/-- `FunctionPath cfg function before block`: a path of the function's graph enters the
blocks `before` in this order and then `block`. -/
inductive FunctionPath (cfg : MirCfg) (function : Int) : List Int → Int → Prop
  | entry : InFunction cfg function (cfg.firstBlock function) →
      FunctionPath cfg function [] (cfg.firstBlock function)
  | step (before : List Int) {block next : Int} : FunctionPath cfg function before block →
      IsEdge cfg block next → InFunction cfg function next →
      FunctionPath cfg function (before ++ [block]) next

/-- The instructions a list of blocks executes, in order. -/
def pathInstructions (cfg : MirCfg) (blocks : List Int) : List Int :=
  blocks.flatMap (fun block => Arena.range (cfg.block block).start (cfg.block block).stop)

@[simp] theorem pathInstructions_nil (cfg : MirCfg) : pathInstructions cfg [] = [] := rfl

theorem pathInstructions_snoc (cfg : MirCfg) (blocks : List Int) (block : Int) :
    pathInstructions cfg (blocks ++ [block]) = pathInstructions cfg blocks ++
      Arena.range (cfg.block block).start (cfg.block block).stop := by
  simp [pathInstructions]

section

variable {mir : MirModule} {cfg : MirCfg} {function : Int}

section

variable (h : FunctionPath cfg function before block)

include h

theorem FunctionPath.inFunction :
    InFunction cfg function block := by
  cases h with
  | entry h => exact h
  | step _ _ _ h => exact h

theorem FunctionPath.before_inFunction :
    ∀ earlier ∈ before, InFunction cfg function earlier := by
  induction h with
  | entry => intro earlier hmem; cases hmem
  | step _ hpath _ _ ih =>
    intro earlier hmem
    rcases mem_append.mp hmem with hmem | hmem
    · exact ih earlier hmem
    · rw [mem_singleton.mp hmem]
      exact hpath.inFunction

theorem FunctionPath.all_inFunction :
    ∀ entered ∈ before ++ [block], InFunction cfg function entered := by
  intro entered hmem
  rcases mem_append.mp hmem with hmem | hmem
  · exact h.before_inFunction entered hmem
  · rw [mem_singleton.mp hmem]
    exact h.inFunction

end

theorem pathInstructions_within (hcfg : Built mir cfg) (h0 : 0 ≤ function)
    (h1 : function < mir.functionCount) {blocks : List Int}
    (hin : ∀ block ∈ blocks, InFunction cfg function block) :
    ∀ ip ∈ pathInstructions cfg blocks,
      (mir.function function).start ≤ ip ∧ ip < (mir.function function).stop := by
  intro ip hmem
  obtain ⟨block, hblock, hip⟩ := mem_flatMap.mp hmem
  obtain ⟨hge, hlt⟩ := hin block hblock
  obtain ⟨hstart, _, hstop, _⟩ := functionBlockList_within hcfg.bounded
    (block_mem_function hcfg h0 h1 hge hlt)
  rw [Arena.mem_range] at hip
  omega

/-! ## The worklist of one function -/

/-- The matrix and the step limit for `width` flags in each block of the function are no more
than an `i64` holds. -/
def MatrixSized (cfg : MirCfg) (function width : Int) : Prop :=
  cfg.functionBlockCount function * (width + 2) * 8 + 64 < 2 ^ 63

instance (cfg : MirCfg) (function width : Int) : Decidable (MatrixSized cfg function width) :=
  inferInstanceAs (Decidable (_ < _))

/-- A matrix of that size can be created, and the limit does not wrap around. -/
theorem MatrixSized.creates {width : Int} (h : MatrixSized cfg function width)
    (hpos : 0 < cfg.functionBlockCount function) (h0 : 0 ≤ width) :
    Arena.creates (width + 1) = true ∧
      Arena.creates (Word.wrap (cfg.functionBlockCount function * width + 1)) = true ∧
      Word.wrap (cfg.functionBlockCount function * (width + 2) * 8 + 64) =
        cfg.functionBlockCount function * (width + 2) * 8 + 64 := by
  unfold MatrixSized at h
  have hle : width ≤ cfg.functionBlockCount function * width := le_mul_of_one_le_left h0 hpos
  rw [Int.mul_add] at h ⊢
  rw [Word.wrap_of_range (by omega) (by omega), Word.wrap_of_range (by omega) (by omega),
    Arena.creates_iff, Arena.creates_iff]
  omega

/-- The problem `solveFunction` hands to the worklist. -/
def functionProblem {σ : Type} (cfg : MirCfg) (function : Int) (entry : σ)
    (join : σ → σ → σ) (applyBlock : Int → σ → Option σ) : Worklist.Problem σ :=
  { entry, join
    transfer := fun block => applyBlock (cfg.firstBlock function + block)
    predecessors := localPredecessors cfg (cfg.firstBlock function)
      (cfg.functionBlockCount function)
    successors := localSuccessors cfg (cfg.firstBlock function)
      (cfg.functionBlockCount function) }

theorem mem_localPredecessors {first count : Int} {block candidate : Nat} :
    candidate ∈ localPredecessors cfg first count block ↔
      first + candidate ∈ cfg.predecessors (first + block) ∧ (candidate : Int) < count := by
  simp only [localPredecessors, mem_map, mem_filter, decide_eq_true_eq]
  constructor
  · rintro ⟨predecessor, ⟨hmem, hge, hlt⟩, rfl⟩
    rw [show first + ((predecessor - first).toNat : Int) = predecessor by omega]
    exact ⟨hmem, by omega⟩
  · rintro ⟨hmem, hlt⟩
    exact ⟨first + candidate, ⟨hmem, by omega, by omega⟩, by omega⟩

theorem mem_localSuccessors {first count : Int} {block next : Nat} :
    next ∈ localSuccessors cfg first count block ↔
      IsEdge cfg (first + block) (first + next) ∧ (next : Int) < count := by
  simp only [localSuccessors, mem_map, mem_filter, decide_eq_true_eq, IsEdge,
    mem_cons, not_mem_nil, or_false]
  constructor
  · rintro ⟨successor, ⟨hmem, hge, hlt⟩, rfl⟩
    rw [show first + ((successor - first).toNat : Int) = successor by omega]
    exact ⟨hmem.imp Eq.symm Eq.symm, by omega⟩
  · rintro ⟨hmem, hlt⟩
    exact ⟨first + next, ⟨hmem.imp Eq.symm Eq.symm, by omega, by omega⟩, by omega⟩

theorem linked (hcfg : Built mir cfg) (h0 : 0 ≤ function)
    (h1 : function < mir.functionCount) (entry : σ) (join : σ → σ → σ)
    (applyBlock : Int → σ → Option σ) :
    (functionProblem cfg function entry join applyBlock).Linked
      (cfg.functionBlockCount function).toNat := by
  obtain ⟨hfirst, hwindow⟩ := functionBlocks_le hcfg h0 h1
  refine ⟨?_, ?_, ?_⟩
  · intro block next hnext hmem
    obtain ⟨hmem, hlt⟩ := mem_localPredecessors.mp hmem
    exact mem_localSuccessors.mpr
      ⟨((mem_predecessors hcfg (by omega) (by omega)).mp hmem).2.2, by omega⟩
  · intro block next hblock hmem
    obtain ⟨hedge, hlt⟩ := mem_localSuccessors.mp hmem
    exact mem_localPredecessors.mpr ⟨(mem_predecessors hcfg (by omega) (by omega)).mpr
      ⟨by omega, by omega, hedge⟩, by omega⟩
  · intro block next hblock hmem
    have hlt := (mem_localSuccessors.mp hmem).2
    omega

/-- An accepted function has a fixpoint, also in the straight-line case. -/
theorem solveFunction_settled [DecidableEq σ] (hcfg : Built mir cfg)
    (h0 : 0 ≤ function) (h1 : function < mir.functionCount) {width : Int} {entry : σ}
    {join : σ → σ → σ} {applyBlock : Int → σ → Option σ}
    (h : solveFunction cfg function width entry join applyBlock = true) :
    ∃ out, ∀ block < (cfg.functionBlockCount function).toNat,
      (functionProblem cfg function entry join applyBlock).Settled out block := by
  unfold solveFunction at h
  simp only at h
  split at h
  · rename_i hone
    obtain ⟨output, hout⟩ := Option.isSome_iff_exists.mp h
    refine ⟨[some output], fun block hblock input hin => ?_⟩
    have hzero : block = 0 := by omega
    subst hzero
    cases hin
    exact ⟨output, by simpa [functionProblem] using hout, rfl⟩
  split at h
  · cases h
  · exact Worklist.run_settled (linked hcfg h0 h1 entry join applyBlock) _
      (Worklist.inv_initial _) h

/-- The path state of the worklist is the list of blocks entered so far. -/
theorem visits_of_path (entry : σ) (join : σ → σ → σ) (applyBlock : Int → σ → Option σ)
    (allowed : Nat → List Int → Prop) (hpath : FunctionPath cfg function before block) (hallowed : ∀
      first next rest, before ++ [block] = first ++ next :: rest → first ≠ [] → allowed (next -
      cfg.firstBlock function).toNat first) :
    Worklist.Visits (functionProblem cfg function entry join applyBlock) allowed
      (fun local_ r => r ++ [cfg.firstBlock function + (local_ : Int)]) []
      (block - cfg.firstBlock function).toNat before := by
  induction hpath with
  | entry _ =>
    rw [show (cfg.firstBlock function - cfg.firstBlock function).toNat = 0 by omega]
    exact .entry
  | @step before block next hpath hedge hin ih =>
    have hblock := hpath.inFunction
    unfold InFunction at hblock hin
    have hvisit := ih (fun first middle rest heq hne =>
      hallowed first middle (rest ++ [next]) (by rw [heq]; simp) hne)
    have hcast : cfg.firstBlock function + ((block - cfg.firstBlock function).toNat : Int) =
        block := by omega
    have hcast' : cfg.firstBlock function + ((next - cfg.firstBlock function).toNat : Int) =
        next := by omega
    have hnext : (next - cfg.firstBlock function).toNat ∈
        (functionProblem cfg function entry join applyBlock).successors
          (block - cfg.firstBlock function).toNat := by
      refine mem_localSuccessors.mpr ⟨?_, by omega⟩
      rw [hcast, hcast']
      exact hedge
    have := Worklist.Visits.step hvisit hnext (by
      rw [hcast]
      exact hallowed (before ++ [block]) next [] rfl (by simp))
    rwa [hcast] at this

/-- Induction along a path of an accepted function: a relation between executed blocks and
dataflow states that holds at the entry, survives joins and blocks, and holds again
whenever the path is allowed to return to the entry, holds after every path. -/
theorem solveFunction_path [DecidableEq σ] (hcfg : Built mir cfg) (h0 : 0 ≤ function)
    (h1 : function < mir.functionCount) {width : Int} {entry : σ} {join : σ → σ → σ}
    {applyBlock : Int → σ → Option σ}
    (h : solveFunction cfg function width entry join applyBlock = true)
    (covers : List Int → σ → Prop) (returns : List Int → Prop) (hentry : covers [] entry)
    (hagain : ∀ {r s}, returns r → covers r s → covers r entry)
    (hleft : ∀ {r a b}, covers r a → covers r (join a b))
    (hright : ∀ {r a b}, covers r b → covers r (join a b))
    (hblock : ∀ {r block a b}, covers r a → applyBlock block a = some b → covers (r ++ [block]) b)
    (hpath : FunctionPath cfg function before block) (hreturns : ∀ first rest, before ++ [block] =
      first ++ cfg.firstBlock function :: rest → first ≠ [] → returns first) :
    ∃ output, covers (before ++ [block]) output := by
  obtain ⟨out, hsettled⟩ := solveFunction_settled hcfg h0 h1 h
  have hin := hpath.inFunction
  unfold InFunction at hin
  have hcast : cfg.firstBlock function + ((block - cfg.firstBlock function).toNat : Int) =
      block := by omega
  have hvisit := visits_of_path entry join applyBlock (fun next r => next = 0 → returns r) hpath (by
      intro first next rest heq hne hzero
      have hmem : InFunction cfg function next := by
        have hnext : next ∈ before ++ [block] := by rw [heq]; simp
        rcases mem_append.mp hnext with hnext | hnext
        · exact hpath.before_inFunction next hnext
        · rw [mem_singleton.mp hnext]
          exact hpath.inFunction
      unfold InFunction at hmem
      have hnext : next = cfg.firstBlock function := by omega
      subst hnext
      exact hreturns first rest heq hne)
  obtain ⟨_, input, output, hcover, htransfer, _⟩ := Worklist.visits_sound
    (linked hcfg h0 h1 entry join applyBlock) (by omega)
    { entry := hentry
      again := fun hr hc => hagain (hr rfl) hc
      join_left := hleft
      join_right := hright
      transfer := fun hc ht => hblock hc ht } hsettled hvisit
  have hfinal := hblock hcover htransfer
  rw [hcast] at hfinal
  exact ⟨output, hfinal⟩

end

end Raz.Borrowck
