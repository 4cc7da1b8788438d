import Mathlib.Data.List.Basic

/-!
# Forward dataflow by worklist

The solver a compiler uses for path-insensitive approximations of path properties: blocks
wait in a queue without duplicates, a block's input joins the outputs of its predecessors
that have one, and a changed output puts the successors back into the queue. The transfer
function may reject, which ends the run. Block `0` is the entry and its input is fixed.

Result: `visits_sound`: at a fixpoint the input of every block on a path covers what the path brings
there, for any relation between path states and dataflow states that the join and the transfer
function preserve.
-/

namespace Worklist

open List

variable {σ : Type}

/-- A forward problem. `transfer` yields `none` where the analysis rejects. -/
structure Problem (σ : Type) where
  entry : σ
  join : σ → σ → σ
  transfer : Nat → σ → Option σ
  predecessors : Nat → List Nat
  successors : Nat → List Nat

/-- `out` has no state for a block that was never processed. -/
structure State (σ : Type) where
  queue : List Nat
  out : List (Option σ)

def Problem.input (p : Problem σ) (out : List (Option σ)) (block : Nat) : Option σ :=
  if block = 0 then some p.entry
  else
    match (p.predecessors block).filterMap (fun predecessor => out.getD predecessor none) with
    | [] => none
    | first :: rest => some (rest.foldl p.join first)

def enqueue (queue : List Nat) (block : Nat) : List Nat :=
  if block ∈ queue then queue else queue ++ [block]

/-- Process the first block of a nonempty queue. `none` is a rejection. -/
def Problem.step [DecidableEq σ] (p : Problem σ) (s : State σ) : Option (State σ) :=
  match s.queue with
  | [] => some s
  | block :: queue =>
      match p.input s.out block with
      | none => some { s with queue }
      | some input =>
          match p.transfer block input with
          | none => none
          | some output =>
              if s.out.getD block none = some output then some { s with queue }
              else some
                { queue := (p.successors block).foldl enqueue queue
                  out := s.out.set block (some output) }

/-- Run until the queue is empty. Running out of fuel before rejects. -/
def Problem.run [DecidableEq σ] (p : Problem σ) : Nat → State σ → Bool
  | 0, s => s.queue.isEmpty
  | fuel + 1, s =>
      if s.queue.isEmpty then true
      else
        match p.step s with
        | none => false
        | some s => p.run fuel s

def initial (σ : Type) (blocks : Nat) : State σ :=
  { queue := [0], out := List.replicate blocks none }

/-! ## Fixpoints -/

/-- The output of `block` is what its input gives. -/
def Problem.Settled (p : Problem σ) (out : List (Option σ)) (block : Nat) : Prop :=
  ∀ input, p.input out block = some input →
    ∃ output, p.transfer block input = some output ∧ out.getD block none = some output

/-- Every block that is not queued is settled. -/
structure Problem.Inv (p : Problem σ) (blocks : Nat) (s : State σ) : Prop where
  settled : ∀ block < blocks, block ∈ s.queue ∨ p.Settled s.out block
  length_eq : s.out.length = blocks

/-- Both edge lists describe one graph over the blocks. -/
structure Problem.Linked (p : Problem σ) (blocks : Nat) : Prop where
  successor_of : ∀ {block next}, next < blocks → block ∈ p.predecessors next →
    next ∈ p.successors block
  predecessor_of : ∀ {block next}, block < blocks → next ∈ p.successors block →
    block ∈ p.predecessors next
  successor_lt : ∀ {block next}, block < blocks → next ∈ p.successors block → next < blocks

theorem mem_enqueue {queue : List Nat} {block other : Nat} :
    other ∈ enqueue queue block ↔ other ∈ queue ∨ other = block := by
  unfold enqueue
  split
  · constructor
    · exact .inl
    · rintro (h | rfl)
      · exact h
      · assumption
  · simp

theorem mem_foldl_enqueue {blocks : List Nat} :
    ∀ {queue : List Nat} {other : Nat},
      other ∈ blocks.foldl enqueue queue ↔ other ∈ queue ∨ other ∈ blocks := by
  induction blocks with
  | nil => intro queue other; simp
  | cons block rest ih =>
    intro queue other
    rw [foldl_cons, ih, mem_enqueue, mem_cons, or_assoc]

theorem input_set_of_notMem {p : Problem σ} {out : List (Option σ)} {block other : Nat}
    {value : Option σ} (h : block ∉ p.predecessors other) :
    p.input (out.set block value) other = p.input out other := by
  have hmap : (p.predecessors other).filterMap
      (fun predecessor => (out.set block value).getD predecessor none) =
      (p.predecessors other).filterMap (fun predecessor => out.getD predecessor none) := by
    apply filterMap_congr
    intro predecessor hmem
    have hne : block ≠ predecessor := fun heq => h (heq ▸ hmem)
    simp [getD_eq_getElem?_getD, hne]
  unfold Problem.input
  rw [hmap]

theorem inv_initial (p : Problem σ) {blocks : Nat} : p.Inv blocks (initial σ blocks) where
  length_eq := by simp [initial]
  settled := by
    intro block _
    by_cases h0 : block = 0
    · exact .inl (by simp [initial, h0])
    refine .inr ?_
    intro input hin
    have hnone : (p.predecessors block).filterMap
        (fun predecessor => (initial σ blocks).out.getD predecessor none) = [] := by
      rw [filterMap_eq_nil_iff]
      intro predecessor _
      simp [initial, getD_eq_getElem?_getD, List.getElem?_replicate]
      split <;> rfl
    rw [Problem.input, if_neg h0, hnone] at hin
    exact absurd hin (by simp)

theorem inv_step [DecidableEq σ] {p : Problem σ} {blocks : Nat} (hlink : p.Linked blocks)
    {s s' : State σ} (hinv : p.Inv blocks s) (hstep : p.step s = some s') : p.Inv blocks s' := by
  unfold Problem.step at hstep
  cases hqueue : s.queue with
  | nil =>
    rw [hqueue] at hstep
    cases hstep
    exact hinv
  | cons block queue =>
    have hrest : ∀ other < blocks, other ≠ block → other ∈ queue ∨ p.Settled s.out other := by
      intro other hlt hne
      rcases hinv.settled other hlt with hmem | hset
      · rw [hqueue] at hmem
        rcases mem_cons.mp hmem with heq | hmem
        · exact absurd heq hne
        · exact .inl hmem
      · exact .inr hset
    rw [hqueue] at hstep
    simp only at hstep
    cases hin : p.input s.out block with
    | none =>
      rw [hin] at hstep
      cases hstep
      refine ⟨?_, hinv.length_eq⟩
      intro other hlt
      by_cases heq : other = block
      · subst heq
        exact .inr (fun input h => absurd (hin.symm.trans h) (by simp))
      · exact hrest other hlt heq
    | some input =>
      rw [hin] at hstep
      simp only at hstep
      cases htransfer : p.transfer block input with
      | none => rw [htransfer] at hstep; cases hstep
      | some output =>
        rw [htransfer] at hstep
        simp only at hstep
        split at hstep
        · rename_i hsame
          cases hstep
          refine ⟨?_, hinv.length_eq⟩
          intro other hlt
          by_cases heq : other = block
          · subst heq
            refine .inr (fun input' h => ?_)
            cases hin.symm.trans h
            exact ⟨output, htransfer, hsame⟩
          · exact hrest other hlt heq
        · cases hstep
          refine ⟨?_, by simpa using hinv.length_eq⟩
          intro other hlt
          simp only [mem_foldl_enqueue]
          by_cases hmem : block ∈ p.predecessors other
          · exact .inl (.inr (hlink.successor_of hlt hmem))
          by_cases heq : other = block
          · subst heq
            refine .inr (fun input' h => ?_)
            rw [input_set_of_notMem hmem] at h
            cases hin.symm.trans h
            refine ⟨output, htransfer, ?_⟩
            simp [getD_eq_getElem?_getD, hinv.length_eq, hlt]
          · rcases hrest other hlt heq with hq | hset
            · exact .inl (.inl hq)
            refine .inr (fun input' h => ?_)
            rw [input_set_of_notMem hmem] at h
            obtain ⟨out', ht, hget⟩ := hset input' h
            refine ⟨out', ht, ?_⟩
            rw [← hget]
            simp [getD_eq_getElem?_getD, Ne.symm heq]

/-- An accepted run ends with every block settled. -/
theorem run_settled [DecidableEq σ] {p : Problem σ} {blocks : Nat} (hlink : p.Linked blocks)
    (fuel : Nat) :
    ∀ {s : State σ}, p.Inv blocks s → p.run fuel s = true →
      ∃ out, ∀ block < blocks, p.Settled out block := by
  have hdone : ∀ {s : State σ}, p.Inv blocks s → s.queue.isEmpty = true →
      ∃ out, ∀ block < blocks, p.Settled out block := by
    intro s hinv hempty
    refine ⟨s.out, fun block hlt => ?_⟩
    rcases hinv.settled block hlt with hmem | hset
    · rw [List.isEmpty_iff] at hempty
      rw [hempty] at hmem
      cases hmem
    · exact hset
  induction fuel with
  | zero => intro s hinv hrun; exact hdone hinv hrun
  | succ fuel ih =>
    intro s hinv hrun
    unfold Problem.run at hrun
    split at hrun
    · rename_i hempty
      exact hdone hinv hempty
    cases hstep : p.step s with
    | none => rw [hstep] at hrun; cases hrun
    | some s' =>
      rw [hstep] at hrun
      exact ih (inv_step hlink hinv hstep) hrun

/-! ## Paths -/

/-- `Visits p allowed exec start block r`: some path from the entry enters `block` in path
state `r`, and every entry on it was allowed. -/
inductive Visits {ρ : Type} (p : Problem σ) (allowed : Nat → ρ → Prop) (exec : Nat → ρ → ρ)
    (start : ρ) : Nat → ρ → Prop
  | entry : Visits p allowed exec start 0 start
  | step {block next : Nat} {r : ρ} : Visits p allowed exec start block r →
      next ∈ p.successors block → allowed next (exec block r) →
      Visits p allowed exec start next (exec block r)

/-- What a relation between path states and dataflow states must satisfy. -/
structure Sound {ρ : Type} (p : Problem σ) (allowed : Nat → ρ → Prop) (exec : Nat → ρ → ρ)
    (start : ρ) (covers : ρ → σ → Prop) : Prop where
  entry : covers start p.entry
  again : ∀ {r s}, allowed 0 r → covers r s → covers r p.entry
  join_left : ∀ {r a b}, covers r a → covers r (p.join a b)
  join_right : ∀ {r a b}, covers r b → covers r (p.join a b)
  transfer : ∀ {r block a b}, covers r a → p.transfer block a = some b →
    covers (exec block r) b

theorem covers_foldl {ρ : Type} {p : Problem σ} {covers : ρ → σ → Prop} {r : ρ}
    (hleft : ∀ {a b}, covers r a → covers r (p.join a b))
    (hright : ∀ {a b}, covers r b → covers r (p.join a b)) (rest : List σ) :
    ∀ (first : σ), (∃ s ∈ first :: rest, covers r s) → covers r (rest.foldl p.join first) := by
  induction rest with
  | nil =>
    rintro first ⟨s, hmem, hs⟩
    rw [mem_singleton] at hmem
    exact hmem ▸ hs
  | cons next rest ih =>
    rintro first ⟨s, hmem, hs⟩
    apply ih
    rcases mem_cons.mp hmem with rfl | hmem
    · exact ⟨_, mem_cons_self, hleft hs⟩
    · rcases mem_cons.mp hmem with rfl | hmem
      · exact ⟨_, mem_cons_self, hright hs⟩
      · exact ⟨s, mem_cons_of_mem _ hmem, hs⟩

/-- The input of a block with a processed predecessor covers what that predecessor covers. -/
theorem input_covers {ρ : Type} {p : Problem σ} {allowed : Nat → ρ → Prop}
    {exec : Nat → ρ → ρ} {start : ρ} {covers : ρ → σ → Prop}
    (hsound : Sound p allowed exec start covers) {out : List (Option σ)} {block next : Nat}
    {r : ρ} {output : σ} (hmem : block ∈ p.predecessors next)
    (hout : out.getD block none = some output) (hcover : covers r output) (hne : next ≠ 0) :
    ∃ input, p.input out next = some input ∧ covers r input := by
  have hin : output ∈ (p.predecessors next).filterMap
      (fun predecessor => out.getD predecessor none) :=
    mem_filterMap.mpr ⟨block, hmem, hout⟩
  unfold Problem.input
  rw [if_neg hne]
  cases hlist : (p.predecessors next).filterMap (fun predecessor => out.getD predecessor none) with
  | nil => rw [hlist] at hin; cases hin
  | cons first rest =>
    refine ⟨_, rfl, ?_⟩
    rw [hlist] at hin
    exact covers_foldl hsound.join_left hsound.join_right rest first ⟨output, hin, hcover⟩

/-- At a fixpoint every block a path enters has an input that covers the path and that the
transfer function accepts. -/
theorem visits_sound {ρ : Type} {p : Problem σ} {blocks : Nat} (hlink : p.Linked blocks)
    (hpos : 0 < blocks) {allowed : Nat → ρ → Prop} {exec : Nat → ρ → ρ} {start : ρ}
    {covers : ρ → σ → Prop} (hsound : Sound p allowed exec start covers)
    {out : List (Option σ)} (hsettled : ∀ block < blocks, p.Settled out block)
    {block : Nat} {r : ρ} (hvisit : Visits p allowed exec start block r) :
    block < blocks ∧ ∃ input output, covers r input ∧ p.transfer block input = some output ∧
      out.getD block none = some output := by
  have hentry : ∀ {r : ρ}, covers r p.entry → 0 < blocks ∧ ∃ input output, covers r input ∧
      p.transfer 0 input = some output ∧ out.getD 0 none = some output := by
    intro r hcover
    obtain ⟨output, htransfer, hout⟩ := hsettled 0 hpos p.entry (by simp [Problem.input])
    exact ⟨hpos, p.entry, output, hcover, htransfer, hout⟩
  induction hvisit with
  | entry => exact hentry hsound.entry
  | @step block next r _ hnext hallowed ih =>
    obtain ⟨hlt, input, output, hcover, htransfer, hout⟩ := ih
    by_cases hzero : next = 0
    · subst hzero
      exact hentry (hsound.again hallowed (hsound.transfer hcover htransfer))
    have hltn := hlink.successor_lt hlt hnext
    obtain ⟨input', hin, hcover'⟩ := input_covers hsound (hlink.predecessor_of hlt hnext) hout
      (hsound.transfer hcover htransfer) hzero
    obtain ⟨output', ht, ho⟩ := hsettled next hltn input' hin
    exact ⟨hltn, input', output', hcover', ht, ho⟩

end Worklist
