import Mathlib.Algebra.Order.Ring.Int
import Mathlib.Order.SupClosed
import Raz.Lib.Worklist

/-!
# Forward dataflow is exact

A worklist whose states can be seen as elements of a lattice, the join as the infimum and the
transfer functions as functions that preserve it, rejects exactly if some path is rejected: the
state of a block is an infimum of states that paths bring there. It does so within a number of
steps that depends on how often an output can change.

Results:
1. `settled_accepts`: at a fixpoint every path is accepted.
2. `run_accepts`: if every path is accepted the worklist is never stopped.
-/

namespace Worklist

open List Problem

variable {σ : Type}

/-! ## Enough fuel -/

/-- The fuel runs out while blocks are waiting. -/
def Problem.exhausted [DecidableEq σ] (p : Problem σ) : Nat → State σ → Bool
  | 0, s => !s.queue.isEmpty
  | fuel + 1, s =>
      if s.queue.isEmpty then false
      else
        match p.step s with
        | none => false
        | some s => p.exhausted fuel s

/-- An order in which outputs descend: joins are infima and the transfer functions monotone. The
height of an element bounds how far one can descend from it. -/
structure Descends [PartialOrder σ] (p : Problem σ) (height : σ → Nat) (top degree : Nat) :
    Prop where
  join_left : ∀ a b, p.join a b ≤ a
  join_right : ∀ a b, p.join a b ≤ b
  le_join : ∀ {a b c}, c ≤ a → c ≤ b → c ≤ p.join a b
  transfer : ∀ {block a b a' b'}, a ≤ b → p.transfer block a = some a' →
    p.transfer block b = some b' → a' ≤ b'
  height_lt : ∀ {a b}, a < b → height a < height b
  height_le : ∀ a, height a ≤ top
  degree : ∀ block, (p.successors block).length ≤ degree

/-- The outputs of `out'` are below those of `out`, and there are no fewer. -/
def Below [PartialOrder σ] (out' out : List (Option σ)) : Prop :=
  ∀ block output, out.getD block none = some output →
    ∃ output', out'.getD block none = some output' ∧ output' ≤ output

/-- The room an output has left. -/
def room (height : σ → Nat) (top : Nat) : Option σ → Nat
  | none => top + 1
  | some output => height output

def measure (height : σ → Nat) (top degree : Nat) (s : State σ) : Nat :=
  s.queue.length + degree * (s.out.map (room height top)).sum

/-- Every output stems from an input at least as high as the one the block has now. -/
structure Descending [PartialOrder σ] (p : Problem σ) (s : State σ) : Prop where
  source : ∀ block output, s.out.getD block none = some output →
    ∃ input now, p.transfer block input = some output ∧
      p.input s.out block = some now ∧ now ≤ input
  queued : ∀ block ∈ s.queue, block < s.out.length

section

variable [PartialOrder σ] {p : Problem σ} {height : σ → Nat} {top degree : Nat}

section

variable (h : Descends p height top degree)

include h

theorem Descends.le_foldl {c : σ} (rest : List σ) :
    ∀ (first : σ), c ≤ rest.foldl p.join first ↔ ∀ a ∈ first :: rest, c ≤ a := by
  induction rest with
  | nil => intro first; simp
  | cons next rest ih =>
    intro first
    rw [foldl_cons, ih, forall_mem_cons, forall_mem_cons, forall_mem_cons]
    constructor
    · rintro ⟨hjoin, hrest⟩
      exact ⟨hjoin.trans (h.join_left _ _), hjoin.trans (h.join_right _ _), hrest⟩
    · rintro ⟨hfirst, hnext, hrest⟩
      exact ⟨h.le_join hfirst hnext, hrest⟩

/-- The input of a block is the infimum of the outputs in front of it. -/
theorem Descends.le_input {out : List (Option σ)} {block : Nat}
    {input c : σ} (hblock : block ≠ 0) (hinput : p.input out block = some input) :
    c ≤ input ↔ ∀ predecessor ∈ p.predecessors block, ∀ output,
      out.getD predecessor none = some output → c ≤ output := by
  unfold Problem.input at hinput
  rw [if_neg hblock] at hinput
  cases hlist : (p.predecessors block).filterMap (fun predecessor => out.getD predecessor none) with
  | nil =>
    rw [hlist] at hinput
    cases hinput
  | cons first rest =>
    rw [hlist] at hinput
    cases hinput
    rw [h.le_foldl, ← hlist]
    constructor
    · intro hall predecessor hmem output hout
      exact hall output (mem_filterMap.mpr ⟨predecessor, hmem, hout⟩)
    · intro hall output hmem
      obtain ⟨predecessor, hin, hout⟩ := mem_filterMap.mp hmem
      exact hall predecessor hin output hout

/-- Lower outputs give lower inputs. -/
theorem Descends.input_le {out out' : List (Option σ)}
    (hbelow : Below out' out) {block : Nat} {input : σ}
    (hinput : p.input out block = some input) :
    ∃ input', p.input out' block = some input' ∧ input' ≤ input := by
  by_cases hblock : block = 0
  · rw [Problem.input, if_pos hblock] at hinput ⊢
    exact ⟨input, hinput, le_rfl⟩
  obtain ⟨predecessor, hmem, output, hout⟩ : ∃ predecessor ∈ p.predecessors block, ∃ output,
        out.getD predecessor none = some output := by
    rw [Problem.input, if_neg hblock] at hinput
    cases hlist : (p.predecessors block).filterMap
        (fun predecessor => out.getD predecessor none) with
    | nil =>
      rw [hlist] at hinput
      cases hinput
    | cons first rest =>
      have hfirst : first ∈ (p.predecessors block).filterMap
          (fun predecessor => out.getD predecessor none) := hlist ▸ mem_cons_self
      obtain ⟨predecessor, hmem, hout⟩ := mem_filterMap.mp hfirst
      exact ⟨predecessor, hmem, first, hout⟩
  obtain ⟨output', hout', -⟩ := hbelow predecessor output hout
  obtain ⟨input', hin'⟩ : ∃ input', p.input out' block = some input' := by
    rw [Problem.input, if_neg hblock]
    cases hlist : (p.predecessors block).filterMap
        (fun predecessor => out'.getD predecessor none) with
    | nil =>
      have hin : output' ∈ (p.predecessors block).filterMap
          (fun predecessor => out'.getD predecessor none) :=
        mem_filterMap.mpr ⟨predecessor, hmem, hout'⟩
      rw [hlist] at hin
      cases hin
    | cons first rest => exact ⟨_, rfl⟩
  refine ⟨input', hin', (h.le_input hblock hinput).mpr ?_⟩
  intro predecessor hmem output hout
  obtain ⟨output', hout', hle⟩ := hbelow predecessor output hout
  exact ((h.le_input hblock hin').mp le_rfl predecessor hmem output' hout').trans hle

end

theorem below_set {out : List (Option σ)} {block : Nat} {output : σ} (hlt : block < out.length)
    (hold : ∀ old, out.getD block none = some old → output ≤ old) :
    Below (out.set block (some output)) out := by
  intro other old hout
  by_cases heq : block = other
  · subst heq
    refine ⟨output, ?_, hold old hout⟩
    rw [getD_eq_getElem?_getD, List.getElem?_set_self hlt, Option.getD_some]
  · refine ⟨old, ?_, le_rfl⟩
    rw [← hout, getD_eq_getElem?_getD, List.getElem?_set_ne heq, getD_eq_getElem?_getD]

omit [PartialOrder σ] in
/-- One entry of a sum. -/
theorem sum_set (weight : Option σ → Nat) (out : List (Option σ)) :
    ∀ {block : Nat} (output : Option σ), block < out.length →
      ((out.set block output).map weight).sum + weight (out.getD block none) =
        (out.map weight).sum + weight output := by
  induction out with
  | nil => exact fun _ h => absurd h (Nat.not_lt_zero _)
  | cons first out ih =>
    intro block output hlt
    cases block with
    | zero =>
      simp only [set_cons_zero, map_cons, sum_cons, getD_cons_zero]
      omega
    | succ block =>
      have hrest := ih output (Nat.lt_of_succ_lt_succ hlt)
      simp only [set_cons_succ, map_cons, sum_cons, getD_cons_succ]
      omega

omit [PartialOrder σ] in
theorem length_foldl_enqueue (blocks : List Nat) :
    ∀ {queue : List Nat}, (blocks.foldl enqueue queue).length ≤ queue.length + blocks.length := by
  induction blocks with
  | nil => exact le_rfl
  | cons block blocks ih =>
    intro queue
    have hone : (enqueue queue block).length ≤ queue.length + 1 := by
      unfold enqueue
      split
      · exact Nat.le_succ _
      · rw [length_append, length_singleton]
    rw [foldl_cons, length_cons]
    exact ih.trans (by omega)

/-- One step of the worklist keeps the outputs descending and uses up something. -/
theorem Descends.step [DecidableEq σ] (h : Descends p height top degree) {blocks : Nat}
    (hlink : p.Linked blocks) {s s' : State σ} (hlength : s.out.length = blocks)
    (hs : Descending p s) (hqueue : s.queue ≠ []) (hstep : p.step s = some s') :
    s'.out.length = blocks ∧ Descending p s' ∧
      measure height top degree s' < measure height top degree s := by
  obtain ⟨queue, out⟩ := s
  cases queue with
  | nil => exact absurd rfl hqueue
  | cons block queue =>
    have hlt : block < out.length := hs.queued block mem_cons_self
    have hrest : ∀ other ∈ queue, other < out.length :=
      fun other hother => hs.queued other (mem_cons_of_mem _ hother)
    have hskip : Descending p { queue, out } ∧
        measure height top degree { queue, out } <
          measure height top degree { queue := block :: queue, out } := by
      refine ⟨⟨hs.source, hrest⟩, ?_⟩
      unfold measure
      simp only [length_cons]
      omega
    unfold Problem.step at hstep
    simp only at hstep hlength
    cases hin : p.input out block with
    | none =>
      rw [hin] at hstep
      cases hstep
      exact ⟨hlength, hskip⟩
    | some input =>
      rw [hin] at hstep
      simp only at hstep
      cases htransfer : p.transfer block input with
      | none =>
        rw [htransfer] at hstep
        cases hstep
      | some output =>
        rw [htransfer] at hstep
        simp only at hstep
        split at hstep
        · cases hstep
          exact ⟨hlength, hskip⟩
        rename_i hchanged
        cases hstep
        -- The new output is below the old one, and different from it.
        have hold : ∀ old, out.getD block none = some old → output < old := by
          intro old hout
          obtain ⟨before, now, hbefore, hnow, hle⟩ := hs.source block old hout
          obtain rfl : input = now := Option.some.inj (hin.symm.trans hnow)
          refine lt_of_le_of_ne (h.transfer hle htransfer hbefore) ?_
          rintro rfl
          exact hchanged hout
        have hbelow : Below (out.set block (some output)) out :=
          below_set hlt (fun old hout => (hold old hout).le)
        refine ⟨by rw [List.length_set]; exact hlength, ⟨?_, ?_⟩, ?_⟩
        · intro other result hres
          by_cases heq : block = other
          · subst heq
            have hset : (out.set block (some output)).getD block none = some output := by
              rw [getD_eq_getElem?_getD, List.getElem?_set_self hlt, Option.getD_some]
            obtain rfl : output = result := Option.some.inj (hset.symm.trans hres)
            obtain ⟨now, hnow, hle⟩ := h.input_le hbelow hin
            exact ⟨input, now, htransfer, hnow, hle⟩
          · have hsame : out.getD other none = some result := by
              rw [← hres, getD_eq_getElem?_getD, getD_eq_getElem?_getD,
                List.getElem?_set_ne heq]
            obtain ⟨before, former, hbefore, hformer, hle⟩ := hs.source other result hsame
            obtain ⟨now, hnow, hless⟩ := h.input_le hbelow hformer
            exact ⟨before, now, hbefore, hnow, hless.trans hle⟩
        · intro other hother
          simp only [List.length_set]
          rcases mem_foldl_enqueue.mp hother with hother | hother
          · exact hrest other hother
          · rw [hlength]
            exact hlink.successor_lt (hlength ▸ hlt) hother
        · have hsum := sum_set (room height top) out (some output) hlt
          have hroom : room height top (some output) < room height top (out.getD block none) := by
            cases hformer : out.getD block none with
            | none => exact Nat.lt_succ_of_le (h.height_le output)
            | some old => exact h.height_lt (hold old hformer)
          have hlen := @length_foldl_enqueue (p.successors block) queue
          have hdegree := h.degree block
          have hmul : degree * (((out.set block (some output)).map (room height top)).sum + 1) ≤
              degree * (out.map (room height top)).sum :=
            Nat.mul_le_mul_left _ (by omega)
          rw [Nat.mul_add, Nat.mul_one] at hmul
          unfold measure
          simp only [length_cons]
          omega

theorem descending_initial (p : Problem σ) {blocks : Nat} (hpos : 0 < blocks) :
    Descending p (initial σ blocks) where
  source block output hout := by
    rw [initial, getD_eq_getElem?_getD, List.getElem?_replicate] at hout
    split at hout <;> cases hout
  queued block hblock := by
    rw [initial, mem_singleton] at hblock
    rw [hblock, initial, length_replicate]
    exact hpos

theorem Descends.exhausted_eq_false [DecidableEq σ] (h : Descends p height top degree)
    {blocks : Nat} (hlink : p.Linked blocks) (fuel : Nat) :
    ∀ {s : State σ}, s.out.length = blocks → Descending p s →
      measure height top degree s ≤ fuel → p.exhausted fuel s = false := by
  induction fuel with
  | zero =>
    intro s _ _ hfuel
    have hempty : s.queue.length = 0 := by
      unfold measure at hfuel
      omega
    rw [exhausted, length_eq_zero_iff.mp hempty]
    rfl
  | succ fuel ih =>
    intro s hlen hs hfuel
    rw [exhausted]
    split
    · rfl
    rename_i hqueue
    rw [List.isEmpty_iff] at hqueue
    cases hstep : p.step s with
    | none => rfl
    | some s' =>
      obtain ⟨hlen', hs', hless⟩ := h.step hlink hlen hs hqueue hstep
      exact ih hlen' hs' (by omega)

/-- **The queue is empty in time**: the fuel lasts when it covers one entry of the queue for every
edge and every change of an output. -/
theorem Descends.not_exhausted [DecidableEq σ] (h : Descends p height top degree) {blocks : Nat}
    (hlink : p.Linked blocks) (hpos : 0 < blocks) {fuel : Nat}
    (hfuel : 1 + degree * (blocks * (top + 1)) ≤ fuel) :
    p.exhausted fuel (initial σ blocks) = false := by
  refine h.exhausted_eq_false hlink fuel (length_replicate) (descending_initial p hpos) ?_
  unfold measure
  rw [initial, length_singleton, map_replicate, sum_replicate_nat, room]
  exact hfuel

end

/-! ## The states of paths -/

/-- What the states look like as elements of a lattice: the join is the infimum there, and a block
is accepted or not and changes an element in a way that respects infima. -/
structure View (p : Problem σ) (blocks : Nat) (ρ : Type) [SemilatticeInf ρ] [OrderBot ρ] where
  view : σ → ρ
  accepts : Nat → ρ → Prop
  next : Nat → ρ → ρ
  entry : view p.entry = ⊥
  join : ∀ a b, view (p.join a b) = view a ⊓ view b
  transfer_some : ∀ {block s output}, block < blocks → p.transfer block s = some output →
    accepts block (view s) ∧ view output = next block (view s)
  transfer_none : ∀ {block s}, block < blocks → p.transfer block s = none →
    ¬ accepts block (view s)
  accepts_inf : ∀ {block x y}, accepts block (x ⊓ y) ↔ accepts block x ∧ accepts block y
  next_inf : ∀ {block} (x y), next block (x ⊓ y) = next block x ⊓ next block y

variable {ρ : Type} [SemilatticeInf ρ] [OrderBot ρ] {p : Problem σ} {blocks : Nat}

/-- Some path from the entry arrives at the block with this element. -/
inductive Arrives (v : View p blocks ρ) : Nat → ρ → Prop
  | entry : Arrives v 0 ⊥
  | step {block next : Nat} {x : ρ} : Arrives v block x → next ∈ p.successors block →
      Arrives v next (v.next block x)

variable (v : View p blocks ρ)

theorem View.accepts_of_le {block : Nat} {x y : ρ} (hle : x ≤ y) (hx : v.accepts block x) :
    v.accepts block y := by
  rw [← inf_eq_left.mpr hle] at hx
  exact (v.accepts_inf.mp hx).2

theorem View.next_le {block : Nat} {x y : ρ} (hle : x ≤ y) : v.next block x ≤ v.next block y := by
  rw [← inf_eq_left, ← v.next_inf, inf_eq_left.mpr hle]

theorem View.foldl_join_le (rest : List σ) :
    ∀ (first : σ), ∀ a ∈ first :: rest, v.view (rest.foldl p.join first) ≤ v.view a := by
  induction rest with
  | nil =>
    intro first a hmem
    rw [mem_singleton.mp hmem]
    exact le_rfl
  | cons next rest ih =>
    intro first a hmem
    have hjoin := ih (p.join first next) _ mem_cons_self
    rw [v.join] at hjoin
    rw [foldl_cons]
    rcases mem_cons.mp hmem with rfl | hmem
    · exact hjoin.trans inf_le_left
    · rcases mem_cons.mp hmem with rfl | hmem
      · exact hjoin.trans inf_le_right
      · exact ih _ a (mem_cons_of_mem _ hmem)

section

variable {out : List (Option σ)} {block : Nat} {x : ρ} (hlink : p.Linked blocks) (hpos : 0 < blocks)
  (hsettled : ∀ block < blocks, p.Settled out block) (harrives : Arrives v block x)

include hlink hpos hsettled harrives

/-- At a fixpoint the input of a block is below what any path brings there. -/
theorem View.input_le_of_arrives :
    block < blocks ∧ ∃ input, p.input out block = some input ∧ v.view input ≤ x := by
  have hentry : ∀ {x : ρ}, ∃ input, p.input out 0 = some input ∧ v.view input ≤ x :=
    ⟨p.entry, if_pos rfl, v.entry.trans_le bot_le⟩
  induction harrives with
  | entry => exact ⟨hpos, hentry⟩
  | @step block next x _ hnext ih =>
    obtain ⟨hlt, input, hinput, hle⟩ := ih
    have hltn := hlink.successor_lt hlt hnext
    refine ⟨hltn, ?_⟩
    by_cases hzero : next = 0
    · exact hzero ▸ hentry
    obtain ⟨output, htransfer, hout⟩ := hsettled block hlt input hinput
    have hin : output ∈ (p.predecessors next).filterMap
        (fun predecessor => out.getD predecessor none) :=
      mem_filterMap.mpr ⟨block, hlink.predecessor_of hlt hnext, hout⟩
    have hview := (v.transfer_some hlt htransfer).2
    unfold Problem.input
    rw [if_neg hzero]
    cases hlist : (p.predecessors next).filterMap
        (fun predecessor => out.getD predecessor none) with
    | nil =>
      rw [hlist] at hin
      cases hin
    | cons first rest =>
      rw [hlist] at hin
      refine ⟨_, rfl, (v.foldl_join_le rest first output hin).trans ?_⟩
      rw [hview]
      exact v.next_le hle

/-- **At a fixpoint every path is accepted.** -/
theorem View.settled_accepts : v.accepts block x := by
  obtain ⟨hlt, input, hin, hle⟩ := v.input_le_of_arrives hlink hpos hsettled harrives
  obtain ⟨output, htransfer, -⟩ := hsettled block hlt input hin
  exact v.accepts_of_le hle (v.transfer_some hlt htransfer).1

end

/-! ## What is computed stems from paths -/

/-- The elements that paths bring out of a block. -/
def Leaves (v : View p blocks ρ) (block : Nat) : Set ρ :=
  {y | ∃ x, Arrives v block x ∧ y = v.next block x}

theorem View.accepts_infClosure {block : Nat} {arriving : Set ρ}
    (h : ∀ x ∈ arriving, v.accepts block x) :
    ∀ x ∈ (infClosure arriving : Set ρ), v.accepts block x :=
  infClosure_min (t := {x | v.accepts block x}) h
    (fun _ hx _ hy => v.accepts_inf.mpr ⟨hx, hy⟩)

theorem View.next_infClosure {block : Nat} {arriving leaving : Set ρ}
    (h : ∀ x ∈ arriving, v.next block x ∈ leaving) :
    ∀ x ∈ (infClosure arriving : Set ρ), v.next block x ∈ infClosure leaving :=
  infClosure_min (t := {x | v.next block x ∈ (infClosure leaving : Set ρ)})
    (fun x hx => subset_infClosure (h x hx))
    (fun x hx y hy => by
      change v.next block (x ⊓ y) ∈ (infClosure leaving : Set ρ)
      rw [v.next_inf]
      exact infClosed_infClosure hx hy)

/-- Every output is an infimum of what paths bring there. -/
def Witnessed (v : View p blocks ρ) (out : List (Option σ)) : Prop :=
  ∀ block output, out.getD block none = some output →
    v.view output ∈ infClosure (Leaves v block)

theorem View.foldl_join_mem {arriving : Set ρ} (rest : List σ) :
    ∀ (first : σ), (∀ a ∈ first :: rest, v.view a ∈ infClosure arriving) →
      v.view (rest.foldl p.join first) ∈ infClosure arriving := by
  induction rest with
  | nil => exact fun first h => h first mem_cons_self
  | cons next rest ih =>
    intro first h
    obtain ⟨hfirst, hrest⟩ := forall_mem_cons.mp h
    obtain ⟨hnext, hrest⟩ := forall_mem_cons.mp hrest
    rw [foldl_cons]
    refine ih _ (forall_mem_cons.mpr ⟨?_, hrest⟩)
    rw [v.join]
    exact infClosed_infClosure hfirst hnext

section

variable (hlink : p.Linked blocks)

include hlink

theorem View.input_mem {out : List (Option σ)}
    (hout : Witnessed v out) {block : Nat} (hlt : block < blocks) {input : σ}
    (hin : p.input out block = some input) :
    v.view input ∈ infClosure {x | Arrives v block x} := by
  unfold Problem.input at hin
  split at hin
  · rename_i hzero
    cases hin
    rw [v.entry, hzero]
    exact subset_infClosure Arrives.entry
  · cases hlist : (p.predecessors block).filterMap
        (fun predecessor => out.getD predecessor none) with
    | nil =>
      rw [hlist] at hin
      cases hin
    | cons first rest =>
      rw [hlist] at hin
      cases hin
      refine v.foldl_join_mem rest first (fun a ha => ?_)
      rw [← hlist] at ha
      obtain ⟨predecessor, hmem, ha⟩ := mem_filterMap.mp ha
      refine infClosure_mono ?_ (hout predecessor a ha)
      rintro y ⟨x, hx, rfl⟩
      exact Arrives.step hx (hlink.successor_of hlt hmem)

section

variable (haccepts : ∀ {block x}, Arrives v block x → v.accepts block x)

include haccepts

/-- If every path is accepted, so is the block that is next, and its output is witnessed. -/
theorem View.step_accepts [DecidableEq σ] {s : State σ}
    (hlen : s.out.length = blocks) (hqueued : ∀ block ∈ s.queue, block < blocks)
    (hout : Witnessed v s.out) :
    ∃ s', p.step s = some s' ∧ s'.out.length = blocks ∧ (∀ block ∈ s'.queue, block < blocks) ∧
      Witnessed v s'.out := by
  obtain ⟨queue, out⟩ := s
  unfold step
  cases queue with
  | nil => exact ⟨_, rfl, hlen, hqueued, hout⟩
  | cons block queue =>
    obtain ⟨hlt, hrest⟩ := forall_mem_cons.mp hqueued
    simp only
    cases hin : p.input out block with
    | none => exact ⟨_, rfl, hlen, hrest, hout⟩
    | some input =>
      have hmem := v.input_mem hlink hout hlt hin
      simp only
      cases htransfer : p.transfer block input with
      | none =>
        exact absurd (v.accepts_infClosure (fun x hx => haccepts hx) _ hmem)
          (v.transfer_none hlt htransfer)
      | some output =>
        have hview := (v.transfer_some hlt htransfer).2
        simp only
        split
        · exact ⟨_, rfl, hlen, hrest, hout⟩
        refine ⟨_, rfl, ?_, ?_, ?_⟩
        · rw [List.length_set]
          exact hlen
        · intro other hother
          rcases mem_foldl_enqueue.mp hother with hother | hother
          · exact hrest other hother
          · exact hlink.successor_lt hlt hother
        · intro other result hres
          by_cases heq : block = other
          · subst heq
            rw [getD_eq_getElem?_getD,
              List.getElem?_set_self (Nat.lt_of_lt_of_eq hlt hlen.symm),
              Option.getD_some] at hres
            cases hres
            rw [hview]
            have hleaves : ∀ x ∈ {x | Arrives v block x}, v.next block x ∈ Leaves v block :=
              fun x hx => ⟨x, hx, rfl⟩
            exact v.next_infClosure hleaves _ hmem
          · refine hout other result ?_
            rw [← hres, getD_eq_getElem?_getD, getD_eq_getElem?_getD, List.getElem?_set_ne heq]

/-- **A worklist with accepted paths is never stopped**: it ends, or the fuel runs out. -/
theorem View.run_accepts [DecidableEq σ] (fuel : Nat) :
    ∀ {s : State σ}, s.out.length = blocks → (∀ block ∈ s.queue, block < blocks) →
      Witnessed v s.out → p.exhausted fuel s = false → p.run fuel s = true := by
  induction fuel with
  | zero =>
    intro s _ _ _ hfuel
    rw [exhausted, Bool.not_eq_false'] at hfuel
    exact hfuel
  | succ fuel ih =>
    intro s hlen hqueued hout hfuel
    rw [run]
    rw [exhausted] at hfuel
    split
    · rfl
    rename_i hqueue
    rw [if_neg hqueue] at hfuel
    obtain ⟨s', hstep, hlen', hqueued', hout'⟩ :=
      v.step_accepts hlink haccepts hlen hqueued hout
    rw [hstep] at hfuel ⊢
    exact ih hlen' hqueued' hout' hfuel

end

end

theorem View.witnessed_initial : Witnessed v (initial σ blocks).out := by
  intro block output hout
  rw [initial, getD_eq_getElem?_getD, List.getElem?_replicate] at hout
  split at hout <;> cases hout

end Worklist
