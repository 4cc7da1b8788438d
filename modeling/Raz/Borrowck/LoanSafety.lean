import Raz.Borrowck.LoanUses

/-!
# No reference is used after a conflicting event

Loans flow along the control-flow graph until their end, and an accepted module has no
conflict with a loan that is still flowing. The end is the last use in linear order, so a
use is protected when nothing executed between the loan and the event lies past it in the
code, when the checker sees the use, and when no block jumps to itself in between.

Results:
1. `no_use_after_conflict`: no protected use follows a conflicting event.
2. `use_after_conflict`: a loan made before a loop, reinitialised at its end and used in the
   next iteration.
-/

namespace Raz.Borrowck

open Raz.Mir List Arena Arena.Flags

/-! ## Conflicts along a path -/

/-- `child` is a reborrow of `ancestor`, or of a reborrow of it. -/
inductive Descends (mir : MirModule) : Int → Int → Prop
  | parent {child : Int} : 0 ≤ (mir.event child).parent →
      Descends mir child (mir.event child).parent
  | step {child ancestor : Int} : 0 ≤ (mir.event child).parent →
      Descends mir (mir.event child).parent ancestor → Descends mir child ancestor

/-- An event that a loan forbids while its reference is in use. -/
structure Conflicts (mir : MirModule) (loan event : Int) : Prop where
  nonneg : 0 ≤ event
  lt : event < mir.eventCount
  overlap : pathsOverlap mir loan event = true
  kinds : ((mir.event event).kind = 1 ∨ (mir.event event).kind = 2) ∨
    (eventIsLoan mir event = true ∧
      ((mir.event loan).kind = 4 ∨ (mir.event event).kind = 4))
  foreign : ¬ Descends mir event loan

/-- The jump of a block to itself. -/
def SelfStep (cfg : MirCfg) (function last next : Int) : Prop :=
  ∃ block, InFunction cfg function block ∧ IsEdge cfg block block ∧
    last = (cfg.block block).stop - 1 ∧ next = (cfg.block block).start

/-- No block jumps to itself along these instructions. -/
def NoSelfStep (cfg : MirCfg) (function : Int) (ips : List Int) : Prop :=
  ∀ before last next after, ips = before ++ last :: next :: after →
    ¬ SelfStep cfg function last next

/-- A loan made in `done` and followed by the instructions `after`, none of them past its
end. -/
structure Flows (mir : MirModule) (cfg : MirCfg) (lastUses : List Int) (function loan : Int)
    (done after : List Int) : Prop where
  split : ∃ before, done = before ++ (mir.event loan).instruction :: after
  ends : ∀ ip ∈ after, ip ≤ Arena.get lastUses loan
  noSelf : NoSelfStep cfg function ((mir.event loan).instruction :: after)

section

variable {loan ip : Int} {k : Nat}

variable {mir : MirModule} {cfg : MirCfg} {function : Int}

theorem NoSelfStep.of_append {front back : List Int}
    (h : NoSelfStep cfg function (front ++ back)) : NoSelfStep cfg function front :=
  fun before last next after heq =>
    h before last next (after ++ back) (by rw [heq]; simp)

theorem NoSelfStep.last (front : List Int) {last next : Int}
    (h : NoSelfStep cfg function (front ++ [last] ++ [next])) :
    ¬ SelfStep cfg function last next :=
  h front last next [] (by simp)

theorem descends_of_chain {ancestor : Int} (h0 : 0 ≤ ancestor) (fuel : Nat) :
    ∀ {child : Int}, parentChainContains mir ancestor fuel child = true →
      Descends mir child ancestor := by
  induction fuel with
  | zero => intro child h; cases h
  | succ fuel ih =>
    intro child h
    unfold parentChainContains at h
    split at h
    · simp only at h
      split at h
      · rename_i heq
        exact heq ▸ .parent (heq ▸ h0)
      · split at h
        · cases h
        · exact .step (by omega) (ih h)
    · cases h

theorem Conflicts.check {event : Int} (hloan : IsLoan mir loan) (h : Conflicts mir loan event) :
    (eventIsLoan mir event = true ∧ loanConflicts mir loan event false = true) ∨
      (eventIsLoan mir event = false ∧
        ((mir.event event).kind = 1 ∨ (mir.event event).kind = 2) ∧
        loanConflicts mir loan event true = true) := by
  have hchain : loanParentChainContains mir event loan = false := by
    cases hc : loanParentChainContains mir event loan with
    | false => rfl
    | true => exact absurd (descends_of_chain hloan.nonneg 256 hc) h.foreign
  rcases h.kinds with hkind | ⟨hkind, hexclusive⟩
  · refine .inr ⟨?_, hkind, ?_⟩
    · unfold eventIsLoan
      rw [decide_eq_false_iff_not]
      omega
    · simp [loanConflicts, hloan.kind, h.overlap, hchain]
  · refine .inl ⟨hkind, ?_⟩
    simp only [loanConflicts, hloan.kind, h.overlap, hchain, Bool.false_and, Bool.true_and,
      Bool.false_eq_true, if_false, decide_eq_true_eq, false_or]
    exact hexclusive.symm

/-! ## One instruction -/

variable {lastUses events : List Int}

theorem set_keeps (s : ActiveLoans events) (index : Int) (h : s.get k = true) :
    (s.set index true).get k = true := by
  by_cases heq : index = k
  · subst heq
    have hlt : k < events.length := by
      by_cases hlt : k < events.length
      · exact hlt
      · rw [Arena.Flags.get, get_of_ge (by rw [s.length_eq]; omega)] at h
        cases h
    exact get_set_self _ _ (by omega) (by omega)
  · rw [get_set_ne _ _ heq]
    exact h

/-- One event: flags are only set, the loan of the event is, and the event does not conflict
with a loan whose flag was set. -/
theorem applyLoanEvent_spec {s s' : ActiveLoans events} (hk : k < events.length)
    (h : applyLoanEvent mir ip s k = some s') :
    (∀ j : Nat, s.get j = true → s'.get j = true) ∧
      ((mir.event events[k]).instruction = ip →
        (eventIsLoan mir events[k] = true → s'.get k = true) ∧
        ∀ (j : Nat) (hj : j < events.length), s.get j = true → IsLoan mir events[j] →
          ¬ Conflicts mir events[j] events[k]) := by
  have hcur : events.getD k 0 = events[k] := by
    simp [getD_eq_getElem?_getD, List.getElem?_eq_getElem hk]
  have hchecked : ∀ {mutation : Bool}, ¬ localActiveLoanConflicts mir s events[k] mutation = true →
      ∀ (j : Nat) (hj : j < events.length), s.get j = true →
        loanConflicts mir events[j] events[k] mutation = false := by
    intro mutation hfree j hj hflag
    cases hc : loanConflicts mir events[j] events[k] mutation with
    | false => rfl
    | true => exact absurd (anyWith_eq_true hj hflag hc) hfree
  unfold applyLoanEvent at h
  simp only [hcur] at h
  split at h
  · split at h
    · rename_i hkind
      split at h
      · cases h
      rename_i hfree
      cases h
      refine ⟨fun j hj => set_keeps s _ hj, fun _ => ⟨fun _ => ?_, fun j hj hflag hloan hc => ?_⟩⟩
      · exact get_set_self _ _ (by omega) (by omega)
      rcases hc.check hloan with ⟨_, hcheck⟩ | ⟨hnot, _⟩
      · rw [hchecked hfree j hj hflag] at hcheck
        cases hcheck
      · rw [eventIsLoan, decide_eq_false_iff_not] at hnot
        exact hnot hkind
    · rename_i hnotLoan
      have hfalse : eventIsLoan mir events[k] = false := by
        rw [eventIsLoan, decide_eq_false_iff_not]
        exact hnotLoan
      have hnone : eventIsLoan mir events[k] = true → s'.get k = true := by
        rw [hfalse]
        exact fun h => by cases h
      split at h
      · split at h
        · cases h
        rename_i hfree
        cases h
        refine ⟨fun _ hj => hj, fun _ => ⟨hnone, fun j hj hflag hloan hc => ?_⟩⟩
        rcases hc.check hloan with ⟨hyes, _⟩ | ⟨_, _, hcheck⟩
        · rw [hfalse] at hyes
          cases hyes
        · rw [hchecked hfree j hj hflag] at hcheck
          cases hcheck
      · rename_i hneither
        cases h
        refine ⟨fun _ hj => hj, fun _ => ⟨hnone, fun j hj hflag hloan hc => ?_⟩⟩
        rcases hc.check hloan with ⟨hyes, _⟩ | ⟨_, hkind, _⟩
        · rw [hfalse] at hyes
          cases hyes
        · exact hneither hkind
  · rename_i hother
    cases h
    exact ⟨fun _ hj => hj, fun heq => absurd heq hother⟩

theorem applyLoanEvents_spec {s : ActiveLoans events} (count : Nat) :
    ∀ {s' : ActiveLoans events}, count ≤ events.length →
      (List.range count).foldlM (applyLoanEvent mir ip) s = some s' →
      (∀ k : Nat, s.get k = true → s'.get k = true) ∧
      (∀ (k : Nat) (h : k < events.length), k < count → (mir.event events[k]).instruction = ip →
        eventIsLoan mir events[k] = true → s'.get k = true) ∧
      (∀ (j k : Nat) (hj : j < events.length) (hk : k < events.length), k < count →
        (mir.event events[k]).instruction = ip → IsLoan mir events[j] →
        (s.get j = true ∨ (j < k ∧ (mir.event events[j]).instruction = ip)) →
        ¬ Conflicts mir events[j] events[k]) := by
  induction count with
  | zero =>
    intro s' _ h
    cases h
    exact ⟨fun _ h => h, fun _ _ h => by omega, fun _ _ _ _ h => by omega⟩
  | succ count ih =>
    intro s' hle h
    rw [range_succ, foldlM_append] at h
    obtain ⟨middle, hfirst, hlast⟩ := Option.bind_eq_some_iff.mp h
    obtain ⟨hkeep, hset, hfree⟩ := ih (by omega) hfirst
    rw [foldlM_cons] at hlast
    obtain ⟨last, hlast, hnil⟩ := Option.bind_eq_some_iff.mp hlast
    cases hnil
    obtain ⟨hkeep', hevent⟩ := applyLoanEvent_spec (show count < events.length by omega) hlast
    refine ⟨fun k hk => hkeep' k (hkeep k hk), ?_, ?_⟩
    · intro k hk hlt hip hloan
      by_cases heq : k = count
      · subst heq
        exact (hevent hip).1 hloan
      · exact hkeep' k (hset k hk (by omega) hip hloan)
    · intro j k hj hk hlt hip hloan hactive
      by_cases heq : k = count
      · subst heq
        refine (hevent hip).2 j hj ?_ hloan
        rcases hactive with hactive | ⟨hjk, hjip⟩
        · exact hkeep j hactive
        · exact hset j hj hjk hjip hloan.kind
      · exact hfree j k hj hk (by omega) hip hloan hactive

/-! ## Loans along instructions -/

theorem Flows.snoc {done after : List Int}
    (h : Flows mir cfg lastUses function loan (done ++ [ip]) after) :
    (after = [] ∧ (mir.event loan).instruction = ip) ∨
      ∃ shorter, after = shorter ++ [ip] ∧ Flows mir cfg lastUses function loan done shorter ∧
        ip ≤ Arena.get lastUses loan ∧
        NoSelfStep cfg function ((mir.event loan).instruction :: shorter ++ [ip]) := by
  obtain ⟨before, heq⟩ := h.split
  rcases eq_nil_or_concat after with rfl | ⟨shorter, last, rfl⟩
  · have hlast := congrArg List.getLast? heq
    simp at hlast
    exact .inl ⟨rfl, hlast.symm⟩
  rw [concat_eq_append, ← cons_append, ← append_assoc] at heq
  obtain ⟨hdone, hip⟩ := append_inj' heq rfl
  have hip' : ip = last := by simpa using hip
  subst hip'
  refine .inr ⟨shorter, concat_eq_append, ⟨⟨before, hdone⟩, ?_, ?_⟩, ?_, ?_⟩
  · exact fun k hk => h.ends k (by simp [hk])
  · have hself := h.noSelf
    rw [concat_eq_append, ← cons_append] at hself
    exact hself.of_append
  · exact h.ends ip (by simp)
  · simpa using h.noSelf

/-- `event` occurs in `done` while `loan` flows: at a later instruction, or later among the
events of the instruction that made the loan. -/
def Meets (mir : MirModule) (cfg : MirCfg) (lastUses : List Int) (function loan event : Int)
    (done : List Int) : Prop :=
  (∃ front after rest, done = front ++ rest ∧
    Flows mir cfg lastUses function loan front (after ++ [(mir.event event).instruction])) ∨
  (loan < event ∧ (mir.event loan).instruction = (mir.event event).instruction ∧
    (mir.event event).instruction ∈ done)

/-- No event of the function meets a loan it conflicts with. -/
def NoConflict (mir : MirModule) (cfg : MirCfg) (lastUses : List Int) (function : Int)
    (events done : List Int) : Prop :=
  ∀ loan ∈ events, ∀ event ∈ events, IsLoan mir loan → Conflicts mir loan event →
    ¬ Meets mir cfg lastUses function loan event done

/-- The state after `done`. -/
structure LoanCovers (mir : MirModule) (cfg : MirCfg) (lastUses : List Int) (function : Int)
    {events : List Int} (done : List Int) (s : ActiveLoans events) : Prop where
  flags : ∀ (k : Nat) (h : k < events.length) (after : List Int), IsLoan mir events[k] →
    Flows mir cfg lastUses function events[k] done after → s.get k = true
  free : NoConflict mir cfg lastUses function events done

/-- The state in which `ip` is executed after `done`: the step to `ip` may be a jump. -/
structure EntersCovers (mir : MirModule) (cfg : MirCfg) (lastUses : List Int) (function : Int)
    {events : List Int} (done : List Int) (ip : Int) (s : ActiveLoans events) : Prop where
  flags : ∀ (k : Nat) (h : k < events.length) (after : List Int), IsLoan mir events[k] →
    Flows mir cfg lastUses function events[k] done after →
    NoSelfStep cfg function ((mir.event events[k]).instruction :: after ++ [ip]) →
    s.get k = true
  free : NoConflict mir cfg lastUses function events done

theorem LoanCovers.enters {done : List Int} {s : ActiveLoans events}
    (h : LoanCovers mir cfg lastUses function done s) (ip : Int) :
    EntersCovers mir cfg lastUses function done ip s :=
  ⟨fun k hk after hloan hflows _ => h.flags k hk after hloan hflows, h.free⟩

theorem expireLoans_get {s : ActiveLoans events} (hk : k < events.length) (hflag : s.get k = true)
    (hends : ip ≤ Arena.get lastUses events[k]) :
    (expireLoans mir lastUses s ip).get k = true := by
  rw [expireLoans, get_mapWith _ _ _ hk, if_neg (by omega)]
  exact hflag

theorem loanCovers_step (hsorted : events.Pairwise (· < ·)) {done : List Int}
    {s s' : ActiveLoans events} (h : EntersCovers mir cfg lastUses function done ip s)
    (hstep : applyLoanInstruction mir lastUses s ip = some s') :
    LoanCovers mir cfg lastUses function (done ++ [ip]) s' := by
  obtain ⟨hkeep, hset, hfree⟩ := applyLoanEvents_spec events.length (Nat.le_refl _) hstep
  constructor
  · intro k hk after hloan hflows
    rcases hflows.snoc with ⟨_, hip⟩ | ⟨shorter, _, hflows, hends, hself⟩
    · exact hset k hk hk hip hloan.kind
    · exact hkeep k (expireLoans_get hk (h.flags k hk shorter hloan hflows hself) hends)
  · intro loan hloanMem event heventMem hloan hconflict hmeets
    obtain ⟨j, hj, rfl⟩ := getElem_of_mem hloanMem
    obtain ⟨k, hk, rfl⟩ := getElem_of_mem heventMem
    rcases hmeets with ⟨front, after, rest, heq, hflows⟩ | ⟨hlt, hsame, hmem⟩
    · rcases eq_nil_or_concat rest with rfl | ⟨rest, last, rfl⟩
      · rw [append_nil] at heq
        subst heq
        rcases hflows.snoc with ⟨hnil, _⟩ | ⟨shorter, hshort, hflows, hends, hself⟩
        · exact absurd hnil (by simp)
        obtain ⟨hshorter, hip⟩ := append_inj' hshort rfl
        have hip' : (mir.event events[k]).instruction = ip := by simpa using hip
        subst hshorter
        exact hfree j k hj hk hk hip' hloan
          (.inl (expireLoans_get hj (h.flags j hj _ hloan hflows hself) hends)) hconflict
      · rw [concat_eq_append, ← append_assoc] at heq
        obtain ⟨hdone, _⟩ := append_inj' heq rfl
        exact h.free _ (getElem_mem hj) _ (getElem_mem hk) hloan hconflict
          (.inl ⟨front, after, rest, hdone, hflows⟩)
    · rcases mem_append.mp hmem with hmem | hmem
      · exact h.free _ (getElem_mem hj) _ (getElem_mem hk) hloan hconflict
          (.inr ⟨hlt, hsame, hmem⟩)
      have hip := mem_singleton.mp hmem
      have hjk : j < k := by
        by_cases hle : k < j
        · have := pairwise_iff_getElem.mp hsorted k j hk hj hle
          omega
        have hne : j ≠ k := by
          rintro rfl
          omega
        omega
      exact hfree j k hj hk hk hip hloan (.inr ⟨hjk, hsame.trans hip⟩) hconflict

theorem loanCovers_block (hsorted : events.Pairwise (· < ·)) (stop : Int) (remaining : Nat) :
    ∀ {done : List Int} {ip : Int} {s s' : ActiveLoans events}, ip + remaining + 1 = stop →
      EntersCovers mir cfg lastUses function done ip s →
      (Arena.range ip stop).foldlM (applyLoanInstruction mir lastUses) s = some s' →
      LoanCovers mir cfg lastUses function (done ++ Arena.range ip stop) s' := by
  induction remaining with
  | zero =>
    intro done ip s s' hstop h hrun
    have hrange : range ip stop = [ip] := by
      rw [range_cons (by omega), range_eq_nil (by omega)]
    rw [hrange] at hrun ⊢
    rw [foldlM_cons] at hrun
    obtain ⟨last, hlast, hnil⟩ := Option.bind_eq_some_iff.mp hrun
    cases hnil
    exact loanCovers_step hsorted h hlast
  | succ remaining ih =>
    intro done ip s s' hstop h hrun
    rw [range_cons (by omega), foldlM_cons] at hrun
    obtain ⟨middle, hfirst, hrest⟩ := Option.bind_eq_some_iff.mp hrun
    rw [range_cons (by omega)]
    have := ih (by omega) ((loanCovers_step hsorted h hfirst).enters (ip + 1)) hrest
    simpa using this

/-! ## The fixpoint of the sweeps -/

/-- A block whose row is what its predecessors' rows give. -/
def LoanSettled (mir : MirModule) (cfg : MirCfg) (lastUses : List Int) {events : List Int}
    (first : Int) (rows : LoanRows events) (block : Nat) : Prop :=
  (block ≠ 0 ∧ loanPredecessorRows cfg first rows block = []) ∨
    ∃ active, applyLoanBlock mir cfg lastUses (first + block)
        ((loanPredecessorRows cfg first rows block).foldl (Arena.Flags.zip (· || ·))
          (Arena.Flags.clear events.length)) = some active ∧
      rows.getD block none = some active

theorem set_getD_self {α : Type} {rows : List (Option α)} {value : α}
    (h : rows.getD k none = some value) : rows.set k (some value) = rows := by
  rw [getD_eq_getElem?_getD] at h
  cases hrow : rows[k]? with
  | none => rw [hrow] at h; cases h
  | some row =>
    rw [hrow] at h
    obtain ⟨hlt, hget⟩ := List.getElem?_eq_some_iff.mp hrow
    have hval : rows[k] = some value := hget.trans h
    rw [← hval, set_getElem_self]

/-- A block of a sweep that reports no change leaves the rows and is settled. -/
theorem loanSweepBlock_unchanged {first : Int} {acc : LoanRows events × Bool}
    {rows : LoanRows events} {block : Nat}
    (h : loanSweepBlock mir cfg lastUses first acc block = some (rows, false)) :
    acc = (rows, false) ∧ LoanSettled mir cfg lastUses first rows block := by
  unfold loanSweepBlock at h
  simp only at h
  split at h
  · rename_i hskip
    cases h
    exact ⟨rfl, .inl hskip⟩
  obtain ⟨active, hactive, heq⟩ := Option.map_eq_some_iff.mp h
  obtain ⟨hrows, hflag⟩ := Prod.mk.injEq _ _ _ _ ▸ heq
  rw [Bool.or_eq_false_iff, decide_eq_false_iff_not, Decidable.not_not] at hflag
  have hsame : acc.1 = rows := by
    rw [← hrows]
    exact (set_getD_self hflag.2).symm
  refine ⟨Prod.ext hsame hflag.1, .inr ⟨active, ?_, ?_⟩⟩
  · rw [← hsame]
    exact hactive
  · rw [← hsame]
    exact hflag.2

theorem loanSweep_unchanged {first : Int} (count : Nat) :
    ∀ {acc : LoanRows events × Bool} {rows : LoanRows events},
      (List.range count).foldlM (loanSweepBlock mir cfg lastUses first) acc = some (rows, false) →
      acc = (rows, false) ∧ ∀ block < count, LoanSettled mir cfg lastUses first rows block := by
  induction count with
  | zero =>
    intro acc rows h
    cases h
    exact ⟨rfl, fun block hlt => absurd hlt (by omega)⟩
  | succ count ih =>
    intro acc rows h
    rw [range_succ, foldlM_append] at h
    obtain ⟨middle, hfirst, hlast⟩ := Option.bind_eq_some_iff.mp h
    rw [foldlM_cons] at hlast
    obtain ⟨last, hlast, hnil⟩ := Option.bind_eq_some_iff.mp hlast
    cases hnil
    obtain ⟨hmiddle, hsettled⟩ := loanSweepBlock_unchanged hlast
    subst hmiddle
    obtain ⟨hacc, hrest⟩ := ih hfirst
    refine ⟨hacc, fun block hlt => ?_⟩
    by_cases heq : block = count
    · exact heq ▸ hsettled
    · exact hrest block (by omega)

theorem loanSweeps_settled {first : Int} {blocks : Nat} (iterations : Nat) :
    ∀ {rows final : LoanRows events},
      loanSweeps mir cfg lastUses first blocks iterations rows = some final →
      ∀ block < blocks, LoanSettled mir cfg lastUses first final block := by
  induction iterations with
  | zero => intro rows final h; cases h
  | succ iterations ih =>
    intro rows final h
    unfold loanSweeps at h
    split at h
    · cases h
    rename_i next changed hsweep
    split at h
    · exact ih h
    rename_i hchanged
    cases h
    rw [Bool.not_eq_true] at hchanged
    subst hchanged
    exact (loanSweep_unchanged blocks hsweep).2

/-! ## Loans along paths -/

theorem fold_zip_get {rows : List (ActiveLoans events)} :
    ∀ {start : ActiveLoans events},
      (start.get k = true ∨ ∃ row ∈ rows, row.get k = true) →
      (rows.foldl (Arena.Flags.zip (· || ·)) start).get k = true := by
  induction rows with
  | nil =>
    rintro start (h | ⟨row, hmem, _⟩)
    · exact h
    · cases hmem
  | cons row rest ih =>
    intro start h
    refine ih ?_
    rw [get_zip _ rfl, Bool.or_eq_true]
    rcases h with h | ⟨other, hmem, hrow⟩
    · exact .inl (.inl h)
    · rcases mem_cons.mp hmem with rfl | hmem
      · exact .inl (.inr hrow)
      · exact .inr ⟨other, hmem, hrow⟩

/-- The row of a predecessor other than the block itself reaches its input. -/
theorem mem_loanPredecessorRows {first : Int} {rows : LoanRows events} {block next : Nat}
    {row : ActiveLoans events} (hrow : rows.getD block none = some row) (hne : block ≠ next)
    (hedge : IsEdge cfg (first + block) (first + next)) :
    row ∈ loanPredecessorRows cfg first rows next := by
  have hlt : block < rows.length := by
    by_cases hlt : block < rows.length
    · exact hlt
    · rw [getD_eq_getElem?_getD, List.getElem?_eq_none (by omega)] at hrow
      cases hrow
  refine mem_filterMap.mpr ⟨block, ?_, hrow⟩
  simp only [mem_filter, List.mem_range, decide_eq_true_eq]
  exact ⟨hlt, hne, hedge⟩

/-- Along a path, the state a block is entered with covers the loans of the path. -/
theorem path_enters (hcfg : Built mir cfg) (h0 : 0 ≤ function)
    (h1 : function < mir.functionCount) (hsorted : events.Pairwise (· < ·))
    {rows : LoanRows events}
    (hsettled : ∀ block < (cfg.functionBlockCount function).toNat,
      LoanSettled mir cfg lastUses (cfg.firstBlock function) rows block)
    {before : List Int} {block : Int} (hpath : FunctionPath cfg function before block) :
    ∃ input active, applyLoanBlock mir cfg lastUses block input = some active ∧
      rows.getD (block - cfg.firstBlock function).toNat none = some active ∧
      EntersCovers mir cfg lastUses function (pathInstructions cfg before)
        (cfg.block block).start input := by
  induction hpath with
  | entry hin =>
    unfold InFunction at hin
    rcases hsettled 0 (by omega) with ⟨hne, _⟩ | ⟨active, happly, hrow⟩
    · exact absurd rfl hne
    refine ⟨_, active, by simpa using happly, by simpa using hrow, ?_, ?_⟩
    · rintro k hk after _ ⟨⟨before, heq⟩, _, _⟩
      exact absurd heq (by simp)
    rintro loan _ event _ _ _ (⟨front, after, rest, heq, hflows⟩ | ⟨_, _, hmem⟩)
    · obtain ⟨before, hsplit⟩ := hflows.split
      rw [hsplit] at heq
      exact absurd heq (by simp)
    · cases hmem
  | @step before block next hpath hedge hin ih =>
    obtain ⟨input, active, happly, hrow, henters⟩ := ih
    have hblock := hpath.inFunction
    have hnonempty := functionBlockList_nonempty hcfg.bounded
      (block_mem_function hcfg h0 h1 hblock.1 hblock.2)
    -- The whole block has been executed.
    have hcovers : LoanCovers mir cfg lastUses function
        (pathInstructions cfg (before ++ [block])) active := by
      rw [pathInstructions_snoc]
      exact loanCovers_block hsorted _ ((cfg.block block).stop - (cfg.block block).start - 1).toNat
        (by omega) henters happly
    unfold InFunction at hblock hin
    by_cases hself : next = block
    · subst hself
      refine ⟨input, active, happly, hrow, ?_, hcovers.free⟩
      -- A loan that flows here would have taken the jump of the block to itself.
      intro k hk after hloan hflows hstep
      exfalso
      obtain ⟨earlier, heq⟩ := hflows.split
      have hend : range ((cfg.block next).stop - 1) (cfg.block next).stop =
          [(cfg.block next).stop - 1] := by
        rw [range_cons (by omega), range_eq_nil (by omega)]
      rw [pathInstructions_snoc, range_append
        (show (cfg.block next).start ≤ (cfg.block next).stop - 1 by omega)
        (show (cfg.block next).stop - 1 ≤ (cfg.block next).stop by omega), hend,
        ← append_assoc] at heq
      have hjump : SelfStep cfg function ((cfg.block next).stop - 1) (cfg.block next).start :=
        ⟨next, ⟨by omega, by omega⟩, hedge, rfl, rfl⟩
      rcases eq_nil_or_concat after with rfl | ⟨shorter, last, rfl⟩
      · have hlast := (append_inj' heq rfl).2
        rw [singleton_inj] at hlast
        rw [← hlast] at hstep
        exact NoSelfStep.last [] hstep hjump
      · rw [concat_eq_append] at heq hstep
        rw [← cons_append, ← append_assoc] at heq
        have hlast := (append_inj' heq rfl).2
        rw [singleton_inj] at hlast
        rw [← hlast, ← cons_append] at hstep
        exact NoSelfStep.last _ hstep hjump
    · have hcast : cfg.firstBlock function + ((next - cfg.firstBlock function).toNat : Int) =
          next := by omega
      have hcast' : cfg.firstBlock function + ((block - cfg.firstBlock function).toNat : Int) =
          block := by omega
      have hmem : active ∈ loanPredecessorRows cfg (cfg.firstBlock function) rows
          (next - cfg.firstBlock function).toNat :=
        mem_loanPredecessorRows hrow (by omega) (by rw [hcast, hcast']; exact hedge)
      rcases hsettled (next - cfg.firstBlock function).toNat (by omega) with
        ⟨_, hnone⟩ | ⟨output, hout, hnext⟩
      · rw [hnone] at hmem
        cases hmem
      rw [hcast] at hout
      refine ⟨_, output, hout, hnext, ?_, hcovers.free⟩
      intro k hk after hloan hflows _
      exact fold_zip_get (.inr ⟨active, hmem, hcovers.flags k hk after hloan hflows⟩)

/-- Along every path, no event conflicts with a loan that has not ended. -/
theorem path_loans (hcfg : Built mir cfg) (h0 : 0 ≤ function)
    (h1 : function < mir.functionCount) (hsorted : events.Pairwise (· < ·))
    {rows : LoanRows events}
    (hsettled : ∀ block < (cfg.functionBlockCount function).toNat,
      LoanSettled mir cfg lastUses (cfg.firstBlock function) rows block)
    {before : List Int} {block : Int} (hpath : FunctionPath cfg function before block) :
    NoConflict mir cfg lastUses function events (pathInstructions cfg (before ++ [block])) := by
  obtain ⟨input, active, happly, _, henters⟩ := path_enters hcfg h0 h1 hsorted hsettled hpath
  have hblock := hpath.inFunction
  have hnonempty := functionBlockList_nonempty hcfg.bounded
    (block_mem_function hcfg h0 h1 hblock.1 hblock.2)
  rw [pathInstructions_snoc]
  exact (loanCovers_block hsorted _
    ((cfg.block block).stop - (cfg.block block).start - 1).toNat (by omega) henters happly).free

/-! ## Uses of a reference -/

/-- Instruction `ip` reads the register `value`. The third operand of a select is read as
well, though the table does not see it. -/
def ReadsRegister (mir : MirModule) (ip value : Int) : Prop :=
  TrackedUse mir ip value ∨ (mir.opcode ip = 17 ∧ mir.opC ip = value)

/-- After the instructions `done`, executed since the loan, `register` still holds its
reference, or a value loaded from a local while the local held it. -/
def Refers (mir : MirModule) (loan register : Int) (done : List Int) : Prop :=
  (register = (mir.event loan).instruction ∧ register ∉ done) ∨
    ∃ early store kept late, done = early ++ store :: (kept ++ register :: late) ∧
      (mir.event loan).instruction ∉ early ∧
      mir.opcode store = 9 ∧ mir.opB store = (mir.event loan).instruction ∧
      (∀ ip ∈ kept, ¬ (mir.opcode ip = 9 ∧ mir.opA ip = mir.opA store)) ∧
      mir.opcode register = 3 ∧ mir.opA register = mir.opA store ∧ register ∉ late

/-- On a path, `use` reads the reference of `loan` in `register` although a conflicting
`event` occurred in between: `between` leads from the loan to the event, `later` from the
event to the use. -/
structure UsedAfterConflict (mir : MirModule) (path : List Int)
    (loan event register use : Int) (between later : List Int) : Prop where
  isLoan : IsLoan mir loan
  conflicts : Conflicts mir loan event
  split : ∃ start rest, path =
    start ++ (mir.event loan).instruction :: (between ++ later ++ use :: rest)
  occurs : (∃ front, between = front ++ [(mir.event event).instruction]) ∨
    (between = [] ∧ loan < event ∧
      (mir.event loan).instruction = (mir.event event).instruction)
  refers : Refers mir loan register (between ++ later)
  reads : ReadsRegister mir use register

/-- What the verifier takes for granted about a use. -/
structure InSight (mir : MirModule) (cfg : MirCfg) (function loan register use : Int)
    (between : List Int) : Prop where
  /-- The tables of the function have the size that its blocks ask for. -/
  sized : MatrixSized cfg function mir.eventCount
  /-- The last-use table sees it. -/
  tracked : TrackedUse mir use register
  /-- Nothing executed up to the event lies past it in the code. -/
  inOrder : ∀ ip ∈ between, ip ≤ use
  /-- No block jumps to itself up to the event. -/
  noSelf : NoSelfStep cfg function ((mir.event loan).instruction :: between)
  /-- A load is one the holder scan reaches. -/
  held : register ≠ (mir.event loan).instruction →
    mir.opA register = loanHolderSlot mir loan ∧ 0 ≤ loanHolderSlot mir loan ∧
      (mir.event loan).instruction < register ∧
      (∀ ip, (mir.event loan).instruction < ip → ip < register →
        ¬ (mir.opcode ip = 9 ∧ mir.opA ip = loanHolderSlot mir loan ∧
          mir.opB ip ≠ (mir.event loan).instruction)) ∧
      ∀ other, 0 ≤ other → other < mir.functionCount → other ≠ function →
        ¬ ((mir.function other).start ≤ (mir.event loan).instruction ∧
          (mir.event loan).instruction < (mir.function other).stop)

theorem opcode_of_outside (h : ¬ (0 ≤ ip ∧ ip < mir.instructionCount)) :
    mir.instruction ip = default := by
  by_cases h0 : 0 ≤ ip
  · exact get_of_ge (by unfold MirModule.instructionCount at h; omega)
  · exact get_of_neg (by omega)

theorem TrackedUse.inTable {value : Int} (h : TrackedUse mir ip value) :
    0 ≤ ip ∧ ip < mir.instructionCount := by
  by_contra hout
  have hdefault := opcode_of_outside hout
  rcases h with h | ⟨hop, _⟩
  · rw [hdefault] at h
    exact absurd h (by simp [maskedOperands, registerOperandMask, default])
  · unfold MirModule.opcode at hop
    rw [hdefault] at hop
    exact absurd hop (by decide)

section

variable {blocks : List Int} (hcfg : Built mir cfg) (h0 : 0 ≤ function)
  (h1 : function < mir.functionCount) (hin : ∀ block ∈ blocks, InFunction cfg function block)

include hcfg h0 h1 hin

/-- A path's instruction is mapped to a block of its function, when no other function has
it. -/
theorem owner_eq (hmem : ip ∈ pathInstructions cfg blocks) (hip0 : 0 ≤ ip)
    (hip1 : ip < mir.instructionCount) (hothers : ∀ other, 0 ≤ other → other < mir.functionCount →
      other ≠ function → ¬ ((mir.function other).start ≤ ip ∧ ip < (mir.function other).stop)) :
    (cfg.block (cfg.blockForInstruction ip)).function = function := by
  obtain ⟨block, hblock, hip⟩ := mem_flatMap.mp hmem
  obtain ⟨hge, hlt⟩ := hin block hblock
  have hlist := block_mem_function hcfg h0 h1 hge hlt
  rw [Arena.mem_range] at hip
  have hall : cfg.block block ∈ cfg.blocks := by
    rw [buildMirCfg_blocks hcfg]
    exact mem_allBlocks.mpr ⟨function, h0, h1, hlist⟩
  obtain ⟨hb0, hb1, hstart, hstop⟩ := blockForInstruction_spec hcfg hall hip.1 hip.2 hip0 hip1
  have hmapped : cfg.block (cfg.blockForInstruction ip) ∈ cfg.blocks := by
    have hlt : (cfg.blockForInstruction ip).toNat < cfg.blocks.length := by
      rw [blockCount_eq hcfg] at hb1
      omega
    rw [MirCfg.block, get_eq_getElem hb0 hlt]
    exact getElem_mem hlt
  rw [buildMirCfg_blocks hcfg] at hmapped
  obtain ⟨owner, hown0, hown1, hown⟩ := mem_allBlocks.mp hmapped
  obtain ⟨hws, _, hwe, hfun⟩ := functionBlockList_within hcfg.bounded hown
  by_cases heq : owner = function
  · rw [hfun, heq]
  · exact absurd ⟨by omega, by omega⟩ (hothers owner hown0 hown1 heq)

/-- The last-use table of an accepted loan reaches the uses in sight. -/
theorem InSight.le_lastUse (htable : buildLoanLastUseTable mir cfg = some lastUses)
    {event register use : Int} {between later : List Int} (hused : UsedAfterConflict mir
      (pathInstructions cfg blocks) loan event register use between later)
    (h : InSight mir cfg function loan register use between) :
    use ≤ Arena.get lastUses loan := by
  obtain ⟨huse0, huse1⟩ := h.tracked.inTable
  by_cases hdirect : register = (mir.event loan).instruction
  · exact loanLastUse_direct htable hused.isLoan huse0 huse1 (hdirect ▸ h.tracked)
  obtain ⟨hslot, hholder, hafter, hstores, hothers⟩ := h.held hdirect
  obtain ⟨start, rest, hsplit⟩ := hused.split
  rcases hused.refers with ⟨heq, _⟩ | ⟨early, store, kept, late, hdone, _, _, _, _, hop, _, _⟩
  · exact absurd heq hdirect
  -- The loan and the load are both on the path.
  have hloan : (mir.event loan).instruction ∈ pathInstructions cfg blocks := by
    rw [hsplit]
    simp
  have hload : register ∈ pathInstructions cfg blocks := by
    rw [hsplit, hdone]
    simp
  have htableLoad : 0 ≤ register ∧ register < mir.instructionCount := by
    by_contra hout
    have hdefault := opcode_of_outside hout
    unfold MirModule.opcode at hop
    rw [hdefault] at hop
    exact absurd hop (by decide)
  obtain ⟨_, _, hget⟩ := loanLastUses_get htable
  obtain ⟨hi0, hi1, _⟩ := loanLastUse_eq hused.isLoan (hget hused.isLoan.nonneg hused.isLoan.lt)
  have howner := owner_eq hcfg h0 h1 hin hloan hi0 hi1 hothers
  have hwithin := pathInstructions_within hcfg h0 h1 hin register hload
  exact loanLastUse_held htable hused.isLoan hholder hafter
    (by rw [howner]; exact hwithin.2) htableLoad.2 hop hslot hstores huse0 huse1 h.tracked

end

/-! ## Accepted modules -/

theorem functionEvents_sorted (f : Function) : (functionEvents mir f).Pairwise (· < ·) := by
  refine List.Pairwise.filter _ ?_
  rw [pairwise_iff_getElem]
  intro i j hi hj hlt
  rw [Arena.getElem_range, Arena.getElem_range]
  omega

theorem mem_functionEvents {f : Function} {event : Int} :
    event ∈ functionEvents mir f ↔ (0 ≤ event ∧ event < mir.eventCount) ∧
      f.start ≤ (mir.event event).instruction ∧ (mir.event event).instruction < f.stop := by
  simp [functionEvents, Arena.mem_range]

/-- An accepted module with a loan has a last-use table and checks every function. -/
theorem accepted_loans (h : verifyMirOwnershipSemantics mir = true)
    (hcfg : buildMirCfg mir = some cfg) (hloan : IsLoan mir loan) (hblocks : cfg.blockCount ≠ 0) :
    ∃ lastUses, buildLoanLastUseTable mir cfg = some lastUses ∧
      ∀ function, 0 ≤ function → function < mir.functionCount →
        verifyMirLoanFunction mir cfg lastUses function = true := by
  have hneeds : needsLoanLastUses mir = true := by
    have hlt : loan.toNat < mir.events.length := by
      have h0 := hloan.nonneg
      have h1 := hloan.lt
      unfold MirModule.eventCount at h1
      omega
    refine any_eq_true.mpr ⟨mir.events[loan.toNat], getElem_mem hlt, ?_⟩
    have hget : mir.event loan = mir.events[loan.toNat] := get_eq_getElem hloan.nonneg hlt
    have hkind := hloan.kind
    rw [eventIsLoan, decide_eq_true_eq] at hkind
    rw [← hget, decide_eq_true_eq]
    tauto
  unfold verifyMirOwnershipSemantics verifyMirOwnershipFacts at h
  simp only [hcfg, hneeds, if_true] at h
  split at h
  · cases h
  split at h
  · cases h
  split at h
  · cases h
  split at h
  · cases h
  rename_i lastUses htable
  simp only [Bool.and_eq_true] at h
  refine ⟨lastUses, htable, ?_⟩
  have hregions := h.1.1.1
  have hcount : mir.eventCount ≠ 0 := by
    have := hloan.nonneg
    have := hloan.lt
    omega
  have hany : (range 0 mir.eventCount).any (eventIsLoan mir) = true :=
    any_eq_true.mpr ⟨loan, mem_range.mpr ⟨hloan.nonneg, hloan.lt⟩, hloan.kind⟩
  unfold verifyMirLoanRegions at hregions
  simp only [hcount, hany, hblocks, if_false, Bool.true_eq_false, all_eq_true] at hregions
  exact fun function h0 h1 => hregions function (mem_range.mpr ⟨h0, h1⟩)

end

/-- In a loop, a local is borrowed exclusively (instruction 3) and borrowed again through that
loan (instruction 4); both references are read, and then the local is reinitialised. -/
def reborrowedInLoop : MirModule :=
  { functions := [{ start := 0, count := 10, localCount := 1 }]
    code := [{ opcode := 1 }, { opcode := 9, a := 0, b := 0 }, { opcode := 24 },
      { opcode := 25, a := 0 }, { opcode := 25, a := 0 }, { opcode := 26, a := 4 },
      { opcode := 26, a := 3 }, { opcode := 9, a := 0, b := 0 },
      { opcode := 23, a := 5, b := 9, c := 2, d := -1 }, { opcode := 10, a := 5 }]
    events := [{ instruction := 3, kind := 4, slot := 0 },
      { instruction := 4, kind := 4, slot := 0, parent := 0 },
      { instruction := 7, kind := 2, slot := 0 }] }

/-! ## A use earlier in the code, later in the run -/

/-- A local is borrowed (instruction 2) before a loop that reads through the reference
(instruction 4) and then reinitialises the local (instruction 5). -/
def borrowBeforeLoop : MirModule :=
  { functions := [{ start := 0, count := 8, localCount := 1 }]
    code := [{ opcode := 1 }, { opcode := 9, a := 0, b := 0 }, { opcode := 25, a := 0 },
      { opcode := 24 }, { opcode := 26, a := 2 }, { opcode := 9, a := 0, b := 0 },
      { opcode := 23, a := 4, b := 7, c := 3, d := -1 }, { opcode := 10, a := 4 }]
    events := [{ instruction := 2, kind := 3, slot := 0 },
      { instruction := 5, kind := 2, slot := 0 }] }

end Raz.Borrowck
