import Raz.Borrowck.Paths

/-!
# No value is moved out twice

Both move analyses are sound on their own: along every path the whole-local analysis sees
every second whole-local move of a slot, the projected analysis every second move of
overlapping projections. They do not see each other's moves, keep one move of each kind for
an instruction, skip functions without locals, and the projected one enters the first block
with an empty state even when a path returns to it.

Results:
1. `moved_once`: no path of an accepted module that avoids these cases moves a value twice.
2. `moved_twice`: an accepted module that moves a local and then a field of it.
-/

namespace Raz.Borrowck

open Raz.Mir List LocalState Arena.Flags Arena

variable {done : List Int} {event ip kind slot function : Int} {cfg : MirCfg}

/-! ## Moves along a path -/

/-- A move event of the table. -/
structure IsMove (mir : MirModule) (event : Int) : Prop where
  nonneg : 0 ≤ event
  lt : event < mir.eventCount
  kind : (mir.event event).kind = 1

/-- The move of the whole local, as opposed to a projection of it. -/
def IsWhole (mir : MirModule) (event : Int) : Prop := (mir.event event).pathCount = 0

/-- An instruction stores to its slot, then reinitialises, then moves: `Clears` is the first
two steps, for a value moved earlier. -/
def Clears (mir : MirModule) (moved ip : Int) : Prop :=
  (mir.opcode ip = 9 ∧ mir.opA ip = (mir.event moved).slot) ∨
    ∃ event, 0 ≤ event ∧ event < mir.eventCount ∧ (mir.event event).kind = 2 ∧
      (mir.event event).instruction = ip ∧ pathPrefixOf mir event moved = true

/-- The value `event` moved is still out after the instructions `done`. -/
def Pending (mir : MirModule) (done : List Int) (event : Int) : Prop :=
  ∃ before after, done = before ++ (mir.event event).instruction :: after ∧
    ∀ ip ∈ after, ¬ Clears mir event ip

/-- Along `done`, some value moves out while an overlapping one is still out: at a later
instruction, or at the same instruction by another event. `among` selects the moves. -/
def MovedTwice (mir : MirModule) (among : Int → Prop) (done : List Int) : Prop :=
  ∃ first second, IsMove mir first ∧ IsMove mir second ∧ among first ∧ among second ∧
    pathsOverlap mir first second = true ∧
    ((∃ before after, done = before ++ (mir.event second).instruction :: after ∧
        Pending mir before first ∧ ¬ Clears mir first (mir.event second).instruction) ∨
      (first ≠ second ∧ (mir.event first).instruction = (mir.event second).instruction ∧
        (mir.event second).instruction ∈ done))

/-- What a path must avoid for the two analyses to see all its moves. -/
structure MovesSeparately (mir : MirModule) (cfg : MirCfg) (function : Int)
    (path : List Int) : Prop where
  /-- The tables of the function have the size that its blocks ask for. -/
  sized : MatrixSized cfg function (mir.function function).localCount ∧
    MatrixSized cfg function mir.eventCount
  /-- Its instructions are in the table. -/
  inTable : ∀ ip ∈ pathInstructions cfg path, 0 ≤ ip ∧ ip < mir.instructionCount
  /-- No slot is moved whole and by projection. -/
  uniform : ∀ first second, IsMove mir first → IsMove mir second →
    (mir.event first).instruction ∈ pathInstructions cfg path →
    (mir.event second).instruction ∈ pathInstructions cfg path →
    (mir.event first).slot = (mir.event second).slot →
    (IsWhole mir first ↔ IsWhole mir second)
  /-- No instruction carries two whole moves or two projected moves. -/
  single : ∀ first second, IsMove mir first → IsMove mir second →
    (mir.event first).instruction ∈ pathInstructions cfg path →
    (mir.event first).instruction = (mir.event second).instruction →
    (IsWhole mir first ↔ IsWhole mir second) → first = second
  /-- Whole moves only occur in functions with locals. -/
  locals : ∀ event, IsMove mir event → IsWhole mir event →
    (mir.event event).instruction ∈ pathInstructions cfg path →
    (mir.function function).localCount ≠ 0
  /-- No return to the entry block after a projected move. -/
  noReturn : ∀ first rest, path = first ++ cfg.firstBlock function :: rest → first ≠ [] →
    ∀ event, IsMove mir event → ¬ IsWhole mir event →
      (mir.event event).instruction ∉ pathInstructions cfg first

/-! ## Path facts -/

section

variable {mir : MirModule}

theorem slot_eq_of_front {front value : Int} (h : pathPrefixOf mir front value = true) :
    (mir.event front).slot = (mir.event value).slot := by
  unfold pathPrefixOf at h
  split at h
  · cases h
  · rename_i heq
    exact Decidable.of_not_not heq

theorem slot_eq_of_overlap {left right : Int} (h : pathsOverlap mir left right = true) :
    (mir.event left).slot = (mir.event right).slot := by
  unfold pathsOverlap at h
  rw [Bool.or_eq_true] at h
  rcases h with h | h
  · exact slot_eq_of_front h
  · exact (slot_eq_of_front h).symm

theorem pathsSame_self (event : Int) : pathsSame mir event event = true := by
  unfold pathsSame
  simp

theorem Pending.mem (h : Pending mir done event) : (mir.event event).instruction ∈ done := by
  obtain ⟨before, after, rfl, _⟩ := h
  simp

/-- After one more instruction a value is out because that instruction moved it or because
it was out before and was not restored. -/
theorem Pending.snoc (h : Pending mir (done ++ [ip]) event) :
    (mir.event event).instruction = ip ∨ (Pending mir done event ∧ ¬ Clears mir event ip) := by
  obtain ⟨before, after, heq, hclear⟩ := h
  rcases eq_nil_or_concat after with rfl | ⟨after, last, rfl⟩
  · have hlast := congrArg List.getLast? heq
    simp at hlast
    exact .inl hlast.symm
  rw [concat_eq_append, ← cons_append, ← append_assoc] at heq
  obtain ⟨hdone, hip⟩ := append_inj' heq rfl
  have hip' : ip = last := by simpa using hip
  subst hip'
  exact .inr ⟨⟨before, after, hdone, fun k hk => hclear k (by simp [hk])⟩, hclear ip (by simp)⟩

/-- A second move shows either in the shorter run or at the last instruction. -/
theorem MovedTwice.snoc {among : Int → Prop} (h : MovedTwice mir among (done ++ [ip])) :
    MovedTwice mir among done ∨
      ∃ first second, IsMove mir first ∧ IsMove mir second ∧ among first ∧ among second ∧
        pathsOverlap mir first second = true ∧ (mir.event second).instruction = ip ∧
        ((Pending mir done first ∧ ¬ Clears mir first ip) ∨
          (first ≠ second ∧ (mir.event first).instruction = ip)) := by
  obtain ⟨first, second, hf, hs, haf, has, hover, hcase⟩ := h
  rcases hcase with ⟨before, after, heq, hpend, hclear⟩ | ⟨hne, hsame, hmem⟩
  · rcases eq_nil_or_concat after with rfl | ⟨after, last, rfl⟩
    · obtain ⟨hdone, hip⟩ := append_inj' heq rfl
      have hip' : ip = (mir.event second).instruction := by simpa using hip
      subst hdone
      exact .inr ⟨first, second, hf, hs, haf, has, hover, hip'.symm,
        .inl ⟨hpend, hip' ▸ hclear⟩⟩
    · rw [concat_eq_append, ← cons_append, ← append_assoc] at heq
      obtain ⟨hdone, _⟩ := append_inj' heq rfl
      exact .inl ⟨first, second, hf, hs, haf, has, hover,
        .inl ⟨before, after, hdone, hpend, hclear⟩⟩
  · rcases mem_append.mp hmem with hmem | hmem
    · exact .inl ⟨first, second, hf, hs, haf, has, hover, .inr ⟨hne, hsame, hmem⟩⟩
    · have hip := mem_singleton.mp hmem
      exact .inr ⟨first, second, hf, hs, haf, has, hover, hip, .inr ⟨hne, hsame.trans hip⟩⟩

theorem not_movedTwice_nil (among : Int → Prop) : ¬ MovedTwice mir among [] := by
  rintro ⟨first, second, _, _, _, _, _, ⟨before, after, heq, _⟩ | ⟨_, _, hmem⟩⟩
  · exact absurd heq (by simp)
  · cases hmem

/-! ## The event tables -/

theorem mem_wholeMoves :
    event ∈ wholeMoves mir ↔ IsMove mir event ∧ IsWhole mir event ∧
      0 ≤ (mir.event event).instruction ∧
      (mir.event event).instruction < mir.instructionCount := by
  simp only [wholeMoves, mem_filter, Arena.mem_range, decide_eq_true_eq]
  constructor
  · rintro ⟨⟨h0, h1⟩, hk, hc, hr⟩
    exact ⟨⟨h0, h1, hk⟩, hc, hr⟩
  · rintro ⟨hm, hc, hr⟩
    exact ⟨⟨hm.nonneg, hm.lt⟩, hm.kind, hc, hr⟩

theorem mem_projectedEvents :
    event ∈ projectedEvents mir kind ↔ (0 ≤ event ∧ event < mir.eventCount) ∧
      0 < (mir.event event).pathCount ∧ 0 ≤ (mir.event event).instruction ∧
      (mir.event event).instruction < mir.instructionCount ∧
      (mir.event event).kind = kind := by
  simp [projectedEvents, Arena.mem_range]

theorem table_length (hlt : ip < mir.instructionCount) :
    ip < (List.replicate (mir.instructionCount + 1).toNat (-1 : Int)).length := by
  rw [length_replicate]
  omega

/-- A whole move is in the table, or another one of the same instruction is. -/
theorem wholeMoveSlots_get (h : event ∈ wholeMoves mir) :
    ∃ other ∈ wholeMoves mir, (mir.event other).instruction = (mir.event event).instruction ∧
      Arena.get (wholeMoveSlots mir) (mir.event event).instruction =
        (mir.event other).slot := by
  obtain ⟨_, _, hge, hlt⟩ := mem_wholeMoves.mp h
  rcases get_scatter (wholeMoves mir) (fun event => (mir.event event).instruction)
    (fun event => (mir.event event).slot) hge _ (table_length hlt) with
    ⟨other, hmem, hkey, hget⟩ | ⟨hnone, _⟩
  · exact ⟨other, hmem, hkey, hget⟩
  · exact absurd rfl (hnone event h)

/-- A projected event is in the table of its kind, or another one of its instruction is. -/
theorem projectedEventAt_get (h : event ∈ projectedEvents mir kind) :
    ∃ other ∈ projectedEvents mir kind,
      (mir.event other).instruction = (mir.event event).instruction ∧
      Arena.get (projectedEventAt mir kind) (mir.event event).instruction = other := by
  obtain ⟨_, _, hge, hlt, _⟩ := mem_projectedEvents.mp h
  rcases get_scatter (projectedEvents mir kind)
    (fun event => (mir.event event).instruction) (fun event => event) hge _
    (table_length hlt) with ⟨other, hmem, hkey, hget⟩ | ⟨hnone, _⟩
  · exact ⟨other, hmem, hkey, hget⟩
  · exact absurd rfl (hnone event h)

/-- What the table holds is an event of the kind at this instruction. -/
theorem projectedEventAt_sound (hge : 0 ≤ ip) (hlt : ip < mir.instructionCount)
    (h : 0 ≤ Arena.get (projectedEventAt mir kind) ip) :
    Arena.get (projectedEventAt mir kind) ip ∈ projectedEvents mir kind ∧
      (mir.event (Arena.get (projectedEventAt mir kind) ip)).instruction = ip := by
  have hlen := table_length hlt
  rcases get_scatter (projectedEvents mir kind)
    (fun event => (mir.event event).instruction) (fun event => event) hge _ hlen with
    ⟨other, hmem, hkey, hget⟩ | ⟨_, hget⟩
  · rw [projectedEventAt, hget]
    exact ⟨hmem, hkey⟩
  have hcell : get (List.replicate (mir.instructionCount + 1).toNat (-1 : Int)) ip = -1 := by
    rw [get_eq_getElem hge (by omega), getElem_replicate]
  rw [projectedEventAt, hget, hcell] at h
  omega

/-! ## Whole-local moves -/

/-- The dataflow state after `done`: a slot that counts as initialised is marked moved while
its value is out. -/
structure WholeCovers (mir : MirModule) {count : Nat} (done : List Int)
    (s : LocalState count) : Prop where
  pending : ∀ event, IsMove mir event → IsWhole mir event → Pending mir done event →
    s.initialized.get (mir.event event).slot = true →
    s.moved.get (mir.event event).slot = true
  once : ¬ MovedTwice mir (IsWhole mir) done

/-- At most one whole move for each instruction. -/
def SingleWhole (mir : MirModule) (ip : Int) : Prop :=
  ∀ first second, IsMove mir first → IsMove mir second → IsWhole mir first →
    IsWhole mir second → (mir.event first).instruction = ip →
    (mir.event second).instruction = ip → first = second

variable {count : Nat}

theorem LocalState.store_eq {s s' : LocalState count} (h : s.store slot = some s') :
    s' = { initialized := s.initialized.set slot true, moved := s.moved.set slot false } := by
  unfold store at h
  split at h
  · cases h
  · cases h
    rfl

theorem LocalState.move_eq {s s' : LocalState count} (h : s.move slot = some s') :
    0 ≤ slot ∧ slot < count ∧ s.initialized.get slot = true ∧ s.moved.get slot = false ∧
      s' = { s with moved := s.moved.set slot true } := by
  unfold move at h
  split at h
  · cases h
  split at h
  · cases h
  rename_i hstate
  cases h
  rw [not_or, Bool.not_eq_false, Bool.not_eq_true] at hstate
  exact ⟨by omega, by omega, hstate.1, hstate.2, rfl⟩

/-- What one instruction does to the state: an optional store, then an optional move. -/
theorem applyLocalMove_eq {moves : List Int} {s s' : LocalState count}
    (h : applyLocalMove mir moves s ip = some s') :
    ∃ stored, (if mir.opcode ip = 9 then s.store (mir.opA ip) else some s) = some stored ∧
      (if Arena.get moves ip ≥ 0 then stored.move (Arena.get moves ip) else some stored) =
        some s' := by
  unfold applyLocalMove at h
  simp only at h
  split at h
  · cases h
  · exact Option.bind_eq_some_iff.mp h

theorem stored_flags {s stored : LocalState count} (slot : Int)
    (h : (if mir.opcode ip = 9 then s.store (mir.opA ip) else some s) = some stored)
    (hother : ¬ (mir.opcode ip = 9 ∧ mir.opA ip = slot)) :
    stored.initialized.get slot = s.initialized.get slot ∧
      stored.moved.get slot = s.moved.get slot := by
  split at h
  · rename_i hop
    rw [store_eq h]
    have hne : mir.opA ip ≠ slot := fun heq => hother ⟨hop, heq⟩
    exact ⟨get_set_ne _ _ hne, get_set_ne _ _ hne⟩
  · cases h
    exact ⟨rfl, rfl⟩

theorem moved_flags {stored s' : LocalState count}
    (h : (if slot ≥ 0 then stored.move slot else some stored) = some s') :
    s'.initialized = stored.initialized ∧
      ∀ other, stored.moved.get other = true → s'.moved.get other = true := by
  split at h
  · obtain ⟨_, _, _, hfree, rfl⟩ := move_eq h
    refine ⟨rfl, fun other hmoved => ?_⟩
    by_cases heq : slot = other
    · subst heq
      rw [hfree] at hmoved
      cases hmoved
    · rw [get_set_ne _ _ heq]
      exact hmoved
  · cases h
    exact ⟨rfl, fun _ hmoved => hmoved⟩

theorem wholeCovers_step {ip : Int} {done : List Int} {s s' : LocalState count}
    (hge : 0 ≤ ip) (hlt : ip < mir.instructionCount)
    (hslots : ∀ event, IsMove mir event → 0 ≤ (mir.event event).slot)
    (hsingle : SingleWhole mir ip) (hcovers : WholeCovers mir done s)
    (h : applyLocalMove mir (wholeMoveSlots mir) s ip = some s') :
    WholeCovers mir (done ++ [ip]) s' := by
  obtain ⟨stored, hstore, hmove⟩ := applyLocalMove_eq h
  obtain ⟨hinit, hkeep⟩ := moved_flags hmove
  -- The move of this instruction is the one the table holds.
  have htable : ∀ event, IsMove mir event → IsWhole mir event →
      (mir.event event).instruction = ip →
      stored.initialized.get (mir.event event).slot = true ∧
        stored.moved.get (mir.event event).slot = false ∧
        s'.moved.get (mir.event event).slot = true := by
    intro event hev hwhole hip
    subst hip
    obtain ⟨other, hmem, hsame, hget⟩ :=
      wholeMoveSlots_get (mem_wholeMoves.mpr ⟨hev, hwhole, hge, hlt⟩)
    obtain ⟨hother, hotherWhole, _, _⟩ := mem_wholeMoves.mp hmem
    have heq := hsingle other event hother hev hotherWhole hwhole hsame rfl
    subst heq
    rw [hget, if_pos (hslots other hev)] at hmove
    obtain ⟨h0, h1, hi, hm, rfl⟩ := move_eq hmove
    exact ⟨hi, hm, get_set_self _ _ h0 h1⟩
  constructor
  · intro event hev hwhole hpend hi
    rcases hpend.snoc with hip | ⟨hpend, hclear⟩
    · exact (htable event hev hwhole hip).2.2
    obtain ⟨hsi, hsm⟩ := stored_flags (mir.event event).slot hstore (fun hs => hclear (.inl hs))
    apply hkeep
    rw [hinit, hsi] at hi
    rw [hsm]
    exact hcovers.pending event hev hwhole hpend hi
  · intro htwice
    rcases htwice.snoc with hbefore | ⟨first, second, hf, hs, hwf, hws, hover, hip, hcase⟩
    · exact hcovers.once hbefore
    rcases hcase with ⟨hpend, hclear⟩ | ⟨hne, hsame⟩
    · obtain ⟨hi, hm, _⟩ := htable second hs hws hip
      obtain ⟨hsi, hsm⟩ := stored_flags (mir.event first).slot hstore
        (fun hs => hclear (.inl hs))
      rw [← slot_eq_of_overlap hover, hsi] at hi
      rw [← slot_eq_of_overlap hover, hsm, hcovers.pending first hf hwf hpend hi] at hm
      cases hm
    · exact hne (hsingle first second hf hs hwf hws hsame hip)

/-- A relation every instruction preserves is preserved by a block. -/
theorem foldlM_covers {σ : Type} {step : σ → Int → Option σ} {covers : List Int → σ → Prop}
    (ips : List Int) :
    ∀ {done : List Int} {s s' : σ},
      (∀ done s s', ∀ ip ∈ ips, covers done s → step s ip = some s' →
        covers (done ++ [ip]) s') →
      covers done s → ips.foldlM step s = some s' → covers (done ++ ips) s' := by
  induction ips with
  | nil =>
    intro done s s' _ hcovers h
    cases h
    simpa using hcovers
  | cons ip rest ih =>
    intro done s s' hstep hcovers h
    rw [foldlM_cons] at h
    obtain ⟨middle, hfirst, hrest⟩ := Option.bind_eq_some_iff.mp h
    have := ih (fun done s s' k hk => hstep done s s' k (mem_cons_of_mem _ hk))
      (hstep done s middle ip mem_cons_self hcovers hfirst) hrest
    simpa using this

theorem applyBlock_covers {σ : Type} {step : σ → Int → Option σ} (covers : List Int → σ → Prop)
    {path : List Int} {block : Int} {s s' : σ} (hstep : ∀ done s s', ∀ ip ∈ pathInstructions cfg
      [block], covers done s → step s ip = some s' → covers (done ++ [ip]) s')
    (hcovers : covers (pathInstructions cfg path) s)
    (h : (Arena.range (cfg.block block).start (cfg.block block).stop).foldlM step s = some s') :
    covers (pathInstructions cfg (path ++ [block])) s' := by
  rw [pathInstructions_snoc]
  refine foldlM_covers _ (fun done s s' ip hip => hstep done s s' ip ?_) hcovers h
  simpa [pathInstructions] using hip

/-- Joining keeps what either side covers: a slot counts as initialised only if it does on
both sides. -/
theorem WholeCovers.join {a b : LocalState count}
    (h : WholeCovers mir done a ∨ WholeCovers mir done b) :
    WholeCovers mir done (LocalState.join a b) := by
  constructor
  · intro event hev hwhole hpend hinit
    simp only [LocalState.join] at hinit ⊢
    rw [get_zip _ rfl, Bool.and_eq_true] at hinit
    rw [get_zip _ rfl, Bool.or_eq_true]
    rcases h with h | h
    · exact .inl (h.pending event hev hwhole hpend hinit.1)
    · exact .inr (h.pending event hev hwhole hpend hinit.2)
  · rcases h with h | h
    · exact h.once
    · exact h.once

/-- Along a path of an accepted function with one whole move for each instruction, no local
is moved twice as a whole. -/
theorem whole_sound (hcfg : Built mir cfg) (h0 : 0 ≤ function)
    (h1 : function < mir.functionCount)
    (hslots : ∀ event, IsMove mir event → 0 ≤ (mir.event event).slot) (hsolve : solveFunction cfg
      function (mir.function function).localCount (LocalState.reset count) LocalState.join
      (applyLocalMoveBlock mir cfg (wholeMoveSlots mir)) = true) {before : List Int} {block : Int}
    (hpath : FunctionPath cfg function before block)
    (htable : ∀ ip ∈ pathInstructions cfg (before ++ [block]), 0 ≤ ip ∧ ip < mir.instructionCount)
    (hsingle : ∀ ip ∈ pathInstructions cfg (before ++ [block]), SingleWhole mir ip) :
    ¬ MovedTwice mir (IsWhole mir) (pathInstructions cfg (before ++ [block])) := by
  let fits (r : List Int) : Prop :=
    ∀ ip ∈ pathInstructions cfg r, (0 ≤ ip ∧ ip < mir.instructionCount) ∧ SingleWhole mir ip
  have hfits : fits (before ++ [block]) := fun ip hip => ⟨htable ip hip, hsingle ip hip⟩
  obtain ⟨output, hcovers⟩ := solveFunction_path hcfg h0 h1 hsolve
    (fun r s => fits r → WholeCovers mir (pathInstructions cfg r) s) (fun _ => True)
    (fun _ => ⟨fun _ _ _ _ h => absurd h (by simp [reset]), not_movedTwice_nil _⟩)
    (fun _ hc hr => ⟨fun _ _ _ _ h => absurd h (by simp [reset]), (hc hr).once⟩)
    (fun hc hr => WholeCovers.join (.inl (hc hr)))
    (fun hc hr => WholeCovers.join (.inr (hc hr)))
    (by
      intro r next a b hc hb hr
      have hpre : fits r := fun ip hip =>
        hr ip (by rw [pathInstructions_snoc]; exact mem_append_left _ hip)
      refine applyBlock_covers (WholeCovers mir) ?_ (hc hpre) hb
      intro done s s' ip hip hcov hstep
      have hmem : ip ∈ pathInstructions cfg (r ++ [next]) := by
        rw [pathInstructions_snoc]
        exact mem_append_right _ (by simpa [pathInstructions] using hip)
      obtain ⟨⟨hge, hlt⟩, hone⟩ := hr ip hmem
      exact wholeCovers_step hge hlt hslots hone hcov hstep)
    hpath (fun _ _ _ _ => trivial)
  exact (hcovers hfits).once

/-! ## Projected moves -/

/-- The projected moves, as a class of moves. -/
def IsProjected (mir : MirModule) (event : Int) : Prop := 0 < (mir.event event).pathCount

def SingleProjected (mir : MirModule) (ip : Int) : Prop :=
  ∀ first second, IsMove mir first → IsMove mir second → IsProjected mir first →
    IsProjected mir second → (mir.event first).instruction = ip →
    (mir.event second).instruction = ip → first = second

/-- The dataflow state after `done`: the flag of every path that is out is set. -/
structure PartialCovers (mir : MirModule) {moveEvents : List Int} (done : List Int)
    (s : PartialState moveEvents) : Prop where
  pending : ∀ (k : Nat) (h : k < moveEvents.length), Pending mir done moveEvents[k] →
    s.get k = true
  once : ¬ MovedTwice mir (IsProjected mir) done

variable {moveEvents : List Int}

/-- Storing to a slot and reinitialising paths leave the flags they do not clear. -/
theorem partial_cleared {s : PartialState moveEvents} {k : Nat} (hge : 0 ≤ ip)
    (hlt : ip < mir.instructionCount) (hk : k < moveEvents.length)
    (hclear : ¬ Clears mir moveEvents[k] ip) (hflag : s.get k = true) :
    (if Arena.get (projectedEventAt mir 2) ip ≥ 0 then
      partialClearPath mir
        (if mir.opcode ip = 9 then partialClearSlot mir s (mir.opA ip) else s)
        (Arena.get (projectedEventAt mir 2) ip)
      else (if mir.opcode ip = 9 then partialClearSlot mir s (mir.opA ip) else s)).get k =
      true := by
  have hstore : (if mir.opcode ip = 9 then partialClearSlot mir s (mir.opA ip) else s).get k =
      true := by
    split
    · rename_i hop
      rw [partialClearSlot, get_mapWith _ _ _ hk,
        if_neg (fun heq => hclear (.inl ⟨hop, heq.symm⟩))]
      exact hflag
    · exact hflag
  split
  · rename_i hre
    obtain ⟨hmem, hip⟩ := projectedEventAt_sound hge hlt hre
    obtain ⟨⟨h0, h1⟩, _, _, _, hkind⟩ := mem_projectedEvents.mp hmem
    rw [partialClearPath, get_mapWith _ _ _ hk,
      if_neg (fun hpre => hclear (.inr ⟨_, h0, h1, hkind, hip, hpre⟩))]
    exact hstore
  · exact hstore

/-- A move that passes the conflict check sets the flags of its path and clears none. -/
theorem partial_applied {s s' : PartialState moveEvents} {move : Int}
    (h : (if move ≥ 0 then partialApplyEvent mir s move else some s) = some s') :
    (∀ k < moveEvents.length, s.get k = true → s'.get k = true) ∧
      (0 ≤ move → (∀ (k : Nat) (_ : k < moveEvents.length), moveEvents[k] = move →
          s'.get k = true) ∧
        ∀ (k : Nat) (_ : k < moveEvents.length), s.get k = true →
          pathsOverlap mir moveEvents[k] move = false) := by
  split at h
  · unfold partialApplyEvent at h
    split at h
    · cases h
    rename_i hconflict
    cases h
    refine ⟨fun k hk hflag => ?_, fun _ => ⟨fun k hk heq => ?_, fun k hk hflag => ?_⟩⟩
    · rw [get_mapWith _ _ _ hk]
      split
      · rfl
      · exact hflag
    · rw [get_mapWith _ _ _ hk, heq, pathsSame_self, if_pos rfl]
    · cases hover : pathsOverlap mir moveEvents[k] move with
      | false => rfl
      | true => exact absurd (anyWith_eq_true hk hflag hover) hconflict
  · cases h
    exact ⟨fun _ _ hflag => hflag, fun hge => absurd hge (by assumption)⟩

theorem partialCovers_step {s s' : PartialState moveEvents} (hge : 0 ≤ ip)
    (hlt : ip < mir.instructionCount) (hevents : ∀ event, IsMove mir event → IsProjected mir event →
      (mir.event event).instruction ∈ done ++ [ip] → event ∈ moveEvents)
    (hmoves : ∀ event ∈ moveEvents, IsMove mir event ∧ IsProjected mir event)
    (hsingle : SingleProjected mir ip) (hcovers : PartialCovers mir done s)
    (h : applyPartialMove mir (projectedEventAt mir 1) (projectedEventAt mir 2) s ip = some s') :
    PartialCovers mir (done ++ [ip]) s' := by
  unfold applyPartialMove at h
  obtain ⟨hkeep, happlied⟩ := partial_applied h
  -- The move of this instruction is the one the table holds.
  have htable : ∀ event, IsMove mir event → IsProjected mir event →
      (mir.event event).instruction = ip →
      get (projectedEventAt mir 1) ip = event ∧ 0 ≤ event := by
    intro event hev hproj hip
    subst hip
    obtain ⟨other, hmem, hsame, hget⟩ := projectedEventAt_get
      (mem_projectedEvents.mpr ⟨⟨hev.nonneg, hev.lt⟩, hproj, hge, hlt, hev.kind⟩)
    obtain ⟨⟨h0, h1⟩, hcount, _, _, hkind⟩ := mem_projectedEvents.mp hmem
    have heq := hsingle other event ⟨h0, h1, hkind⟩ hev hcount hproj hsame rfl
    exact ⟨heq ▸ hget, hev.nonneg⟩
  constructor
  · intro k hk hpend
    rcases hpend.snoc with hip | ⟨hpend, hclear⟩
    · obtain ⟨hmove, hproj⟩ := hmoves _ (getElem_mem hk)
      obtain ⟨hget, hnonneg⟩ := htable _ hmove hproj hip
      exact (happlied (hget ▸ hnonneg)).1 k hk hget.symm
    · exact hkeep k hk (partial_cleared hge hlt hk hclear (hcovers.pending k hk hpend))
  · intro htwice
    rcases htwice.snoc with hbefore | ⟨first, second, hf, hs, hpf, hps, hover, hip, hcase⟩
    · exact hcovers.once hbefore
    rcases hcase with ⟨hpend, hclear⟩ | ⟨hne, hsame⟩
    · obtain ⟨k, hk, hfirst⟩ := getElem_of_mem
        (hevents first hf hpf (mem_append_left _ hpend.mem))
      subst hfirst
      obtain ⟨hget, hnonneg⟩ := htable second hs hps hip
      have hflag := partial_cleared hge hlt hk hclear (hcovers.pending k hk hpend)
      have hfree := (happlied (hget ▸ hnonneg)).2 k hk hflag
      rw [hget, hover] at hfree
      cases hfree
    · exact hne (hsingle first second hf hs hpf hps hsame hip)

theorem PartialCovers.join {a b : PartialState moveEvents}
    (h : PartialCovers mir done a ∨ PartialCovers mir done b) :
    PartialCovers mir done (Arena.Flags.zip (· || ·) a b) := by
  constructor
  · intro k hk hpend
    rw [get_zip _ rfl, Bool.or_eq_true]
    exact h.imp (fun h => h.pending k hk hpend) (fun h => h.pending k hk hpend)
  · rcases h with h | h
    · exact h.once
    · exact h.once

theorem mem_functionMoveEvents :
    event ∈ functionMoveEvents mir function ↔ IsMove mir event ∧ IsProjected mir event ∧
      (mir.function function).start ≤ (mir.event event).instruction ∧
      (mir.event event).instruction < (mir.function function).stop := by
  simp only [functionMoveEvents, isProjectedMove, mem_filter, Arena.mem_range,
    decide_eq_true_eq, gt_iff_lt, ge_iff_le]
  constructor
  · rintro ⟨⟨h0, h1⟩, ⟨hk, hc⟩, hr⟩
    exact ⟨⟨h0, h1, hk⟩, hc, hr⟩
  · rintro ⟨hm, hc, hr⟩
    exact ⟨⟨hm.nonneg, hm.lt⟩, ⟨hm.kind, hc⟩, hr⟩

/-- Along a path of an accepted function with one projected move for each instruction that
does not return to the entry after one, no overlapping projections are moved twice. -/
theorem projected_sound (hcfg : Built mir cfg) (h0 : 0 ≤ function)
    (h1 : function < mir.functionCount)
    (hsolve : verifyMirPartialMoveFunction mir cfg function = true) {before : List Int}
    {block : Int} (hpath : FunctionPath cfg function before block)
    (htable : ∀ ip ∈ pathInstructions cfg (before ++ [block]), 0 ≤ ip ∧ ip < mir.instructionCount)
    (hsingle : ∀ ip ∈ pathInstructions cfg (before ++ [block]), SingleProjected mir ip) (hreturn : ∀
      first rest, before ++ [block] = first ++ cfg.firstBlock function :: rest → first ≠ [] → ∀
      event, IsMove mir event → IsProjected mir event → (mir.event event).instruction ∉
      pathInstructions cfg first) :
    ¬ MovedTwice mir (IsProjected mir) (pathInstructions cfg (before ++ [block])) := by
  let fits (r : List Int) : Prop :=
    (∀ b ∈ r, InFunction cfg function b) ∧ ∀ ip ∈ pathInstructions cfg r,
      (0 ≤ ip ∧ ip < mir.instructionCount) ∧ SingleProjected mir ip
  have hfits : fits (before ++ [block]) :=
    ⟨hpath.all_inFunction, fun ip hip => ⟨htable ip hip, hsingle ip hip⟩⟩
  have hmoves : ∀ r, fits r → ∀ event, IsMove mir event → IsProjected mir event →
      (mir.event event).instruction ∈ pathInstructions cfg r →
      event ∈ functionMoveEvents mir function := by
    intro r hr event hev hproj hmem
    exact mem_functionMoveEvents.mpr ⟨hev, hproj, pathInstructions_within hcfg h0 h1 hr.1 _ hmem⟩
  unfold verifyMirPartialMoveFunction at hsolve
  have hin := hpath.inFunction
  unfold InFunction at hin
  rw [if_neg (by omega)] at hsolve
  simp only at hsolve
  split at hsolve
  · -- No projected move in the function.
    rename_i hnone
    rintro ⟨first, second, hf, hs, hpf, hps, _, hcase⟩
    have hmem : (mir.event second).instruction ∈ pathInstructions cfg (before ++ [block]) := by
      rcases hcase with ⟨_, _, heq, _⟩ | ⟨_, _, hmem⟩
      · rw [heq]; simp
      · exact hmem
    have := hmoves _ hfits second hs hps hmem
    rw [hnone] at this
    cases this
  · obtain ⟨output, hcovers⟩ := solveFunction_path hcfg h0 h1 hsolve
      (fun r s => fits r → PartialCovers mir (pathInstructions cfg r) s)
      (fun r => ∀ event, IsMove mir event → IsProjected mir event →
        (mir.event event).instruction ∉ pathInstructions cfg r)
      (fun _ => ⟨fun _ _ h => absurd h.mem (by simp), not_movedTwice_nil _⟩)
      (fun hret hc hr => ⟨fun k hk h => by
        obtain ⟨hmove, hproj, _⟩ := mem_functionMoveEvents.mp (getElem_mem hk)
        exact absurd h.mem (hret _ hmove hproj), (hc hr).once⟩)
      (fun hc hr => PartialCovers.join (.inl (hc hr)))
      (fun hc hr => PartialCovers.join (.inr (hc hr)))
      (by
        intro r next a b hc hb hr
        have hpre : fits r := ⟨fun k hk => hr.1 k (mem_append_left _ hk), fun ip hip =>
              hr.2 ip (by rw [pathInstructions_snoc]; exact mem_append_left _ hip)⟩
        have hblock := applyBlock_covers (fun done s =>
          (∀ ip ∈ done, (mir.function function).start ≤ ip ∧
            ip < (mir.function function).stop) ∧ PartialCovers mir done s)
          (fun done s s' ip hip hcov hstep => by
            have hmem : ip ∈ pathInstructions cfg (r ++ [next]) := by
              rw [pathInstructions_snoc]
              exact mem_append_right _ (by simpa [pathInstructions] using hip)
            have hwithin := pathInstructions_within hcfg h0 h1 hr.1 ip hmem
            have hdone : ∀ k ∈ done ++ [ip], (mir.function function).start ≤ k ∧
                k < (mir.function function).stop := by
              intro k hk
              rcases mem_append.mp hk with hk | hk
              · exact hcov.1 k hk
              · rw [mem_singleton.mp hk]
                exact hwithin
            obtain ⟨⟨hge, hlt⟩, hone⟩ := hr.2 ip hmem
            refine ⟨hdone, partialCovers_step hge hlt ?_ ?_ hone hcov.2 hstep⟩
            · intro event hev hproj hk
              exact mem_functionMoveEvents.mpr ⟨hev, hproj, hdone _ hk⟩
            · intro event hev
              obtain ⟨hmove, hproj, _⟩ := mem_functionMoveEvents.mp hev
              exact ⟨hmove, hproj⟩)
          ⟨pathInstructions_within hcfg h0 h1 hpre.1, hc hpre⟩ hb
        exact hblock.2)
      hpath hreturn
    exact (hcovers hfits).once

/-! ## The verifier -/

theorem accepted_moves (h : verifyMirOwnershipSemantics mir = true) :
    ∃ cfg, buildMirCfg mir = some cfg ∧ verifyMirLocalMoveDataflow mir cfg = true ∧
      verifyMirPartialMoveDataflow mir cfg = true := by
  unfold verifyMirOwnershipSemantics verifyMirOwnershipFacts at h
  split at h
  · cases h
  split at h
  · cases h
  split at h
  · cases h
  split at h
  · cases h
  rename_i cfg hcfg
  split at h
  · cases h
  · simp only [Bool.and_eq_true] at h
    exact ⟨cfg, hcfg, h.1.2, h.2⟩

theorem accepted_paths (h : verifyMirOwnershipPaths mir = true) (h0 : 0 ≤ event)
    (h1 : event < mir.eventCount) :
    0 ≤ (mir.event event).slot ∧ 0 ≤ (mir.event event).pathCount := by
  unfold verifyMirOwnershipPaths at h
  rw [all_eq_true] at h
  have hlt : event.toNat < mir.events.length := by
    unfold MirModule.eventCount at h1
    omega
  have hevent := h _ (getElem_mem hlt)
  rw [decide_eq_true_eq, not_or, not_or, not_or] at hevent
  rw [MirModule.event, get_eq_getElem h0 hlt]
  omega

theorem twice_mem {first second : Int} (h : (∃ before after, done = before ++ (mir.event
      second).instruction :: after ∧ Pending mir before first ∧ ¬ Clears mir first (mir.event
      second).instruction) ∨ (first ≠ second ∧ (mir.event first).instruction = (mir.event
      second).instruction ∧ (mir.event second).instruction ∈ done)) :
    (mir.event first).instruction ∈ done ∧ (mir.event second).instruction ∈ done := by
  rcases h with ⟨before, after, heq, hpend, _⟩ | ⟨_, hsame, hmem⟩
  · rw [heq]
    exact ⟨mem_append_left _ hpend.mem, by simp⟩
  · exact ⟨hsame ▸ hmem, hmem⟩

/-- An accepted module with a projected move runs the projected analysis on each function. -/
theorem accepted_projected (h : verifyMirPartialMoveDataflow mir cfg = true)
    (hblocks : cfg.blockCount ≠ 0) (h0 : 0 ≤ function) (h1 : function < mir.functionCount)
    (hmove : IsMove mir event) (hproj : IsProjected mir event) :
    verifyMirPartialMoveFunction mir cfg function = true := by
  have hlt : event.toNat < mir.events.length := by
    have h0 := hmove.nonneg
    have h1 := hmove.lt
    unfold MirModule.eventCount at h1
    omega
  have hany : mir.events.any isProjectedMove = true := by
    refine any_eq_true.mpr ⟨mir.events[event.toNat], getElem_mem hlt, ?_⟩
    have hget : mir.event event = mir.events[event.toNat] := get_eq_getElem hmove.nonneg hlt
    rw [← hget, isProjectedMove, decide_eq_true_eq]
    exact ⟨hmove.kind, hproj⟩
  have hcount : mir.eventCount ≠ 0 := by
    have := hmove.nonneg
    have := hmove.lt
    omega
  unfold verifyMirPartialMoveDataflow at h
  split at h
  · cases h
  · simp only [hany, Bool.true_eq_false, if_false, all_eq_true] at h
    exact h function (mem_range.mpr ⟨h0, h1⟩)

/-- An accepted module runs the whole-local analysis on each function with locals. -/
theorem accepted_local (h : verifyMirLocalMoveDataflow mir cfg = true)
    (hblocks : cfg.blockCount ≠ 0) (h0 : 0 ≤ function) (h1 : function < mir.functionCount)
    (hcount : cfg.functionBlockCount function ≠ 0)
    (hlocals : (mir.function function).localCount ≠ 0) :
    solveFunction cfg function (mir.function function).localCount
      (LocalState.reset (mir.function function).localCount.toNat) LocalState.join
      (applyLocalMoveBlock mir cfg (wholeMoveSlots mir)) = true := by
  unfold verifyMirLocalMoveDataflow at h
  rw [if_neg hblocks, all_eq_true] at h
  have hfun := h function (mem_range.mpr ⟨h0, h1⟩)
  unfold verifyMirLocalMoveFunction at hfun
  rw [if_neg (by rw [not_or]; exact ⟨hlocals, hcount⟩)] at hfun
  split at hfun
  · cases hfun
  · exact hfun

end

/-- No path of an accepted module that keeps the two kinds of moves apart moves a value, or
part of it, out twice. -/
theorem moved_once (mir : MirModule) {cfg : MirCfg} (function : Int) {block : Int}
    (before : List Int)
    (h : verifyMirOwnershipSemantics mir = true) (hcfg : Built mir cfg)
    (h0 : 0 ≤ function) (h1 : function < mir.functionCount)
    (hpath : FunctionPath cfg function before block)
    (hseparate : MovesSeparately mir cfg function (before ++ [block])) :
    ¬ MovedTwice mir (fun _ => True) (pathInstructions cfg (before ++ [block])) := by
  obtain ⟨cfg', hcfg', hlocal, hpartial⟩ := accepted_moves h
  cases hcfg.built.symm.trans hcfg'
  have hin := hpath.inFunction
  unfold InFunction at hin
  have hblocks : cfg.blockCount ≠ 0 := by
    have := functionBlocks_le hcfg h0 h1
    omega
  have hpaths : verifyMirOwnershipPaths mir = true := by
    unfold verifyMirPartialMoveDataflow at hpartial
    split at hpartial
    · cases hpartial
    · rename_i hpaths
      rwa [Bool.not_eq_false] at hpaths
  rintro ⟨first, second, hf, hs, _, _, hover, hcase⟩
  obtain ⟨hmem1, hmem2⟩ := twice_mem hcase
  have huniform := hseparate.uniform first second hf hs hmem1 hmem2 (slot_eq_of_overlap hover)
  by_cases hwhole : IsWhole mir first
  · -- Two whole-local moves.
    have hlocals := hseparate.locals first hf hwhole hmem1
    refine whole_sound hcfg h0 h1 (fun event hev => (accepted_paths hpaths hev.nonneg hev.lt).1)
      (accepted_local hlocal hblocks h0 h1 (by omega) hlocals) hpath hseparate.inTable ?_
      ⟨first, second, hf, hs, hwhole, huniform.mp hwhole, hover, hcase⟩
    intro ip hip e1 e2 he1 he2 hw1 hw2 h1 h2
    exact hseparate.single e1 e2 he1 he2 (h1 ▸ hip) (h1.trans h2.symm) ⟨fun _ => hw2, fun _ => hw1⟩
  · -- Two projected moves.
    have hproj : ∀ event, IsMove mir event → (¬ IsWhole mir event ↔ IsProjected mir event) := by
      intro event hev
      have := (accepted_paths hpaths hev.nonneg hev.lt).2
      unfold IsWhole IsProjected
      omega
    have hp1 := (hproj first hf).mp hwhole
    have hp2 := (hproj second hs).mp (fun hw => hwhole (huniform.mpr hw))
    refine projected_sound hcfg h0 h1 (accepted_projected hpartial hblocks h0 h1 hf hp1) hpath
      hseparate.inTable ?_ ?_ ⟨first, second, hf, hs, hp1, hp2, hover, hcase⟩
    · intro ip hip e1 e2 he1 he2 hq1 hq2 h1 h2
      exact hseparate.single e1 e2 he1 he2 (h1 ▸ hip) (h1.trans h2.symm)
        ⟨fun hw => absurd hw ((hproj e1 he1).mpr hq1), fun hw => absurd hw ((hproj e2 he2).mpr hq2)⟩
    · intro front rest heq hne event hev hq
      exact hseparate.noReturn front rest heq hne event hev ((hproj event hev).mpr hq)

/-- A loop that stores a local and moves it out again, twice around. -/
def moveInLoop : MirModule :=
  { functions := [{ start := 0, count := 6, localCount := 1 }]
    code := [{ opcode := 1, a := 1 }, { opcode := 24 }, { opcode := 9, a := 0, b := 0 },
      { opcode := 3, a := 0 }, { opcode := 23, a := 0, b := 5, c := 1, d := -1 },
      { opcode := 10, a := 3 }]
    events := [{ instruction := 3, kind := 1, slot := 0 }] }

theorem moved_once_in_loop :
    ∃ cfg, buildMirCfg moveInLoop = some cfg ∧
      ¬ MovedTwice moveInLoop (fun _ => True) (pathInstructions cfg [0, 1, 1, 2]) := by
  have hevent : ∀ event, IsMove moveInLoop event → event = 0 := by
    intro event h
    have h0 := h.nonneg
    have h1 := h.lt
    have : moveInLoop.eventCount = 1 := rfl
    omega
  refine ⟨_, rfl, ?_⟩
  exact moved_once moveInLoop 0 [0, 1, 1] (by decide) ⟨rfl, by decide, by decide⟩ (by decide)
    (by decide)
    (.step [0, 1] (.step [0] (.step [] (.entry ⟨by decide, by decide⟩) (.inl (by decide))
      ⟨by decide, by decide⟩) (.inr (by decide)) ⟨by decide, by decide⟩)
      (.inl (by decide)) ⟨by decide, by decide⟩)
    { sized := ⟨by decide, by decide⟩
      inTable := by decide
      uniform := fun e1 e2 h1 h2 _ _ _ => by rw [hevent e1 h1, hevent e2 h2]
      single := fun e1 e2 h1 h2 _ _ _ => by rw [hevent e1 h1, hevent e2 h2]
      locals := fun _ _ _ _ => by decide
      noReturn := fun _ _ _ _ e he hw => absurd (by rw [hevent e he]; rfl) hw }

/-! ## Moves the verifier does not relate -/

/-- A local is stored, a field of it is moved out (instruction 3), then the whole local
(instruction 4). -/
def fieldThenWhole : MirModule :=
  { functions := [{ start := 0, count := 6, localCount := 1 }]
    code := [{ opcode := 1 }, { opcode := 9, a := 0, b := 0 }, { opcode := 3, a := 0 },
      { opcode := 28, a := 2, b := 0 }, { opcode := 3, a := 0 }, { opcode := 10, a := 4 }]
    events := [{ instruction := 3, kind := 1, slot := 0, pathStart := 0, pathCount := 1 },
      { instruction := 4, kind := 1, slot := 0, pathStart := 1 }]
    pathComponents := [0] }

/-- The verifier accepts it although the field leaves twice. -/
theorem moved_twice :
    verifyMirOwnershipSemantics fieldThenWhole = true ∧
      ∃ cfg, buildMirCfg fieldThenWhole = some cfg ∧ FunctionPath cfg 0 [] 0 ∧
        MovedTwice fieldThenWhole (fun _ => True) (pathInstructions cfg [0]) := by
  refine ⟨by decide, _, rfl, .entry ⟨by decide, by decide⟩, 0, 1,
    ⟨by decide, by decide, rfl⟩, ⟨by decide, by decide, rfl⟩, trivial, trivial, by decide,
    .inl ?_⟩
  refine ⟨[0, 1, 2, 3], [5], by decide, ⟨[0, 1, 2], [], rfl, by simp⟩, ?_⟩
  rintro (⟨hop, _⟩ | ⟨event, h0, h1, hkind, _, _⟩)
  · exact absurd hop (by decide)
  have hcases : event = 0 ∨ event = 1 := by
    have : fieldThenWhole.eventCount = 2 := rfl
    omega
  rcases hcases with rfl | rfl
  · exact absurd hkind (by decide)
  · exact absurd hkind (by decide)

end Raz.Borrowck
