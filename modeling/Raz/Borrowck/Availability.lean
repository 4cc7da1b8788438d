import Mathlib.Order.CompletePartialOrder
import Mathlib.Order.ConditionallyCompleteLattice.Basic
import Raz.Borrowck.Moves
import Raz.Lib.PathMeet
import Raz.Mir.Verify

/-!
# The whole-local analysis is exact

A local can be read or moved out while it holds a value: behind a store with no move of it in
between. The analysis keeps two flags for every local, initialised on every edge and moved on some
edge; together they say on which locals every path agrees that they hold a value.

Results:
1. `local_moves_exact`: a module without wrapped ranges or sizes is accepted if and only if every
   path only uses locals that hold a value, and no function with instructions has a negative number
   of locals.
2. `local_moves_not_exact`: numbers of locals without a table, and ranges that wrap around.
-/

namespace Raz.Borrowck

open Raz.Mir List LocalState Arena Arena.Flags

variable {trace : List Access} {block : Int}

/-! ## Accesses along a path -/

/-- What an instruction does to a local. -/
inductive Access
  | use (slot : Int)
  | store (slot : Int)
  | move (slot : Int)
  deriving DecidableEq, Repr

/-- The local that must hold a value. -/
def Access.needs : Access → Option Int
  | .use slot => some slot
  | .store _ => none
  | .move slot => some slot

/-- The locals moved out as a whole at an instruction. -/
def movedAt (mir : MirModule) (ip : Int) : List Int :=
  ((Arena.range 0 mir.eventCount).filter (fun event =>
    (mir.event event).kind = 1 ∧ (mir.event event).pathCount = 0 ∧
      (mir.event event).instruction = ip)).map (fun event => (mir.event event).slot)

/-- A load or an address comes first, then a store, and last the moves. -/
def accesses (mir : MirModule) (ip : Int) : List Access :=
  (if mir.opcode ip = 3 ∨ mir.opcode ip = 25 then [.use (mir.opA ip)] else []) ++
    (if mir.opcode ip = 9 then [.store (mir.opA ip)] else []) ++
    (movedAt mir ip).map Access.move

/-- The accesses of the blocks of a path. -/
def pathAccesses (mir : MirModule) (cfg : MirCfg) (blocks : List Int) : List Access :=
  (pathInstructions cfg blocks).flatMap (accesses mir)

/-- A store to the local, and no move of it since. -/
def Available (done : List Access) (slot : Int) : Prop :=
  ∃ before after, done = before ++ .store slot :: after ∧ .move slot ∉ after

/-- Every local that is used or moved holds a value then. -/
def Legal (trace : List Access) : Prop :=
  ∀ before access after slot, trace = before ++ access :: after → access.needs = some slot →
    Available before slot

/-! ## The locals that hold a value -/

/-- An access changes the set of the locals that hold a value. -/
def Access.apply (held : Set Int) : Access → Set Int
  | .use _ => held
  | .store slot => insert slot held
  | .move slot => held \ {slot}

def applyAll (held : Set Int) (trace : List Access) : Set Int := trace.foldl Access.apply held

def Accepts (held : Set Int) : List Access → Prop
  | [] => True
  | access :: rest =>
      (∀ slot, access.needs = some slot → slot ∈ held) ∧ Accepts (access.apply held) rest

theorem applyAll_append (held : Set Int) (front back : List Access) :
    applyAll held (front ++ back) = applyAll (applyAll held front) back := foldl_append

theorem accepts_append {front back : List Access} : ∀ {held : Set Int},
    Accepts held (front ++ back) ↔ Accepts held front ∧ Accepts (applyAll held front) back := by
  induction front with
  | nil => exact iff_of_eq (true_and _).symm
  | cons access front ih =>
    intro held
    rw [cons_append, Accepts, Accepts, ih, and_assoc]
    rfl

theorem Access.apply_inf (access : Access) (x y : Set Int) :
    access.apply (x ⊓ y) = access.apply x ⊓ access.apply y := by
  cases access with
  | use slot => rfl
  | store slot => exact Set.insert_inter_distrib slot x y
  | move slot =>
    ext other
    exact ⟨fun h => ⟨⟨h.1.1, h.2⟩, h.1.2, h.2⟩, fun h => ⟨⟨h.1.1, h.2.1⟩, h.1.2⟩⟩

theorem applyAll_inf (trace : List Access) :
    ∀ (x y : Set Int), applyAll (x ⊓ y) trace = applyAll x trace ⊓ applyAll y trace := by
  induction trace with
  | nil => exact fun _ _ => rfl
  | cons access trace ih =>
    intro x y
    rw [applyAll, foldl_cons, Access.apply_inf]
    exact ih _ _

theorem accepts_inf :
    ∀ {x y : Set Int}, Accepts (x ⊓ y) trace ↔ Accepts x trace ∧ Accepts y trace := by
  induction trace with
  | nil => exact (and_self_iff).symm
  | cons access trace ih =>
    intro x y
    rw [Accepts, Accepts, Accepts, Access.apply_inf, ih]
    constructor
    · rintro ⟨hneeds, hx, hy⟩
      exact ⟨⟨fun slot h => (hneeds slot h).1, hx⟩, fun slot h => (hneeds slot h).2, hy⟩
    · rintro ⟨⟨hneedsX, hx⟩, hneedsY, hy⟩
      exact ⟨fun slot h => ⟨hneedsX slot h, hneedsY slot h⟩, hx, hy⟩

theorem mem_applyAll {slot : Int} : slot ∈ applyAll ∅ trace ↔ Available trace slot := by
  induction trace using List.reverseRecOn with
  | nil =>
    refine iff_of_false (Set.notMem_empty slot) ?_
    rintro ⟨before, after, h, -⟩
    exact append_ne_nil_of_right_ne_nil before (cons_ne_nil _ _) h.symm
  | append_singleton done access ih =>
    rw [applyAll_append]
    -- Either the last access is the store, or the store is in front of it.
    have hlast : Available (done ++ [access]) slot ↔
        access = .store slot ∨ (Available done slot ∧ access ≠ .move slot) := by
      constructor
      · rintro ⟨before, after, h, hnot⟩
        rcases eq_nil_or_concat after with rfl | ⟨after, last, rfl⟩
        · exact .inl (append_inj_right' h rfl |> singleton_inj.mp)
        rw [concat_eq_append, ← cons_append, ← append_assoc] at h
        have hdone := append_inj_left' h rfl
        have haccess := singleton_inj.mp (append_inj_right' h rfl)
        rw [concat_eq_append, mem_append, not_or] at hnot
        refine .inr ⟨⟨before, after, hdone, hnot.1⟩, ?_⟩
        rintro rfl
        exact hnot.2 (haccess ▸ mem_singleton_self _)
      · rintro (rfl | ⟨⟨before, after, rfl, hnot⟩, hne⟩)
        · exact ⟨done, [], rfl, not_mem_nil⟩
        refine ⟨before, after ++ [access], ?_, ?_⟩
        · rw [append_assoc, cons_append]
        · rw [mem_append, mem_singleton, not_or]
          exact ⟨hnot, fun h => hne h.symm⟩
    rw [hlast, ← ih]
    cases access with
    | use other => exact ⟨fun h => .inr ⟨h, nofun⟩, fun h => h.elim nofun And.left⟩
    | store other =>
      change slot ∈ insert other (applyAll ∅ done) ↔ _
      rw [Set.mem_insert_iff, Access.store.injEq]
      exact ⟨fun h => h.elim (fun h => .inl h.symm) (fun h => .inr ⟨h, nofun⟩),
        fun h => h.elim (fun h => .inl h.symm) (fun h => .inr h.1)⟩
    | move other =>
      change slot ∈ applyAll ∅ done \ {other} ↔ _
      rw [Set.mem_sdiff, Set.mem_singleton_iff]
      exact ⟨fun h => .inr ⟨h.1, fun heq => h.2 (Access.move.inj heq).symm⟩,
        fun h => h.elim nofun (fun h => ⟨h.1, fun heq => h.2 (heq ▸ rfl)⟩)⟩

theorem legal_iff : Legal trace ↔ Accepts ∅ trace := by
  have hsplit : ∀ done rest : List Access, Accepts (applyAll ∅ done) rest ↔
      ∀ before access after slot, rest = before ++ access :: after →
        access.needs = some slot → Available (done ++ before) slot := by
    intro done rest
    induction rest generalizing done with
    | nil =>
      refine iff_of_true trivial (fun before access after slot h => ?_)
      exact absurd h.symm (append_ne_nil_of_right_ne_nil before (cons_ne_nil _ _))
    | cons first rest ih =>
      have hnext : first.apply (applyAll ∅ done) = applyAll ∅ (done ++ [first]) := by
        rw [applyAll_append]
        rfl
      rw [Accepts, hnext, ih]
      constructor
      · rintro ⟨hneeds, hrest⟩ before access after slot h hslot
        cases before with
        | nil =>
          cases h
          rw [append_nil]
          exact mem_applyAll.mp (hneeds slot hslot)
        | cons head before =>
          cases h
          have := hrest before access after slot rfl hslot
          rwa [append_assoc] at this
      · intro hall
        refine ⟨fun slot hslot => ?_, fun before access after slot h hslot => ?_⟩
        · have := hall [] first rest slot rfl hslot
          rw [append_nil] at this
          exact mem_applyAll.mpr this
        · have := hall (first :: before) access after slot (by rw [h]; rfl) hslot
          rwa [append_assoc]
  exact (hsplit [] trace).symm

/-! ## The flags of a local -/

section

variable {count : Nat} {s s' : LocalState count} {slot : Int}

theorem LocalState.store_flags (h0 : 0 ≤ slot) (h1 : slot < count) : ∃ s', s.store slot = some s' ∧
    (∀ other, s'.initialized.get other = if other = slot then true else s.initialized.get other) ∧
    ∀ other, s'.moved.get other = if other = slot then false else s.moved.get other := by
  refine ⟨_, if_neg (by omega), fun other => ?_, fun other => ?_⟩
  · exact get_set _ _ h0 h1
  · exact get_set _ _ h0 h1

theorem LocalState.store_some (h : s.store slot = some s') : 0 ≤ slot ∧ slot < count := by
  unfold store at h
  split at h
  · cases h
  · omega

theorem LocalState.move_flags (h : s.move slot = some s') : s.readable slot = true ∧
    s'.initialized = s.initialized ∧
    ∀ other, s'.moved.get other = if other = slot then true else s.moved.get other := by
  obtain ⟨h0, h1, hinit, hfree, rfl⟩ := move_eq h
  refine ⟨?_, rfl, fun other => get_set _ _ h0 h1⟩
  unfold readable
  rw [decide_eq_true_eq]
  exact ⟨h0, h1, hinit, hfree⟩

theorem LocalState.move_none (h0 : 0 ≤ slot) (h1 : slot < count) (h : s.move slot = none) :
    s.readable slot = false := by
  unfold move at h
  rw [if_neg (by omega)] at h
  split at h
  · rename_i hflags
    unfold readable
    rw [decide_eq_false_iff_not]
    rintro ⟨-, -, hinit, hfree⟩
    rcases hflags with hflag | hflag
    · rw [hinit] at hflag
      cases hflag
    · rw [hfree] at hflag
      cases hflag
  · cases h

/-- A state is lower if fewer locals are initialised and more are moved. -/
instance : PartialOrder (LocalState count) where
  le left right :=
    (∀ slot, left.initialized.get slot = true → right.initialized.get slot = true) ∧
      ∀ slot, right.moved.get slot = true → left.moved.get slot = true
  le_refl _ := ⟨fun _ h => h, fun _ h => h⟩
  le_trans _ _ _ hleft hright :=
    ⟨fun slot h => hright.1 slot (hleft.1 slot h), fun slot h => hleft.2 slot (hright.2 slot h)⟩
  le_antisymm left right hleft hright := by
    obtain ⟨leftInit, leftMoved⟩ := left
    obtain ⟨rightInit, rightMoved⟩ := right
    congr 1
    · exact Arena.Flags.ext_get (fun slot => Bool.eq_iff_iff.mpr ⟨hleft.1 slot, hright.1 slot⟩)
    · exact Arena.Flags.ext_get (fun slot => Bool.eq_iff_iff.mpr ⟨hright.2 slot, hleft.2 slot⟩)

theorem LocalState.le_iff {left right : LocalState count} : left ≤ right ↔
    (∀ slot, left.initialized.get slot = true → right.initialized.get slot = true) ∧
      ∀ slot, right.moved.get slot = true → left.moved.get slot = true := Iff.rfl

/-- The number of flags that can still change. -/
def LocalState.height (s : LocalState count) : Nat :=
  s.initialized.count true + s.moved.count false

theorem LocalState.height_le (s : LocalState count) : s.height ≤ 2 * count := by
  have hinit := s.initialized.count_le true
  have hmoved := s.moved.count_le false
  unfold height
  omega

theorem LocalState.height_lt {left right : LocalState count} (h : left < right) :
    left.height < right.height := by
  obtain ⟨hinit, hmoved⟩ := le_iff.mp h.le
  obtain ⟨hinitLe, hinitEq⟩ := count_le_of_imp hinit
  have hfree : ∀ slot, left.moved.get slot = false → right.moved.get slot = false := by
    intro slot hslot
    by_contra hnot
    rw [Bool.not_eq_false] at hnot
    rw [hmoved slot hnot] at hslot
    cases hslot
  obtain ⟨hfreeLe, hfreeEq⟩ := count_le_of_imp hfree
  refine lt_of_le_of_ne (Nat.add_le_add hinitLe hfreeLe) (fun heq => h.ne ?_)
  unfold height at heq
  obtain ⟨leftInit, leftMoved⟩ := left
  congr 1
  · exact hinitEq (by omega)
  · exact hfreeEq (by omega)

theorem LocalState.join_flags (left right : LocalState count) :
    (∀ slot, (left.join right).initialized.get slot =
      (left.initialized.get slot && right.initialized.get slot)) ∧
    ∀ slot, (left.join right).moved.get slot =
      (left.moved.get slot || right.moved.get slot) :=
  ⟨fun _ => get_zip _ rfl _ _ _, fun _ => get_zip _ rfl _ _ _⟩

theorem applyLocalMove_mono {mir : MirModule} {moves : List Int} {ip : Int}
    {left right left' right' : LocalState count} (hle : left ≤ right)
    (hleft : applyLocalMove mir moves left ip = some left')
    (hright : applyLocalMove mir moves right ip = some right') : left' ≤ right' := by
  obtain ⟨leftStored, hleftStore, hleftMove⟩ := applyLocalMove_eq hleft
  obtain ⟨rightStored, hrightStore, hrightMove⟩ := applyLocalMove_eq hright
  have hstored : leftStored ≤ rightStored := by
    split at hleftStore <;> rename_i hop
    · rw [if_pos hop] at hrightStore
      obtain ⟨h0, h1⟩ := store_some hleftStore
      obtain ⟨_, hleftEq, hleftInit, hleftMoved⟩ := left.store_flags h0 h1
      obtain ⟨_, hrightEq, hrightInit, hrightMoved⟩ := right.store_flags h0 h1
      obtain rfl := Option.some.inj (hleftEq.symm.trans hleftStore)
      obtain rfl := Option.some.inj (hrightEq.symm.trans hrightStore)
      refine ⟨fun slot h => ?_, fun slot h => ?_⟩
      · rw [hleftInit] at h
        rw [hrightInit]
        split at h
        · exact if_pos ‹_›
        · rw [if_neg ‹_›]
          exact hle.1 slot h
      · rw [hrightMoved] at h
        rw [hleftMoved]
        split at h
        · cases h
        · rw [if_neg ‹_›]
          exact hle.2 slot h
    · rw [if_neg hop] at hrightStore
      cases hleftStore
      cases hrightStore
      exact hle
  split at hleftMove <;> rename_i hmoves
  · rw [if_pos hmoves] at hrightMove
    obtain ⟨-, hleftInit, hleftMoved⟩ := move_flags hleftMove
    obtain ⟨-, hrightInit, hrightMoved⟩ := move_flags hrightMove
    refine ⟨fun slot h => ?_, fun slot h => ?_⟩
    · rw [hrightInit]
      exact hstored.1 slot (hleftInit ▸ h)
    rw [hrightMoved] at h
    rw [hleftMoved]
    split at h
    · exact if_pos ‹_›
    · rw [if_neg ‹_›]
      exact hstored.2 slot h
  · rw [if_neg hmoves] at hrightMove
    cases hleftMove
    cases hrightMove
    exact hstored

theorem foldlM_mono {σ : Type} [Preorder σ] {step : σ → Int → Option σ}
    (hstep : ∀ {ip a b a' b'}, a ≤ b → step a ip = some a' → step b ip = some b' → a' ≤ b')
    (ips : List Int) : ∀ {a b a' b' : σ}, a ≤ b → ips.foldlM step a = some a' →
      ips.foldlM step b = some b' → a' ≤ b' := by
  induction ips with
  | nil =>
    intro a b a' b' hle ha hb
    cases ha
    cases hb
    exact hle
  | cons ip ips ih =>
    intro a b a' b' hle ha hb
    rw [foldlM_cons] at ha hb
    obtain ⟨a'', ha'', ha⟩ := Option.bind_eq_some_iff.mp ha
    obtain ⟨b'', hb'', hb⟩ := Option.bind_eq_some_iff.mp hb
    exact ih (hstep hle ha'' hb'') ha hb

/-- **Flags only change one way.** -/
theorem localMoves_descend (mir : MirModule) (cfg : MirCfg) (function : Int) :
    Worklist.Descends
      (functionProblem cfg function (LocalState.reset count) LocalState.join
        (applyLocalMoveBlock mir cfg (wholeMoveSlots mir)))
      LocalState.height (2 * count) 2 where
  join_left a b := by
    obtain ⟨hinit, hmoved⟩ := a.join_flags b
    refine ⟨fun slot h => ?_, fun slot h => ?_⟩
    · exact (Bool.and_eq_true_iff.mp ((hinit slot).symm.trans h)).1
    · exact (hmoved slot).trans (Bool.or_eq_true_iff.mpr (.inl h))
  join_right a b := by
    obtain ⟨hinit, hmoved⟩ := a.join_flags b
    refine ⟨fun slot h => ?_, fun slot h => ?_⟩
    · exact (Bool.and_eq_true_iff.mp ((hinit slot).symm.trans h)).2
    · exact (hmoved slot).trans (Bool.or_eq_true_iff.mpr (.inr h))
  le_join {a b c} ha hb := by
    obtain ⟨hinit, hmoved⟩ := a.join_flags b
    refine ⟨fun slot h => ?_, fun slot h => ?_⟩
    · exact (hinit slot).trans (Bool.and_eq_true_iff.mpr ⟨ha.1 slot h, hb.1 slot h⟩)
    · exact (Bool.or_eq_true_iff.mp ((hmoved slot).symm.trans h)).elim (ha.2 slot) (hb.2 slot)
  transfer hle ha hb := @foldlM_mono _ _ (applyLocalMove mir (wholeMoveSlots mir))
    (fun hle ha hb => applyLocalMove_mono hle ha hb) _ _ _ _ _ hle ha hb
  height_lt := height_lt
  height_le := height_le
  degree block := by
    refine (length_map _).trans_le ?_
    exact length_filter_le _ _

/-! ## The locals every path agrees on -/

/-- The locals that count as holding a value. -/
def LocalState.held (s : LocalState count) : Set Int := {slot | s.readable slot = true}

theorem LocalState.mem_held : slot ∈ s.held ↔ (0 ≤ slot ∧ slot < count) ∧
    s.initialized.get slot = true ∧ s.moved.get slot = false := by
  unfold held readable
  rw [Set.mem_ofPred_eq, decide_eq_true_eq, and_assoc]

theorem held_reset : (LocalState.reset count).held = ⊥ := by
  ext slot
  rw [mem_held]
  refine iff_of_false ?_ (Set.notMem_empty slot)
  rintro ⟨-, hinit, -⟩
  rw [reset, get_clear] at hinit
  cases hinit

theorem held_join (left right : LocalState count) :
    (left.join right).held = left.held ⊓ right.held := by
  obtain ⟨hinit, hmoved⟩ := left.join_flags right
  ext slot
  change _ ↔ slot ∈ left.held ∧ slot ∈ right.held
  rw [mem_held, mem_held, mem_held, hinit, hmoved, Bool.and_eq_true, Bool.or_eq_false_iff]
  exact ⟨fun ⟨hin, ⟨h1, h2⟩, h3, h4⟩ => ⟨⟨hin, h1, h3⟩, hin, h2, h4⟩,
    fun ⟨⟨hin, h1, h3⟩, _, h2, h4⟩ => ⟨hin, ⟨h1, h2⟩, h3, h4⟩⟩

theorem held_store (h : s.store slot = some s') : s'.held = insert slot s.held := by
  obtain ⟨h0, h1⟩ := store_some h
  obtain ⟨_, heq, hinit, hmoved⟩ := s.store_flags h0 h1
  obtain rfl := Option.some.inj (heq.symm.trans h)
  ext other
  rw [Set.mem_insert_iff, mem_held, mem_held, hinit, hmoved]
  by_cases hother : other = slot
  · rw [if_pos hother, if_pos hother, hother]
    exact iff_of_true ⟨⟨h0, h1⟩, rfl, rfl⟩ (.inl rfl)
  · rw [if_neg hother, if_neg hother]
    exact ⟨.inr, fun h => h.resolve_left hother⟩

theorem held_move (h : s.move slot = some s') : s'.held = s.held \ {slot} := by
  obtain ⟨-, hinit, hmoved⟩ := move_flags h
  ext other
  rw [Set.mem_sdiff, Set.mem_singleton_iff, mem_held, mem_held, hinit, hmoved]
  by_cases hother : other = slot
  · rw [if_pos hother]
    exact iff_of_false (fun h => nomatch h.2.2) (fun h => h.2 hother)
  · rw [if_neg hother]
    exact ⟨fun h => ⟨h, hother⟩, And.left⟩

end

/-! ## One instruction -/

/-- The locals that the instructions of the functions access exist. -/
structure SlotsInRange (mir : MirModule) : Prop where
  operand : ∀ function ip : Int, instructionInFunction mir function ip = true →
    mir.opcode ip = 3 ∨ mir.opcode ip = 25 ∨ mir.opcode ip = 9 →
      0 ≤ mir.opA ip ∧ mir.opA ip < (mir.function function).localCount
  event : ∀ function event : Int, IsMove mir event → IsWhole mir event →
    instructionInFunction mir function (mir.event event).instruction = true →
      0 ≤ (mir.event event).slot ∧ (mir.event event).slot < (mir.function function).localCount

section

variable {mir : MirModule} {ip : Int}

theorem mem_movedAt {slot : Int} : slot ∈ movedAt mir ip ↔ ∃ event, IsMove mir event ∧
    IsWhole mir event ∧ (mir.event event).instruction = ip ∧ (mir.event event).slot = slot := by
  simp only [movedAt, mem_map, mem_filter, Arena.mem_range, decide_eq_true_eq]
  constructor
  · rintro ⟨event, ⟨⟨h0, h1⟩, hkind, hwhole, hip⟩, rfl⟩
    exact ⟨event, ⟨h0, h1, hkind⟩, hwhole, hip, rfl⟩
  · rintro ⟨event, hmove, hwhole, hip, rfl⟩
    exact ⟨event, ⟨⟨hmove.nonneg, hmove.lt⟩, hmove.kind, hwhole, hip⟩, rfl⟩

theorem nodup_range (start stop : Int) : (Arena.range start stop).Nodup := by
  unfold Arena.range
  refine List.Nodup.map (fun (left right : Nat) h => ?_) List.nodup_range
  exact Int.ofNat_inj.mp (Int.add_left_cancel h)

theorem movedAt_cases (hsingle : SingleWhole mir ip) (hge : 0 ≤ ip)
    (hlt : ip < mir.instructionCount) :
    (movedAt mir ip = [] ∧ Arena.get (wholeMoveSlots mir) ip = -1) ∨
      ∃ event, IsMove mir event ∧ IsWhole mir event ∧ (mir.event event).instruction = ip ∧
        movedAt mir ip = [(mir.event event).slot] ∧
        Arena.get (wholeMoveSlots mir) ip = (mir.event event).slot := by
  have hcell : get (List.replicate (mir.instructionCount + 1).toNat (-1 : Int)) ip = -1 := by
    rw [get_eq_getElem hge (by rw [length_replicate]; omega), getElem_replicate]
  rcases get_scatter (wholeMoves mir) (fun event => (mir.event event).instruction)
    (fun event => (mir.event event).slot) hge _ (table_length hlt) with
    ⟨event, hmem, hkey, hget⟩ | ⟨hnone, hget⟩
  · obtain ⟨hmove, hwhole, -, -⟩ := mem_wholeMoves.mp hmem
    refine .inr ⟨event, hmove, hwhole, hkey, ?_, hget⟩
    have hevents : (range 0 mir.eventCount).filter (fun event =>
        (mir.event event).kind = 1 ∧ (mir.event event).pathCount = 0 ∧
          (mir.event event).instruction = ip) = [event] := by
      refine perm_singleton.mp ((perm_ext_iff_of_nodup
        ((nodup_range _ _).filter _) (nodup_singleton event)).mpr (fun other => ?_))
      rw [mem_filter, Arena.mem_range, mem_singleton, decide_eq_true_eq]
      constructor
      · rintro ⟨⟨h0, h1⟩, hkind, hother, hip⟩
        exact hsingle other event ⟨h0, h1, hkind⟩ hmove hother hwhole hip hkey
      · rintro rfl
        exact ⟨⟨hmove.nonneg, hmove.lt⟩, hmove.kind, hwhole, hkey⟩
    rw [movedAt, hevents, map_singleton]
  · refine .inl ⟨eq_nil_iff_forall_not_mem.mpr (fun slot hslot => ?_), hget.trans hcell⟩
    obtain ⟨event, hmove, hwhole, hip, -⟩ := mem_movedAt.mp hslot
    exact hnone event (mem_wholeMoves.mpr ⟨hmove, hwhole, by omega, by omega⟩) hip

variable {count : Nat} {s : LocalState count} {held : Set Int}

/-- What is computed agrees with what the accesses do to the held locals. -/
structure Mirrors (result : Option (LocalState count)) (held : Set Int) (trace : List Access) :
    Prop where
  accepted : ∀ s', result = some s' → Accepts held trace ∧ s'.held = applyAll held trace
  rejected : result = none → ¬ Accepts held trace

theorem Mirrors.nil : Mirrors (some s) s.held [] where
  accepted s' h := by
    cases h
    exact ⟨trivial, rfl⟩
  rejected h := nomatch h

theorem Mirrors.bind {result : Option (LocalState count)} {front back : List Access}
    {next : LocalState count → Option (LocalState count)} (h : Mirrors result held front)
    (hnext : ∀ s', result = some s' → Mirrors (next s') s'.held back) :
    Mirrors (result.bind next) held (front ++ back) where
  accepted s' hresult := by
    obtain ⟨middle, hmiddle, hlast⟩ := Option.bind_eq_some_iff.mp hresult
    obtain ⟨hfront, hheld⟩ := h.accepted middle hmiddle
    obtain ⟨hback, hfinal⟩ := (hnext middle hmiddle).accepted s' hlast
    rw [hheld] at hback hfinal
    exact ⟨accepts_append.mpr ⟨hfront, hback⟩, hfinal.trans (applyAll_append _ _ _).symm⟩
  rejected hresult haccepts := by
    obtain ⟨hfront, hback⟩ := accepts_append.mp haccepts
    cases hmiddle : result with
    | none => exact h.rejected hmiddle hfront
    | some middle =>
      rw [hmiddle] at hresult
      rw [← (h.accepted middle hmiddle).2] at hback
      exact (hnext middle hmiddle).rejected hresult hback

theorem mirrors_use (s : LocalState count) :
    Mirrors (if (mir.opcode ip = 3 ∨ mir.opcode ip = 25) ∧ s.readable (mir.opA ip) = false then
        none else some s) s.held
      (if mir.opcode ip = 3 ∨ mir.opcode ip = 25 then [.use (mir.opA ip)] else []) := by
  by_cases hop : mir.opcode ip = 3 ∨ mir.opcode ip = 25
  · rw [if_pos hop]
    cases hread : s.readable (mir.opA ip) with
    | false =>
      rw [if_pos ⟨hop, rfl⟩]
      refine ⟨(fun _ h => nomatch h), fun _ haccepts => ?_⟩
      exact Bool.false_ne_true (hread.symm.trans (haccepts.1 _ rfl))
    | true =>
      rw [if_neg (fun h => nomatch h.2)]
      refine ⟨fun s' h => ?_, fun h => nomatch h⟩
      cases h
      refine ⟨⟨fun slot hslot => ?_, trivial⟩, rfl⟩
      cases hslot
      exact hread
  · rw [if_neg hop, if_neg (fun h => hop h.1)]
    exact Mirrors.nil

theorem mirrors_store (s : LocalState count)
    (hstore : mir.opcode ip = 9 → 0 ≤ mir.opA ip ∧ mir.opA ip < count) :
    Mirrors (if mir.opcode ip = 9 then s.store (mir.opA ip) else some s) s.held
      (if mir.opcode ip = 9 then [.store (mir.opA ip)] else []) := by
  by_cases hop : mir.opcode ip = 9
  · obtain ⟨h0, h1⟩ := hstore hop
    obtain ⟨stored, hstored, -⟩ := s.store_flags h0 h1
    rw [if_pos hop, if_pos hop, hstored]
    refine ⟨fun s' h => ?_, fun h => nomatch h⟩
    cases h
    exact ⟨⟨(fun _ h => nomatch h), trivial⟩, held_store hstored⟩
  · rw [if_neg hop, if_neg hop]
    exact Mirrors.nil

theorem mirrors_move (s : LocalState count) (hsingle : SingleWhole mir ip) (hge : 0 ≤ ip)
    (hlt : ip < mir.instructionCount)
    (hmoved : ∀ event, IsMove mir event → IsWhole mir event →
      (mir.event event).instruction = ip →
        0 ≤ (mir.event event).slot ∧ (mir.event event).slot < count) :
    Mirrors (if Arena.get (wholeMoveSlots mir) ip ≥ 0 then
        s.move (Arena.get (wholeMoveSlots mir) ip) else some s) s.held
      ((movedAt mir ip).map Access.move) := by
  rcases movedAt_cases hsingle hge hlt with ⟨hnone, hget⟩ | ⟨event, hmove, hwhole, hip, hone, hget⟩
  · rw [hnone, hget, if_neg (by decide)]
    exact Mirrors.nil
  obtain ⟨h0, h1⟩ := hmoved event hmove hwhole hip
  rw [hone, hget, if_pos h0]
  refine ⟨fun s' hresult => ⟨⟨fun slot hslot => ?_, trivial⟩, held_move hresult⟩,
    fun hresult haccepts => ?_⟩
  · cases hslot
    exact (move_flags hresult).1
  · exact Bool.false_ne_true ((move_none h0 h1 hresult).symm.trans (haccepts.1 _ rfl))

/-- **One instruction** accepts if its accesses are legal, and changes the held locals as they
do. -/
theorem applyLocalMove_mirrors (s : LocalState count) (hsingle : SingleWhole mir ip) (hge : 0 ≤ ip)
    (hlt : ip < mir.instructionCount)
    (hstore : mir.opcode ip = 9 → 0 ≤ mir.opA ip ∧ mir.opA ip < count)
    (hmoved : ∀ event, IsMove mir event → IsWhole mir event →
      (mir.event event).instruction = ip →
        0 ≤ (mir.event event).slot ∧ (mir.event event).slot < count) :
    Mirrors (applyLocalMove mir (wholeMoveSlots mir) s ip) s.held (accesses mir ip) := by
  have hsteps : applyLocalMove mir (wholeMoveSlots mir) s ip =
      (if (mir.opcode ip = 3 ∨ mir.opcode ip = 25) ∧ s.readable (mir.opA ip) = false then
        none else some s).bind (fun s =>
          (if mir.opcode ip = 9 then s.store (mir.opA ip) else some s).bind (fun s =>
            if get (wholeMoveSlots mir) ip ≥ 0 then
              s.move (get (wholeMoveSlots mir) ip) else some s)) := by
    unfold applyLocalMove
    simp only
    split <;> rfl
  rw [hsteps, accesses, append_assoc]
  exact (mirrors_use s).bind (fun s _ => (mirrors_store s hstore).bind (fun s _ =>
    mirrors_move s hsingle hge hlt hmoved))

theorem mirrors_foldlM {step : LocalState count → Int → Option (LocalState count)}
    (ips : List Int) : (∀ ip ∈ ips, ∀ s, Mirrors (step s ip) s.held (accesses mir ip)) →
      ∀ s : LocalState count, Mirrors (ips.foldlM step s) s.held (ips.flatMap (accesses mir)) := by
  induction ips with
  | nil => exact fun _ s => Mirrors.nil
  | cons ip ips ih =>
    intro hstep s
    rw [foldlM_cons, flatMap_cons]
    exact (hstep ip mem_cons_self s).bind (fun s _ =>
      ih (fun ip hip => hstep ip (mem_cons_of_mem _ hip)) s)

end

/-! ## One function -/

section

variable {mir : MirModule} {cfg : MirCfg} {function : Int}

theorem pathAccesses_append (front back : List Int) :
    pathAccesses mir cfg (front ++ back) =
      pathAccesses mir cfg front ++ pathAccesses mir cfg back := by
  rw [pathAccesses, pathInstructions, flatMap_append, flatMap_append]
  rfl

theorem pathAccesses_singleton (block : Int) : pathAccesses mir cfg [block] =
    (Arena.range (cfg.block block).start (cfg.block block).stop).flatMap (accesses mir) := by
  rw [pathAccesses, pathInstructions, flatMap_singleton]

/-- The worklist of the whole-local analysis. -/
def localMoveProblem (mir : MirModule) (cfg : MirCfg) (function : Int) (count : Nat) :
    Worklist.Problem (LocalState count) :=
  functionProblem cfg function (LocalState.reset count) LocalState.join
    (applyLocalMoveBlock mir cfg (wholeMoveSlots mir))

theorem mirrors_block (h : Verified mir) (hcfg : Built mir cfg)
    (h0 : 0 ≤ function) (h1 : function < mir.functionCount) (hsingle : ∀ ip, SingleWhole mir ip)
    (hslots : SlotsInRange mir) {count : Nat} (hcount : (mir.function function).localCount = count)
    (hblock : InFunction cfg function block) (s : LocalState count) :
    Mirrors (applyLocalMoveBlock mir cfg (wholeMoveSlots mir) block s) s.held
      ((Arena.range (cfg.block block).start (cfg.block block).stop).flatMap (accesses mir)) := by
  obtain ⟨hstart, -, hstop, -⟩ :=
    functionBlockList_within h.bounded (block_mem_function hcfg h0 h1 hblock.1 hblock.2)
  obtain ⟨hcode, -, hend⟩ := range_of_verified h h0 h1
  refine mirrors_foldlM _ (fun ip hip s => ?_) s
  rw [Arena.mem_range] at hip
  have hin : instructionInFunction mir function ip = true := by
    unfold instructionInFunction
    rw [decide_eq_true_eq]
    exact ⟨h0, h1, by omega, by omega⟩
  refine applyLocalMove_mirrors s (hsingle ip) (by omega) (by omega) (fun hop => ?_)
    (fun event hmove hwhole hip => ?_)
  · rw [← hcount]
    exact hslots.operand function ip hin (.inr (.inr hop))
  · rw [← hcount]
    exact hslots.event function event hmove hwhole (hip.symm ▸ hin)

/-- The held locals are the view in which the analysis is exact. -/
def localMoveView (h : Verified mir) (hcfg : Built mir cfg)
    (h0 : 0 ≤ function) (h1 : function < mir.functionCount)
    (hsingle : ∀ ip, SingleWhole mir ip) (hslots : SlotsInRange mir) {count : Nat}
    (hcount : (mir.function function).localCount = count) :
    Worklist.View (localMoveProblem mir cfg function count)
      (cfg.functionBlockCount function).toNat (Set Int) where
  view := LocalState.held
  accepts block held := Accepts held (pathAccesses mir cfg [cfg.firstBlock function + block])
  next block held := applyAll held (pathAccesses mir cfg [cfg.firstBlock function + block])
  entry := held_reset
  join := held_join
  transfer_some {block s output} hlt hresult := by
    have hmirrors := mirrors_block h hcfg h0 h1 hsingle hslots hcount
      (show InFunction cfg function (cfg.firstBlock function + block) from
        ⟨by omega, by omega⟩) s
    rw [pathAccesses_singleton]
    exact hmirrors.accepted output hresult
  transfer_none {block s} hlt hresult := by
    have hmirrors := mirrors_block h hcfg h0 h1 hsingle hslots hcount
      (show InFunction cfg function (cfg.firstBlock function + block) from
        ⟨by omega, by omega⟩) s
    rw [pathAccesses_singleton]
    exact hmirrors.rejected hresult
  accepts_inf := accepts_inf
  next_inf := applyAll_inf _

section View

variable (h : Verified mir) (hcfg : Built mir cfg)
  (h0 : 0 ≤ function) (h1 : function < mir.functionCount) (hsingle : ∀ ip, SingleWhole mir ip)
  (hslots : SlotsInRange mir) {count : Nat} (hcount : (mir.function function).localCount = count)

/-- A path of the function arrives with the locals that it leaves held. -/
theorem arrives_of_path {before : List Int} (hpath : FunctionPath cfg function before block) :
    Worklist.Arrives (localMoveView h hcfg h0 h1 hsingle hslots hcount)
      (block - cfg.firstBlock function).toNat (applyAll ∅ (pathAccesses mir cfg before)) := by
  induction hpath with
  | entry _ =>
    rw [Int.sub_self]
    exact .entry
  | @step before block next hpath hedge hin ih =>
    have hblock := hpath.inFunction
    unfold InFunction at hblock hin
    have hcast : cfg.firstBlock function + ((block - cfg.firstBlock function).toNat : Int) =
        block := by omega
    have hcast' : cfg.firstBlock function + ((next - cfg.firstBlock function).toNat : Int) =
        next := by omega
    have hnext : (next - cfg.firstBlock function).toNat ∈
        (localMoveProblem mir cfg function count).successors
          (block - cfg.firstBlock function).toNat := by
      refine mem_localSuccessors.mpr ⟨?_, by omega⟩
      rw [hcast, hcast']
      exact hedge
    have hstep := Worklist.Arrives.step ih hnext
    have hlast : applyAll ∅ (pathAccesses mir cfg (before ++ [block])) =
        (localMoveView h hcfg h0 h1 hsingle hslots hcount).next
          (block - cfg.firstBlock function).toNat (applyAll ∅ (pathAccesses mir cfg before)) := by
      change _ = applyAll _ (pathAccesses mir cfg [cfg.firstBlock function +
        ((block - cfg.firstBlock function).toNat : Int)])
      rw [hcast, ← applyAll_append, ← pathAccesses_append]
    rw [hlast]
    exact hstep

theorem path_of_arrives (hpos : 0 < cfg.functionBlockCount function) {block : Nat}
    {held : Set Int}
    (harrives : Worklist.Arrives (localMoveView h hcfg h0 h1 hsingle hslots hcount) block held) :
    ∃ before, FunctionPath cfg function before (cfg.firstBlock function + block) ∧
      held = applyAll ∅ (pathAccesses mir cfg before) := by
  induction harrives with
  | entry =>
    refine ⟨[], ?_, rfl⟩
    rw [show cfg.firstBlock function + ((0 : Nat) : Int) = cfg.firstBlock function by omega]
    exact .entry ⟨le_rfl, by omega⟩
  | @step block next held _ hnext ih =>
    obtain ⟨before, hpath, rfl⟩ := ih
    obtain ⟨hedge, hlt⟩ := mem_localSuccessors.mp hnext
    refine ⟨before ++ [cfg.firstBlock function + block],
      .step before hpath hedge ⟨by omega, by omega⟩, ?_⟩
    change applyAll _ (pathAccesses mir cfg [cfg.firstBlock function + (block : Int)]) = _
    rw [← applyAll_append, ← pathAccesses_append]

/-- Every path is legal if and only if the view accepts whatever arrives. -/
theorem legal_paths_iff (hpos : 0 < cfg.functionBlockCount function) :
    (∀ before block, FunctionPath cfg function before block →
      Legal (pathAccesses mir cfg (before ++ [block]))) ↔
    ∀ block held, Worklist.Arrives (localMoveView h hcfg h0 h1 hsingle hslots hcount) block held →
      (localMoveView h hcfg h0 h1 hsingle hslots hcount).accepts block held := by
  have hsplit : ∀ before block, Legal (pathAccesses mir cfg (before ++ [block])) ↔
      Legal (pathAccesses mir cfg before) ∧
        Accepts (applyAll ∅ (pathAccesses mir cfg before)) (pathAccesses mir cfg [block]) := by
    intro before block
    rw [legal_iff, legal_iff, pathAccesses_append, accepts_append]
  constructor
  · intro hlegal block held harrives
    obtain ⟨before, hpath, rfl⟩ := path_of_arrives h hcfg h0 h1 hsingle hslots hcount hpos harrives
    exact ((hsplit _ _).mp (hlegal before _ hpath)).2
  intro haccepts before block hpath
  have hlast : ∀ {before block}, FunctionPath cfg function before block →
      Accepts (applyAll ∅ (pathAccesses mir cfg before)) (pathAccesses mir cfg [block]) := by
    intro before block hpath
    have hin := hpath.inFunction
    unfold InFunction at hin
    have := haccepts _ _ (arrives_of_path h hcfg h0 h1 hsingle hslots hcount hpath)
    change Accepts _ (pathAccesses mir cfg [cfg.firstBlock function +
      ((block - cfg.firstBlock function).toNat : Int)]) at this
    rwa [show cfg.firstBlock function + ((block - cfg.firstBlock function).toNat : Int) = block
      by omega] at this
  induction hpath with
  | entry hin => exact (hsplit _ _).mpr ⟨legal_iff.mpr trivial, hlast (.entry hin)⟩
  | step before hpath hedge hin ih =>
    exact (hsplit _ _).mpr ⟨ih, hlast (.step before hpath hedge hin)⟩

/-- **The limit on processed blocks is never reached with blocks waiting.** -/
theorem localMoves_not_exhausted (hcfg : Built mir cfg) (h0 : 0 ≤ function)
    (h1 : function < mir.functionCount) (hpos : 0 < cfg.functionBlockCount function)
    {count : Nat} :
    (localMoveProblem mir cfg function count).exhausted
      (cfg.functionBlockCount function * ((count : Int) + 2) * 8 + 64).toNat
      (Worklist.initial (LocalState count) (cfg.functionBlockCount function).toNat) = false := by
  refine (localMoves_descend mir cfg function).not_exhausted (linked hcfg h0 h1 _ _ _) (by omega) ?_
  generalize hblocks : (cfg.functionBlockCount function).toNat = blocks
  have hcast : cfg.functionBlockCount function = blocks := by omega
  have hlimit : (cfg.functionBlockCount function * ((count : Int) + 2) * 8 + 64).toNat =
      blocks * (count + 2) * 8 + 64 := by
    rw [hcast]
    exact Int.toNat_natCast _
  rw [hlimit, Nat.mul_add blocks (2 * count) 1, Nat.mul_add blocks count 2,
    Nat.mul_left_comm blocks 2 count]
  omega

/-- The analysis of one function accepts if and only if its paths are legal. -/
theorem function_exact (h : Verified mir) (hcfg : Built mir cfg)
    (h0 : 0 ≤ function) (h1 : function < mir.functionCount)
    (hsingle : ∀ ip, SingleWhole mir ip) (hslots : SlotsInRange mir) {count : Nat}
    (hcount : (mir.function function).localCount = count)
    (hpos : 0 < cfg.functionBlockCount function)
    (hsized : MatrixSized cfg function (mir.function function).localCount) :
    solveFunction cfg function (mir.function function).localCount (LocalState.reset count)
        LocalState.join (applyLocalMoveBlock mir cfg (wholeMoveSlots mir)) = true ↔
      ∀ before block, FunctionPath cfg function before block →
        Legal (pathAccesses mir cfg (before ++ [block])) := by
  rw [legal_paths_iff h hcfg h0 h1 hsingle hslots hcount hpos]
  have hlink : (localMoveProblem mir cfg function count).Linked
    (cfg.functionBlockCount function).toNat := linked hcfg h0 h1 _ _ _
  constructor
  · intro hsolve block held harrives
    obtain ⟨out, hsettled⟩ := solveFunction_settled hcfg h0 h1 hsolve
    exact Worklist.View.settled_accepts _ hlink (by omega) hsettled harrives
  intro haccepts
  unfold solveFunction
  simp only
  split
  · -- One block: the entry state reaches it.
    cases hresult : applyLocalMoveBlock mir cfg (wholeMoveSlots mir) (cfg.firstBlock function)
      (reset count) with
    | some s' => rfl
    | none =>
      have hentry := haccepts 0 ⊥ .entry
      have hreject := (localMoveView h hcfg h0 h1 hsingle hslots hcount).transfer_none
        (show 0 < (cfg.functionBlockCount function).toNat by omega) (by
          change applyLocalMoveBlock mir cfg (wholeMoveSlots mir)
            (cfg.firstBlock function + ((0 : Nat) : Int)) (reset count) = none
          rw [Int.natCast_zero, Int.add_zero]
          exact hresult)
      have hview := (localMoveView h hcfg h0 h1 hsingle hslots hcount).entry
      change (localMoveView h hcfg h0 h1 hsingle hslots hcount).view (reset count) = ⊥ at hview
      rw [hview] at hreject
      exact absurd hentry hreject
  · have hfuel := @localMoves_not_exhausted mir cfg function hcfg h0 h1 hpos count
    obtain ⟨-, hcreates, hlimit⟩ := hsized.creates hpos (by omega)
    rw [if_neg (not_not_intro hcreates), hlimit, hcount]
    exact (localMoveView h hcfg h0 h1 hsingle hslots hcount).run_accepts hlink
      (fun harrives => haccepts _ _ harrives) _ (length_replicate)
      (fun block hblock => by
        rw [mem_singleton.mp hblock]
        omega)
      (Worklist.View.witnessed_initial _) hfuel

end View

theorem accesses_eq_nil (hslots : SlotsInRange mir)
    (hcount : (mir.function function).localCount ≤ 0) {ip : Int}
    (hin : instructionInFunction mir function ip = true) : accesses mir ip = [] := by
  have hop : ∀ opcode, mir.opcode ip = opcode → opcode = 3 ∨ opcode = 25 ∨ opcode = 9 → False := by
    rintro opcode rfl hop
    have := hslots.operand function ip hin hop
    omega
  have hmoves : movedAt mir ip = [] := by
    refine eq_nil_iff_forall_not_mem.mpr (fun slot hslot => ?_)
    obtain ⟨event, hmove, hwhole, hip, rfl⟩ := mem_movedAt.mp hslot
    have := hslots.event function event hmove hwhole (hip.symm ▸ hin)
    omega
  rw [accesses, hmoves, if_neg, if_neg]
  · rfl
  · exact fun h => hop 9 h (by decide)
  · rintro (h | h)
    · exact hop 3 h (by decide)
    · exact hop 25 h (by decide)

theorem legal_nil : Legal [] := legal_iff.mpr trivial

theorem legal_of_no_locals (hcfg : Built mir cfg) (h0 : 0 ≤ function)
    (h1 : function < mir.functionCount) (hslots : SlotsInRange mir)
    (hcount : (mir.function function).localCount ≤ 0) {before : List Int}
    (hpath : FunctionPath cfg function before block) :
    Legal (pathAccesses mir cfg (before ++ [block])) := by
  have hnone : pathAccesses mir cfg (before ++ [block]) = [] := by
    refine flatMap_eq_nil_iff.mpr (fun ip hip => ?_)
    obtain ⟨hstart, hstop⟩ := pathInstructions_within hcfg h0 h1 hpath.all_inFunction ip hip
    refine accesses_eq_nil hslots hcount ?_
    unfold instructionInFunction
    rw [decide_eq_true_eq]
    exact ⟨h0, h1, hstart, hstop⟩
  rw [hnone]
  exact legal_nil

theorem verifyMirLocalMoveFunction_iff (h : Verified mir)
    (hcfg : Built mir cfg) (h0 : 0 ≤ function) (h1 : function < mir.functionCount)
    (hsingle : ∀ ip, SingleWhole mir ip) (hslots : SlotsInRange mir)
    (hsized : 0 < cfg.functionBlockCount function →
      MatrixSized cfg function (mir.function function).localCount) :
    verifyMirLocalMoveFunction mir cfg function = true ↔
      (0 < cfg.functionBlockCount function → 0 ≤ (mir.function function).localCount) ∧
      ∀ before block, FunctionPath cfg function before block →
        Legal (pathAccesses mir cfg (before ++ [block])) := by
  have hblocks : 0 ≤ cfg.functionBlockCount function := by
    rw [functionBlockCount_eq hcfg h0 h1]
    exact Int.natCast_nonneg _
  unfold verifyMirLocalMoveFunction
  simp only
  split
  · rename_i hnone
    refine iff_of_true rfl ⟨fun hpos => by omega, fun before block hpath => ?_⟩
    have hin := hpath.inFunction
    unfold InFunction at hin
    exact legal_of_no_locals hcfg h0 h1 hslots (by omega) hpath
  · rename_i hsome
    rw [not_or] at hsome
    have hsized := hsized (by omega)
    split <;> rename_i hcreates
    · refine iff_of_false Bool.false_ne_true (fun hall => hcreates ?_)
      exact (hsized.creates (by omega) (hall.1 (by omega))).1
    · have hcount := (Arena.creates_iff.mp (not_not.mp hcreates)).1
      rw [function_exact h hcfg h0 h1 hsingle hslots (by omega) (by omega) hsized]
      exact ⟨fun hall => ⟨fun _ => by omega, hall⟩, And.right⟩

end

/-- **A module is accepted if and only if every path only uses locals that hold a value**, and no
function with instructions has a negative number of locals; the worklists always end in time. No
range of the module wraps around, nor does the size of a table. -/
theorem local_moves_exact {mir : MirModule} {cfg : MirCfg}
    (haccepted : verifyMirStructure mir = true) (hbuilt : buildMirCfg mir = some cfg)
    (hsingle : ∀ ip, SingleWhole mir ip) (hslots : SlotsInRange mir) (hbounded : mir.Bounded)
    (hsized : ∀ function, 0 ≤ function → function < mir.functionCount →
      0 < cfg.functionBlockCount function →
      MatrixSized cfg function (mir.function function).localCount) :
    (verifyMirLocalMoveDataflow mir cfg = true ↔
      ∀ function, 0 ≤ function → function < mir.functionCount →
        (0 < (mir.function function).count → 0 ≤ (mir.function function).localCount) ∧
        ∀ before block, FunctionPath cfg function before block →
          Legal (pathAccesses mir cfg (before ++ [block]))) ∧
    ∀ function, 0 ≤ function → function < mir.functionCount →
      0 < cfg.functionBlockCount function → ∀ count : Nat,
        (mir.function function).localCount = count →
        (localMoveProblem mir cfg function count).exhausted
          (cfg.functionBlockCount function * ((mir.function function).localCount + 2) * 8 +
            64).toNat
          (Worklist.initial (LocalState count) (cfg.functionBlockCount function).toNat) =
            false := by
  have h : Verified mir := ⟨haccepted, hbounded⟩
  have hcfg := h.built hbuilt
  have hblocks : ∀ {function}, 0 ≤ function → function < mir.functionCount →
      (0 < cfg.functionBlockCount function ↔ 0 < (mir.function function).count) := by
    intro function h0 h1
    rw [functionBlockCount_eq hcfg h0 h1]
    constructor
    · intro hpos
      by_contra hnone
      have hnil : functionBlockList mir function = [] := if_neg hnone
      rw [hnil] at hpos
      exact absurd hpos (by decide)
    · intro hpos
      obtain ⟨block, hmem, -⟩ := functionBlockList_cover h.bounded
        (le_refl (mir.function function).start) (by rw [h.bounded.stop_eq]; omega)
      exact Int.natCast_pos.mpr (length_pos_of_mem hmem)
  constructor
  · have hall : (range 0 mir.functionCount).all (verifyMirLocalMoveFunction mir cfg) = true ↔
        ∀ function, 0 ≤ function → function < mir.functionCount →
          (0 < (mir.function function).count → 0 ≤ (mir.function function).localCount) ∧
          ∀ before block, FunctionPath cfg function before block →
            Legal (pathAccesses mir cfg (before ++ [block])) := by
      rw [all_eq_true]
      constructor
      · intro hverify function h0 h1
        rw [← hblocks h0 h1]
        exact (verifyMirLocalMoveFunction_iff h hcfg h0 h1 hsingle hslots
          (hsized function h0 h1)).mp (hverify function (mem_range.mpr ⟨h0, h1⟩))
      · intro hpaths function hmem
        obtain ⟨h0, h1⟩ := mem_range.mp hmem
        rw [verifyMirLocalMoveFunction_iff h hcfg h0 h1 hsingle hslots (hsized function h0 h1),
          hblocks h0 h1]
        exact hpaths function h0 h1
    unfold verifyMirLocalMoveDataflow
    split
    · rename_i hnone
      refine iff_of_true rfl (fun function h0 h1 => ?_)
      obtain ⟨hfirst, hle⟩ := functionBlocks_le hcfg h0 h1
      refine ⟨fun hpos => ?_, fun before block hpath => ?_⟩
      · rw [← hblocks h0 h1] at hpos
        omega
      · have hin := hpath.inFunction
        unfold InFunction at hin
        omega
    · exact hall
  · intro function h0 h1 hpos count hcount
    rw [hcount]
    exact localMoves_not_exhausted hcfg h0 h1 hpos

/-! ## Modules -/

instance (mir : MirModule) (event : Int) : Decidable (IsMove mir event) :=
  decidable_of_iff (0 ≤ event ∧ event < mir.eventCount ∧ (mir.event event).kind = 1)
    ⟨fun ⟨h0, h1, hkind⟩ => ⟨h0, h1, hkind⟩, fun h => ⟨h.nonneg, h.lt, h.kind⟩⟩

instance (mir : MirModule) (event : Int) : Decidable (IsWhole mir event) :=
  inferInstanceAs (Decidable (_ = _))

theorem singleWhole_of_events {mir : MirModule}
    (h : ∀ first ∈ Arena.range 0 mir.eventCount, ∀ second ∈ Arena.range 0 mir.eventCount,
      IsMove mir first → IsMove mir second → IsWhole mir first → IsWhole mir second →
        (mir.event first).instruction = (mir.event second).instruction → first = second)
    (ip : Int) : SingleWhole mir ip :=
  fun first second hf hs hwf hws hip hip' => h first (mem_range.mpr ⟨hf.nonneg, hf.lt⟩) second
    (mem_range.mpr ⟨hs.nonneg, hs.lt⟩) hf hs hwf hws (hip.trans hip'.symm)

theorem slotsInRange_of_functions {mir : MirModule}
    (h : ∀ function ∈ Arena.range 0 mir.functionCount,
      (∀ ip ∈ Arena.range (mir.function function).start (mir.function function).stop,
        mir.opcode ip = 3 ∨ mir.opcode ip = 25 ∨ mir.opcode ip = 9 →
          0 ≤ mir.opA ip ∧ mir.opA ip < (mir.function function).localCount) ∧
      ∀ event ∈ Arena.range 0 mir.eventCount,
        instructionInFunction mir function (mir.event event).instruction = true →
          0 ≤ (mir.event event).slot ∧
            (mir.event event).slot < (mir.function function).localCount) :
    SlotsInRange mir where
  operand function ip hin hop := by
    obtain ⟨h0, h1, hin⟩ := of_decide_eq_true hin
    exact (h function (mem_range.mpr ⟨h0, h1⟩)).1 ip (mem_range.mpr hin) hop
  event function event hmove _ hin := by
    obtain ⟨h0, h1, _⟩ := of_decide_eq_true hin
    exact (h function (mem_range.mpr ⟨h0, h1⟩)).2 event (mem_range.mpr ⟨hmove.nonneg, hmove.lt⟩) hin

/-- A loop that stores a local, reads it and moves it out again. -/
theorem local_moves_exact_loop : ∃ cfg, buildMirCfg moveInLoop = some cfg ∧
    ∀ before block, FunctionPath cfg 0 before block →
      Legal (pathAccesses moveInLoop cfg (before ++ [block])) := by
  obtain ⟨cfg, hcfg⟩ := Option.isSome_iff_exists.mp
    (show (buildMirCfg moveInLoop).isSome = true by decide)
  have hverify : ∀ cfg, buildMirCfg moveInLoop = some cfg →
      verifyMirLocalMoveDataflow moveInLoop cfg = true ∧
        ∀ function ∈ Arena.range 0 moveInLoop.functionCount,
          MatrixSized cfg function (moveInLoop.function function).localCount := by
    decide
  obtain ⟨haccepted, hsized⟩ := hverify cfg hcfg
  have hexact := (local_moves_exact (by decide) hcfg (singleWhole_of_events (by decide))
    (slotsInRange_of_functions (by decide)) (by decide)
    (fun function h0 h1 _ => hsized function (mem_range.mpr ⟨h0, h1⟩))).1.mp haccepted
  exact ⟨cfg, hcfg, (hexact 0 (by decide) (by decide)).2⟩

/-- A function that returns at once, with `localCount` locals. -/
def returnAtOnce (localCount : Int) : MirModule :=
  { functions := [{ start := 0, count := 1, localCount }], code := [{ opcode := 21 }] }

/-- Nothing is accessed. -/
theorem legal_returnAtOnce {localCount : Int} {cfg : MirCfg}
    (hcfg : buildMirCfg (returnAtOnce localCount) = some cfg) :
    ∀ function, 0 ≤ function → function < (returnAtOnce localCount).functionCount →
      ∀ before block, FunctionPath cfg function before block →
        Legal (pathAccesses (returnAtOnce localCount) cfg (before ++ [block])) := by
  intro function h0 h1 before block hpath
  have hone : (returnAtOnce localCount).functionCount = 1 := rfl
  obtain rfl : function = 0 := by omega
  have hbuilt : Built (returnAtOnce localCount) cfg :=
    ⟨hcfg, fun f hf => by cases mem_singleton.mp hf; rfl, show 1 ≤ 3 by decide⟩
  have hnone : pathAccesses (returnAtOnce localCount) cfg (before ++ [block]) = [] := by
    refine flatMap_eq_nil_iff.mpr (fun ip hip => ?_)
    obtain ⟨hstart, hstop⟩ := pathInstructions_within hbuilt h0 h1 hpath.all_inFunction ip hip
    have hend : ((returnAtOnce localCount).function 0).stop = 1 := rfl
    have hbegin : ((returnAtOnce localCount).function 0).start = 0 := rfl
    obtain rfl : ip = 0 := by omega
    rfl
  rw [hnone]
  exact legal_nil

/-- Two moves of one local behind each other. The functions behind it that share the last
instructions, and those whose end wraps around, make more blocks than the tables have cells. -/
def wrappedRanges : MirModule :=
  { functions := { start := 0, count := 6, localCount := 1 } :: { start := 6, count := 3 } ::
      (List.replicate 4 [{ start := 2 ^ 62, count := 2 ^ 62 }, { start := 6, count := 3 }]).flatten
    code := [{ opcode := 1 }, { opcode := 9, a := 0, b := 0 }, { opcode := 22, b := 3, c := -1 },
      { opcode := 3, a := 0 }, { opcode := 3, a := 0 }, { opcode := 21 }, { opcode := 21 },
      { opcode := 21 }, { opcode := 21 }]
    events := [{ instruction := 3, kind := 1, slot := 0 },
      { instruction := 4, kind := 1, slot := 0 }] }

/-- A number of locals that has no table is rejected although nothing is accessed, and where the
tables of the graph are too small the second move is not seen. -/
theorem local_moves_not_exact :
    (∀ localCount ∈ [-1, 2 ^ 60], verifyMirStructure (returnAtOnce localCount) = true ∧
      (∀ ip, SingleWhole (returnAtOnce localCount) ip) ∧ SlotsInRange (returnAtOnce localCount) ∧
      ∃ cfg, buildMirCfg (returnAtOnce localCount) = some cfg ∧
        verifyMirLocalMoveDataflow (returnAtOnce localCount) cfg = false ∧
        ∀ function, 0 ≤ function → function < (returnAtOnce localCount).functionCount →
          ∀ before block, FunctionPath cfg function before block →
            Legal (pathAccesses (returnAtOnce localCount) cfg (before ++ [block]))) ∧
    verifyMirStructure wrappedRanges = true ∧ (∀ ip, SingleWhole wrappedRanges ip) ∧
      SlotsInRange wrappedRanges ∧ ∃ cfg, buildMirCfg wrappedRanges = some cfg ∧
        verifyMirLocalMoveDataflow wrappedRanges cfg = true ∧ FunctionPath cfg 0 [0] 1 ∧
        ¬ Legal (pathAccesses wrappedRanges cfg [0, 1]) := by
  constructor
  · intro localCount hmem
    have hrejected : ∀ localCount ∈ [-1, 2 ^ 60],
        ∀ cfg, buildMirCfg (returnAtOnce localCount) = some cfg →
          verifyMirLocalMoveDataflow (returnAtOnce localCount) cfg = false := by
      decide
    exact ⟨rfl, singleWhole_of_events (by revert localCount; decide),
      slotsInRange_of_functions (by revert localCount; decide), _, rfl,
      hrejected localCount hmem _ rfl, legal_returnAtOnce rfl⟩
  · refine ⟨by decide, singleWhole_of_events (by decide),
      slotsInRange_of_functions (by decide), _, rfl, by decide, ?_, ?_⟩
    · exact .step [] (.entry ⟨by decide, by decide⟩) (.inl (by decide))
        ⟨by decide, by decide⟩
    · rw [legal_iff, show pathAccesses wrappedRanges _ [0, 1] =
        [.store 0, .use 0, .move 0, .use 0, .move 0] by decide]
      simp [Accepts, Access.apply, Access.needs]

end Raz.Borrowck
