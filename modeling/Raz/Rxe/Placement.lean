import Raz.Mir.Verify
import Raz.Rxe.Lowering

/-!
# Where the lowering puts each instruction

The code of a MIR instruction is a contiguous piece of the RXE code, the pieces of a function
follow each other, and later functions do not move them.

Result: `lowerMir_placed`: the pieces of every function of an accepted module, branches patched.
-/

namespace Raz.Rxe

open List Arena

open Raz.Mir (MirModule)

/-- `chunk` stands at position `at_` of the code. -/
def PieceAt {α : Type} (code : List α) (at_ : Int) (chunk : List α) : Prop :=
  ∃ front back, code = front ++ chunk ++ back ∧ at_ = front.length

theorem PieceAt.mono {α : Type} {code longer : List α} {at_ : Int} {chunk : List α}
    (h : PieceAt code at_ chunk) (hle : code <+: longer) : PieceAt longer at_ chunk := by
  obtain ⟨front, back, rfl, hlen⟩ := h
  obtain ⟨rest, rfl⟩ := hle
  exact ⟨front, back ++ rest, by simp, hlen⟩

section

variable {captures : CaptureCounts} {mir : MirModule} {globalCount : Int}

/-- The instruction `ip` of a function is lowered to a piece of the code, and `next` is the
position after it. -/
def PlacedAt (captures : CaptureCounts) (mir : MirModule) (globalCount start stop : Int)
    (code : List Pending) (constants : List Int) (ip at_ next : Int) : Prop :=
  ∃ before chunk,
    lowerInstruction captures mir globalCount start stop ip before = some chunk ∧
      poolAfter mir ip before <+: constants ∧ PieceAt code at_ chunk ∧
      next = at_ + chunk.length

theorem PlacedAt.mono {start stop : Int} {code code' : List Pending}
    {constants constants' : List Int} {ip at_ next : Int}
    (h : PlacedAt captures mir globalCount start stop code constants ip at_ next)
    (hcode : code <+: code') (hconstants : constants <+: constants') :
    PlacedAt captures mir globalCount start stop code' constants' ip at_ next := by
  obtain ⟨before, chunk, hlower, hafter, hpiece, hnext⟩ := h
  exact ⟨before, chunk, hlower, hafter.trans hconstants, hpiece.mono hcode, hnext⟩

theorem internConstant_grows (constants : List Int) (value : Int) :
    constants <+: (internConstant constants value).2 ∧
      Arena.get (internConstant constants value).2 (internConstant constants value).1 = value ∧
      0 ≤ (internConstant constants value).1 ∧
      (internConstant constants value).1 < (internConstant constants value).2.length := by
  unfold internConstant
  split
  · rename_i hmem
    have hlt := idxOf_lt_length_of_mem hmem
    refine ⟨prefix_refl _, ?_, by simp, by simpa using hlt⟩
    rw [get_eq_getElem (by simp) (by simpa using hlt)]
    simp
  · refine ⟨prefix_append _ _, ?_, by simp, ?_⟩
    · rw [get_eq_getElem (by simp) (by simp)]
      simp
    · rw [length_append]
      exact Int.ofNat_lt.mpr (Nat.lt_succ_self _)

theorem poolAfter_grows (mir : MirModule) (ip : Int) (constants : List Int) :
    constants <+: poolAfter mir ip constants := by
  unfold poolAfter
  simp only
  split
  · exact (internConstant_grows _ _).1
  · exact prefix_refl _

/-! ## One function -/

/-- What the loop over the instructions from `ip` on makes of the module. -/
structure StepsPlaced (captures : CaptureCounts) (mir : MirModule) (globalCount start stop ip : Int)
    (out next : Lowering) : Prop where
  code : out.code <+: next.code
  constants : out.constants <+: next.constants
  functions : next.functions = out.functions
  length_eq : next.mirToRxe.length = out.mirToRxe.length
  outside : ∀ k, k < ip ∨ stop ≤ k → Arena.get next.mirToRxe k = Arena.get out.mirToRxe k
  first : ip < stop → Arena.get next.mirToRxe ip = out.code.length
  placed : ∀ k, ip ≤ k → k < stop →
    PlacedAt captures mir globalCount start stop next.code next.constants k
      (Arena.get next.mirToRxe k)
      (if k + 1 < stop then Arena.get next.mirToRxe (k + 1) else next.code.length)

theorem lowerSteps_placed {start stop : Int} (remaining : Nat) :
    ∀ {ip : Int} {out next : Lowering}, 0 ≤ ip → stop ≤ out.mirToRxe.length →
      ip + remaining = stop →
      (Arena.range ip stop).foldlM (lowerStep captures mir globalCount start stop) out = some next →
      StepsPlaced captures mir globalCount start stop ip out next := by
  induction remaining with
  | zero =>
    intro ip out next _ _ hstop h
    rw [range_eq_nil (by omega)] at h
    cases h
    exact
      { code := prefix_refl _
        constants := prefix_refl _
        functions := rfl
        length_eq := rfl
        outside := fun _ _ => rfl
        first := fun hlt => absurd hlt (by omega)
        placed := fun k h1 h2 => absurd h2 (by omega) }
  | succ remaining ih =>
    intro ip out next h0 hcap hstop h
    rw [range_cons (by omega), foldlM_cons] at h
    obtain ⟨middle, hstep, hrest⟩ := Option.bind_eq_some_iff.mp h
    obtain ⟨chunk, hchunk, rfl⟩ := Option.map_eq_some_iff.mp hstep
    have hplaced := ih (by omega) (by simpa using hcap) (by omega) hrest
    have hhere : get next.mirToRxe ip = out.code.length := by
      rw [hplaced.outside ip (.inl (by omega))]
      exact get_set_self h0 (by omega)
    refine
      { code := (prefix_append _ _).trans hplaced.code
        constants := (poolAfter_grows mir ip out.constants).trans hplaced.constants
        functions := hplaced.functions
        length_eq := by rw [hplaced.length_eq, Arena.length_set]
        outside := fun k hk => ?_
        first := fun _ => hhere
        placed := fun k h1 h2 => ?_ }
    · rw [hplaced.outside k (by omega)]
      exact get_set_ne (by omega)
    by_cases heq : k = ip
    · subst heq
      rw [hhere]
      refine ⟨out.constants, chunk, hchunk, hplaced.constants,
        PieceAt.mono ⟨out.code, [], by simp, rfl⟩ hplaced.code, ?_⟩
      split
      · rename_i hlt
        rw [hplaced.first hlt]
        simp
      -- The last instruction: nothing was lowered after it.
      rw [range_eq_nil (by omega)] at hrest
      cases hrest
      simp
    · exact hplaced.placed k (by omega) h2

/-! ## All functions -/

theorem PieceAt.stop_le {α : Type} {code chunk : List α} {at_ : Int}
    (h : PieceAt code at_ chunk) : 0 ≤ at_ ∧ at_ + chunk.length ≤ code.length := by
  obtain ⟨front, back, rfl, rfl⟩ := h
  simp only [length_append]
  omega

/-- The row and the code of a function that has been lowered. -/
structure FunctionPlaced (captures : CaptureCounts) (mir : MirModule) (globalCount : Int)
    (out : Lowering) (function : Int) : Prop where
  notExtern : (mir.function function).isExtern = 0
  argumentCount : (Arena.get out.functions function).argumentCount =
    (mir.function function).parameterCount
  frameSlots : (Arena.get out.functions function).frameSlots =
    Word.wrap ((mir.function function).count + (mir.function function).localCount)
  entry : (mir.function function).start < (mir.function function).stop →
    Arena.get out.mirToRxe (mir.function function).start =
      (Arena.get out.functions function).codeStart
  placed : ∀ ip, (mir.function function).start ≤ ip → ip < (mir.function function).stop →
    ∃ next, PlacedAt captures mir globalCount (mir.function function).start
        (mir.function function).stop out.code out.constants ip (Arena.get out.mirToRxe ip) next ∧
      next ≤ (Arena.get out.functions function).codeStop ∧
      (ip + 1 < (mir.function function).stop → next = Arena.get out.mirToRxe (ip + 1))

/-- Lowering one function: its own placement, and what it leaves alone. -/
theorem lowerFunction_placed {out next : Lowering} {function : Int}
    (hstart : 0 ≤ (mir.function function).start)
    (hle : (mir.function function).start ≤ (mir.function function).stop)
    (hstop : (mir.function function).stop < out.mirToRxe.length)
    (h0 : 0 ≤ function) (h1 : function < out.functions.length)
    (h : lowerFunction captures mir globalCount out function = some next) :
    FunctionPlaced captures mir globalCount next function ∧
      out.code <+: next.code ∧ out.constants <+: next.constants ∧
      next.functions.length = out.functions.length ∧
      next.mirToRxe.length = out.mirToRxe.length ∧
      (∀ other, other ≠ function → Arena.get next.functions other = Arena.get out.functions other) ∧
      ∀ k, k < (mir.function function).start →
        Arena.get next.mirToRxe k = Arena.get out.mirToRxe k := by
  unfold lowerFunction at h
  simp only at h
  split at h
  · cases h
  rename_i hextern
  split at h
  · cases h
  rename_i steps hsteps
  split at h
  · cases h
  cases h
  have hplaced := lowerSteps_placed
    ((mir.function function).stop - (mir.function function).start).toNat hstart
    (Int.le_of_lt hstop) (by omega) hsteps
  have hlen : (mir.function function).stop < steps.mirToRxe.length := by
    rw [hplaced.length_eq]
    exact hstop
  have hrow : function < steps.functions.length := by
    rw [hplaced.functions]
    exact h1
  have hmap : ∀ k, k < (mir.function function).stop →
      get (set steps.mirToRxe (mir.function function).stop steps.code.length) k =
        get steps.mirToRxe k := fun k hk => get_set_ne (by omega)
  refine ⟨?_, hplaced.code, hplaced.constants, ?_, ?_, ?_, ?_⟩
  · refine
      { notExtern := Decidable.of_not_not hextern
        argumentCount := ?_
        frameSlots := ?_
        entry := fun hlt => ?_
        placed := fun ip hge hlt => ?_ }
    · simp only [Arena.modify]
      rw [Arena.get_set_self h0 hrow]
    · simp only [Arena.modify]
      rw [Arena.get_set_self h0 hrow]
    · simp only [Arena.modify]
      rw [Arena.get_set_self h0 hrow, hmap _ hlt]
      exact hplaced.first hlt
    have hpiece := hplaced.placed ip hge hlt
    refine ⟨_, by rw [hmap ip hlt]; exact hpiece, ?_, fun hnext => ?_⟩
    · obtain ⟨_, chunk, _, _, hat, hnext⟩ := hpiece
      have hle := hat.stop_le.2
      simp only [Arena.modify]
      rw [Arena.get_set_self h0 hrow, hnext]
      simp only [Function.codeStop]
      omega
    · rw [if_pos hnext, hmap _ hnext]
  · rw [Arena.length_modify, hplaced.functions]
  · rw [Arena.length_set, hplaced.length_eq]
  · intro other hne
    simp only [Arena.modify]
    rw [Arena.get_set_ne (fun heq => hne heq.symm), hplaced.functions]
  · intro k hk
    rw [hmap k (by omega), hplaced.outside k (.inl hk)]

/-- A placement survives whatever keeps its row, its part of the map and the code. -/
theorem FunctionPlaced.mono {out next : Lowering} {function : Int}
    (h : FunctionPlaced captures mir globalCount out function)
    (hcode : out.code <+: next.code) (hconstants : out.constants <+: next.constants)
    (hrow : Arena.get next.functions function = Arena.get out.functions function)
    (hmap : ∀ k, k < (mir.function function).stop →
      Arena.get next.mirToRxe k = Arena.get out.mirToRxe k) :
    FunctionPlaced captures mir globalCount next function where
  notExtern := h.notExtern
  argumentCount := by rw [hrow, h.argumentCount]
  frameSlots := by rw [hrow, h.frameSlots]
  entry := fun hlt => by rw [hrow, hmap _ hlt, h.entry hlt]
  placed := fun ip hge hlt => by
    obtain ⟨after, hplaced, hle, hnext⟩ := h.placed ip hge hlt
    refine ⟨after, ?_, by rw [hrow]; exact hle, fun hlt' => by rw [hmap _ hlt', hnext hlt']⟩
    rw [hmap ip hlt]
    exact hplaced.mono hcode hconstants

/-- The functions below `count` are placed after `count` rounds. -/
theorem lowerFunctions_placed (hverify : Mir.Verified mir) (count : Nat) :
    ∀ {out next : Lowering}, (count : Int) ≤ mir.functionCount →
      out.functions.length = mir.functions.length → out.mirToRxe.length = mir.code.length + 1 →
      (Arena.range 0 count).foldlM (lowerFunction captures mir globalCount) out = some next →
      next.functions.length = mir.functions.length ∧
        next.mirToRxe.length = mir.code.length + 1 ∧
        ∀ function : Int, 0 ≤ function → function < count →
          FunctionPlaced captures mir globalCount next function := by
  induction count with
  | zero =>
    intro out next _ hrows hmap h
    rw [range_eq_nil (by simp)] at h
    cases h
    exact ⟨hrows, hmap, fun function h0 h1 => absurd h1 (by omega)⟩
  | succ count ih =>
    intro out next hle hrows hmap h
    rw [range_append (show (0 : Int) ≤ (count : Int) by omega)
      (show (count : Int) ≤ ((count + 1 : Nat) : Int) by omega), foldlM_append] at h
    obtain ⟨middle, hfirst, hlast⟩ := Option.bind_eq_some_iff.mp h
    rw [range_cons (by omega), range_eq_nil (by omega), foldlM_cons] at hlast
    obtain ⟨last, hlast, hnil⟩ := Option.bind_eq_some_iff.mp hlast
    cases hnil
    obtain ⟨hrows', hmap', hplaced⟩ := ih (by omega) hrows hmap hfirst
    unfold MirModule.functionCount at hle
    obtain ⟨hstart, hcount, hstop⟩ := Mir.range_of_verified hverify
      (show (0 : Int) ≤ (count : Int) by omega)
      (show (count : Int) < mir.functionCount by unfold MirModule.functionCount; omega)
    have hstop' := hverify.bounded.stop_eq (count : Int)
    unfold MirModule.instructionCount at hstop
    obtain ⟨hnew, hcode, hconstants, hlen, hlen', hothers, hkeep⟩ :=
      lowerFunction_placed hstart (by omega) (by omega) (by omega) (by omega) hlast
    refine ⟨by omega, by omega, fun function h0 h1 => ?_⟩
    by_cases heq : function = count
    · exact heq ▸ hnew
    refine (hplaced function h0 (by omega)).mono hcode hconstants (hothers function heq) ?_
    intro k hk
    have := Mir.ranges_ordered hverify h0 (show function < (count : Int) by omega)
      (show (count : Int) < mir.functionCount by unfold MirModule.functionCount; omega)
    exact hkeep k (by omega)

/-! ## The finished module -/

/-- The code of a MIR instruction in the finished module. -/
structure Emitted (captures : CaptureCounts) (mir : MirModule) (m : RxeModule)
    (position : Int → Int) (function ip next : Int) (before : List Int)
    (chunk : List Pending) : Prop where
  lower : lowerInstruction captures mir m.globalCount (mir.function function).start
    (mir.function function).stop ip before = some chunk
  pool : poolAfter mir ip before <+: m.constants
  nonneg : 0 ≤ position ip
  next_eq : next = position ip + chunk.length
  next_le : next ≤ (m.function function).codeStop
  follows : ip + 1 < (mir.function function).stop → next = position (ip + 1)
  code : ∀ (k : Nat) (pending : Pending), chunk[k]? = some pending →
    m.instruction (position ip + k) =
      if pending.branch ≥ 0 then
        { pending.instruction with immediate := position pending.branch }
      else pending.instruction

theorem patchBranch_eq {mirToRxe : List Int} {count : Int} {pending : Pending}
    {instruction : Instruction}
    (h : patchBranch mirToRxe count pending = some instruction) :
    instruction = if pending.branch ≥ 0 then
      { pending.instruction with immediate := Arena.get mirToRxe pending.branch }
      else pending.instruction := by
  unfold patchBranch at h
  split at h <;> rename_i hbranch
  · split at h
    · cases h
    simp only at h
    split at h
    · cases h
    · cases h
      rw [if_pos hbranch]
  · cases h
    rw [if_neg hbranch]

/-- What an accepted lowering looks like. -/
structure Lowered (captures : CaptureCounts) (mir : MirModule) (m : RxeModule)
    (position : Int → Int) : Prop where
  functionCount : m.functionCount = mir.functionCount
  notExtern : ∀ function, 0 ≤ function → function < mir.functionCount →
    (mir.function function).isExtern = 0
  argumentCount : ∀ function, 0 ≤ function → function < mir.functionCount →
    (m.function function).argumentCount = (mir.function function).parameterCount
  frameSlots : ∀ function, 0 ≤ function → function < mir.functionCount →
    (m.function function).frameSlots =
      Word.wrap ((mir.function function).count + (mir.function function).localCount)
  entry : ∀ function, 0 ≤ function → function < mir.functionCount →
    (mir.function function).start < (mir.function function).stop →
    position (mir.function function).start = (m.function function).codeStart
  emitted : ∀ function, 0 ≤ function → function < mir.functionCount → ∀ ip,
    (mir.function function).start ≤ ip → ip < (mir.function function).stop →
    ∃ next before chunk, Emitted captures mir m position function ip next before chunk

theorem lowerMir_placed (hverify : Mir.Verified mir) {out m : RxeModule}
    (hrows : out.functions.length = mir.functions.length)
    (h : lowerMir captures mir out = some m) :
    ∃ position, Lowered captures mir m position := by
  unfold lowerMir at h
  split at h
  · cases h
  rename_i lowering hlowering
  split at h
  · cases h
  rename_i code hcode
  cases h
  have hcount : mir.functionCount = ((mir.functions.length : Nat) : Int) := rfl
  rw [hcount] at hlowering
  obtain ⟨hlen, _, hplaced⟩ := lowerFunctions_placed hverify mir.functions.length
    (Int.le_refl _) hrows (by simp) hlowering
  refine ⟨get lowering.mirToRxe,
    { functionCount := by simp [RxeModule.functionCount, MirModule.functionCount, hlen]
      notExtern := fun function h0 h1 => (hplaced function h0 h1).notExtern
      argumentCount := fun function h0 h1 => (hplaced function h0 h1).argumentCount
      frameSlots := fun function h0 h1 => (hplaced function h0 h1).frameSlots
      entry := fun function h0 h1 hlt => (hplaced function h0 h1).entry hlt
      emitted := fun function h0 h1 ip hge hlt => ?_ }⟩
  obtain ⟨next, ⟨before, chunk, hlower, hpool, hpiece, hnext⟩, hle, hfollows⟩ :=
    (hplaced function h0 h1).placed ip hge hlt
  refine ⟨next, before, chunk,
    { lower := hlower
      pool := hpool
      nonneg := hpiece.stop_le.1
      next_eq := hnext
      next_le := hle
      follows := hfollows
      code := fun k pending hk => ?_ }⟩
  obtain ⟨front, back, hsplit, hat⟩ := hpiece
  have hitem : lowering.code[front.length + k]? = some pending := by
    obtain ⟨hlt, hget⟩ := List.getElem?_eq_some_iff.mp hk
    rw [hsplit, append_assoc, List.getElem?_append_right (by omega),
      List.getElem?_append_left (by omega)]
    simpa using hk
  have hpatched := (mapM_getElem? _ hcode).2 hitem
  have hlt' : front.length + k < code.length := by
    rw [(mapM_getElem? _ hcode).1]
    exact (List.getElem?_eq_some_iff.mp hitem).1
  have hget : get code (get lowering.mirToRxe ip + k) = code[front.length + k] := by
    rw [hat, ← Int.natCast_add]
    refine get_eq_some (by omega) ?_
    rw [Int.toNat_natCast, List.getElem?_eq_getElem hlt']
  rw [List.getElem?_eq_getElem hlt', ← hget] at hpatched
  exact patchBranch_eq hpatched

end

end Raz.Rxe
