import Raz.Borrowck.Paths

/-!
# The end of a loan covers its textual uses

The last-use table is built from linear scans: over all instructions for the uses of a
value, and from the loan to the end of its function for the loads of the local that holds
its reference.

Result: `loanLastUse_direct`, `loanLastUse_held`: both, for the entry of a loan.
-/

namespace Raz.Borrowck

open Raz.Mir List

/-- A use the last-use table sees: a masked register operand, or an argument of a call. -/
def TrackedUse (mir : MirModule) (ip value : Int) : Prop :=
  value ∈ maskedOperands (mir.instruction ip) ∨
    ((mir.opcode ip = 8 ∨ mir.opcode ip = 44) ∧
      value ∈ callArgumentValues mir (mir.opB ip) (mir.opC ip))

section

variable {mir : MirModule}

/-! ## Last uses of values -/

@[simp] theorem length_recordLastUse (count user : Int) (table : List Int) (value : Int) :
    (recordLastUse count user table value).length = table.length := by
  unfold recordLastUse
  split <;> simp

@[simp] theorem length_recordLastUses (count user : Int) (values : List Int) :
    ∀ (table : List Int),
      (values.foldl (recordLastUse count user) table).length = table.length := by
  induction values with
  | nil => intro table; rfl
  | cons first rest ih => intro table; rw [foldl_cons, ih, length_recordLastUse]

/-- Recording a list of uses writes their cells and keeps the others. -/
theorem get_recordLastUses (count user : Int) {value : Int} (h0 : 0 ≤ value)
    (h1 : value < count) (values : List Int) :
    ∀ {table : List Int}, count < table.length →
      Arena.get (values.foldl (recordLastUse count user) table) value = user ∨
        (value ∉ values ∧ Arena.get (values.foldl (recordLastUse count user) table) value =
          Arena.get table value) := by
  induction values with
  | nil => intro table _; exact .inr ⟨by simp, rfl⟩
  | cons first rest ih =>
    intro table hlen
    have hlen' : count < (recordLastUse count user table first).length := by
      rw [length_recordLastUse]
      exact hlen
    rcases ih hlen' with hget | ⟨hnot, hget⟩
    · exact .inl hget
    by_cases heq : first = value
    · subst heq
      refine .inl (hget.trans ?_)
      rw [recordLastUse, if_pos ⟨h0, h1⟩, Arena.get_set_self h0 (by omega)]
    refine .inr ⟨by simp [hnot, Ne.symm heq], hget.trans ?_⟩
    unfold recordLastUse
    split
    · exact Arena.get_set_ne heq
    · rfl

/-- Every tracked use at an instruction below `ip` is covered by its cell. -/
structure CoversUses (mir : MirModule) (ip : Int) (table : List Int) : Prop where
  length_lt : mir.instructionCount < table.length
  covers : ∀ user value, 0 ≤ user → user < ip → TrackedUse mir user value → 0 ≤ value →
    value < mir.instructionCount → user ≤ Arena.get table value

/-- After one instruction a cell is either written there or has no use there. -/
theorem lastUseStep_cell {ip : Int} {table table' : List Int}
    (hlen : mir.instructionCount < table.length) (h : lastUseStep mir table ip = some table') :
    mir.instructionCount < table'.length ∧
      ∀ value, 0 ≤ value → value < mir.instructionCount →
        Arena.get table' value = ip ∨
          (¬ TrackedUse mir ip value ∧ Arena.get table' value = Arena.get table value) := by
  unfold lastUseStep at h
  simp only at h
  have hmask := fun (value : Int) (h0 : 0 ≤ value) h1 => get_recordLastUses
    mir.instructionCount ip h0 h1 (maskedOperands (mir.instruction ip)) hlen
  split at h
  · split at h
    · cases h
    cases h
    refine ⟨by simpa using hlen, fun value h0 h1 => ?_⟩
    have hlen' : mir.instructionCount < ((maskedOperands (mir.instruction ip)).foldl
        (recordLastUse mir.instructionCount ip) table).length := by simpa using hlen
    rcases get_recordLastUses mir.instructionCount ip h0 h1
      (callArgumentValues mir (mir.instruction ip).b (mir.instruction ip).c) hlen' with
      hcall | ⟨hnot, hcall⟩
    · exact .inl hcall
    rcases hmask value h0 h1 with hmask | ⟨hnot', hmask⟩
    · exact .inl (hcall.trans hmask)
    refine .inr ⟨?_, hcall.trans hmask⟩
    rintro (huse | ⟨_, huse⟩)
    · exact hnot' huse
    · exact hnot huse
  · rename_i hop
    cases h
    refine ⟨by simpa using hlen, fun value h0 h1 => ?_⟩
    rcases hmask value h0 h1 with hmask | ⟨hnot, hmask⟩
    · exact .inl hmask
    refine .inr ⟨?_, hmask⟩
    rintro (huse | ⟨hcall, _⟩)
    · exact hnot huse
    · exact hop hcall

theorem lastUseStep_covers {ip : Int} {table table' : List Int}
    (h : CoversUses mir ip table) (hstep : lastUseStep mir table ip = some table') :
    CoversUses mir (ip + 1) table' := by
  obtain ⟨hlen, hcell⟩ := lastUseStep_cell h.length_lt hstep
  refine ⟨hlen, fun user value hge hlt huse h0 h1 => ?_⟩
  rcases hcell value h0 h1 with hget | ⟨hnot, hget⟩
  · omega
  · have hne : user ≠ ip := fun heq => hnot (heq ▸ huse)
    have := h.covers user value hge (by omega) huse h0 h1
    omega

theorem lastUses_covers (remaining : Nat) :
    ∀ {ip : Int} {table table' : List Int}, CoversUses mir ip table →
      (Arena.range ip (ip + remaining)).foldlM (lastUseStep mir) table = some table' →
      CoversUses mir (ip + remaining) table' := by
  induction remaining with
  | zero =>
    intro ip table table' h hrun
    rw [Arena.range_eq_nil (by omega)] at hrun
    cases hrun
    simpa using h
  | succ remaining ih =>
    intro ip table table' h hrun
    rw [Arena.range_cons (by omega), foldlM_cons] at hrun
    obtain ⟨middle, hstep, hrest⟩ := Option.bind_eq_some_iff.mp hrun
    rw [show ip + ((remaining + 1 : Nat) : Int) = ip + 1 + (remaining : Int) by omega] at hrest ⊢
    exact ih (lastUseStep_covers h hstep) hrest

theorem valueLastUses_ge {table : List Int} (h : buildValueLastUses mir = some table)
    {user value : Int} (hu0 : 0 ≤ user) (hu1 : user < mir.instructionCount)
    (huse : TrackedUse mir user value) (h0 : 0 ≤ value) (h1 : value < mir.instructionCount) :
    user ≤ Arena.get table value := by
  unfold buildValueLastUses at h
  have hinit : CoversUses mir 0 (List.replicate mir.code.length (-1) ++ [0]) := by
    refine ⟨?_, fun user value hge hlt => by omega⟩
    rw [MirModule.instructionCount, length_append, length_replicate]
    exact Int.ofNat_lt.mpr (Nat.lt_succ_self _)
  have hrun := lastUses_covers mir.code.length hinit
    (show (Arena.range 0 (0 + (mir.code.length : Int))).foldlM (lastUseStep mir) _ =
      some table by rw [Int.zero_add]; exact h)
  exact hrun.covers user value hu0 (by rw [Int.zero_add]; exact hu1) huse h0 h1

/-! ## Loads of the holder -/

theorem raiseLastUse_ge (mir : MirModule) (table : List Int) (holder ip lastUse : Int) :
    lastUse ≤ raiseLastUse mir table holder ip lastUse ∧
      (mir.opcode ip = 3 → mir.opA ip = holder →
        ip ≤ raiseLastUse mir table holder ip lastUse ∧
        Arena.get table ip ≤ raiseLastUse mir table holder ip lastUse) := by
  unfold raiseLastUse
  split
  · simp only
    split <;> split <;> constructor <;> intros <;> omega
  · rename_i hnot
    exact ⟨Int.le_refl _, fun hop ha => absurd ⟨.inl hop, ha⟩ hnot⟩

theorem le_holderLastUse {table : List Int} {instruction holder : Int} (ips : List Int) :
    ∀ {lastUse : Int}, lastUse ≤ holderLastUse mir table instruction holder ips lastUse := by
  induction ips with
  | nil => intro lastUse; exact Int.le_refl _
  | cons ip rest ih =>
    intro lastUse
    have hraise := (raiseLastUse_ge mir table holder ip lastUse).1
    unfold holderLastUse
    split
    · exact hraise
    · exact Int.le_trans hraise ih

/-- The scan sees every load before the next store of another value. -/
theorem holderLastUse_ge (table : List Int) {instruction holder load : Int}
    (hop : mir.opcode load = 3) (ha : mir.opA load = holder) (before after : List Int) :
    ∀ (lastUse : Int),
      (∀ ip ∈ before, ¬ (mir.opcode ip = 9 ∧ mir.opA ip = holder ∧ mir.opB ip ≠ instruction)) →
      load ≤ holderLastUse mir table instruction holder (before ++ load :: after) lastUse ∧
        Arena.get table load ≤
          holderLastUse mir table instruction holder (before ++ load :: after) lastUse := by
  induction before with
  | nil =>
    intro lastUse _
    obtain ⟨h1, h2⟩ := (raiseLastUse_ge mir table holder load lastUse).2 hop ha
    rw [nil_append, holderLastUse, if_neg (fun h => by omega)]
    exact ⟨Int.le_trans h1 (le_holderLastUse _), Int.le_trans h2 (le_holderLastUse _)⟩
  | cons ip rest ih =>
    intro lastUse hbefore
    rw [cons_append, holderLastUse, if_neg (hbefore ip mem_cons_self)]
    exact ih _ (fun k hk => hbefore k (mem_cons_of_mem _ hk))

/-! ## The entry of a loan -/

variable {cfg : MirCfg}

/-- A loan event of the table. -/
structure IsLoan (mir : MirModule) (event : Int) : Prop where
  nonneg : 0 ≤ event
  lt : event < mir.eventCount
  kind : eventIsLoan mir event = true

theorem loanLastUses_get {table : List Int} (h : buildLoanLastUseTable mir cfg = some table) :
    ∃ valueLastUses, buildValueLastUses mir = some valueLastUses ∧
      ∀ {event : Int}, 0 ≤ event → event < mir.eventCount →
        loanLastUse mir cfg valueLastUses event = some (Arena.get table event) := by
  unfold buildLoanLastUseTable at h
  obtain ⟨valueLastUses, hvals, htable⟩ := Option.bind_eq_some_iff.mp h
  exact ⟨valueLastUses, hvals, fun h0 h1 => Arena.get_of_mapM_range htable h0 h1⟩

theorem loanLastUse_eq {valueLastUses : List Int} {event entry : Int}
    (hloan : IsLoan mir event) (h : loanLastUse mir cfg valueLastUses event = some entry) :
    0 ≤ (mir.event event).instruction ∧
      (mir.event event).instruction < mir.instructionCount ∧
      (mir.event event).instruction ≤ entry ∧
      Arena.get valueLastUses (mir.event event).instruction ≤ entry ∧
      (0 ≤ loanHolderSlot mir event → ∃ lastUse,
        entry = holderLastUse mir valueLastUses (mir.event event).instruction
          (loanHolderSlot mir event)
          (Arena.range ((mir.event event).instruction + 1)
            (mir.function (cfg.block (cfg.blockForInstruction
              (mir.event event).instruction)).function).stop) lastUse) := by
  unfold loanLastUse at h
  simp only at h
  split at h
  · cases h
  rw [if_pos hloan.kind] at h
  have hdirect : ∀ {direct instruction : Int},
      instruction ≤ (if direct > instruction then direct else instruction) ∧
        direct ≤ (if direct > instruction then direct else instruction) := by
    intro direct instruction
    split <;> omega
  split at h
  · split at h
    · cases h
    · cases h
      exact ⟨by omega, by omega, Int.le_trans hdirect.1 (le_holderLastUse _),
        Int.le_trans hdirect.2 (le_holderLastUse _), fun _ => ⟨_, rfl⟩⟩
  · rename_i hholder
    cases h
    exact ⟨by omega, by omega, hdirect.1, hdirect.2, fun h => absurd h hholder⟩

variable {table : List Int}

/-- The entry of a loan is not before a tracked use of its reference. -/
theorem loanLastUse_direct (h : buildLoanLastUseTable mir cfg = some table) {event user : Int}
    (hloan : IsLoan mir event) (hu0 : 0 ≤ user) (hu1 : user < mir.instructionCount)
    (huse : TrackedUse mir user (mir.event event).instruction) :
    user ≤ Arena.get table event := by
  obtain ⟨valueLastUses, hvals, hget⟩ := loanLastUses_get h
  obtain ⟨h0, h1, _, hdirect, _⟩ := loanLastUse_eq hloan (hget hloan.nonneg hloan.lt)
  have := valueLastUses_ge hvals hu0 hu1 huse h0 h1
  omega

/-- Nor is it before a tracked use of a value loaded from the holder, when the load follows
the loan in its function with no store of another value to the holder in between. -/
theorem loanLastUse_held (h : buildLoanLastUseTable mir cfg = some table)
    {event load user : Int} (hloan : IsLoan mir event) (hholder : 0 ≤ loanHolderSlot mir event)
    (hafter : (mir.event event).instruction < load)
    (hstop : load < (mir.function (cfg.block (cfg.blockForInstruction
      (mir.event event).instruction)).function).stop)
    (hload : load < mir.instructionCount)
    (hop : mir.opcode load = 3) (ha : mir.opA load = loanHolderSlot mir event)
    (hstores : ∀ ip, (mir.event event).instruction < ip → ip < load →
      ¬ (mir.opcode ip = 9 ∧ mir.opA ip = loanHolderSlot mir event ∧
        mir.opB ip ≠ (mir.event event).instruction))
    (hu0 : 0 ≤ user) (hu1 : user < mir.instructionCount) (huse : TrackedUse mir user load) :
    user ≤ Arena.get table event := by
  obtain ⟨valueLastUses, hvals, hget⟩ := loanLastUses_get h
  obtain ⟨h0, h1, _, _, hheld⟩ := loanLastUse_eq hloan (hget hloan.nonneg hloan.lt)
  obtain ⟨lastUse, hentry⟩ := hheld hholder
  rw [Arena.range_append (show (mir.event event).instruction + 1 ≤ load by omega)
    (Int.le_of_lt hstop), Arena.range_cons hstop] at hentry
  obtain ⟨_, hge⟩ := holderLastUse_ge valueLastUses hop ha
    (Arena.range ((mir.event event).instruction + 1) load) _ lastUse
    (fun ip hip => hstores ip (by rw [Arena.mem_range] at hip; omega)
      (by rw [Arena.mem_range] at hip; omega))
  rw [← hentry] at hge
  have := valueLastUses_ge hvals hu0 hu1 huse (by omega) hload
  omega

end

end Raz.Borrowck
