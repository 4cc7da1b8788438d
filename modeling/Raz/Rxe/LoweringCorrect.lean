import Raz.Mir.Interpreter
import Raz.Rxe.Placement
import Raz.Rxe.Reference

/-!
# The lowering keeps the result of a run

The slots of an RXE frame hold the registers of the MIR frame, except for the registers of
labels: the lowering takes the flag of a label for a register, and it drops the value a branch
carries. The simulation therefore holds for runs that read no label.

Results:
1. `lower_correct`: an accepted module returns what its MIR returns.
2. `lower_wrong`: a label that merges a value.
-/

namespace Raz.Rxe

open Raz.Mir (MirModule executeMirFunction interpretFrame interpretStep)

/-! ## Scalar modules and clean runs -/

/-- Constants, parameters, local loads and stores, addition, subtraction, calls, returns,
comparisons, negation, jumps, branches, labels and the bitwise operators. -/
def scalarOpcode (opcode : Int) : Bool :=
  (1 ≤ opcode ∧ opcode ≤ 5) ∨ (8 ≤ opcode ∧ opcode ≤ 16) ∨ opcode = 18 ∨
    (21 ≤ opcode ∧ opcode ≤ 24) ∨ (35 ≤ opcode ∧ opcode ≤ 37)

/-- Every instruction of a function is one of these, of type `i64`. -/
def ScalarModule (mir : MirModule) : Prop :=
  ∀ function, 0 ≤ function → function < mir.functionCount → ∀ ip,
    (mir.function function).start ≤ ip → ip < (mir.function function).stop →
    scalarOpcode (mir.opcode ip) = true ∧ (mir.instruction ip).type = 0

/-- The registers an instruction reads. -/
def readRegisters (mir : MirModule) (ip : Int) : List Int :=
  let i := mir.instruction ip
  if i.opcode = 8 then
    (Arena.range 0 i.c).map (fun argument => Arena.get mir.callArguments (i.b + argument))
  else if i.opcode = 9 then [i.b]
  else if i.opcode = 10 ∨ i.opcode = 18 ∨ i.opcode = 23 then [i.a]
  else if isBinary i.opcode then [i.a, i.b]
  else []

/-- Not the register of a label of the function, nor the one that carries edge values. -/
def readable (mir : MirModule) (f : Mir.Function) (register : Int) : Bool :=
  ¬ (f.start ≤ register ∧ register < f.stop ∧ mir.opcode register = 24) ∧
    register ≠ mir.instructionCount

/-- The two executors agree on the locals of this index. -/
def localInBoth (f : Mir.Function) (slot : Int) : Bool :=
  slot < localCapacity ↔ slot ≤ f.localCount

/-- What the lowering takes for granted about an instruction of `f` when it is executed. -/
def permitted (mir : MirModule) (f : Mir.Function) (ip : Int) : Bool :=
  let i := mir.instruction ip
  (readRegisters mir ip).all (readable mir f) &&
  (i.opcode ≠ 2 ∨ (0 ≤ i.a ∧ i.a < f.parameterCount)) &&
  ((i.opcode ≠ 3 ∧ i.opcode ≠ 9) ∨ localInBoth f i.a) &&
  (i.opcode ≠ 8 ∨ (0 ≤ i.a ∧ i.a < mir.functionCount ∧
    i.c = (mir.function i.a).parameterCount)) &&
  (i.opcode = 10 ∨ i.opcode = 21 ∨ i.opcode = 22 ∨ i.opcode = 23 ∨ ip + 1 < f.stop)

section

variable {World : Type}

/-- Every instruction the run of a frame executes is permitted, and it does not run past the
end of the function. The interpreter's loop, with `clean` for the callees. -/
def frameRunsClean (mir : MirModule) (f : Mir.Function) (arguments : List Int)
    (call : Int → List Int → Mir.Store World → Option (Mir.Result World))
    (clean : Int → List Int → Mir.Store World → Bool) :
    Nat → Int → Mir.Frame → Mir.Store World → Bool
  | budget, ip, frame, store =>
      if ip < f.stop then
        match budget with
        | 0 => true
        | budget + 1 =>
            permitted mir f ip &&
            match interpretStep mir arguments ip frame store with
            | .next ip frame store =>
              frameRunsClean mir f arguments call clean budget ip frame store
            | .call function values =>
                clean function values store &&
                match call function values store with
                | none => true
                | some result =>
                    frameRunsClean mir f arguments call clean budget (ip + 1)
                      (frame.write ip result.value) result.store
            | .done _ => true
            | .foreign => true
      else false

/-- The callees of a function: externs are not entered. -/
def calleeRun (mir : MirModule) (externs : Mir.Externs World) (depth : Nat) (target : Int)
    (values : List Int) (store : Mir.Store World) : Option (Mir.Result World) :=
  if (mir.function target).isExtern ≠ 0 then
    let (value, world) := externs (mir.function target).externKind values store.world
    some ⟨value, { store with world }, true⟩
  else executeMirFunction mir externs depth target values store

/-- The run of a function is clean, and so are the runs of the functions it calls: the frame
that the lowering gives each of them can be created. -/
def runsClean (mir : MirModule) (externs : Mir.Externs World) :
    Nat → Int → List Int → Mir.Store World → Bool
  | 0, _, _, _ => true
  | depth + 1, function, arguments, store =>
      let f := mir.function function
      decide (0 ≤ f.localCount) && Arena.creates (f.count + f.localCount + 1) &&
      frameRunsClean mir f arguments (calleeRun mir externs depth)
        (fun target values store =>
          (mir.function target).isExtern ≠ 0 || runsClean mir externs depth target values store)
        Mir.stepBudget f.start (Mir.entryFrame mir f) store

end

/-! ## Related frames -/

/-- An operand is loaded from its slot. -/
def Frame.load (frame : Frame) (start register operand : Int) : Frame :=
  frame.write register (Arena.get frame.slots (operand - start))

/-- The RXE frame of a MIR frame between two MIR instructions. -/
structure Related (mir : MirModule) (f : Mir.Function) (frame : Mir.Frame) (frame' : Frame) :
    Prop where
  registers_length : frame.registers.length = mir.code.length + 1
  locals_length : (frame.locals.length : Int) = f.localCount + 1
  scratch_length : frame'.registers.length = 32
  slots_length : (frame'.slots.length : Int) = f.stop - f.start + f.localCount + 1
  locals_length' : frame'.locals.length = localCapacity
  staged_length : frame'.staged.length = stagedCapacity
  values : ∀ v, readable mir f v = true → Arena.get frame'.slots (v - f.start) = frame.read v
  locals : ∀ a, localInBoth f a = true → Arena.get frame'.locals a = Arena.get frame.locals a

section

variable {mir : MirModule} {f : Mir.Function} {frame : Mir.Frame} {frame' : Frame}

section

variable (h : Related mir f frame frame')

include h

theorem Related.write (register value : Int) : Related mir f frame (frame'.write register value) :=
  { h with scratch_length := by simp [Frame.write, h.scratch_length] }

theorem Related.load (register operand : Int) :
    Related mir f frame (frame'.load f.start register operand) := h.write _ _

theorem Related.stage (index value : Int) :
    Related mir f frame { frame' with staged := Arena.set frame'.staged index value } :=
  { h with staged_length := by simp [h.staged_length] }

theorem Related.store {ip value value' : Int} (h0 : 0 ≤ f.start) (hge : f.start ≤ ip)
    (hlt : ip < f.stop) (hstop : f.stop ≤ mir.instructionCount) (hlocals : 0 ≤ f.localCount)
    (hval : mir.opcode ip ≠ 24 → value' = value) :
    Related mir f (frame.write ip value)
      { frame' with slots := Arena.set frame'.slots (ip - f.start) value' } :=
  { h with
    registers_length := by simp [Mir.Frame.write, h.registers_length]
    slots_length := by simp [h.slots_length]
    values := fun v hv => by
      unfold MirModule.instructionCount at hstop
      by_cases heq : v = ip
      · subst heq
        have hop : mir.opcode v ≠ 24 := by
          intro hop
          unfold readable at hv
          rw [decide_eq_true_eq] at hv
          exact hv.1 ⟨hge, hlt, hop⟩
        unfold Mir.Frame.read Mir.Frame.write
        have hslots := h.slots_length
        have hregs := h.registers_length
        rw [Arena.get_set_self (by omega) (by omega), Arena.get_set_self (by omega) (by omega)]
        exact hval hop
      · unfold Mir.Frame.read Mir.Frame.write
        rw [Arena.get_set_ne (by omega), Arena.get_set_ne (fun heq' => heq heq'.symm)]
        exact h.values v hv }

theorem Related.storeLocal (slot value : Int) :
    Related mir f (frame.writeLocal slot value)
      { frame' with locals := Arena.set frame'.locals slot value } :=
  { h with
    locals_length := by simp [Mir.Frame.writeLocal, h.locals_length]
    locals_length' := by simp [h.locals_length']
    locals := fun a ha => by
      unfold Mir.Frame.writeLocal
      by_cases heq : slot = a
      · subst heq
        unfold localInBoth at ha
        rw [decide_eq_true_eq] at ha
        have hlen := h.locals_length
        have hlen' := h.locals_length'
        by_cases hneg : slot < 0
        · rw [Arena.get_of_neg hneg, Arena.get_of_neg hneg]
        by_cases hin : slot ≤ f.localCount
        · rw [Arena.get_set_self (by omega) (by omega), Arena.get_set_self (by omega) (by omega)]
        · rw [Arena.get_of_ge (by rw [Arena.length_set]; omega),
            Arena.get_of_ge (by rw [Arena.length_set]; omega)]
      · rw [Arena.get_set_ne heq, Arena.get_set_ne heq]
        exact h.locals a ha }

theorem Related.carryEdgeValue (operand : Int) :
    Related mir f (Mir.carryEdgeValue mir frame operand) frame' := by
  unfold Mir.carryEdgeValue
  split
  · exact
      { h with
        registers_length := by simp [Mir.Frame.write, h.registers_length]
        values := fun v hv => by
          have hne : v ≠ mir.instructionCount := by
            unfold readable at hv
            rw [decide_eq_true_eq] at hv
            exact hv.2
          unfold Mir.Frame.read Mir.Frame.write
          rw [Arena.get_set_ne (fun heq => hne heq.symm)]
          exact h.values v hv }
  · exact h

end

theorem Related.entry (hstop : f.start ≤ f.stop) (hlocals : 0 ≤ f.localCount) {g : Function}
    (hslots : g.frameSlots = f.stop - f.start + f.localCount) :
    Related mir f (Mir.entryFrame mir f) (entryFrame g) where
  registers_length := by simp [Mir.entryFrame]
  locals_length := by
    simp only [Mir.entryFrame, List.length_replicate]
    omega
  scratch_length := by simp [entryFrame, registerCount]
  slots_length := by
    simp only [entryFrame, List.length_replicate]
    omega
  locals_length' := by simp [entryFrame]
  staged_length := by simp [entryFrame]
  values := fun v _ => by
    unfold Mir.Frame.read
    exact (Arena.get_replicate_default _ _).trans (Arena.get_replicate_default _ _).symm
  locals := fun a _ =>
    (Arena.get_replicate_default _ _).trans (Arena.get_replicate_default _ _).symm

end

/-! ## Running a piece of code -/

/-- The run returns `value` and leaves the shared state, unless it meets a bound. -/
def Agrees (value : Int) (state : ReferenceState) (outcome : Outcome) : Prop :=
  outcome = .bound ∨ outcome = .returned value state

section

variable {m : RxeModule} {arguments : List Int} {argumentCount : Int} {g : Function}
  {call : Int → List Int → Int → ReferenceState → Outcome}

/-- `Runs ip frame`: whatever the remaining steps, the frame agrees. -/
def Runs (m : RxeModule) (arguments : List Int) (argumentCount : Int) (g : Function)
    (call : Int → List Int → Int → ReferenceState → Outcome) (value : Int)
    (state : ReferenceState) (ip : Int) (frame : Frame) : Prop :=
  ∀ steps, Agrees value state
    (referenceFrame m arguments argumentCount g call steps ip frame state)

variable {value : Int} {state : ReferenceState} {ip : Int} {frame : Frame}

theorem Runs.of_next {ip' : Int} {frame' : Frame} (h0 : 0 ≤ ip) (h1 : ip < g.codeStop)
    (hstep : referenceStep m arguments argumentCount ip frame state = .next ip' frame' state)
    (hrest : Runs m arguments argumentCount g call value state ip' frame') :
    Runs m arguments argumentCount g call value state ip frame := by
  intro steps
  unfold referenceFrame
  rw [if_pos ⟨h0, h1⟩]
  cases steps with
  | zero => exact .inl rfl
  | succ steps =>
    simp only [hstep]
    exact hrest steps

theorem Runs.of_done (h0 : 0 ≤ ip) (h1 : ip < g.codeStop)
    (hstep : referenceStep m arguments argumentCount ip frame state = .done value) :
    Runs m arguments argumentCount g call value state ip frame := by
  intro steps
  unfold referenceFrame
  rw [if_pos ⟨h0, h1⟩]
  cases steps with
  | zero => exact .inl rfl
  | succ steps =>
    simp only [hstep]
    exact .inr rfl

theorem Runs.of_call {function count result : Int} {values : List Int} (h0 : 0 ≤ ip)
    (h1 : ip < g.codeStop)
    (hstep : referenceStep m arguments argumentCount ip frame state = .call function values count)
    (hcall : Agrees result state (call function values count state))
    (hrest : Runs m arguments argumentCount g call value state (ip + 1)
      (frame.write (m.instruction ip).dst result)) :
    Runs m arguments argumentCount g call value state ip frame := by
  intro steps
  unfold referenceFrame
  rw [if_pos ⟨h0, h1⟩]
  cases steps with
  | zero => exact .inl rfl
  | succ steps =>
    simp only [hstep]
    rcases hcall with hcall | hcall
    · rw [hcall]
      exact .inl rfl
    · rw [hcall]
      exact hrest steps

end

/-! ## The instructions the lowering emits -/

section

variable {m : RxeModule} {arguments : List Int} {argumentCount : Int} {p : Int} {frame : Frame}
  {state : ReferenceState} {dst src0 src1 immediate : Int}

theorem Frame.read_write {register other value : Int} (hlen : frame.registers.length = 32)
    (h0 : 0 ≤ register) (h1 : register < 32) :
    (frame.write register value).read other =
      if other = register then value else frame.read other :=
  Arena.get_set h0 (by omega)

theorem step_loadSlot (h : m.instruction p = (emit .loadSlot dst 0 0 immediate).instruction) :
    referenceStep m arguments argumentCount p frame state =
      .next (p + 1) (frame.write dst (Arena.get frame.slots immediate)) state := by
  simp [referenceStep, h, emit]

theorem step_storeSlot (h : m.instruction p = (emit .storeSlot 0 0 0 immediate).instruction) :
    referenceStep m arguments argumentCount p frame state =
      .next (p + 1)
        { frame with slots := Arena.set frame.slots immediate (frame.read 0) } state := by
  simp [referenceStep, h, emit]

theorem step_loadLocal (h : m.instruction p = (emit .loadLocal dst 0 0 immediate).instruction) :
    referenceStep m arguments argumentCount p frame state =
      .next (p + 1) (frame.write dst (Arena.get frame.locals immediate)) state := by
  simp [referenceStep, h, emit]

theorem step_storeLocal (h : m.instruction p = (emit .storeLocal 0 0 0 immediate).instruction) :
    referenceStep m arguments argumentCount p frame state =
      .next (p + 1)
        { frame with locals := Arena.set frame.locals immediate (frame.read 0) } state := by
  simp [referenceStep, h, emit]

theorem step_movi (h : m.instruction p = (emit .movi dst 0 0 immediate).instruction) :
    referenceStep m arguments argumentCount p frame state =
      .next (p + 1) (frame.write dst immediate) state := by
  simp [referenceStep, h, emit]

theorem step_loadArg (h : m.instruction p = (emit .loadArg dst 0 0 immediate).instruction)
    (h0 : 0 ≤ immediate) (h1 : immediate < argumentCount) :
    referenceStep m arguments argumentCount p frame state =
      .next (p + 1) (frame.write dst (Arena.get arguments immediate)) state := by
  simp only [referenceStep, h, emit, Op.ofCode_code]
  rw [if_neg (by omega)]

theorem step_constant (h : m.instruction p = (emit .ldc64 dst 0 0 immediate).instruction)
    (h0 : 0 ≤ immediate) (h1 : immediate < m.constantCount) :
    referenceStep m arguments argumentCount p frame state =
      .next (p + 1) (frame.write dst (Arena.get m.constants immediate)) state := by
  simp only [referenceStep, h, emit, Op.ofCode_code]
  rw [if_neg (by omega)]

theorem step_arg (h : m.instruction p = (emit .arg dst 0 0 immediate).instruction) :
    referenceStep m arguments argumentCount p frame state =
      .next (p + 1)
        { frame with staged := Arena.set frame.staged immediate (frame.read dst) } state := by
  simp [referenceStep, h, emit]

theorem step_call (h : m.instruction p = (emit .call dst 0 src1 immediate).instruction) :
    referenceStep m arguments argumentCount p frame state =
      .call immediate frame.staged src1 := by
  simp [referenceStep, h, emit]

theorem step_ret (h : m.instruction p = (emit .ret dst 0 0 0).instruction) :
    referenceStep m arguments argumentCount p frame state = .done (frame.read dst) := by
  simp [referenceStep, h, emit]

theorem step_retVoid (h : m.instruction p = (emit .retVoid 0 0 0 0).instruction) :
    referenceStep m arguments argumentCount p frame state = .done 0 := by
  simp [referenceStep, h, emit]

theorem step_jmp {target : Int}
    (h : m.instruction p = { (emitBranch .jmp 0 target).instruction with immediate }) :
    referenceStep m arguments argumentCount p frame state = .next immediate frame state := by
  simp [referenceStep, h, emitBranch]

theorem step_brnz {target : Int}
    (h : m.instruction p = { (emitBranch .brnz src0 target).instruction with immediate }) :
    referenceStep m arguments argumentCount p frame state =
      .next (if frame.read src0 ≠ 0 then immediate else p + 1) frame state := by
  simp [referenceStep, h, emitBranch]

/-- The operators of the scalar language compute what their MIR opcodes do. -/
theorem evalBinary_eq {opcode : Int} (hscalar : scalarOpcode opcode = true)
    (hbinary : isBinary opcode = true) (left right : Int) :
    ∃ value, Mir.evalBinary opcode left right = some value ∧
      evalBinary (binaryOp opcode 0) left right = some value := by
  have hcases : opcode = 4 ∨ opcode = 5 ∨ opcode = 11 ∨ opcode = 12 ∨ opcode = 13 ∨
      opcode = 14 ∨ opcode = 15 ∨ opcode = 16 ∨ opcode = 35 ∨ opcode = 36 ∨ opcode = 37 := by
    unfold scalarOpcode at hscalar
    unfold isBinary at hbinary
    rw [decide_eq_true_eq] at hscalar hbinary
    omega
  rcases hcases with rfl | rfl | rfl | rfl | rfl | rfl | rfl | rfl | rfl | rfl | rfl
  all_goals exact ⟨_, rfl, rfl⟩

theorem step_binary {op : Op} {result : Int}
    (h : m.instruction p = (emit op dst src0 src1 0).instruction)
    (hop : evalBinary op (frame.read src0) (frame.read src1) = some result) :
    referenceStep m arguments argumentCount p frame state =
      .next (p + 1) (frame.write dst result) state := by
  cases op <;> first
    | (cases hop; done)
    | (simp only [referenceStep, h, emit, Op.ofCode_code, hop])

end

/-! ## One MIR instruction -/

section

variable {k : Nat} {pending : Pending} {op : Op} {dst src0 src1 immediate : Int}

variable {captures : CaptureCounts} {mir : MirModule} {m : RxeModule} {position : Int → Int}
  {function ip next : Int} {before : List Int} {chunk : List Pending}
  {arguments arguments' : List Int} {argumentCount value : Int} {state : ReferenceState}
  {call : Int → List Int → Int → ReferenceState → Outcome}

/-- A function of an accepted scalar module. -/
structure InModule (captures : CaptureCounts) (mir : MirModule) (m : RxeModule)
    (position : Int → Int) (function : Int) : Prop where
  verified : Mir.Verified mir
  scalar : ScalarModule mir
  lowered : Lowered captures mir m position
  nonneg : 0 ≤ function
  lt : function < mir.functionCount
  locals : 0 ≤ (mir.function function).localCount

theorem InModule.range (h : InModule captures mir m position function) :
    0 ≤ (mir.function function).start ∧ 0 ≤ (mir.function function).count ∧
      (mir.function function).stop ≤ mir.instructionCount :=
  Mir.range_of_verified h.verified h.nonneg h.lt

/-- `Here k frame`: the run from the `k`-th instruction of the piece agrees. -/
def Emitted.Here (_ : Emitted captures mir m position function ip next before chunk)
    (arguments : List Int) (argumentCount : Int)
    (call : Int → List Int → Int → ReferenceState → Outcome) (value : Int)
    (state : ReferenceState) (k : Nat) (frame : Frame) : Prop :=
  Runs m arguments argumentCount (m.function function) call value state (position ip + k) frame

variable (he : Emitted captures mir m position function ip next before chunk)

include he in
theorem Emitted.inRange (hk : chunk[k]? = some pending) :
    0 ≤ position ip + k ∧ position ip + k < (m.function function).codeStop := by
  have hlt := (List.getElem?_eq_some_iff.mp hk).1
  have := he.nonneg
  have := he.next_eq
  have := he.next_le
  omega

include he in
section

variable (hk : chunk[k]? = some (emit op dst src0 src1 immediate))

include hk

theorem Emitted.plain :
    m.instruction (position ip + k) = (emit op dst src0 src1 immediate).instruction :=
  (he.code k _ hk).trans (if_neg (show ¬ (-1 : Int) ≥ 0 by decide))

theorem Emitted.Here.of_next {frame frame' : Frame}
    (hstep : ∀ p, m.instruction p = (emit op dst src0 src1 immediate).instruction →
      referenceStep m arguments' argumentCount p frame state = .next (p + 1) frame' state)
    (hrest : he.Here arguments' argumentCount call value state (k + 1) frame') :
    he.Here arguments' argumentCount call value state k frame := by
  obtain ⟨h0, h1⟩ := he.inRange hk
  refine Runs.of_next h0 h1 (hstep _ (he.plain hk)) ?_
  rw [show position ip + (k : Int) + 1 = position ip + ((k + 1 : Nat) : Int) by omega]
  exact hrest

end

theorem Emitted.Here.runs {frame' : Frame}
    (h : he.Here arguments' argumentCount call value state 0 frame') :
    Runs m arguments' argumentCount (m.function function) call value state (position ip)
      frame' := by
  unfold Emitted.Here at h
  simpa using h

theorem Emitted.Here.of_load {start register operand : Int} {frame : Frame}
    (hk : chunk[k]? = some (loadValue start operand register)) (hrest : he.Here arguments'
      argumentCount call value state (k + 1) (frame.load start register operand)) :
    he.Here arguments' argumentCount call value state k frame :=
  Emitted.Here.of_next he hk (fun _ h => step_loadSlot h) hrest

/-- Storing the result in the slot of the instruction ends the piece. -/
theorem Emitted.Here.of_store {frame : Frame}
    (hk : chunk[k]? = some (storeResult (mir.function function).start ip))
    (hend : chunk.length = k + 1) (hnext : ip + 1 < (mir.function function).stop) (hrest : Runs m
      arguments' argumentCount (m.function function) call value state (position (ip + 1)) { frame
      with slots := Arena.set frame.slots (ip - (mir.function function).start) (frame.read 0) }) :
    he.Here arguments' argumentCount call value state k frame := by
  refine Emitted.Here.of_next he hk (fun _ h => step_storeSlot h) ?_
  unfold Emitted.Here
  have heq := he.next_eq
  rw [he.follows hnext, hend] at heq
  rw [← heq]
  exact hrest

variable (hf : InModule captures mir m position function)
  (hge : (mir.function function).start ≤ ip) (hnext : ip + 1 < (mir.function function).stop)
  {frame : Mir.Frame} {frame' : Frame} {result : Int}
  (hrel : Related mir (mir.function function) frame frame')
  (hrest : ∀ frame'', Related mir (mir.function function) (frame.write ip result) frame'' →
    Runs m arguments' argumentCount (m.function function) call value state (position (ip + 1))
      frame'')

include hf hge hnext hrel hrest in
/-- The last instruction of a piece that computes a value: register 0 holds it. -/
theorem Emitted.Here.of_result
    (hk : chunk[k]? = some (storeResult (mir.function function).start ip))
    (hend : chunk.length = k + 1) (hres : mir.opcode ip ≠ 24 → frame'.read 0 = result) :
    he.Here arguments' argumentCount call value state k frame' := by
  obtain ⟨hstart, -, hstop⟩ := hf.range
  exact Emitted.Here.of_store he hk hend hnext
    (hrest _ (hrel.store hstart hge (by omega) hstop hf.locals hres))

include he hf hge hnext hrel hrest in
theorem Emitted.Here.of_value {result' : Int} (hchunk : chunk =
      [emit op 0 src0 src1 immediate, storeResult (mir.function function).start ip])
    (hstep : ∀ p, m.instruction p = (emit op 0 src0 src1 immediate).instruction →
      referenceStep m arguments' argumentCount p frame' state =
        .next (p + 1) (frame'.write 0 result') state)
    (hres : mir.opcode ip ≠ 24 → result' = result) :
    Runs m arguments' argumentCount (m.function function) call value state (position ip)
      frame' := by
  subst hchunk
  refine Emitted.Here.runs he (Emitted.Here.of_next he rfl hstep
    (Emitted.Here.of_result he hf hge hnext (hrel.write 0 result') hrest rfl rfl fun hop => ?_))
  rw [Frame.read_write hrel.scratch_length (by decide) (by decide), if_pos rfl]
  exact hres hop

theorem Related.read_load {frame : Mir.Frame} {frame' : Frame} {register operand : Int}
    (hrel : Related mir (mir.function function) frame frame')
    (hread : readable mir (mir.function function) operand = true)
    (h0 : 0 ≤ register) (h1 : register < 32) :
    (frame'.load (mir.function function).start register operand).read register =
      frame.read operand := by
  unfold Frame.load
  rw [Frame.read_write hrel.scratch_length h0 h1, if_pos rfl]
  exact hrel.values operand hread

theorem Related.read_pair {frame : Mir.Frame} {frame' : Frame} {left right : Int}
    (hrel : Related mir (mir.function function) frame frame')
    (hleft : readable mir (mir.function function) left = true)
    (hright : readable mir (mir.function function) right = true) :
    ((frame'.load (mir.function function).start 1 left).load (mir.function function).start 2
        right).read 1 = frame.read left ∧
      ((frame'.load (mir.function function).start 1 left).load (mir.function function).start 2
        right).read 2 = frame.read right := by
  have hrel1 := hrel.load 1 left
  refine ⟨?_, hrel1.read_load hright (by decide) (by decide)⟩
  rw [Frame.load, Frame.read_write hrel1.scratch_length (by decide) (by decide), if_neg (by decide)]
  exact hrel.read_load hleft (by decide) (by decide)

end

/-! ## The cases of an instruction -/

section

variable {captures : CaptureCounts} {mir : MirModule} {m : RxeModule} {position : Int → Int}
  {function ip next : Int} {before : List Int} {chunk : List Pending}

theorem permitted_spec {f : Mir.Function} (h : permitted mir f ip = true) :
    (∀ v ∈ readRegisters mir ip, readable mir f v = true) ∧
      (mir.opcode ip = 2 → 0 ≤ mir.opA ip ∧ mir.opA ip < f.parameterCount) ∧
      (mir.opcode ip = 3 ∨ mir.opcode ip = 9 → localInBoth f (mir.opA ip) = true) ∧
      (mir.opcode ip = 8 → 0 ≤ mir.opA ip ∧ mir.opA ip < mir.functionCount ∧
        mir.opC ip = (mir.function (mir.opA ip)).parameterCount) ∧
      (mir.opcode ip = 10 ∨ mir.opcode ip = 21 ∨ mir.opcode ip = 22 ∨ mir.opcode ip = 23 ∨
        ip + 1 < f.stop) := by
  unfold permitted at h
  simp only [Bool.and_eq_true, List.all_eq_true, decide_eq_true_eq] at h
  obtain ⟨⟨⟨⟨hread, hparam⟩, hlocal⟩, hcall⟩, hend⟩ := h
  refine ⟨hread, fun hop => ?_, fun hop => ?_, fun hop => ?_, hend⟩
  · exact hparam.resolve_left (fun hne => hne hop)
  · refine hlocal.resolve_left (fun hne => ?_)
    rcases hop with hop | hop
    · exact hne.1 hop
    · exact hne.2 hop
  · exact hcall.resolve_left (fun hne => hne hop)

/-- The frames after `frame'` is entered at `ip` agree when the frames after `next` do. -/
def Simulates (mir : MirModule) (m : RxeModule) (position : Int → Int) (function : Int)
    (arguments : List Int) (call : Int → List Int → Int → ReferenceState → Outcome)
    (ip : Int) (frame' : Frame) (next : Int) (frame : Mir.Frame) : Prop :=
  ∀ value state,
    (∀ frame'', Related mir (mir.function function) frame frame'' →
      Runs m arguments (mir.function function).parameterCount (m.function function) call value
        state (position next) frame'') →
    Runs m arguments (mir.function function).parameterCount (m.function function) call value state
      (position ip) frame'

variable {arguments arguments' : List Int} {World : Type} {frame : Mir.Frame} {frame' : Frame}
  {store : Mir.Store World} {call : Int → List Int → Int → ReferenceState → Outcome}

variable (arguments store) (hf : InModule captures mir m position function)
  (hge : (mir.function function).start ≤ ip) (hlt : ip < (mir.function function).stop)
  (hpermitted : permitted mir (mir.function function) ip = true)
  (hrel : Related mir (mir.function function) frame frame')

include hf hge hlt hpermitted hrel

/-- Constants, parameters, local loads, labels, operators: the instruction computes a value
for its register. -/
theorem simulates_value (hlen : (arguments.length : Int) = (mir.function function).parameterCount)
    (hargs : ∀ k, 0 ≤ k → k < (mir.function function).parameterCount →
      Arena.get arguments' k = Arena.get arguments k)
    (hop : mir.opcode ip = 1 ∨ mir.opcode ip = 2 ∨ mir.opcode ip = 3 ∨ mir.opcode ip = 18 ∨
      mir.opcode ip = 24 ∨ isBinary (mir.opcode ip) = true) :
    ∃ value, interpretStep mir arguments ip frame store =
        .next (ip + 1) (frame.write ip value) store ∧
      Simulates mir m position function arguments' call ip frame' (ip + 1)
        (frame.write ip value) := by
  obtain ⟨hscalar, htype⟩ := hf.scalar function hf.nonneg hf.lt ip hge hlt
  obtain ⟨hread, hparam, hlocal, _, hend⟩ := permitted_spec hpermitted
  obtain ⟨next, before, chunk, he⟩ := hf.lowered.emitted function hf.nonneg hf.lt ip hge hlt
  have hnext : ip + 1 < (mir.function function).stop := by
    unfold isBinary at hop
    rw [decide_eq_true_eq] at hop
    omega
  have hlower := he.lower
  unfold MirModule.opcode MirModule.opA at *
  have hnormal : normalizeInteger 0 (mir.instruction ip).type = [] := by
    rw [htype]
    rfl
  have hfloat : typeIsFloat (mir.instruction ip).type = false := by
    rw [htype]
    rfl
  rcases hop with hop | hop | hop | hop | hop | hop
  · refine ⟨(mir.instruction ip).a, by simp [interpretStep, Mir.evalValue, hop], ?_⟩
    simp only [lowerInstruction, hop, hfloat, hnormal, if_true, Bool.false_eq_true, if_false,
      Option.some.injEq] at hlower
    subst hlower
    intro value state hrest
    obtain ⟨_, hval, hc0, hc1⟩ := internConstant_grows before (mir.instruction ip).a
    have hpool := he.pool
    simp only [poolAfter, hop, true_or, if_true] at hpool
    have hconstant : Arena.get m.constants (internConstant before (mir.instruction ip).a).1 =
        (mir.instruction ip).a := (Arena.get_of_isPrefix hpool hc0 hc1).trans hval
    exact Emitted.Here.of_value he hf hge hnext hrel hrest rfl (fun _ h => step_constant h hc0
      (Int.lt_of_lt_of_le hc1 (Int.ofNat_le.mpr hpool.length_le))) fun _ => hconstant
  · obtain ⟨hp0, hp1⟩ := hparam hop
    refine ⟨Arena.get arguments (mir.instruction ip).a, ?_, ?_⟩
    · simp only [interpretStep, Mir.evalValue, hop, hlen]
      simp [hp0, hp1]
    simp only [lowerInstruction, hop, Int.reduceEq, if_true, if_false, Option.some.injEq] at hlower
    subst hlower
    intro value state hrest
    exact Emitted.Here.of_value he hf hge hnext hrel hrest rfl
      (fun _ h => step_loadArg h hp0 hp1) fun _ => hargs _ hp0 hp1
  · refine ⟨Arena.get frame.locals (mir.instruction ip).a, ?_, ?_⟩
    · simp [interpretStep, Mir.evalValue, hop]
    simp only [lowerInstruction, hop, Int.reduceEq, if_true, if_false, Option.some.injEq] at hlower
    subst hlower
    intro value state hrest
    exact Emitted.Here.of_value he hf hge hnext hrel hrest rfl (fun _ h => step_loadLocal h)
      fun _ => hrel.locals _ (hlocal (.inl hop))
  · -- Logical not: compare with zero.
    refine ⟨Word.ofBool (frame.read (mir.instruction ip).a = 0), ?_, ?_⟩
    · simp [interpretStep, Mir.evalValue, hop]
    have hreadA := hread (mir.instruction ip).a (by simp [readRegisters, hop])
    simp only [lowerInstruction, hop, isBinary, Int.reduceEq, Int.reduceLE, decide_false,
      and_true, and_false, or_self, Bool.false_eq_true, if_true, if_false, Option.some.injEq]
      at hlower
    subst hlower
    intro value state hrest
    refine Emitted.Here.runs he (Emitted.Here.of_load he rfl ?_)
    refine Emitted.Here.of_next he rfl (fun _ h => step_movi h) ?_
    have hrel1 := hrel.load 1 (mir.instruction ip).a
    have hrel2 := hrel1.write 2 0
    refine Emitted.Here.of_next he rfl (fun _ h => step_binary h rfl) ?_
    refine Emitted.Here.of_result he hf hge hnext (hrel2.write _ _) hrest rfl rfl fun _ => ?_
    rw [Frame.read_write hrel2.scratch_length (by decide) (by decide), if_pos rfl,
      Frame.read_write hrel1.scratch_length (by decide) (by decide), if_neg (by decide),
      Frame.read_write hrel1.scratch_length (by decide) (by decide), if_pos rfl,
      hrel.read_load hreadA (by decide) (by decide)]
  · -- A label: its register is not read, so any value may be stored.
    refine ⟨if (mir.instruction ip).a ≠ 0 then frame.read mir.instructionCount else ip, ?_, ?_⟩
    · simp [interpretStep, Mir.evalValue, hop]
    simp only [lowerInstruction, hop, isBinary, Int.reduceEq, Int.reduceLE, decide_false,
      and_true, and_false, or_self, Bool.false_eq_true, if_true, if_false] at hlower
    have hlabel : ∀ {reg : Int}, mir.opcode ip ≠ 24 → reg =
        if (mir.instruction ip).a ≠ 0 then frame.read mir.instructionCount else ip :=
      fun hne => absurd hop hne
    intro value state hrest
    split at hlower
    · cases hlower
      exact Emitted.Here.of_value he hf hge hnext hrel hrest rfl (fun _ h => step_loadSlot h) hlabel
    · cases hlower
      exact Emitted.Here.of_value he hf hge hnext hrel hrest rfl (fun _ h => step_movi h) hlabel
  · obtain ⟨result, heval, heval'⟩ := evalBinary_eq hscalar hop
      (frame.read (mir.instruction ip).a) (frame.read (mir.instruction ip).b)
    have hop' := hop
    unfold isBinary at hop'
    unfold scalarOpcode at hscalar
    rw [decide_eq_true_eq] at hop' hscalar
    refine ⟨result, ?_, ?_⟩
    · have hval : Mir.evalValue mir arguments frame store ip = some result := by
        unfold Mir.evalValue
        rw [if_neg (by omega), if_neg (by omega), if_neg (by omega), if_neg (by omega),
          if_neg (by omega), if_neg (by omega), if_neg (by omega), if_neg (by omega),
          if_neg (by omega), if_neg (by omega)]
        exact heval
      unfold interpretStep
      simp only [hval]
      rw [if_neg (by omega), if_neg (by omega), if_neg (by omega), if_neg (by omega),
        if_neg (by omega), if_neg (by omega), if_neg (by omega), if_neg (by omega)]
    have hreads : readRegisters mir ip = [(mir.instruction ip).a, (mir.instruction ip).b] := by
      unfold readRegisters
      rw [if_neg (by omega), if_neg (by omega), if_neg (by omega), if_pos hop]
    have hreadA := hread (mir.instruction ip).a (by rw [hreads]; simp)
    have hreadB := hread (mir.instruction ip).b (by rw [hreads]; simp)
    have hchunk : chunk = [loadValue (mir.function function).start (mir.instruction ip).a 1,
        loadValue (mir.function function).start (mir.instruction ip).b 2,
        emit (binaryOp (mir.instruction ip).opcode 0) 0 1 2 0,
        storeResult (mir.function function).start ip] := by
      unfold lowerInstruction at hlower
      simp only [hop, hfloat, if_true, Bool.false_eq_true, if_false] at hlower
      rw [if_neg (by omega), if_neg (by omega), if_neg (by omega), if_neg (by omega),
        if_neg (by omega), if_neg (by omega), if_neg (by omega), if_neg (by omega),
        if_neg (by omega), if_neg (by omega), hnormal, ite_self, htype] at hlower
      cases hlower
      rfl
    subst hchunk
    intro value state hrest
    have hrel1 := hrel.load 1 (mir.instruction ip).a
    have hrel2 := hrel1.load 2 (mir.instruction ip).b
    refine Emitted.Here.runs he (Emitted.Here.of_load he rfl (Emitted.Here.of_load he rfl ?_))
    obtain ⟨hleft, hright⟩ := hrel.read_pair hreadA hreadB
    rw [← hleft, ← hright] at heval'
    refine Emitted.Here.of_next he rfl (fun _ h => step_binary h heval') ?_
    refine Emitted.Here.of_result he hf hge hnext (hrel2.write _ _) hrest rfl rfl fun _ => ?_
    exact (Frame.read_write hrel2.scratch_length (by decide) (by decide)).trans (if_pos rfl)

theorem simulates_storeLocal (hop : mir.opcode ip = 9) :
    ∃ stored, interpretStep mir arguments ip frame store = .next (ip + 1) stored store ∧
      Simulates mir m position function arguments' call ip frame' (ip + 1) stored := by
  obtain ⟨hread, _, hlocal, _, hend⟩ := permitted_spec hpermitted
  obtain ⟨next, before, chunk, he⟩ := hf.lowered.emitted function hf.nonneg hf.lt ip hge hlt
  have hnext : ip + 1 < (mir.function function).stop := by omega
  have hlower := he.lower
  unfold MirModule.opcode at hop
  have hreadB := hread (mir.instruction ip).b (by simp [readRegisters, hop])
  refine ⟨frame.writeLocal (mir.instruction ip).a (frame.read (mir.instruction ip).b),
    by simp [interpretStep, hop], ?_⟩
  simp only [lowerInstruction, hop, Int.reduceEq, if_true, if_false, Option.some.injEq] at hlower
  subst hlower
  intro value state hrest
  refine Emitted.Here.runs he (Emitted.Here.of_load he rfl ?_)
  refine Emitted.Here.of_next he rfl (fun _ h => step_storeLocal h) ?_
  have hpos : position (ip + 1) = position ip + ((0 + 1 + 1 : Nat) : Int) :=
    (he.follows hnext).symm.trans he.next_eq
  unfold Emitted.Here
  rw [← hpos]
  refine hrest _ ?_
  rw [hrel.read_load hreadB (by decide) (by decide)]
  exact (hrel.write 0 _).storeLocal _ _

theorem simulates_return (hop : mir.opcode ip = 10 ∨ mir.opcode ip = 21) :
    ∃ result, interpretStep mir arguments ip frame store = .done result ∧
      ∀ argumentCount state, Runs m arguments' argumentCount (m.function function) call result
        state (position ip) frame' := by
  obtain ⟨hread, _⟩ := permitted_spec hpermitted
  obtain ⟨next, before, chunk, he⟩ := hf.lowered.emitted function hf.nonneg hf.lt ip hge hlt
  have hlower := he.lower
  unfold MirModule.opcode at hop
  rcases hop with hop | hop
  · have hreadA := hread (mir.instruction ip).a (by simp [readRegisters, hop])
    refine ⟨frame.read (mir.instruction ip).a, by simp [interpretStep, hop], ?_⟩
    simp only [lowerInstruction, hop, isBinary, Int.reduceEq, Int.reduceLE, decide_false,
      and_true, and_false, or_self, Bool.false_eq_true, if_true, if_false, Option.some.injEq]
      at hlower
    subst hlower
    intro argumentCount state
    refine Emitted.Here.runs he (Emitted.Here.of_load he rfl ?_)
    obtain ⟨hr0, hr1⟩ := he.inRange (k := 1) rfl
    refine Runs.of_done hr0 hr1 ?_
    rw [step_ret (he.plain rfl), hrel.read_load hreadA (by decide) (by decide)]
  · refine ⟨0, by simp [interpretStep, hop], ?_⟩
    simp only [lowerInstruction, hop, isBinary, Int.reduceEq, Int.reduceLE, decide_false,
      and_true, and_false, or_self, Bool.false_eq_true, if_true, if_false, Option.some.injEq]
      at hlower
    subst hlower
    intro argumentCount state
    refine Emitted.Here.runs he ?_
    obtain ⟨hr0, hr1⟩ := he.inRange (k := 0) rfl
    exact Runs.of_done hr0 hr1 (step_retVoid (he.plain rfl))

/-- Jumps and branches, with or without a value for the label they lead to. -/
theorem simulates_branch (hop : mir.opcode ip = 22 ∨ mir.opcode ip = 23) :
    ∃ target carried, interpretStep mir arguments ip frame store = .next target carried store ∧
      (mir.function function).start ≤ target ∧
      Simulates mir m position function arguments' call ip frame' target carried := by
  obtain ⟨hread, _⟩ := permitted_spec hpermitted
  obtain ⟨next, before, chunk, he⟩ := hf.lowered.emitted function hf.nonneg hf.lt ip hge hlt
  obtain ⟨hstart, _⟩ := hf.range
  obtain ⟨htargets, htargets'⟩ := Mir.branch_of_verified hf.verified hf.nonneg hf.lt hge hlt
  have hlower := he.lower
  unfold MirModule.opcode MirModule.opB MirModule.opC at *
  have htarget := htargets hop
  have hpatched : ∀ {k : Nat} {op : Op} {src0 target : Int},
      chunk[k]? = some (emitBranch op src0 target) → 0 ≤ target →
      m.instruction (position ip + k) =
        { (emitBranch op src0 target).instruction with immediate := position target } := by
    intro k op src0 target hk h0
    rw [he.code k _ hk, if_pos (show (emitBranch op src0 target).branch ≥ 0 from h0)]
    rfl
  rcases hop with hop | hop
  · refine ⟨(mir.instruction ip).b, Mir.carryEdgeValue mir frame (mir.instruction ip).c,
      by simp [interpretStep, hop], htarget.1, ?_⟩
    simp only [lowerInstruction, hop, isBinary, Int.reduceEq, Int.reduceLE, decide_false,
      and_true, and_false, or_self, Bool.false_eq_true, if_true, if_false, Option.some.injEq]
      at hlower
    subst hlower
    intro value state hrest
    refine Emitted.Here.runs he ?_
    obtain ⟨hr0, hr1⟩ := he.inRange (k := 0) rfl
    exact Runs.of_next hr0 hr1 (step_jmp (hpatched rfl (by omega)))
      (hrest _ (hrel.carryEdgeValue _))
  · have hreadA := hread (mir.instruction ip).a (by simp [readRegisters, hop])
    have htarget' := htargets' hop
    -- The condition is read after the edge value is written, to a register it is not.
    have hrel' := hrel.carryEdgeValue (mir.instruction ip).d
    refine ⟨if (Mir.carryEdgeValue mir frame (mir.instruction ip).d).read
        (mir.instruction ip).a = 0 then (mir.instruction ip).b else (mir.instruction ip).c,
      Mir.carryEdgeValue mir frame (mir.instruction ip).d,
      by simp only [interpretStep, hop, Int.reduceEq, if_true, if_false], ?_, ?_⟩
    · split
      · exact htarget.1
      · exact htarget'.1
    simp only [lowerInstruction, hop, isBinary, Int.reduceEq, Int.reduceLE, decide_false,
      and_true, and_false, or_self, Bool.false_eq_true, if_true, if_false, Option.some.injEq]
      at hlower
    subst hlower
    intro value state hrest
    refine Emitted.Here.runs he (Emitted.Here.of_load he rfl ?_)
    have hload := hrel'.read_load hreadA (show (0 : Int) ≤ 1 by decide) (by decide)
    obtain ⟨hr0, hr1⟩ := he.inRange (k := 1) rfl
    refine Runs.of_next hr0 hr1 (step_brnz (hpatched rfl (by omega))) ?_
    rw [hload]
    by_cases hzero : (Mir.carryEdgeValue mir frame (mir.instruction ip).d).read
        (mir.instruction ip).a = 0
    · rw [if_pos hzero] at hrest
      rw [if_neg (by simpa using hzero)]
      obtain ⟨hs0, hs1⟩ := he.inRange (k := 2) rfl
      have hjump := hpatched (k := 2) rfl (show 0 ≤ (mir.instruction ip).b by omega)
      rw [show position ip + ((0 + 1 : Nat) : Int) + 1 = position ip + ((2 : Nat) : Int) by omega]
      exact Runs.of_next hs0 hs1 (step_jmp hjump) (hrest _ (hrel'.write _ _))
    · rw [if_neg hzero] at hrest
      rw [if_pos hzero]
      exact hrest _ (hrel'.write _ _)

omit hf hge hlt hpermitted hrel in
theorem staged_arguments (he : Emitted captures mir m position function ip next before chunk)
    {first count : Int} (hcap : count ≤ 255)
    (hchunk : ∀ k, 0 ≤ k → k < count →
      chunk[2 * k.toNat]? = some (loadValue (mir.function function).start
        (Arena.get mir.callArguments (first + k)) 0) ∧
      chunk[2 * k.toNat + 1]? = some (emit .arg 0 0 0 k))
    (hread : ∀ k, 0 ≤ k → k < count →
      readable mir (mir.function function) (Arena.get mir.callArguments (first + k)) = true)
    {argumentCount value : Int} {state : ReferenceState}
    (hrest : ∀ frame'', Related mir (mir.function function) frame frame'' →
      (∀ k, 0 ≤ k → k < count → Arena.get frame''.staged k =
        frame.read (Arena.get mir.callArguments (first + k))) →
      he.Here arguments' argumentCount call value state (2 * count.toNat) frame'')
    (remaining : Nat) :
    ∀ {done : Int} {frame' : Frame}, 0 ≤ done → done + remaining = count →
      Related mir (mir.function function) frame frame' →
      (∀ k, 0 ≤ k → k < done → Arena.get frame'.staged k =
        frame.read (Arena.get mir.callArguments (first + k))) →
      he.Here arguments' argumentCount call value state (2 * done.toNat) frame' := by
  induction remaining with
  | zero =>
    intro done frame' h0 hsum hrel hstaged
    have hdone : done = count := by omega
    subst hdone
    exact hrest frame' hrel hstaged
  | succ remaining ih =>
    intro done frame' h0 hsum hrel hstaged
    obtain ⟨hload, harg⟩ := hchunk done h0 (by omega)
    have hval := hrel.read_load (hread done h0 (by omega)) (show (0 : Int) ≤ 0 by decide)
      (by decide)
    refine Emitted.Here.of_load he hload ?_
    refine Emitted.Here.of_next he harg (fun _ h => step_arg h) ?_
    have hnext := ih (show 0 ≤ done + 1 by omega) (by omega)
      ((hrel.load 0 (Arena.get mir.callArguments (first + done))).stage done
        (frame.read (Arena.get mir.callArguments (first + done)))) ?_
    · rw [show 2 * (done + 1).toNat = 2 * done.toNat + 1 + 1 by omega] at hnext
      rw [hval]
      exact hnext
    intro k hk0 hk1
    have hlen := hrel.staged_length
    unfold stagedCapacity at hlen
    by_cases heq : k = done
    · subst heq
      exact Arena.get_set_self hk0 (by simp only [Frame.load, Frame.write]; omega)
    · refine Eq.trans ?_ (hstaged k hk0 (by omega))
      exact Arena.get_set_ne (fun h => heq h.symm)

theorem simulates_call (hop : mir.opcode ip = 8) :
    ∃ values, interpretStep mir arguments ip frame store = .call (mir.opA ip) values ∧
      0 ≤ mir.opA ip ∧ mir.opA ip < mir.functionCount ∧
      (values.length : Int) = (mir.function (mir.opA ip)).parameterCount ∧
      ∀ result value argumentCount state,
        (∀ staged, (∀ k, 0 ≤ k → k < (mir.function (mir.opA ip)).parameterCount →
            Arena.get staged k = Arena.get values k) →
          Agrees result state (call (mir.opA ip) staged
            (mir.function (mir.opA ip)).parameterCount state)) →
        (∀ frame'', Related mir (mir.function function) (frame.write ip result) frame'' →
          Runs m arguments' argumentCount (m.function function) call value state
            (position (ip + 1)) frame'') →
        Runs m arguments' argumentCount (m.function function) call value state
          (position ip) frame' := by
  obtain ⟨hread, _, _, htarget, hend⟩ := permitted_spec hpermitted
  obtain ⟨next, before, chunk, he⟩ := hf.lowered.emitted function hf.nonneg hf.lt ip hge hlt
  have hnext : ip + 1 < (mir.function function).stop := by omega
  obtain ⟨ht0, ht1, hparams⟩ := htarget hop
  have hlower := he.lower
  unfold MirModule.opcode MirModule.opA MirModule.opC at *
  simp only [lowerInstruction, hop, Int.reduceEq, if_true, if_false] at hlower
  obtain ⟨staged, hstaged, hchunk⟩ := Option.map_eq_some_iff.mp hlower
  unfold stageArguments at hstaged
  split at hstaged
  · cases hstaged
  have hlist := Option.some.inj hstaged
  have hlen : staged.length = 2 * (mir.instruction ip).c.toNat := by
    rw [← hlist, Arena.length_flatMap_pair, Arena.length_range, Int.sub_zero]
  have hcall : chunk[2 * (mir.instruction ip).c.toNat]? =
      some (emit .call 0 0 (mir.instruction ip).c (mir.instruction ip).a) := by
    rw [← hchunk, List.getElem?_append_right (by omega), hlen, Nat.sub_self]
    rfl
  have hstore : chunk[2 * (mir.instruction ip).c.toNat + 1]? =
      some (storeResult (mir.function function).start ip) := by
    rw [← hchunk, List.getElem?_append_right (by omega), hlen, Nat.add_sub_cancel_left]
    rfl
  refine ⟨Mir.callValues mir frame (mir.instruction ip).b (mir.instruction ip).c, ?_, ht0, ht1,
    ?_, ?_⟩
  · simp only [interpretStep, hop, if_true]
    rw [if_neg (not_not_intro (Arena.creates_iff.mpr (by omega)))]
  · rw [Mir.callValues, List.length_map, Arena.length_range]
    omega
  intro result value argumentCount state hagrees hrest
  have hreads : ∀ k, 0 ≤ k → k < (mir.instruction ip).c → readable mir (mir.function function)
      (Arena.get mir.callArguments ((mir.instruction ip).b + k)) = true := by
    intro k h0 h1
    refine hread _ ?_
    simp only [readRegisters, hop, if_true]
    exact List.mem_map.mpr ⟨k, Arena.mem_range.mpr ⟨h0, h1⟩, rfl⟩
  refine Emitted.Here.runs he ?_
  refine staged_arguments he (show (mir.instruction ip).c ≤ 255 by omega) ?_ hreads ?_
    (mir.instruction ip).c.toNat (Int.le_refl 0) (by omega) hrel (fun k h0 h1 => by omega)
  · intro k h0 h1
    have hpair := Arena.flatMap_pair_getElem? (fun argument => loadValue
      (mir.function function).start
      (Arena.get mir.callArguments ((mir.instruction ip).b + argument)) 0)
      (fun argument => emit .arg 0 0 0 argument) h0 h1
    rw [← hchunk, List.getElem?_append_left (by omega), List.getElem?_append_left (by omega),
      ← hlist]
    exact hpair
  · intro frame'' hrel'' hstagedValues
    obtain ⟨hr0, hr1⟩ := he.inRange hcall
    have hins := he.plain hcall
    refine Runs.of_call hr0 hr1 (step_call hins) (?_ : Agrees result state _) ?_
    · rw [hparams]
      refine hagrees _ (fun k h0 h1 => ?_)
      rw [hstagedValues k h0 (by omega), Mir.callValues]
      rw [Arena.get_eq_getElem h0 (by simp; omega)]
      simp only [List.getElem_map, Arena.getElem_range]
      rw [show (mir.instruction ip).b + (0 + (k.toNat : Int)) = (mir.instruction ip).b + k by omega]
    · rw [hins]
      have hlast : chunk.length = 2 * (mir.instruction ip).c.toNat + 1 + 1 := by
        rw [← hchunk, List.length_append, hlen]
        rfl
      have hres := Emitted.Here.of_result he hf hge hnext (hrel''.write 0 result) hrest hstore
        hlast fun _ =>
          (Frame.read_write hrel''.scratch_length (by decide) (by decide)).trans (if_pos rfl)
      unfold Emitted.Here at hres
      rw [show position ip + ((2 * (mir.instruction ip).c.toNat : Nat) : Int) + 1 =
        position ip + ((2 * (mir.instruction ip).c.toNat + 1 : Nat) : Int) by omega]
      exact hres

end

/-! ## Frames and calls -/

section

variable {captures : CaptureCounts} {mir : MirModule} {m : RxeModule} {position : Int → Int}
  {function : Int} {arguments arguments' : List Int} {World : Type}
  {call : Int → List Int → Int → ReferenceState → Outcome}

/-- The instructions of the scalar language, by how they are simulated. -/
theorem scalarOpcode_cases {opcode : Int} (h : scalarOpcode opcode = true) :
    (opcode = 1 ∨ opcode = 2 ∨ opcode = 3 ∨ opcode = 18 ∨ opcode = 24 ∨
        isBinary opcode = true) ∨
      opcode = 8 ∨ opcode = 9 ∨ (opcode = 10 ∨ opcode = 21) ∨ (opcode = 22 ∨ opcode = 23) := by
  unfold scalarOpcode at h
  unfold isBinary
  rw [decide_eq_true_eq] at h ⊢
  omega

/-- What a callee has to satisfy: the two executors agree on it. -/
def CalleesAgree (mir : MirModule)
    (callee : Int → List Int → Mir.Store World → Option (Mir.Result World))
    (clean : Int → List Int → Mir.Store World → Bool)
    (call : Int → List Int → Int → ReferenceState → Outcome) : Prop :=
  ∀ target values store result state,
    0 ≤ target → target < mir.functionCount →
    (values.length : Int) = (mir.function target).parameterCount →
    clean target values store = true → callee target values store = some result →
    result.inBudget = true → ∀ staged,
    (∀ k, 0 ≤ k → k < (mir.function target).parameterCount →
      Arena.get staged k = Arena.get values k) →
    Agrees result.value state (call target staged (mir.function target).parameterCount state)

theorem lowered_frame (hf : InModule captures mir m position function)
    (hlen : (arguments.length : Int) = (mir.function function).parameterCount)
    (hargs : ∀ k, 0 ≤ k → k < (mir.function function).parameterCount →
      Arena.get arguments' k = Arena.get arguments k)
    {callee : Int → List Int → Mir.Store World → Option (Mir.Result World)}
    {clean : Int → List Int → Mir.Store World → Bool}
    (hcallees : CalleesAgree mir callee clean call) (budget : Nat) :
    ∀ {ip : Int} {frame : Mir.Frame} {frame' : Frame} {store : Mir.Store World}
      {result : Mir.Result World} (state : ReferenceState),
      (mir.function function).start ≤ ip →
      interpretFrame mir (mir.function function) arguments callee budget ip frame store =
        some result → result.inBudget = true →
      frameRunsClean mir (mir.function function) arguments callee clean budget ip frame store =
        true →
      Related mir (mir.function function) frame frame' →
      Runs m arguments' (mir.function function).parameterCount (m.function function) call
        result.value state (position ip) frame' := by
  induction budget with
  | zero =>
    intro ip frame frame' store result state hge hrun hbudget hclean hrel
    unfold frameRunsClean at hclean
    unfold interpretFrame at hrun
    split at hclean
    · rename_i hlt
      rw [if_pos hlt] at hrun
      cases hrun
      cases hbudget
    · cases hclean
  | succ budget ih =>
    intro ip frame frame' store result state hge hrun hbudget hclean hrel
    unfold frameRunsClean at hclean
    unfold interpretFrame at hrun
    split at hclean
    case isFalse => cases hclean
    case isTrue hlt =>
    rw [if_pos hlt] at hrun
    simp only [Bool.and_eq_true] at hclean
    obtain ⟨hpermitted, hclean⟩ := hclean
    obtain ⟨hscalar, _⟩ := hf.scalar function hf.nonneg hf.lt ip hge hlt
    rcases scalarOpcode_cases hscalar with hop | hop | hop | hop | hop
    · obtain ⟨value, hstep, hsimulates⟩ :=
        simulates_value arguments store hf hge hlt hpermitted hrel hlen hargs hop
      simp only [hstep] at hrun hclean
      exact hsimulates _ state (fun _ hrel' => ih state (by omega) hrun hbudget hclean hrel')
    · obtain ⟨values, hstep, ht0, ht1, hcount, hsimulates⟩ :=
        simulates_call arguments store hf hge hlt hpermitted hrel hop
      simp only [hstep, Bool.and_eq_true] at hrun hclean
      obtain ⟨hcleanCallee, hclean⟩ := hclean
      cases hcallee : callee (mir.opA ip) values store with
      | none => simp only [hcallee, reduceCtorEq] at hrun
      | some returned =>
        simp only [hcallee] at hrun hclean
        obtain ⟨final, hfinal, rfl⟩ := Option.map_eq_some_iff.mp hrun
        simp only [Bool.and_eq_true] at hbudget
        refine hsimulates returned.value _ _ state ?_ ?_
        · exact hcallees _ _ _ _ state ht0 ht1 hcount hcleanCallee hcallee hbudget.1
        · intro frame'' hrel'
          have hrest := ih state (by omega) hfinal hbudget.2 hclean hrel'
          exact hrest
    · obtain ⟨stored, hstep, hsimulates⟩ := simulates_storeLocal arguments store hf hge hlt
        hpermitted hrel hop
      simp only [hstep] at hrun hclean
      exact hsimulates _ state (fun _ hrel' => ih state (by omega) hrun hbudget hclean hrel')
    · obtain ⟨value, hstep, hreturns⟩ := simulates_return arguments store hf hge hlt hpermitted hrel
        hop
      simp only [hstep] at hrun
      cases hrun
      exact hreturns _ state
    · obtain ⟨target, carried, hstep, htarget, hsimulates⟩ := simulates_branch
        arguments store hf hge hlt hpermitted hrel hop
      simp only [hstep] at hrun hclean
      exact hsimulates _ state (fun _ hrel' => ih state htarget hrun hbudget hclean hrel')

theorem lowered_call (hver : Mir.Verified mir) (hscalar : ScalarModule mir)
    (hlowered : Lowered captures mir m position) (externs : Mir.Externs World) (depth : Nat) :
    ∀ depth', CalleesAgree mir (executeMirFunction mir externs depth) (runsClean mir externs depth)
      (executeFunctionState m depth') := by
  induction depth with
  | zero =>
    intro depth' function arguments store result state h0 h1 hlen hclean hrun
    cases hrun
  | succ depth ih =>
    intro depth' function arguments store result state h0 h1 hlen hclean hrun hbudget arguments'
      hargs
    unfold runsClean at hclean
    simp only [Bool.and_eq_true, decide_eq_true_eq] at hclean
    obtain ⟨⟨hlocals, hcreates⟩, hclean⟩ := hclean
    have hf : InModule captures mir m position function :=
      ⟨hver, hscalar, hlowered, h0, h1, hlocals⟩
    obtain ⟨_, hcount, _⟩ := hf.range
    have hstop := hver.bounded.stop_eq function
    have hslots := hlowered.frameSlots function h0 h1
    obtain ⟨_, hsize⟩ := Arena.creates_iff.mp hcreates
    rw [Word.wrap_of_range (by omega) (by omega)] at hslots
    unfold executeMirFunction at hrun
    rw [if_neg (not_not_intro (Arena.creates_iff.mpr (by omega)))] at hrun
    unfold executeFunctionState
    rw [if_neg (by rw [hlowered.functionCount]; omega)]
    cases depth' with
    | zero => exact .inl rfl
    | succ depth' =>
      simp only
      rw [hlowered.argumentCount function h0 h1, hslots, if_neg (fun hne => hne rfl),
        if_neg (not_not_intro hcreates)]
      by_cases hempty : (mir.function function).start < (mir.function function).stop
      · rw [← hlowered.entry function h0 h1 hempty]
        -- No function of the module is extern, so the callees are those of the induction.
        have hcallees : CalleesAgree mir (calleeRun mir externs depth)
            (fun target values store => (mir.function target).isExtern ≠ 0 ||
              runsClean mir externs depth target values store)
            (executeFunctionState m depth') := by
          intro target values store result state ht0 ht1 hcount hclean hrun
          simp only [calleeRun, hlowered.notExtern target ht0 ht1] at hclean hrun
          exact ih depth' target values store result state ht0 ht1 hcount hclean hrun
        exact lowered_frame hf hlen hargs hcallees _ state (Int.le_refl _) hrun hbudget hclean
          (Related.entry (by omega) hlocals (by omega)) _
      · -- A function without instructions does not run clean.
        unfold frameRunsClean at hclean
        rw [if_neg hempty] at hclean
        cases hclean

/-- Every function of an accepted scalar module returns from its RXE code what it returns from
its MIR, on runs within the bounds whose executed instructions are all permitted. -/
theorem lower_correct (captures : CaptureCounts) {mir : MirModule} {out m : RxeModule}
    (haccepted : Mir.verifyMirStructure mir = true) (hbounded : mir.Bounded)
    (hscalar : ScalarModule mir) (hrows : out.functions.length = mir.functions.length)
    (hlower : lowerMir captures mir out = some m) {World : Type} (externs : Mir.Externs World)
    {depth : Nat} {function : Int} {arguments : List Int} {store : Mir.Store World}
    {result : Mir.Result World} (h0 : 0 ≤ function) (h1 : function < mir.functionCount)
    (hlen : (arguments.length : Int) = (mir.function function).parameterCount)
    (hrun : executeMirFunction mir externs depth function arguments store = some result)
    (hbudget : result.inBudget = true)
    (hbound : referenceExecuteFunction m function arguments arguments.length ≠ .bound)
    (hclean : runsClean mir externs depth function arguments store = true) :
    referenceExecuteFunction m function arguments arguments.length =
      .returned result.value (initialState m) := by
  have hverified : Mir.Verified mir := ⟨haccepted, hbounded⟩
  obtain ⟨position, hlowered⟩ := lowerMir_placed hverified hrows hlower
  have hagrees := lowered_call hverified hscalar hlowered externs depth depthBound function
    arguments store result (initialState m) h0 h1 hlen hclean hrun hbudget arguments
    (fun _ _ _ => rfl)
  rw [← hlen] at hagrees
  exact hagrees.resolve_left hbound

end

theorem ScalarModule.of_code {mir : MirModule} (hver : Mir.Verified mir)
    (hcode : ∀ i ∈ mir.code, scalarOpcode i.opcode = true ∧ i.type = 0) : ScalarModule mir := by
  intro function h0 h1 ip hge hlt
  obtain ⟨hstart, _, hstop⟩ := Mir.range_of_verified hver h0 h1
  unfold MirModule.instructionCount at hstop
  refine hcode (mir.instruction ip) ?_
  unfold MirModule.instruction
  rw [Arena.get_eq_getElem (by omega) (by omega)]
  exact List.getElem_mem _

/-- The first function counts its argument down to zero in a local; the second calls it. -/
def countdown : MirModule :=
  { functions := [{ start := 0, count := 13, parameterCount := 1, localCount := 1 },
      { start := 13, count := 3 }]
    code := [{ opcode := 2, a := 0 }, { opcode := 9, a := 0, b := 0 },
      { opcode := 22, b := 3, c := -1 }, { opcode := 24 }, { opcode := 3, a := 0 },
      { opcode := 1, a := 1 }, { opcode := 5, a := 4, b := 5 }, { opcode := 9, a := 0, b := 6 },
      { opcode := 3, a := 0 }, { opcode := 23, a := 8, b := 10, c := 3, d := -1 },
      { opcode := 24 }, { opcode := 3, a := 0 }, { opcode := 10, a := 11 },
      { opcode := 1, a := 2 }, { opcode := 8, a := 0, b := 0, c := 1 }, { opcode := 10, a := 14 }]
    callArguments := [13] }

def noExterns : Mir.Externs Unit := fun _ _ world => (0, world)

theorem lower_correct_countdown :
    ∃ m, lowerMir [] countdown { functions := [default, default] } = some m ∧
      referenceExecuteFunction m 1 [] 0 = .returned 0 (initialState m) := by
  have hver : Mir.Verified countdown := ⟨by decide +kernel, by decide⟩
  obtain ⟨m, hm⟩ := Option.isSome_iff_exists.mp
    (show (lowerMir [] countdown { functions := [default, default] }).isSome = true by
      decide +kernel)
  have hbound : (lowerMir [] countdown { functions := [default, default] }).all
      (fun m => referenceExecuteFunction m 1 [] 0 ≠ .bound) = true := by decide +kernel
  have hrun : executeMirFunction countdown noExterns 3 1 [] ⟨[], ()⟩ =
      some ⟨0, ⟨[], ()⟩, true⟩ := by decide +kernel
  rw [hm] at hbound
  exact ⟨m, hm, lower_correct [] hver.accepted hver.bounded
    (ScalarModule.of_code hver (by decide)) rfl hm noExterns (by decide) (by decide) rfl hrun rfl
    (of_decide_eq_true hbound) (by decide +kernel)⟩

/-- A jump that carries 5 to a label, whose value is returned. -/
def mergedValue : MirModule :=
  { functions := [{ start := 0, count := 4 }]
    code := [{ opcode := 1, a := 5 }, { opcode := 22, b := 2, c := 0 }, { opcode := 24, a := 1 },
      { opcode := 10, a := 2 }] }

/-- The lowered label loads the slot its flag names, and the carried value is lost. -/
theorem lower_wrong :
    Mir.verifyMirStructure mergedValue = true ∧ ScalarModule mergedValue ∧
      executeMirFunction mergedValue noExterns 1 0 [] ⟨[], ()⟩ = some ⟨5, ⟨[], ()⟩, true⟩ ∧
      (lowerMir [] mergedValue { functions := [default] }).map
        (fun m => referenceExecuteFunction m 0 [] 0) = some (.returned 0 { globals := [0] }) := by
  have hver : Mir.Verified mergedValue := ⟨by decide +kernel, by decide⟩
  exact ⟨hver.accepted, ScalarModule.of_code hver (by decide), by decide +kernel,
    by decide +kernel⟩

end Raz.Rxe
