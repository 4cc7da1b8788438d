import Raz.Forge.BinaryRoundTrip

/-!
# What the binary format guarantees

A module comes back from the format as the code generator sees it exactly if no function asks for
a target feature, which the format leaves out, the size of the payload fits its field, and the
verifier accepts the module without the attributes too. Whatever the bytes, the reader stays inside
them.

Results:
1. `readBinary_writeBinary`: when a module comes back, and what is read from any bytes.
2. `readBinary_targetFeature`: a function with a target feature comes back without it.
-/

namespace Raz.Forge.Record

open Codec Outcome Safe Reader List

/-! ## The reader stays inside the bytes -/

/-- The reader does not read outside the bytes. -/
abbrev Inside {α : Type} (read : Reader α) : Prop := Safe (fun fault => fault = .outOfBounds) read

section
variable {α : Type} {read : Reader α}

theorem inside_throw (message : String) : Inside (throw (.thrown message) : Reader α) :=
  throw fun h => Fault.noConfusion h

theorem inside_take (count : Nat) : Inside (Reader.take count) := by
  intro bytes
  by_cases hle : count ≤ bytes.length
  · have hrequire := require_of_le hle
    have hrun : Reader.take count bytes = .ok (bytes.take count, bytes.drop count) := by
      change (Reader.require count bytes >>= fun result => next count result.2) = _
      rw [hrequire]
      exact if_pos hle
    rw [hrun]
    exact True.intro
  · -- the check comes before the access
    have hrequire : Reader.require count bytes = .error (.thrown "truncated binary IR") := by
      change (if bytes.length < count then throw (.thrown _) else pure () : Reader Unit) bytes = _
      rw [if_pos (Nat.lt_of_not_le hle)]
      rfl
    have hrun : Reader.take count bytes = .error (.thrown "truncated binary IR") := by
      change (Reader.require count bytes >>= fun result => next count result.2) = _
      rw [hrequire]
      rfl
    rw [hrun]
    exact Fault.noConfusion

theorem inside_u8 : Inside Reader.u8 := (inside_take 1).bind fun _ => Safe.pure _

theorem inside_u16 : Inside Reader.u16 := (inside_u8.readMany 2).bind fun _ => Safe.pure _

theorem inside_u32 : Inside Reader.u32 := (inside_u8.readMany 4).bind fun _ => Safe.pure _

theorem inside_flag : Inside Reader.flag := inside_u8.bind fun _ => Safe.pure _

theorem inside_string : Inside Reader.string :=
  inside_u32.bind fun _ => guard (inside_throw _) (inside_take _)

theorem inside_enumerator (ofByte : UInt8 → Option α) (message : String) (raw : UInt8) :
    Inside (Reader.enumerator ofByte message raw) := by
  unfold enumerator
  split
  · exact pure _
  · exact inside_throw message

theorem inside_tag (ofByte : UInt8 → Option α) (message : String) :
    Inside (Reader.u8 >>= fun raw => Reader.enumerator ofByte message raw) :=
  inside_u8.bind fun raw => inside_enumerator ofByte message raw

theorem Inside.since (h : Inside read) (first minor : UInt16) (absent : α) :
    Inside (since first minor absent read) := by
  unfold Record.since
  split
  · exact h
  · exact pure absent

theorem Inside.count (h : Inside read) : Inside (readCount read) :=
  inside_u32.bind fun _ => guard (inside_throw _) (h.readMany _)

end

theorem inside_decl (minor : UInt16) : Inside (readDecl minor) := by
  refine inside_string.bind fun _ => ?_
  refine (inside_tag _ _).bind fun _ => ?_
  refine ((inside_tag _ _).since _ _ _).bind fun _ => ?_
  refine (inside_string.since _ _ _).bind fun _ => ?_
  refine (inside_flag.since _ _ _).bind fun _ => ?_
  refine ((inside_tag _ _).since _ _ _).bind fun _ => ?_
  refine (inside_string.since _ _ _).bind fun _ => ?_
  exact pure _

theorem inside_field (minor : UInt16) : Inside (readField minor) := by
  refine inside_string.bind fun _ => ?_
  refine (inside_tag _ _).bind fun _ => ?_
  refine ((inside_tag _ _).since _ _ _).bind fun _ => ?_
  refine (inside_string.since _ _ _).bind fun _ => ?_
  exact pure _

theorem inside_struct (minor : UInt16) : Inside (readStruct minor) := by
  refine inside_string.bind fun _ => ?_
  refine (inside_flag.since _ _ _).bind fun _ => ?_
  refine (inside_field minor).count.bind fun _ => ?_
  exact pure _

theorem inside_array (minor : UInt16) : Inside (readArray minor) := by
  refine inside_string.bind fun _ => ?_
  refine (inside_tag _ _).bind fun _ => ?_
  refine ((inside_tag _ _).since _ _ _).bind fun _ => ?_
  refine (inside_string.since _ _ _).bind fun _ => ?_
  refine inside_u32.bind fun _ => ?_
  refine (inside_flag.since _ _ _).bind fun _ => ?_
  exact pure _

theorem inside_symbol (what : String) : Inside (readSymbol what) := by
  refine inside_u8.bind fun _ => ?_
  refine inside_u8.bind fun _ => ?_
  refine (inside_enumerator _ _ _).bind fun _ => ?_
  refine (inside_enumerator _ _ _).bind fun _ => ?_
  exact pure _

theorem inside_linking : Inside readLinking := by
  refine inside_u8.bind fun _ => ?_
  refine inside_u8.bind fun _ => ?_
  refine inside_u8.bind fun _ => ?_
  refine (inside_enumerator _ _ _).bind fun _ => ?_
  refine (inside_enumerator _ _ _).bind fun _ => ?_
  refine (inside_enumerator _ _ _).bind fun _ => ?_
  exact pure _

theorem inside_global (minor : UInt16) : Inside (readGlobal minor) := by
  have hkind : Inside (do return GlobalAggregateKind.ofByte (← u8)) :=
    inside_u8.bind fun _ => pure _
  refine inside_string.bind fun _ => ?_
  refine (inside_tag _ _).bind fun _ => ?_
  refine (hkind.since _ _ _).bind fun _ => ?_
  refine (inside_string.since _ _ _).bind fun _ => ?_
  refine (inside_string.since _ _ _).bind fun _ => ?_
  refine inside_flag.bind fun _ => ?_
  refine (inside_flag.since _ _ _).bind fun _ => ?_
  refine (inside_flag.since _ _ _).bind fun _ => ?_
  refine ((inside_symbol _).since _ _ _).bind fun _ => ?_
  refine inside_string.bind fun _ => ?_
  refine (inside_u32.since _ _ _).bind fun _ => ?_
  refine (inside_u32.since _ _ _).bind fun _ => ?_
  refine (inside_flag.since _ _ _).bind fun _ => ?_
  refine (inside_string.since _ _ _).bind fun _ => ?_
  exact pure _

theorem inside_operation (minor : UInt16) : Inside (readOperation minor) := by
  refine inside_string.bind fun _ => ?_
  refine inside_string.bind fun _ => ?_
  refine (inside_tag _ _).bind fun _ => ?_
  refine inside_string.count.bind fun _ => ?_
  refine inside_string.count.bind fun _ => ?_
  refine inside_string.count.count.bind fun _ => ?_
  refine (inside_u32.since _ _ _).bind fun _ => ?_
  exact pure _

theorem inside_block (minor : UInt16) : Inside (readBlock minor) := by
  refine inside_string.bind fun _ => ?_
  refine (inside_decl minor).count.bind fun _ => ?_
  refine (inside_operation minor).count.bind fun _ => ?_
  exact pure _

theorem inside_function (minor : UInt16) : Inside (readFunction minor) := by
  have hborrow : Inside (do return (← u32).toInt32) := inside_u32.bind fun _ => pure _
  refine inside_string.bind fun _ => ?_
  refine (inside_flag.since _ _ _).bind fun _ => ?_
  refine (inside_flag.since _ _ _).bind fun _ => ?_
  refine (inside_flag.since _ _ _).bind fun _ => ?_
  refine (inside_linking.since _ _ _).bind fun _ => ?_
  refine (inside_tag _ _).bind fun _ => ?_
  refine ((inside_tag _ _).since _ _ _).bind fun _ => ?_
  refine (inside_string.since _ _ _).bind fun _ => ?_
  refine (inside_flag.since _ _ _).bind fun _ => ?_
  refine ((inside_tag _ _).since _ _ _).bind fun _ => ?_
  refine (hborrow.since _ _ _).bind fun _ => ?_
  refine (inside_decl minor).count.bind fun _ => ?_
  refine (inside_block minor).count.bind fun _ => ?_
  exact pure _

theorem inside_payload (minor : UInt16) : Inside (readPayload minor) := by
  have hfields : Inside (readFields minor) := by
    refine inside_string.bind fun _ => ?_
    refine ((inside_struct minor).count.since _ _ _).bind fun _ => ?_
    refine ((inside_array minor).count.since _ _ _).bind fun _ => ?_
    refine ((inside_global minor).count.since _ _ _).bind fun _ => ?_
    refine (inside_function minor).count.bind fun _ => ?_
    exact pure _
  have hleft : Inside (get : Reader (List UInt8)) := fun _ => True.intro
  exact hfields.bind fun m => hleft.bind fun _ => guard (inside_throw _) (pure m)

theorem inside_header : Inside readHeader := by
  have hmagic : Inside (magic.forM readMagic) :=
    forM (fun _ => inside_u8.bind fun _ => guard (inside_throw _) (pure ())) magic
  refine hmagic.bind fun _ => ?_
  refine inside_u16.bind fun _ => ?_
  refine inside_u16.bind fun _ => ?_
  refine guard (inside_throw _) (guard (inside_throw _) ?_)
  exact inside_u32.bind fun _ => inside_u32.bind fun _ => pure _

/-! ## Whole files -/

theorem payloadOf_inside (header : Header) (bytes : List UInt8) :
    Avoids (fun fault => fault = .outOfBounds) (fun _ => True) (payloadOf header bytes) := by
  unfold payloadOf
  split
  · exact Avoids.throw Fault.noConfusion
  rename_i hsize
  obtain ⟨hge, hrest⟩ := not_or.mp hsize
  have hsize : headerSize + header.payloadSize.toNat = bytes.length := by
    rw [← Decidable.not_not.mp hrest, Nat.add_sub_cancel' (Nat.not_lt.mp hge)]
  have hsub := Nat.le_of_eq hsize
  unfold subspan
  rw [if_pos hsub]
  change Avoids _ _ (if _ then _ else _ : Except Fault (List UInt8))
  split
  · exact True.intro
  · exact Avoids.throw Fault.noConfusion

theorem readModule_inside (bytes : List UInt8) :
    Avoids (fun fault => fault = .outOfBounds) (fun _ => True) (readModule bytes) := by
  refine (inside_header bytes).andThen fun header => ?_
  refine (payloadOf_inside header.1 bytes).andThen fun payload => ?_
  exact (inside_payload header.1.minor payload).andThen fun _ => True.intro

/-- There is a result for any bytes: a module that the verifier accepts, or a diagnostic. -/
theorem safe_readBinary (verify : Module → List String) (bytes : List UInt8) :
    ∃ result, readBinary verify bytes = some result ∧
      (result.diagnostics ≠ [] ∨ verify result.module = []) := by
  unfold readBinary
  cases hread : readModule bytes with
  | ok m =>
    refine ⟨_, rfl, ?_⟩
    by_cases haccepted : verify m = []
    · exact .inr haccepted
    · exact .inl haccepted
  | error fault =>
    cases fault with
    | thrown message => exact ⟨_, rfl, .inl (cons_ne_nil _ _)⟩
    | outOfBounds => exact absurd rfl ((readModule_inside bytes).failure hread)

/-! ## The round trip -/

/-- When a module comes back from the format: no function asks for a target feature, the size of
the payload fits its field, and the verifier does not need the attributes. -/
def Module.Portable (verify : Module → List String) (m : Module) : Prop :=
  (∀ function ∈ m.functions, function.targetFeature = []) ∧ m.size < 2 ^ 32 ∧
    verify m.generated = []

/-- The code generator sees the module that was read as the one that was written. -/
def Module.ComesBack (verify : Module → List String) (m : Module) : Prop :=
  ∃ result, readBinary verify (writeBinary verify m).bytes = some result ∧
    result.diagnostics = [] ∧ result.module.generated = m.generated

theorem Block.generated_generated (block : Block) :
    block.generated.generated = block.generated := by
  change { block with operations := (block.operations.map _).map _ } = block.generated
  rw [map_map]
  rfl

theorem Function.generated_recorded (function : Function) :
    function.recorded.generated = function.recorded := by
  change { function with targetFeature := [], blocks := (function.blocks.map _).map _ } = _
  have hblocks : Block.generated ∘ Block.generated = Block.generated :=
    funext Block.generated_generated
  rw [map_map, hblocks]
  rfl

theorem Module.generated_recorded (m : Module) : m.recorded.generated = m.recorded := by
  change { m with functions := (m.functions.map _).map _, metadata := [] } = m.recorded
  have hfunctions : Function.generated ∘ Function.recorded = Function.recorded :=
    funext Function.generated_recorded
  rw [map_map, hfunctions]
  rfl

theorem Function.recorded_eq_iff (function : Function) :
    function.recorded = function.generated ↔ function.targetFeature = [] := by
  constructor
  · intro h
    exact (congrArg Function.targetFeature h).symm
  intro h
  change { function.generated with targetFeature := [] } = function.generated
  rw [← h]
  rfl

/-- The format keeps all that the code generator reads but the target features. -/
theorem Module.recorded_eq_iff (m : Module) :
    m.recorded = m.generated ↔ ∀ function ∈ m.functions, function.targetFeature = [] := by
  have hfunctions : m.recorded = m.generated ↔
      m.functions.map Function.recorded = m.functions.map Function.generated :=
    ⟨congrArg Module.functions, fun h => by unfold Module.recorded Module.generated; rw [h]⟩
  rw [hfunctions, map_inj_left]
  exact forall₂_congr fun function _ => Function.recorded_eq_iff function

/-- What the reader makes of a written module of which the size fits. -/
theorem readBinary_writeBinary_of_fits {verify : Module → List String} {m : Module}
    (haccepted : verify m = []) (h : m.InLimits) (hfits : m.size < 2 ^ 32) :
    readBinary verify (writeBinary verify m).bytes = some ⟨m.recorded, verify m.recorded⟩ := by
  unfold readBinary
  rw [readModule_writeBinary haccepted h, if_pos hfits]

/-- **When a module comes back, and what is read from any bytes**: an accepted module in the limits
of the reader comes back exactly if it is portable; and from any bytes the reader stays inside them
and gives a diagnostic or a module that the verifier accepts. -/
theorem readBinary_writeBinary (verify : Module → List String) :
    (∀ m : Module, verify m = [] → m.InLimits → (m.ComesBack verify ↔ m.Portable verify)) ∧
      ∀ bytes, ∃ result, readBinary verify bytes = some result ∧
        (result.diagnostics ≠ [] ∨ verify result.module = []) := by
  refine ⟨fun m haccepted h => ⟨?_, ?_⟩, safe_readBinary verify⟩
  · rintro ⟨result, hread, hdiagnostics, hgenerated⟩
    by_cases hfits : m.size < 2 ^ 32
    · rw [readBinary_writeBinary_of_fits haccepted h hfits] at hread
      cases hread
      have hrecorded : m.recorded = m.generated := m.generated_recorded.symm.trans hgenerated
      exact ⟨m.recorded_eq_iff.mp hrecorded, hfits, hrecorded ▸ hdiagnostics⟩
    · -- a size that does not fit is reported when the module is read
      unfold readBinary at hread
      rw [readModule_writeBinary haccepted h, if_neg hfits] at hread
      cases hread
      exact absurd hdiagnostics (cons_ne_nil _ _)
  · rintro ⟨hfeatures, hfits, hgenerated⟩
    have hrecorded := m.recorded_eq_iff.mpr hfeatures
    refine ⟨_, readBinary_writeBinary_of_fits haccepted h hfits, ?_, ?_⟩
    · rw [hrecorded]
      exact hgenerated
    · exact m.generated_recorded.trans hrecorded

/-! ## A target feature -/

/-- A function `f` of a module `m`, with one block `e` that returns. -/
def returnModule (targetFeature : Text) : Module :=
  { name := [109]
    functions := [{
      name := [102]
      targetFeature := targetFeature
      returnType := .void
      blocks := [{
        name := [101]
        operations := [{ opcode := [114, 101, 116, 117, 114, 110] }] }] }] }

theorem returnModule_inLimits {targetFeature : Text} : (returnModule targetFeature).InLimits := by
  simp [Module.InLimits, VectorInLimits, Function.InLimits, Block.InLimits, Operation.InLimits,
    Text.InLimits, returnModule, maxString, maxCollection]

theorem readBinary_writeBinary_return : (returnModule []).ComesBack verify :=
  ((readBinary_writeBinary verify).1 (returnModule []) (by decide)
    returnModule_inLimits).mpr ⟨by decide, by decide, by decide⟩

/-- **A function for AVX2 comes back as one for the baseline.** -/
theorem readBinary_targetFeature :
    ¬ ∀ m : Module, verify m = [] → m.InLimits → m.ComesBack verify := by
  intro hall
  obtain ⟨result, hread, _, hgenerated⟩ :=
    hall (returnModule [97, 118, 120, 50]) (by decide) returnModule_inLimits
  have hrun : readBinary verify (writeBinary verify (returnModule [97, 118, 120, 50])).bytes =
      some ⟨returnModule [], []⟩ := by decide +kernel
  rw [hrun] at hread
  cases hread
  have hfeature := congrArg (fun m : Module => m.functions.map Function.targetFeature) hgenerated
  exact absurd hfeature (by decide)

end Raz.Forge.Record
