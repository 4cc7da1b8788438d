import Raz.Forge.Binary

/-!
# Reading back a written module

Each record of the format is read as it was written, field by field; what the format leaves out
of a module is the target feature of its functions, besides what the code generator does not read.

Result: `readModule_writeFile`: a file is read as its payload, unless its size does not fit.
-/

namespace Raz.Forge.Record

open Codec List Reader

/-! ## Numbers and texts -/

theorem carries_u8 (value : UInt8) : Carries 1 (Writer.u8 value) Reader.u8 value :=
  ⟨[value], rfl, fun _ => rfl, fun _ => rfl⟩

theorem writes_bytes (bytes : List UInt8) : Writes (bytes.forM Writer.u8) bytes := by
  induction bytes with
  | nil => exact fun before => by rw [append_nil]; rfl
  | cons byte bytes ih => exact Writes.bind (fun _ => rfl : Writes (Writer.u8 byte) [byte]) ih

theorem reads_bytes (bytes : List UInt8) :
    Reads (readMany Reader.u8 bytes.length) bytes bytes := by
  induction bytes with
  | nil => exact Reads.pure []
  | cons byte bytes ih =>
    have hbyte : Reads u8 [byte] byte := fun _ => rfl
    refine hbyte.bind fun rest => ?_
    change (readMany u8 bytes.length (bytes ++ rest) >>= _) = _
    rw [ih rest]
    rfl

theorem carries_bytes (bytes : List UInt8) :
    Carries bytes.length (bytes.forM Writer.u8) (readMany Reader.u8 bytes.length) bytes :=
  ⟨bytes, rfl, writes_bytes bytes, reads_bytes bytes⟩

theorem carries_u16 (value : UInt16) : Carries 2 (Writer.u16 value) Reader.u16 value := by
  refine (carries_bytes (littleEndian 2 value.toNat)).last.congr (length_littleEndian _ _) ?_
  rw [ofLittleEndian_of_lt value.toNat_lt, UInt16.ofNat_toNat]

theorem carries_u32 (value : UInt32) : Carries 4 (Writer.u32 value) Reader.u32 value := by
  refine (carries_bytes (littleEndian 4 value.toNat)).last.congr (length_littleEndian _ _) ?_
  rw [ofLittleEndian_of_lt value.toNat_lt, UInt32.ofNat_toNat]

theorem carries_flag (value : Bool) : Carries 1 (Writer.flag value) Reader.flag value := by
  refine (carries_u8 _).last.congr rfl ?_
  cases value <;> rfl

theorem Reader.require_of_le {count : Nat} {bytes : List UInt8} (h : count ≤ bytes.length) :
    Reader.require count bytes = .ok ((), bytes) := by
  change (if bytes.length < count then throw (.thrown _) else pure () : Reader Unit) bytes = _
  rw [if_neg (Nat.not_lt.mpr h)]
  rfl

theorem reads_take (bytes : List UInt8) : Reads (Reader.take bytes.length) bytes bytes := by
  intro rest
  have hle : bytes.length ≤ (bytes ++ rest).length := by
    rw [length_append]
    exact Nat.le_add_right _ _
  have hnext : next bytes.length (bytes ++ rest) = .ok (bytes, rest) := by
    rw [Reader.next, if_pos hle, take_left, drop_left]
  change (Reader.require bytes.length (bytes ++ rest) >>= fun result =>
    next bytes.length result.2) = _
  rw [require_of_le hle]
  exact hnext

def Text.size (text : Text) : Nat := 4 + text.length

def Text.InLimits (text : Text) : Prop := text.length ≤ maxString

theorem toNat_ofNat_of_lt {size : Nat} (h : size < 2 ^ 32) : (UInt32.ofNat size).toNat = size :=
  Nat.mod_eq_of_lt h

theorem carries_string {text : Text} (h : Text.InLimits text) :
    Carries (Text.size text) (Writer.string text) Reader.string text := by
  have hlt : text.length < 2 ^ 32 := Nat.lt_of_le_of_lt h (by decide)
  have hwrite : Writer.string text =
      (Writer.u32 (UInt32.ofNat text.length) >>= fun _ => text.forM Writer.u8) := by
    unfold Writer.string
    rw [if_neg (Nat.not_le.mpr hlt)]
  rw [hwrite]
  refine (carries_u32 _).bind ?_
  rw [toNat_ofNat_of_lt hlt, if_neg (Nat.not_lt.mpr h)]
  exact ⟨text, rfl, writes_bytes text, reads_take text⟩

def vectorSize (size : α → Nat) (items : List α) : Nat := 4 + (items.map size).sum

/-- As many items as the reader takes, each of them in the limits. -/
def VectorInLimits (inLimits : α → Prop) (items : List α) : Prop :=
  items.length ≤ maxCollection ∧ ∀ item ∈ items, inLimits item

theorem carries_vector {α γ : Type} {inLimits : α → Prop} {size : α → Nat} {write : α → Writer}
    {read : Reader γ} {value : α → γ} {items : List α} (h : VectorInLimits inLimits items)
    (hitem : ∀ item, inLimits item → Carries (size item) (write item) read (value item)) :
    Carries (vectorSize size items) (writeVector items write) (readCount read)
      (items.map value) := by
  obtain ⟨hlen, hitems⟩ := h
  have hlt : items.length < 2 ^ 32 := Nat.lt_of_le_of_lt hlen (by decide)
  have hwrite : writeVector items write =
      (Writer.u32 (UInt32.ofNat items.length) >>= fun _ => items.forM write) := by
    unfold writeVector
    rw [if_neg (Nat.not_le.mpr hlt)]
  rw [hwrite]
  refine (carries_u32 _).bind ?_
  rw [toNat_ofNat_of_lt hlt, if_neg (Nat.not_lt.mpr hlen)]
  have hall : ∀ item ∈ items, Carries (size item) (write item) read (value item) :=
    fun item hmem => hitem item (hitems item hmem)
  exact Carries.each hall

theorem carries_strings {texts : List Text} (h : VectorInLimits Text.InLimits texts) :
    Carries (vectorSize Text.size texts) (writeVector texts Writer.string)
      (readCount Reader.string) texts :=
  (carries_vector h fun _ => carries_string).congr rfl (map_id texts)

/-! ## Enumerations -/

theorem carries_tag {α : Type} {byte : α → UInt8} {ofByte : UInt8 → Option α} {value : α}
    (h : ofByte (byte value) = some value) (message : String) :
    Carries 1 (Writer.u8 (byte value))
      (Reader.u8 >>= fun raw => Reader.enumerator ofByte message raw) value := by
  refine ⟨[byte value], rfl, fun _ => rfl, fun rest => ?_⟩
  change enumerator ofByte message (byte value) rest = _
  unfold enumerator
  rw [h]
  rfl

theorem TypeKind.ofByte_byte (type : TypeKind) : TypeKind.ofByte (TypeKind.byte type) = some type :=
  by cases type <;> rfl

theorem AggregateRefKind.ofByte_byte (kind : AggregateRefKind) :
    AggregateRefKind.ofByte kind.byte = some kind := by cases kind <;> rfl

theorem GlobalAggregateKind.ofByte_byte (kind : GlobalAggregateKind) :
    GlobalAggregateKind.ofByte kind.byte = kind := by
  cases kind with
  | known kind => cases kind <;> rfl
  | other byte beyond => exact dif_pos beyond

theorem BorrowMode.ofByte_byte (mode : BorrowMode) :
    BorrowMode.ofByte (BorrowMode.byte mode) = some mode := by cases mode <;> rfl

theorem carries_type (type : TypeKind) : Carries 1 (Writer.type type) Reader.type type :=
  carries_tag (TypeKind.ofByte_byte type) _

theorem carries_aggregateKind (kind : AggregateRefKind) (message : String) :
    Carries 1 (Writer.u8 kind.byte) (Reader.aggregateKind message) kind :=
  carries_tag (AggregateRefKind.ofByte_byte kind) _

theorem carries_borrowMode (mode : BorrowMode) (message : String) :
    Carries 1 (Writer.u8 (BorrowMode.byte mode)) (Reader.borrowMode message) mode :=
  carries_tag (BorrowMode.ofByte_byte mode) _

theorem carries_since {α : Type} {first : UInt16} {absent value : α} {size : Nat} {write : Writer}
    {read : Reader α} (hfirst : first ≤ binaryFormatMinor) (h : Carries size write read value) :
    Carries size write (since first binaryFormatMinor absent read) value := by
  unfold since
  rwa [if_pos hfirst]

/-! ## Records -/

def ValueDecl.InLimits (value : ValueDecl) : Prop :=
  Text.InLimits value.name ∧ Text.InLimits value.aggregateName ∧
    Text.InLimits value.functionSignatureName

def ValueDecl.size (value : ValueDecl) : Nat :=
  Text.size value.name + Text.size value.aggregateName + Text.size value.functionSignatureName + 4

theorem carries_decl {value : ValueDecl} (h : value.InLimits) :
    Carries value.size (writeDecl value) (readDecl binaryFormatMinor) value := by
  obtain ⟨hname, haggregate, hsig⟩ := h
  apply Carries.sized
  case h =>
    apply (carries_string hname).bind
    apply (carries_type value.type).bind
    apply (carries_since (by decide) (carries_aggregateKind value.aggregateKind _)).bind
    apply (carries_since (by decide) (carries_string haggregate)).bind
    apply (carries_since (by decide) (carries_flag value.owned)).bind
    apply (carries_since (by decide) (carries_borrowMode value.borrowMode _)).bind
    exact (carries_since (by decide) (carries_string hsig)).last
  case hsize =>
    unfold ValueDecl.size
    omega

def StructField.InLimits (field : StructField) : Prop :=
  Text.InLimits field.name ∧ Text.InLimits field.aggregateName

def StructField.size (field : StructField) : Nat :=
  Text.size field.name + Text.size field.aggregateName + 2

theorem carries_field {field : StructField} (h : field.InLimits) :
    Carries field.size (writeField field) (readField binaryFormatMinor) field := by
  obtain ⟨hname, haggregate⟩ := h
  apply Carries.sized
  case h =>
    apply (carries_string hname).bind
    apply (carries_type field.type).bind
    apply (carries_since (by decide) (carries_aggregateKind field.aggregateKind _)).bind
    exact (carries_since (by decide) (carries_string haggregate)).last
  case hsize =>
    unfold StructField.size
    omega

def StructDecl.InLimits (structure_ : StructDecl) : Prop :=
  Text.InLimits structure_.name ∧ VectorInLimits StructField.InLimits structure_.fields

def StructDecl.size (structure_ : StructDecl) : Nat :=
  Text.size structure_.name + (1 + vectorSize StructField.size structure_.fields)

theorem carries_struct {structure_ : StructDecl} (h : structure_.InLimits) :
    Carries structure_.size (writeStruct structure_) (readStruct binaryFormatMinor) structure_ := by
  obtain ⟨hname, hfields⟩ := h
  have hvector := (carries_vector hfields fun _ => carries_field).congr rfl (map_id _)
  apply (carries_string hname).bind
  apply (carries_since (by decide) (carries_flag structure_.moveOnly)).bind
  exact hvector.last

def ArrayDecl.InLimits (array : ArrayDecl) : Prop :=
  Text.InLimits array.name ∧ Text.InLimits array.elementAggregateName

def ArrayDecl.size (array : ArrayDecl) : Nat :=
  Text.size array.name + Text.size array.elementAggregateName + 7

theorem carries_array {array : ArrayDecl} (h : array.InLimits) :
    Carries array.size (writeArray array) (readArray binaryFormatMinor) array := by
  obtain ⟨hname, haggregate⟩ := h
  apply Carries.sized
  case h =>
    apply (carries_string hname).bind
    apply (carries_type array.elementType).bind
    apply (carries_since (by decide) (carries_aggregateKind array.elementAggregateKind _)).bind
    apply (carries_since (by decide) (carries_string haggregate)).bind
    apply (carries_u32 array.elementCount).bind
    exact (carries_since (by decide) (carries_flag array.moveOnly)).last
  case hsize =>
    unfold ArrayDecl.size
    omega

/-- The reader of linkage and visibility takes both bytes before it checks them. -/
theorem carries_symbol (linkage : SymbolLinkage) (visibility : SymbolVisibility) (what : String) :
    Carries 2 (writeSymbol linkage visibility) (readSymbol what) (linkage, visibility) := by
  cases linkage <;> cases visibility <;> exact ⟨[_, _], rfl, fun before => by
    rw [append_cons]; rfl, fun _ => rfl⟩

theorem carries_linking (convention : CallingConvention) (linkage : SymbolLinkage)
    (visibility : SymbolVisibility) :
    Carries 3 (writeLinking convention linkage visibility) readLinking
      (convention, linkage, visibility) := by
  cases convention <;> cases linkage <;> cases visibility <;>
    exact ⟨[_, _, _], rfl, fun before => by
      rw [append_cons, append_cons]; rfl, fun _ => rfl⟩

def Global.InLimits (global : Global) : Prop :=
  Text.InLimits global.name ∧ Text.InLimits global.aggregateName ∧
    Text.InLimits global.functionSignatureName ∧ Text.InLimits global.initializer ∧
    Text.InLimits global.bytes

def Global.size (global : Global) : Nat :=
  Text.size global.name + Text.size global.aggregateName +
    Text.size global.functionSignatureName + Text.size global.initializer +
    Text.size global.bytes + 16

theorem carries_global {global : Global} (h : global.InLimits) :
    Carries global.size (writeGlobal global) (readGlobal binaryFormatMinor) global := by
  obtain ⟨hname, haggregate, hsig, hinitializer, hbytes⟩ := h
  have hkind : Carries 1 (Writer.u8 global.aggregateKind.byte)
      (do return GlobalAggregateKind.ofByte (← u8)) global.aggregateKind :=
    (carries_u8 _).last.congr rfl (GlobalAggregateKind.ofByte_byte _)
  apply Carries.sized
  case h =>
    apply (carries_string hname).bind
    apply (carries_type global.type).bind
    apply (carries_since (by decide) hkind).bind
    apply (carries_since (by decide) (carries_string haggregate)).bind
    apply (carries_since (by decide) (carries_string hsig)).bind
    apply (carries_flag global.isConstant).bind
    apply (carries_since (by decide) (carries_flag global.isExternal)).bind
    apply (carries_since (by decide) (carries_flag global.isThreadLocal)).bind
    apply (carries_since (by decide) (carries_symbol global.linkage global.visibility _)).bind
    apply (carries_string hinitializer).bind
    apply (carries_since (by decide) (carries_u32 global.elementCount)).bind
    apply (carries_since (by decide) (carries_u32 global.alignment)).bind
    apply (carries_since (by decide) (carries_flag global.zeroInitialized)).bind
    exact (carries_since (by decide) (carries_string hbytes)).last
  case hsize =>
    unfold Global.size
    omega

/-! ## Functions -/

def Operation.InLimits (operation : Operation) : Prop :=
  Text.InLimits operation.result ∧ Text.InLimits operation.opcode ∧
    VectorInLimits Text.InLimits operation.operands ∧
    VectorInLimits Text.InLimits operation.successors ∧
    VectorInLimits (VectorInLimits Text.InLimits) operation.successorArguments

def Operation.size (operation : Operation) : Nat :=
  Text.size operation.result + Text.size operation.opcode +
    vectorSize Text.size operation.operands + vectorSize Text.size operation.successors +
    vectorSize (vectorSize Text.size) operation.successorArguments + 5

theorem carries_operation {operation : Operation} (h : operation.InLimits) :
    Carries operation.size (writeOperation operation) (readOperation binaryFormatMinor)
      operation.generated := by
  obtain ⟨hres, hopcode, hops, hsucc, hargs⟩ := h
  have hvectors := (carries_vector hargs fun _ => carries_strings).congr rfl (map_id _)
  apply Carries.sized
  case h =>
    apply (carries_string hres).bind
    apply (carries_string hopcode).bind
    apply (carries_type operation.type).bind
    apply (carries_strings hops).bind
    apply (carries_strings hsucc).bind
    apply hvectors.bind
    exact (carries_since (by decide) (carries_u32 operation.alignment)).last
  case hsize =>
    unfold Operation.size
    omega

def Block.InLimits (block : Block) : Prop :=
  Text.InLimits block.name ∧ VectorInLimits ValueDecl.InLimits block.parameters ∧
    VectorInLimits Operation.InLimits block.operations

def Block.size (block : Block) : Nat :=
  Text.size block.name + (vectorSize ValueDecl.size block.parameters +
    vectorSize Operation.size block.operations)

theorem carries_decls {values : List ValueDecl} (h : VectorInLimits ValueDecl.InLimits values) :
    Carries (vectorSize ValueDecl.size values) (writeVector values writeDecl)
      (readCount (readDecl binaryFormatMinor)) values :=
  (carries_vector h fun _ => carries_decl).congr rfl (map_id values)

theorem carries_block {block : Block} (h : block.InLimits) :
    Carries block.size (writeBlock block) (readBlock binaryFormatMinor) block.generated := by
  obtain ⟨hname, hparams, hoperations⟩ := h
  apply (carries_string hname).bind
  apply (carries_decls hparams).bind
  exact (carries_vector hoperations fun _ => carries_operation).last

def Function.InLimits (function : Function) : Prop :=
  Text.InLimits function.name ∧ Text.InLimits function.returnAggregateName ∧
    VectorInLimits ValueDecl.InLimits function.parameters ∧
    VectorInLimits Block.InLimits function.blocks

def Function.size (function : Function) : Nat :=
  Text.size function.name + Text.size function.returnAggregateName +
    vectorSize ValueDecl.size function.parameters + vectorSize Block.size function.blocks + 14

/-- What the format keeps of a function. -/
def Function.recorded (function : Function) : Function :=
  { function.generated with targetFeature := [] }

theorem carries_function {function : Function} (h : function.InLimits) :
    Carries function.size (writeFunction function) (readFunction binaryFormatMinor)
      function.recorded := by
  obtain ⟨hname, haggregate, hparameters, hblocks⟩ := h
  have hborrow : Carries 4 (Writer.u32 function.returnBorrowParameter.toUInt32)
      (do return (← u32).toInt32) function.returnBorrowParameter :=
    (carries_u32 _).last
  apply Carries.congr
  case h =>
    apply (carries_string hname).bind
    apply (carries_since (by decide) (carries_flag function.isExternal)).bind
    apply (carries_since (by decide) (carries_flag function.isSignature)).bind
    apply (carries_since (by decide) (carries_flag function.variadic)).bind
    apply (carries_since (by decide) (carries_linking function.callingConvention
      function.linkage function.visibility)).bind
    apply (carries_type function.returnType).bind
    apply (carries_since (by decide) (carries_aggregateKind function.returnAggregateKind _)).bind
    apply (carries_since (by decide) (carries_string haggregate)).bind
    apply (carries_since (by decide) (carries_flag function.returnOwned)).bind
    apply (carries_since (by decide) (carries_borrowMode function.returnBorrowMode _)).bind
    apply (carries_since (by decide) hborrow).bind
    apply (carries_decls hparameters).bind
    exact (carries_vector hblocks fun _ => carries_block).last
  case hsize =>
    unfold Function.size
    omega
  case hval =>
    have hminor : decide (binaryFormatMinor < 18) = false := by decide
    rw [hminor, Bool.false_and, Bool.or_false]
    rfl

/-! ## Files -/

def Module.InLimits (m : Module) : Prop :=
  Text.InLimits m.name ∧ VectorInLimits StructDecl.InLimits m.structs ∧
    VectorInLimits ArrayDecl.InLimits m.arrays ∧ VectorInLimits Global.InLimits m.globals ∧
    VectorInLimits Function.InLimits m.functions

/-- The number of bytes of a module in the format, without the header. -/
def Module.size (m : Module) : Nat :=
  Text.size m.name + (vectorSize StructDecl.size m.structs +
    (vectorSize ArrayDecl.size m.arrays + (vectorSize Global.size m.globals +
    vectorSize Function.size m.functions)))

/-- What the format keeps of a module. -/
def Module.recorded (m : Module) : Module :=
  { m with functions := m.functions.map Function.recorded, metadata := [] }

theorem carries_fields {m : Module} (h : m.InLimits) :
    Carries m.size (writePayload m) (readFields binaryFormatMinor) m.recorded := by
  obtain ⟨hname, hstructs, harrays, hglobals, hfunctions⟩ := h
  have structs := (carries_vector hstructs fun _ => carries_struct).congr rfl (map_id _)
  have arrays := (carries_vector harrays fun _ => carries_array).congr rfl (map_id _)
  have globals := (carries_vector hglobals fun _ => carries_global).congr rfl (map_id _)
  apply (carries_string hname).bind
  apply (carries_since (by decide) structs).bind
  apply (carries_since (by decide) arrays).bind
  apply (carries_since (by decide) globals).bind
  exact (carries_vector hfunctions fun _ => carries_function).last

theorem readPayload_of_readFields {minor : UInt16} {payload : List UInt8} {m : Module}
    (h : readFields minor payload = .ok (m, [])) : readPayload minor payload = .ok (m, []) := by
  change (readFields minor payload >>= _) = _
  rw [h]
  rfl

theorem carries_magic (expected : List UInt8) :
    Carries expected.length (expected.forM Writer.u8) (expected.forM readMagic) () := by
  refine ⟨expected, rfl, writes_bytes expected, ?_⟩
  induction expected with
  | nil => exact Reads.pure ()
  | cons byte expected ih =>
    have hbyte : Reads (readMagic byte) [byte] () := by
      intro rest
      change (if byte ≠ byte then throw (.thrown _) else pure () : Reader Unit) rest = _
      rw [if_neg (not_not_intro rfl)]
      rfl
    exact hbyte.bind ih

theorem carries_header (payload : List UInt8) :
    Carries headerSize (writeHeader payload) readHeader
      ⟨binaryFormatMinor, UInt32.ofNat payload.length, checksum payload⟩ := by
  apply Carries.sized
  case h =>
    apply (carries_magic magic).bind
    apply (carries_u16 binaryFormatMajor).bind
    apply (carries_u16 binaryFormatMinor).bind
    rw [if_neg (by decide), if_neg (by decide)]
    apply (carries_u32 _).bind
    exact (carries_u32 _).last
  case hsize => rfl

theorem subspan_append (front back : List UInt8) :
    subspan (front ++ back) front.length back.length = .ok back := by
  unfold subspan
  rw [if_pos (length_append ▸ Nat.le_refl _), drop_left, take_length]

/-- The payload is the one that was written, unless its size does not fit its field. -/
theorem payloadOf_append {header payload : List UInt8} {minor : UInt16}
    (hlen : header.length = headerSize) :
    payloadOf ⟨minor, UInt32.ofNat payload.length, checksum payload⟩ (header ++ payload) =
      if payload.length < 2 ^ 32 then .ok payload
      else .error (.thrown "binary IR size mismatch") := by
  have hfile : (header ++ payload).length - headerSize = payload.length := by
    rw [length_append, hlen, Nat.add_sub_cancel_left]
  have hge : ¬ (header ++ payload).length < headerSize := by
    rw [length_append, hlen]
    exact Nat.not_lt.mpr (Nat.le_add_right _ _)
  unfold payloadOf
  rw [hfile]
  by_cases hfits : payload.length < 2 ^ 32
  · rw [toNat_ofNat_of_lt hfits, if_pos hfits, ← hlen, subspan_append,
      if_neg (not_or.mpr ⟨hlen ▸ hge, not_not_intro rfl⟩)]
    exact if_pos rfl
  -- the field holds a smaller number
  have hne : payload.length ≠ (UInt32.ofNat payload.length).toNat := fun heq =>
    hfits (heq ▸ UInt32.toNat_lt _)
  rw [if_neg hfits, if_pos (.inr hne)]
  rfl

/-- **A file is read as its payload**, unless the size of the payload does not fit its field. -/
theorem readModule_writeFile (payload : List UInt8) :
    ∃ file, writeFile payload [] = .ok ((), file) ∧
      readModule file =
        if payload.length < 2 ^ 32 then (readPayload binaryFormatMinor payload).map Prod.fst
        else .error (.thrown "binary IR size mismatch") := by
  obtain ⟨header, hlen, hwrite, hread⟩ := carries_header payload
  refine ⟨header ++ payload, hwrite.bind (writes_bytes payload) [], ?_⟩
  unfold readModule
  rw [hread payload]
  change (payloadOf _ (header ++ payload) >>= _) = _
  rw [payloadOf_append hlen]
  split
  · change (readPayload binaryFormatMinor payload >>= _) = _
    cases readPayload binaryFormatMinor payload <;> rfl
  · rfl

theorem readModule_writeBinary {verify : Module → List String} {m : Module}
    (haccepted : verify m = []) (h : m.InLimits) :
    readModule (writeBinary verify m).bytes =
      if m.size < 2 ^ 32 then .ok m.recorded
      else .error (.thrown "binary IR size mismatch") := by
  obtain ⟨payload, hsize, hwrite, hread⟩ := (carries_fields h).readBack
  obtain ⟨file, hfile, hmodule⟩ := readModule_writeFile payload
  have hbytes : (writeBinary verify m).bytes = file := by
    unfold writeBinary
    rw [if_neg (not_not_intro haccepted), hwrite]
    dsimp only [bind, Except.bind]
    rw [hfile]
  rw [hbytes, hmodule, hsize, readPayload_of_readFields hread]
  rfl

end Raz.Forge.Record
