import Raz.Forge.Ir

/-!
# Data layout

The sizes, alignments and field offsets that the forge compiler gives to the types of a module.
-/

namespace Raz.Forge

/-- The largest `size_t`. -/
def sizeMax : Nat := 2 ^ 64 - 1

def isPowerOfTwo (value : Nat) : Bool := value != 0 && value &&& (value - 1) == 0

/-- The least multiple of the alignment from the value on. -/
def checkedAlignTo (value alignment : Nat) : Option Nat :=
  if !isPowerOfTwo alignment then none
  else if sizeMax - (alignment - 1) < value then none
  else some ((value + (alignment - 1)) / alignment * alignment)

structure DataLayout where
  pointerSize : Nat
  pointerAlignment : Nat

/-- The layout of a 64-bit host. -/
def DataLayout.host : DataLayout := { pointerSize := 8, pointerAlignment := 8 }

def DataLayout.sizeOf (layout : DataLayout) : TypeKind → Option Nat
  | .i1 | .i8 => some 1
  | .i16 => some 2
  | .i32 | .f32 => some 4
  | .i64 | .f64 => some 8
  | .ptr => some layout.pointerSize
  | .void => none

def DataLayout.alignmentOf (layout : DataLayout) : TypeKind → Option Nat
  | .i1 | .i8 => some 1
  | .i16 => some 2
  | .i32 | .f32 => some 4
  | .i64 | .f64 => some 8
  | .ptr => some layout.pointerAlignment
  | .void => none

structure FieldLayout where
  offset : Nat
  size : Nat
  alignment : Nat
deriving DecidableEq, Repr

structure StructLayout where
  size : Nat
  alignment : Nat
  fields : List FieldLayout
deriving DecidableEq, Repr

structure ArrayLayout where
  size : Nat
  alignment : Nat
  stride : Nat
deriving DecidableEq, Repr

def Module.findStruct (m : Module) (name : String) : Option StructDecl :=
  m.structs.find? (·.name == name)

def Module.findArray (m : Module) (name : String) : Option ArrayDecl :=
  m.arrays.find? (·.name == name)

/-- The size and alignment of a scalar, or of a named aggregate as `nested` gives them. -/
def DataLayout.ofElement (layout : DataLayout) (nested : AggregateRef → Option (Nat × Nat))
    (type : TypeKind) : Option AggregateRef → Option (Nat × Nat)
  | none => do some (← layout.sizeOf type, ← layout.alignmentOf type)
  | some ref => nested ref

/-- One more field, after the fields laid out so far. -/
def DataLayout.addField (layout : DataLayout) (nested : AggregateRef → Option (Nat × Nat))
    (result : StructLayout) (field : StructField) : Option StructLayout := do
  let (size, alignment) ← layout.ofElement nested field.type field.aggregate
  if !isPowerOfTwo alignment then none
  let offset ← checkedAlignTo result.size alignment
  if sizeMax - offset < size then none
  some {
    size := offset + size
    alignment := max result.alignment alignment
    fields := result.fields ++ [{ offset, size, alignment }] }

/-- The fields in order, and the size rounded up to the largest alignment. -/
def DataLayout.ofFields (layout : DataLayout) (nested : AggregateRef → Option (Nat × Nat))
    (fields : List StructField) : Option StructLayout := do
  let result ← fields.foldlM (layout.addField nested) { size := 0, alignment := 1, fields := [] }
  some { result with size := ← checkedAlignTo result.size result.alignment }

def DataLayout.ofElements (layout : DataLayout) (nested : AggregateRef → Option (Nat × Nat))
    (declaration : ArrayDecl) : Option ArrayLayout := do
  if declaration.elementCount == 0 then none
  let (size, alignment) ←
    layout.ofElement nested declaration.elementType declaration.elementAggregate
  if !isPowerOfTwo alignment then none
  let stride ← checkedAlignTo size alignment
  if stride != 0 && sizeMax / stride < declaration.elementCount then none
  some { size := stride * declaration.elementCount, alignment, stride }

/-- The size and alignment of a named aggregate; none for one that is being laid out already.
Each level names another declaration, so their number bounds the levels. -/
def DataLayout.nested (layout : DataLayout) (m : Module) :
    Nat → List AggregateRef → AggregateRef → Option (Nat × Nat)
  | 0, _, _ => none
  | levels + 1, active, ref =>
    if ref ∈ active then none
    else
      match ref.kind with
      | .structure_ => do
        let declaration ← m.findStruct ref.name
        let result ← layout.ofFields (layout.nested m levels (ref :: active)) declaration.fields
        some (result.size, result.alignment)
      | .array => do
        let declaration ← m.findArray ref.name
        let result ← layout.ofElements (layout.nested m levels (ref :: active)) declaration
        some (result.size, result.alignment)

def Module.declarations (m : Module) : Nat := m.structs.length + m.arrays.length

def DataLayout.structLayout (layout : DataLayout) (m : Module) (declaration : StructDecl) :
    Option StructLayout :=
  layout.ofFields (layout.nested m m.declarations [⟨.structure_, declaration.name⟩])
    declaration.fields

def DataLayout.arrayLayout (layout : DataLayout) (m : Module) (declaration : ArrayDecl) :
    Option ArrayLayout :=
  layout.ofElements (layout.nested m m.declarations [⟨.array, declaration.name⟩]) declaration

def DataLayout.aggregateSize (layout : DataLayout) (m : Module) (ref : AggregateRef) :
    Option Nat :=
  match ref.kind with
  | .structure_ => do some (← layout.structLayout m (← m.findStruct ref.name)).size
  | .array => do some (← layout.arrayLayout m (← m.findArray ref.name)).size

def DataLayout.aggregateAlignment (layout : DataLayout) (m : Module) (ref : AggregateRef) :
    Option Nat :=
  match ref.kind with
  | .structure_ => do some (← layout.structLayout m (← m.findStruct ref.name)).alignment
  | .array => do some (← layout.arrayLayout m (← m.findArray ref.name)).alignment

end Raz.Forge
