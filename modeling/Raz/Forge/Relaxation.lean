import Raz.Forge.Coff
import Raz.Lib.Sweep

/-!
# Branch relaxation

The x86-64 encoder writes every branch with a displacement of 32 bits. When the blocks of a function
are laid out, it shortens the branches that reach their target with a displacement of 8 bits, and
moves what it has recorded about the code.

Offsets are not so large that a sum with them leaves the range of `size_t`. The counters of the
shortened branches, which nothing else reads, are left out.
-/

namespace Raz.Forge.Relaxation

open Codec
open Raz.Forge.Coff (Text)

/-! ## Encoded functions -/

structure CallFixup where
  displacementOffset : Nat
  target : Text
deriving DecidableEq, Repr

structure AddressFixup where
  displacementOffset : Nat
  target : Text
deriving DecidableEq, Repr

structure GlobalAddressFixup where
  addressOffset : Nat
  target : Text
deriving DecidableEq, Repr

structure TlsAddressFixup where
  addressOffset : Nat
  target : Text
deriving DecidableEq, Repr

structure EncodedFunction where
  name : Text
  code : List UInt8
  calls : List CallFixup := []
  addresses : List AddressFixup := []
  globalAddresses : List GlobalAddressFixup := []
  tlsAddresses : List TlsAddressFixup := []
deriving DecidableEq, Repr

/-- The text of a diagnostic, up to the names. -/
def text (literal : String) : Text := literal.toUTF8.data.toList

/-! ## Branches -/

structure JumpFixup where
  instructionOffset : Nat
  displacementOffset : Nat
  target : Text
deriving DecidableEq, Repr

structure LocalBranchFixup where
  instructionOffset : Nat
  displacementOffset : Nat
  targetOffset : Nat
  targetLabel : Text
  condition : UInt8
deriving DecidableEq, Repr

inductive BranchKind
  | jump | conditional
deriving DecidableEq, Repr

structure RelaxationCandidate where
  kind : BranchKind
  instructionOffset : Nat
  originalSize : Nat
  targetOffset : Nat
  sourceIndex : Nat
  condition : UInt8 := 0
  shortened : Bool := false
deriving DecidableEq, Repr

/-- A function as the encoder has written it: its code with the branches in their long form, and
the labels and the branches it has recorded. -/
structure Unrelaxed where
  function : EncodedFunction
  labels : List (Text × Nat)
  fixups : List JumpFixup
  localBranchFixups : List LocalBranchFixup
deriving DecidableEq, Repr

/-- The block of a name; the first label of a name is the one recorded. -/
def Unrelaxed.findLabel (f : Unrelaxed) (name : Text) : Except Text Nat :=
  match f.labels.find? (·.1 == name) with
  | none => .error (text "unresolved machine block " ++ name ++ text " in @" ++ f.function.name)
  | some label => .ok label.2

def jumpCandidate (f : Unrelaxed) (fixup : JumpFixup × Nat) :
    Except Text RelaxationCandidate := do
  let targetOffset ← f.findLabel fixup.1.target
  return {
    kind := .jump
    instructionOffset := fixup.1.instructionOffset
    originalSize := 5
    targetOffset
    sourceIndex := fixup.2 }

/-- A branch within the code of a block has the offset of its target, any other one its label. -/
def conditionalCandidate (f : Unrelaxed) (fixup : LocalBranchFixup × Nat) :
    Except Text RelaxationCandidate := do
  let targetOffset ←
    if fixup.1.targetLabel = [] then pure fixup.1.targetOffset
    else f.findLabel fixup.1.targetLabel
  return {
    kind := .conditional
    instructionOffset := fixup.1.instructionOffset
    originalSize := 6
    targetOffset
    sourceIndex := fixup.2
    condition := fixup.1.condition }

/-- The branches in the order of their instructions. -/
def candidates (f : Unrelaxed) : Except Text (List RelaxationCandidate) := do
  let jumps ← f.fixups.zipIdx.mapM (jumpCandidate f)
  let conditionals ← f.localBranchFixups.zipIdx.mapM (conditionalCandidate f)
  return (jumps ++ conditionals).mergeSort
    fun left right => left.instructionOffset ≤ right.instructionOffset

/-! ## Shortening -/

/-- The bytes that a branch is shorter by. -/
def RelaxationCandidate.removed (candidate : RelaxationCandidate) : Nat :=
  if candidate.shortened then
    match candidate.kind with
    | .jump => 3
    | .conditional => 4
  else 0

/-- The bytes that the branches before an offset are shorter by. -/
def removedBefore (cs : List RelaxationCandidate) (original : Nat) : Nat :=
  ((cs.filter (·.instructionOffset < original)).map (·.removed)).sum

def adjustedOffset (cs : List RelaxationCandidate) (original : Nat) : Nat :=
  original - removedBefore cs original

/-- The displacement of a branch from the end of an instruction of so many bytes. -/
def delta (cs : List RelaxationCandidate) (candidate : RelaxationCandidate) (size : Nat) : Int :=
  (adjustedOffset cs candidate.targetOffset : Int) -
    (adjustedOffset cs candidate.instructionOffset + size : Nat)

def fitsShort (cs : List RelaxationCandidate) (candidate : RelaxationCandidate) : Bool :=
  -128 ≤ delta cs candidate 2 && delta cs candidate 2 ≤ 127

/-- The body of the shortening loop, for the branch of an index. -/
def tryShorten (index : Nat) (cs : List RelaxationCandidate) : List RelaxationCandidate :=
  match cs[index]? with
  | none => cs
  | some candidate =>
    if candidate.shortened then cs
    else if fitsShort cs candidate then cs.set index { candidate with shortened := true }
    else cs

/-- One pass of the loop for every branch. -/
def shortenUpdates (count : Nat) : List (List RelaxationCandidate → List RelaxationCandidate) :=
  (List.range count).map tryShorten

/-- The loop, with at most so many passes. -/
def shortenLoop (passes : Nat) (cs : List RelaxationCandidate) : List RelaxationCandidate :=
  Sweep.settle (shortenUpdates cs.length) passes cs

/-- The loop: each pass but the last one shortens a branch. -/
def shorten (cs : List RelaxationCandidate) : List RelaxationCandidate :=
  shortenLoop cs.length cs

/-! ## The relaxed code -/

/-- The low bits of a displacement. -/
def displacementBits (bits : Nat) (delta : Int) : Nat := (delta % 2 ^ bits).toNat

def fitsLong (delta : Int) : Bool := -2 ^ 31 ≤ delta && delta < 2 ^ 31

/-- A branch of the function of a name with its final displacement. -/
def relaxedBranch (name : Text) (cs : List RelaxationCandidate) (candidate : RelaxationCandidate) :
    Except Text (List UInt8) :=
  if candidate.shortened then
    let displacement := UInt8.ofNat (displacementBits 8 (delta cs candidate 2))
    match candidate.kind with
    | .jump => .ok [0xEB, displacement]
    | .conditional => .ok [candidate.condition - 0x10, displacement]
  else
    match candidate.kind with
    | .jump =>
      if !fitsLong (delta cs candidate 5) then
        .error (text "x86-64 branch displacement out of range in @" ++ name)
      else .ok (0xE9 :: littleEndian 4 (displacementBits 32 (delta cs candidate 5)))
    | .conditional =>
      if !fitsLong (delta cs candidate 6) then
        .error (text "x86-64 conditional branch displacement out of range in @" ++ name)
      else
        .ok (0x0F :: candidate.condition ::
          littleEndian 4 (displacementBits 32 (delta cs candidate 6)))

/-- The code from the cursor on, with the branches of the list rewritten. -/
def relaxedCode (name : Text) (cs : List RelaxationCandidate) (originalCode : List UInt8) :
    Nat → List RelaxationCandidate → Except Text (List UInt8)
  | cursor, [] => .ok (originalCode.drop cursor)
  | cursor, candidate :: rest => do
    let between := (originalCode.drop cursor).take (candidate.instructionOffset - cursor)
    let branch ← relaxedBranch name cs candidate
    let code ← relaxedCode name cs originalCode
      (candidate.instructionOffset + candidate.originalSize) rest
    return between ++ branch ++ code

/-- The last steps of `encode_function`. The thread-local addresses stay as they are. -/
def relax (f : Unrelaxed) : Except Text EncodedFunction := do
  let cs := shorten (← candidates f)
  let code ← relaxedCode f.function.name cs f.function.code 0 cs
  return { f.function with
    code
    calls := f.function.calls.map fun call =>
      { call with displacementOffset := adjustedOffset cs call.displacementOffset }
    addresses := f.function.addresses.map fun address =>
      { address with displacementOffset := adjustedOffset cs address.displacementOffset }
    globalAddresses := f.function.globalAddresses.map fun address =>
      { address with addressOffset := adjustedOffset cs address.addressOffset } }

end Raz.Forge.Relaxation
