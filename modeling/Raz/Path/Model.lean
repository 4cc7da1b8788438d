import Raz.Lib.Memory

/-!
# Lexical paths in memory

Translation of the parts of the path module that join and normalize. The output may be the memory of
the path itself. Copies are taken byte by byte, upward.
-/

namespace Raz.Path

open Memory

abbrev Bytes := Nat → UInt8

/-- A path in memory; the null address is 0. -/
structure PathView where
  data : Nat
  length : Nat
  deriving DecidableEq, Repr

def isSeparator (byte : UInt8) : Bool := byte = 47 || byte = 92

def valid (path : PathView) : Bool := path.length = 0 || path.data ≠ 0

def byteAt (memory : Bytes) (path : PathView) (index : Nat) : Option UInt8 :=
  if index ≥ path.length ∨ path.data = 0 then none else some (memory (path.data + index))

/-- The bytes of a path. -/
def bytes (memory : Bytes) (path : PathView) : List UInt8 :=
  if path.data = 0 then [] else (List.range path.length).map fun index => memory (path.data + index)

def driveLetter (byte : UInt8) : Bool := (65 ≤ byte && byte ≤ 90) || (97 ≤ byte && byte ≤ 122)

/-- A drive letter, a colon and a separator. -/
def driveRoot (path : List UInt8) : Bool :=
  match path with
  | first :: second :: third :: _ => driveLetter first && second = 58 && isSeparator third
  | _ => false

def isAbsolute (path : List UInt8) : Bool :=
  match path with
  | [] => false
  | first :: _ => if isSeparator first then true else driveRoot path

def rootLength (path : List UInt8) : Nat :=
  match path with
  | [] => 0
  | first :: rest =>
      if isSeparator first then if rest.head?.any isSeparator then 2 else 1
      else if driveRoot path then 3
      else 0

/-! ## Joining -/

/-- The loops that take separators from the end, of which the first `least` bytes stay. -/
def trimEnd (memory : Bytes) (data least : Nat) : Nat → Nat
  | 0 => 0
  | stop + 1 =>
      if stop + 1 > least ∧ isSeparator (memory (data + stop)) then trimEnd memory data least stop
      else stop + 1

/-- The loops that pass over bytes while a test holds; `remaining` of them are left. -/
def passOver (test : UInt8 → Bool) (memory : Bytes) (path : PathView) : Nat → Nat → Nat
  | 0, read => read
  | remaining + 1, read =>
      if test (memory (path.data + read)) then passOver test memory path remaining (read + 1)
      else read

def joinRequired (memory : Bytes) (left right : PathView) : Nat :=
  if left.length = 0 then right.length
  else if right.length = 0 then left.length
  else
    let leftEnd := trimEnd memory left.data 1 left.length
    let rightStart := passOver isSeparator memory right right.length 0
    leftEnd + 1 + right.length - rightStart

/-- `join_into`; none for the -1 of the source. -/
def joinInto (memory : Bytes) (left right : PathView) (output capacity : Nat) :
    Option Nat × Bytes :=
  let required := joinRequired memory left right
  if capacity < required ∨ (required > 0 ∧ output = 0) then (none, memory)
  else if left.length = 0 then (some right.length, copyUp memory output right.data right.length)
  else if right.length = 0 then (some left.length, copyUp memory output left.data left.length)
  else
    let leftEnd := trimEnd memory left.data 1 left.length
    let rightStart := passOver isSeparator memory right right.length 0
    let memory := copyUp memory output left.data leftEnd
    let memory := store memory (output + leftEnd) 47
    let tail := right.length - rightStart
    (some required, copyUp memory (output + leftEnd + 1) (right.data + rightStart) tail)

/-! ## Normalizing -/

def segmentIsDot (memory : Bytes) (path : PathView) (start length : Nat) : Bool :=
  length = 1 && byteAt memory path start = some 46

def segmentIsDotDot (memory : Bytes) (path : PathView) (start length : Nat) : Bool :=
  length = 2 && byteAt memory path start = some 46 && byteAt memory path (start + 1) = some 46

/-- The loops that go back in the output while a test holds, as far as the root. -/
def goBack (test : UInt8 → Bool) (memory : Bytes) (output root : Nat) : Nat → Nat
  | 0 => 0
  | stop + 1 =>
      if stop + 1 > root ∧ test (memory (output + stop)) then goBack test memory output root stop
      else stop + 1

def outputEndsDotDot (memory : Bytes) (output root written : Nat) : Bool :=
  if written - root < 2 then false
  else
    let start := goBack (· ≠ 47) memory output root written
    written - start = 2 && memory (output + start) = 46 && memory (output + start + 1) = 46

def popOutputComponent (memory : Bytes) (output root written : Nat) : Nat :=
  if written ≤ root then written
  else
    let stop := goBack (· = 47) memory output root written
    let stop := goBack (· ≠ 47) memory output root stop
    let stop := if stop > root ∧ memory (output + stop - 1) = 47 then stop - 1 else stop
    if stop < root then root else stop

def appendComponent (memory : Bytes) (output capacity written : Nat) (path : PathView)
    (start length : Nat) : Option (Nat × Bytes) :=
  let needsSeparator : Bool := written > 0 && memory (output + written - 1) ≠ 47
  let required := if needsSeparator then written + length + 1 else written + length
  if required > capacity then none
  else
    let memory := if needsSeparator then store memory (output + written) 47 else memory
    let written := if needsSeparator then written + 1 else written
    some (written + length, copyUp memory (output + written) (path.data + start) length)

/-- What the main loop does with a component: the number of bytes written, and the memory. -/
def takeComponent (memory : Bytes) (path : PathView)
    (output capacity root written start length : Nat) : Option (Nat × Bytes) :=
  if segmentIsDot memory path start length then some (written, memory)
  else if segmentIsDotDot memory path start length ∧ written > root ∧
      outputEndsDotDot memory output root written = false then
    some (popOutputComponent memory output root written, memory)
  else if segmentIsDotDot memory path start length ∧ root > 0 then some (written, memory)
  else appendComponent memory output capacity written path start length

/-- The main loop, with the number of bytes read and written. Out of fuel it would go on for
ever. -/
def componentLoop (path : PathView) (output capacity root : Nat) :
    Nat → Bytes → Nat → Nat → Option Nat × Bytes
  | 0, memory, _, _ => (none, memory)
  | fuel + 1, memory, read, written =>
      if read ≥ path.length then (some written, memory)
      else
        let start := passOver isSeparator memory path (path.length - read) read
        if start ≥ path.length then (some written, memory)
        else
          let read := passOver (!isSeparator ·) memory path (path.length - start) start
          match takeComponent memory path output capacity root written start (read - start) with
          | none => (none, memory)
          | some (written, memory) =>
              componentLoop path output capacity root fuel memory read written

/-- The root is written. -/
def writeRoot (memory : Bytes) (path : PathView) (output root : Nat) : Bytes :=
  if root = 1 then store memory output 47
  else if root = 2 then store (store memory output 47) (output + 1) 47
  else if root = 3 then
    store (store (store memory output (memory path.data)) (output + 1) 58) (output + 2) 47
  else memory

/-- `normalize_lexical_into`; none for the -1 of the source. -/
def normalizeLexicalInto (memory : Bytes) (path : PathView) (output capacity : Nat) :
    Option Nat × Bytes :=
  if valid path = false ∨ (path.length > 0 ∧ output = 0) then (none, memory)
  else
    let root := rootLength (bytes memory path)
    if capacity < root then (none, memory)
    else
      match componentLoop path output capacity root (path.length + 1)
        (writeRoot memory path output root) root root with
      | (none, memory) => (none, memory)
      | (some written, memory) =>
          if written = 0 ∧ path.length > 0 then
            if capacity < 1 then (none, memory) else (some 1, store memory output 46)
          else (some written, memory)

end Raz.Path
