import Raz.Lib.RunningMax
import Raz.Lib.Word

/-!
# The registry index

Translation of `registry_semver` and of the selection in `registry_resolve_mode`: the parser of
versions, the comparison, the constraints, the tokens of an index line and the loop that keeps the
best line. Texts are lists of bytes.
-/

namespace Raz.Registry

/-! ## Versions -/

def registryDigit (b : UInt8) : Bool := 48 ≤ b && b ≤ 57

/-- The loop of `registry_parse_u64`, in i64 arithmetic. -/
def parseDigits (value : Int) : List UInt8 → Int × List UInt8
  | [] => (value, [])
  | b :: rest =>
      if registryDigit b then
        parseDigits (Word.wrap (Word.wrap (value * 10) + (b.toNat - 48))) rest
      else (value, b :: rest)

/-- `registry_parse_u64`, with the text behind the number. -/
def parseU64 (text : List UInt8) : Int × List UInt8 :=
  match text with
  | [] => (-1, [])
  | b :: rest => if registryDigit b then parseDigits 0 (b :: rest) else (-1, b :: rest)

/-- The numbers of a version. -/
structure Core where
  major : Int
  minor : Int
  patch : Int
  deriving DecidableEq, Repr

/-- `registry_parse_u64` where the caller returns false for a negative number. -/
def parseComponent (text : List UInt8) : Option (Int × List UInt8) :=
  let (value, rest) := parseU64 text
  if value < 0 then none else some (value, rest)

/-- The text behind a dot. -/
def afterDot : List UInt8 → Option (List UInt8)
  | [] => none
  | b :: rest => if b = 46 then some rest else none

def parseSemver (text : List UInt8) : Option Core := do
  let (major, rest) ← parseComponent text
  let rest ← afterDot rest
  let (minor, rest) ← parseComponent rest
  let rest ← afterDot rest
  let (patch, rest) ← parseComponent rest
  if rest = [] ∨ rest.head? = some 45 ∨ rest.head? = some 43 then return ⟨major, minor, patch⟩
  else none

def hasPrerelease : List UInt8 → Bool
  | [] => false
  | b :: rest => if b = 45 then true else if b = 43 then false else hasPrerelease rest

def semverCompare (a b : Core) : Int :=
  if a.major < b.major then -1
  else if a.major > b.major then 1
  else if a.minor < b.minor then -1
  else if a.minor > b.minor then 1
  else if a.patch < b.patch then -1
  else if a.patch > b.patch then 1
  else 0

/-! ## Constraints -/

inductive Mode where
  | exact
  | caret
  | tilde
  | minimum
  deriving DecidableEq, Repr

/-- The mode of a constraint and the version behind its sign. -/
def constraintMode : List UInt8 → Mode × List UInt8
  | 94 :: rest => (.caret, rest)
  | 126 :: rest => (.tilde, rest)
  | 62 :: 61 :: rest => (.minimum, rest)
  | text => (.exact, text)

/-- The end of `registry_constraint_matches`, where both versions are parsed. -/
def modeMatches (mode : Mode) (version body : List UInt8) (v c : Core) : Bool :=
  let cmp := semverCompare v c
  match mode with
  | .exact => if cmp ≠ 0 then false else if hasPrerelease body then version = body else true
  | .minimum => cmp ≥ 0
  | .tilde => cmp ≥ 0 && v.major = c.major && v.minor = c.minor
  | .caret =>
      if cmp < 0 then false
      else if c.major > 0 then v.major = c.major
      else if c.minor > 0 then v.major = 0 && v.minor = c.minor
      else v.major = 0 && v.minor = 0 && v.patch = c.patch

def constraintMatches (version constraint : List UInt8) : Bool :=
  match parseSemver version with
  | none => false
  | some v =>
      if constraint = [] then true
      else
        let (mode, body) := constraintMode constraint
        match parseSemver body with
        | none => false
        | some c =>
            if hasPrerelease version && !hasPrerelease body then false
            else modeMatches mode version body v c

/-! ## Index lines -/

def asciiIsSpace (b : UInt8) : Bool := b = 32 || b = 9 || b = 13

def isNewline (b : UInt8) : Bool := b = 10 || b = 13

/-- The loop of `registry_token`. Every round takes a byte at least. -/
def tokenLoop : Nat → List UInt8 → Nat → Option (List UInt8)
  | 0, _, _ => none
  | rounds + 1, line, ordinal =>
      let line := line.dropWhile asciiIsSpace
      if line = [] then none
      else
        let token := line.takeWhile (fun b => !asciiIsSpace b)
        if ordinal = 0 then some token
        else tokenLoop rounds (line.drop token.length) (ordinal - 1)

def registryToken (line : List UInt8) (ordinal : Nat) : Option (List UInt8) :=
  tokenLoop (line.length + 1) line ordinal

/-- The lines of the index that are not empty. Every round takes a byte at least. -/
def linesLoop : Nat → List UInt8 → List (List UInt8)
  | 0, _ => []
  | rounds + 1, text =>
      if text = [] then []
      else
        let line := text.takeWhile (fun b => !isNewline b)
        let rest := linesLoop rounds ((text.drop line.length).dropWhile isNewline)
        if line = [] then rest else line :: rest

def indexLines (text : List UInt8) : List (List UInt8) := linesLoop (text.length + 1) text

/-- What is read of a line. -/
structure IndexLine where
  name : List UInt8
  version : List UInt8
  path : List UInt8
  checksum : List UInt8
  key : List UInt8
  signature : List UInt8
  deriving DecidableEq, Repr

def readLine (line : List UInt8) : Option IndexLine := do
  let name ← registryToken line 0
  let version ← registryToken line 1
  let path ← registryToken line 2
  let checksum ← registryToken line 3
  return ⟨name, version, path, checksum, (registryToken line 4).getD [],
    (registryToken line 5).getD []⟩

/-- A line that can be selected, with the numbers of its version. -/
def candidate (name constraint line : List UInt8) : Option (Core × IndexLine) := do
  let read ← readLine line
  if read.name ≠ name ∨ constraintMatches read.version constraint = false then none
  else
    let core ← parseSemver read.version
    return (core, read)

/-- The loop of `registry_resolve_mode` over the lines. -/
def selectLoop (name constraint : List UInt8) :
    Option (Core × IndexLine) → List (List UInt8) → Option (Core × IndexLine)
  | best, [] => best
  | best, line :: lines =>
      match candidate name constraint line with
      | none => selectLoop name constraint best lines
      | some (core, read) =>
          match best with
          | none => selectLoop name constraint (some (core, read)) lines
          | some (best, old) =>
              selectLoop name constraint
                (if semverCompare core best > 0 then some (core, read) else some (best, old)) lines

/-- The line that `registry_resolve_mode` selects; none where it returns 61. -/
def selectLine (name constraint text : List UInt8) : Option IndexLine :=
  (selectLoop name constraint none (indexLines text)).map Prod.snd

end Raz.Registry
