import Raz.Lib.Cells
import Raz.Net.Address

/-!
# Addresses and their texts

Translation of `parse_ipv6`, of `to_string` and of what they call. A text is the list of its bytes,
and the place where the parser reads is the list of the bytes from there on. The array of groups is
checked and starts empty: an access outside it, or to a group that has not been stored, is an access
outside. Every block that a string asks for is granted.
-/

namespace Raz.Net

open Access

inductive ResolveError
  | invalidHost
  | lookupFailed
  | allocationFailed
  | invalidAddressSyntax
  deriving DecidableEq, Repr

structure IpAddress where
  family : Int
  high : UInt64
  low : UInt64
  scopeId : Int
  deriving DecidableEq, Repr

abbrev Run := Except (Fault ResolveError)

def invalid {α : Type} : Run α := .error (.reported .invalidAddressSyntax)

/-- The value of a hexadecimal digit; none for the -1 of the source. -/
def hexValue (byte : UInt8) : Option Nat :=
  if 48 ≤ byte ∧ byte ≤ 57 then some (byte.toNat - 48)
  else if 65 ≤ byte ∧ byte ≤ 70 then some (byte.toNat - 55)
  else if 97 ≤ byte ∧ byte ≤ 102 then some (byte.toNat - 87)
  else none

/-! ## Reading -/

/-- The loop over the scope. -/
def scopeLoop : Nat → List UInt8 → Run Nat
  | scope, [] => .ok scope
  | scope, byte :: rest =>
      if byte < 48 ∨ 57 < byte ∨ scope > 214748364 then invalid
      else scopeLoop (scope * 10 + byte.toNat - 48) rest

/-- The part of the text before the percent sign, and the scope behind it. -/
def splitScope (text : List UInt8) : Run (List UInt8 × Nat) :=
  let percent := text.findIdx (· = 37)
  if percent < text.length then
    if percent = 0 ∨ percent + 1 ≥ text.length then invalid
    else do
      let scope ← scopeLoop 0 (text.drop (percent + 1))
      .ok (text.take percent, scope)
  else .ok (text, 0)

/-- The groups, how many of them there are, and where the two colons were; none for the -1 of the
source. -/
structure Groups where
  cells : List (Option Nat)
  count : Nat
  compression : Option Nat
  deriving DecidableEq, Repr

/-- Two colons at the start of the text. -/
def leadingColons (text : List UInt8) : Run (Option Nat × List UInt8) :=
  if text.head? = some 58 then
    if text.length < 2 ∨ text[1]? ≠ some 58 then invalid else .ok (some 0, text.drop 2)
  else .ok (none, text)

/-- The loop over the digits of a group, with the value and the number of digits so far. -/
def digitLoop : Nat → Nat → List UInt8 → Run (Nat × Nat × List UInt8)
  | value, digits, [] => .ok (value, digits, [])
  | value, digits, byte :: rest =>
      if byte = 58 then .ok (value, digits, byte :: rest)
      else
        match hexValue byte with
        | none => invalid
        | some digit =>
            if digits ≥ 4 then invalid
            else digitLoop ((value <<< 4) ||| digit) (digits + 1) rest

/-- A dotted address fills two groups. -/
def embedIpv4 (text : List UInt8) (s : Groups) : Run Groups :=
  if s.count > 6 then invalid
  else
    match parseIpv4 text with
    | .error _ => invalid
    | .ok address => do
        let cells ← Cells.store s.cells s.count ((ipv4First address <<< 8) ||| ipv4Second address)
        let cells ← Cells.store cells (s.count + 1)
          ((ipv4Third address <<< 8) ||| ipv4Fourth address)
        .ok ⟨cells, s.count + 2, s.compression⟩

/-- The group at the start of the text, with the text behind its digits. -/
def hexGroup (text : List UInt8) (s : Groups) : Run (List UInt8 × Groups) := do
  let (value, digits, rest) ← digitLoop 0 0 text
  if digits = 0 then invalid
  else do
    let cells ← Cells.store s.cells s.count value
    .ok (rest, ⟨cells, s.count + 1, s.compression⟩)

/-- The main loop. Out of fuel it would go on for ever. -/
def groupLoop : Nat → List UInt8 → Groups → Run Groups
  | 0, _, _ => .error .outside
  | fuel + 1, text, s =>
      if text = [] then .ok s
      else if s.count ≥ 8 then invalid
      else if text.contains 46 then embedIpv4 text s
      else do
        let (rest, s) ← hexGroup text s
        match rest with
        | [] => .ok s
        | [_] => invalid
        | _ :: byte :: rest =>
            if byte = 58 then
              if s.compression.isSome then invalid
              else groupLoop fuel rest ⟨s.cells, s.count, some s.count⟩
            else groupLoop fuel (byte :: rest) s

/-- The groups behind the two colons are moved to the end, and zeros take their place. -/
def expand (s : Groups) : Run (List (Option Nat)) :=
  match s.compression with
  | none => if s.count ≠ 8 then invalid else .ok s.cells
  | some compression =>
      if s.count ≥ 8 then invalid
      else do
        let missing := 8 - s.count
        let cells ← Cells.moveUp missing compression s.cells (s.count - compression)
        Cells.fill 0 cells compression missing

/-- The loops over the groups of a word. -/
def wordLoop (cells : List (Option Nat)) : Nat → Nat → UInt64 → Run UInt64
  | _, 0, word => .ok word
  | index, count + 1, word => do
      let group ← Cells.load cells index
      wordLoop cells (index + 1) count ((word <<< 16) ||| UInt64.ofNat group)

def parseIpv6 (text : List UInt8) : Run IpAddress :=
  if text.length < 2 ∨ text.length > 64 then invalid
  else do
    let (body, scope) ← splitScope text
    let (compression, rest) ← leadingColons body
    let groups ← groupLoop (rest.length + 1) rest ⟨List.replicate 8 none, 0, compression⟩
    let cells ← expand groups
    let high ← wordLoop cells 0 4 0
    let low ← wordLoop cells 4 4 0
    .ok ⟨6, high, low, scope⟩

/-! ## Writing -/

/-- The greatest power of ten that is not above the value. -/
def divisorLoop (value : Nat) : Nat → Nat → Nat
  | 0, divisor => divisor
  | fuel + 1, divisor =>
      if value / divisor ≥ 10 then divisorLoop value fuel (divisor * 10) else divisor

def decimalLoop (value : Nat) : Nat → Nat → List UInt8 → List UInt8
  | 0, _, output => output
  | fuel + 1, divisor, output =>
      if divisor > 0 then
        decimalLoop value fuel (divisor / 10)
          (output ++ [UInt8.ofNat (48 + value / divisor % 10)])
      else output

def appendDecimal (output : List UInt8) (value : Nat) : List UInt8 :=
  decimalLoop value (value + 2) (divisorLoop value (value + 1) 1) output

def hexDigit (value : Nat) : UInt8 := UInt8.ofNat (if value < 10 then 48 + value else 87 + value)

/-- The loop over the digits of a group, of which `count` are left. -/
def hexLoop (value : Nat) : Nat → Bool → List UInt8 → List UInt8
  | 0, _, output => output
  | count + 1, started, output =>
      let digit := (value >>> (4 * count)) &&& 15
      if digit ≠ 0 ∨ started = true ∨ count = 0 then
        hexLoop value count true (output ++ [hexDigit digit])
      else hexLoop value count started output

def appendHexGroup (output : List UInt8) (value : Nat) : List UInt8 :=
  hexLoop value 4 false output

def ipv6Segment (address : IpAddress) (index : Nat) : Nat :=
  if index ≥ 8 then 0
  else if index < 4 then ((address.high >>> UInt64.ofNat ((3 - index) * 16)) &&& 65535).toNat
  else ((address.low >>> UInt64.ofNat ((7 - index) * 16)) &&& 65535).toNat

/-- The eight groups of an address. -/
def segments (address : IpAddress) : List Nat := (List.range 8).map (ipv6Segment address)

/-- The run of zeros to be left out; no start for the -1 of the source. -/
structure Best where
  start : Option Nat
  length : Nat
  deriving DecidableEq, Repr

/-- The loop that looks for the longest run, with the segments from an index on. -/
def bestLoop : Nat → Nat → List Nat → Best → Best
  | 0, _, _, best => best
  | _, _, [], best => best
  | fuel + 1, index, segment :: rest, best =>
      if segment ≠ 0 then bestLoop fuel (index + 1) rest best
      else
        let run := ((segment :: rest).takeWhile (· = 0)).length
        bestLoop fuel (index + run) ((segment :: rest).drop run)
          (if run ≥ 2 ∧ run > best.length then ⟨some index, run⟩ else best)

/-- The loop that writes the segments from an index on. -/
def segmentLoop (best : Best) : Nat → Nat → List Nat → Bool → Bool → List UInt8 → List UInt8
  | 0, _, _, _, _, output => output
  | _, _, [], _, _, output => output
  | fuel + 1, index, segment :: rest, first, afterCompression, output =>
      if some index = best.start then
        let output := if first = false then output ++ [58] else output
        segmentLoop best fuel (index + best.length) ((segment :: rest).drop best.length) false true
          (output ++ [58])
      else
        let output := if first = false ∧ afterCompression = false then output ++ [58] else output
        segmentLoop best fuel (index + 1) rest false false (appendHexGroup output segment)

def ipv6ToString (address : IpAddress) : List UInt8 :=
  let segments := segments address
  let best := bestLoop 8 0 segments ⟨none, 0⟩
  let output := segmentLoop best 8 0 segments true false []
  if address.scopeId > 0 then appendDecimal (output ++ [37]) address.scopeId.toNat else output

def toString (address : IpAddress) : List UInt8 :=
  if address.family = 4 then
    let value := address.low
    let output := appendDecimal [] ((value >>> 24) &&& 255).toNat ++ [46]
    let output := appendDecimal output ((value >>> 16) &&& 255).toNat ++ [46]
    let output := appendDecimal output ((value >>> 8) &&& 255).toNat ++ [46]
    appendDecimal output (value &&& 255).toNat
  else if address.family = 6 then ipv6ToString address
  else []

end Raz.Net
