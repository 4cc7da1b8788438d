import Raz.Core.Utf8

/-!
# The JSON scanner and `validate`

Translation of `std::encoding::json`. The source is the list of its bytes and is not null. A view
is the offset of its first byte in the source and its length. A loop that reads on from the cursor
is a function of the bytes from there on and returns those behind what it has read. Behind an
error token the cursor stays where it was: every caller stops there or goes back.
-/

namespace Raz.Json

inductive JsonError
  | none
  | unexpectedEnd
  | unexpectedToken
  | invalidString
  | invalidEscape
  | invalidUnicodeEscape
  | invalidNumber
  | trailingData
  | depthExceeded
  | outOfMemory
  deriving DecidableEq, Repr

inductive JsonTokenKind
  | leftBrace
  | rightBrace
  | leftBracket
  | rightBracket
  | colon
  | comma
  | string
  | number
  | true
  | false
  | null
  | endOfText
  | error
  deriving DecidableEq, Repr

structure BytesView where
  start : Nat
  length : Nat
  deriving DecidableEq, Repr

structure JsonToken where
  kind : JsonTokenKind
  lexeme : BytesView
  offset : Nat
  error : JsonError
  deriving DecidableEq, Repr

structure JsonLexer where
  source : List UInt8
  cursor : Nat
  deriving DecidableEq, Repr

/-- The bytes from the cursor on. -/
def JsonLexer.rest (lexer : JsonLexer) : List UInt8 := lexer.source.drop lexer.cursor

/-- The cursor in front of these last bytes of the source. -/
def JsonLexer.moveTo (lexer : JsonLexer) (rest : List UInt8) : JsonLexer :=
  { lexer with cursor := lexer.source.length - rest.length }

def whitespace (byte : UInt8) : Bool := byte = 32 || byte = 9 || byte = 10 || byte = 13

def skipWhitespace (lexer : JsonLexer) : JsonLexer :=
  lexer.moveTo (lexer.rest.dropWhile whitespace)

def errorToken (offset : Nat) (error : JsonError) : JsonToken := ⟨.error, ⟨0, 0⟩, offset, error⟩

/-! ## Strings -/

def hexValue (byte : UInt8) : Option Nat :=
  if 48 ≤ byte ∧ byte ≤ 57 then some (byte.toNat - 48)
  else if 65 ≤ byte ∧ byte ≤ 70 then some (byte.toNat - 65 + 10)
  else if 97 ≤ byte ∧ byte ≤ 102 then some (byte.toNat - 97 + 10)
  else none

def scanHex4 (a b c d : UInt8) : Option Nat := do
  let a ← hexValue a
  let b ← hexValue b
  let c ← hexValue c
  let d ← hexValue d
  return ((a * 16 + b) * 16 + c) * 16 + d

/-- `\"`, `\\`, `\/`, `\b`, `\f`, `\n`, `\r` and `\t`. -/
def simpleEscapes : List UInt8 := [34, 92, 47, 98, 102, 110, 114, 116]

/-- The loop of `scan_string`, to the bytes from the closing quote on. -/
def stringLoop : List UInt8 → Except JsonError (List UInt8)
  | [] => .error .unexpectedEnd
  | byte :: rest =>
      if byte = 34 then .ok (byte :: rest)
      else if byte < 32 then .error .invalidString
      else if byte = 92 then
        match rest with
        | [] => .error .unexpectedEnd
        | escape :: rest =>
            if simpleEscapes.contains escape then stringLoop rest
            else if escape ≠ 117 then .error .invalidEscape
            else
              match rest with
              | a :: b :: c :: d :: rest =>
                  match scanHex4 a b c d with
                  | none => .error .invalidUnicodeEscape
                  | some code =>
                      if 55296 ≤ code ∧ code ≤ 56319 then
                        match rest with
                        | backslash :: u :: a :: b :: c :: d :: rest =>
                            if backslash ≠ 92 ∨ u ≠ 117 then .error .invalidUnicodeEscape
                            else
                              match scanHex4 a b c d with
                              | none => .error .invalidUnicodeEscape
                              | some low =>
                                  if low < 56320 ∨ 57343 < low then .error .invalidUnicodeEscape
                                  else stringLoop rest
                        | _ => .error .invalidUnicodeEscape
                      else if 56320 ≤ code ∧ code ≤ 57343 then .error .invalidUnicodeEscape
                      else stringLoop rest
              | _ => .error .invalidUnicodeEscape
      else stringLoop rest

/-- The cursor is at the opening quote. -/
def scanString (lexer : JsonLexer) (start : Nat) : JsonToken × JsonLexer :=
  let content := lexer.rest.drop 1
  match stringLoop content with
  | .error error => (errorToken start error, lexer)
  | .ok tail =>
      let length := content.length - tail.length
      if Core.Utf8.validate (content.take length) = false then
        (errorToken start .invalidString, lexer)
      else
        (⟨.string, ⟨lexer.cursor + 1, length⟩, start, .none⟩, lexer.moveTo (tail.drop 1))

/-! ## Numbers -/

def isDigit (byte : UInt8) : Bool := 48 ≤ byte && byte ≤ 57

/-- One digit at least, and those behind it. -/
def skipDigits (bytes : List UInt8) : Option (List UInt8) :=
  if bytes.head?.any isDigit then some (bytes.dropWhile isDigit) else none

def skipMinus : List UInt8 → List UInt8
  | 45 :: rest => rest
  | rest => rest

def skipInteger : List UInt8 → Option (List UInt8)
  | [] => none
  | first :: rest =>
      if first = 48 then if rest.head?.any isDigit then none else some rest
      else if 49 ≤ first ∧ first ≤ 57 then some (rest.dropWhile isDigit)
      else none

def skipFraction : List UInt8 → Option (List UInt8)
  | 46 :: rest => skipDigits rest
  | rest => some rest

def skipSign : List UInt8 → List UInt8
  | [] => []
  | sign :: rest => if sign = 43 ∨ sign = 45 then rest else sign :: rest

def skipExponent : List UInt8 → Option (List UInt8)
  | [] => some []
  | e :: rest => if e = 101 ∨ e = 69 then skipDigits (skipSign rest) else some (e :: rest)

def skipNumber (bytes : List UInt8) : Option (List UInt8) := do
  let bytes ← skipInteger (skipMinus bytes)
  let bytes ← skipFraction bytes
  skipExponent bytes

def scanNumber (lexer : JsonLexer) (start : Nat) : JsonToken × JsonLexer :=
  match skipNumber lexer.rest with
  | none => (errorToken start .invalidNumber, lexer)
  | some tail =>
      let next := lexer.moveTo tail
      (⟨.number, ⟨start, next.cursor - start⟩, start, .none⟩, next)

/-! ## Tokens -/

def lexer (source : List UInt8) : JsonLexer := ⟨source, 0⟩

/-- A token of a fixed length. -/
def fixedToken (lexer : JsonLexer) (kind : JsonTokenKind) (length : Nat) :
    JsonToken × JsonLexer :=
  (⟨kind, ⟨lexer.cursor, length⟩, lexer.cursor, .none⟩,
    { lexer with cursor := lexer.cursor + length })

/-- `next` behind the whitespace. -/
def nextToken (value : JsonLexer) : JsonToken × JsonLexer :=
  match value.rest with
  | [] => (⟨.endOfText, ⟨value.source.length, 0⟩, value.cursor, .none⟩, value)
  | byte :: rest =>
      if byte = 123 then fixedToken value .leftBrace 1
      else if byte = 125 then fixedToken value .rightBrace 1
      else if byte = 91 then fixedToken value .leftBracket 1
      else if byte = 93 then fixedToken value .rightBracket 1
      else if byte = 58 then fixedToken value .colon 1
      else if byte = 44 then fixedToken value .comma 1
      else if byte = 34 then scanString value value.cursor
      else if byte = 45 ∨ isDigit byte then scanNumber value value.cursor
      else if (byte :: rest).take 4 = [116, 114, 117, 101] then fixedToken value .true 4
      else if (byte :: rest).take 5 = [102, 97, 108, 115, 101] then fixedToken value .false 5
      else if (byte :: rest).take 4 = [110, 117, 108, 108] then fixedToken value .null 4
      else (errorToken value.cursor .unexpectedToken, value)

def next (value : JsonLexer) : JsonToken × JsonLexer := nextToken (skipWhitespace value)

/-! ## `validate` -/

/-- A token that is a value. -/
def isScalar (kind : JsonTokenKind) : Bool :=
  kind = .string || kind = .number || kind = .true || kind = .false || kind = .null

/-- The loop of `skip_value_inner` over the elements of an array or the members of an object.
Every round takes a byte at least. -/
def skipItems (item : JsonLexer → JsonError × JsonLexer) (close : JsonTokenKind) :
    Nat → JsonLexer → JsonError × JsonLexer
  | 0, value => (.unexpectedToken, value)
  | rounds + 1, value =>
      let (nested, value) := item value
      if nested ≠ .none then (nested, value)
      else
        let (separator, value) := next value
        if separator.kind = close then (.none, value)
        else if separator.kind ≠ .comma then (.unexpectedToken, value)
        else skipItems item close rounds value

/-- An array or an object behind its opening bracket. -/
def skipContainer (item : JsonLexer → JsonError × JsonLexer) (close : JsonTokenKind)
    (value : JsonLexer) : JsonError × JsonLexer :=
  let (look, behind) := next value
  if look.kind = close then (.none, behind)
  else
    skipItems item close (value.source.length + 1) { behind with cursor := look.offset }

/-- A key, a colon and the value. -/
def skipMember (skip : JsonLexer → JsonError × JsonLexer) (value : JsonLexer) :
    JsonError × JsonLexer :=
  let (key, value) := next value
  if key.kind = .error then (key.error, value)
  else if key.kind ≠ .string then (.unexpectedToken, value)
  else
    let (colon, value) := next value
    if colon.kind ≠ .colon then (.unexpectedToken, value) else skip value

/-- `skip_value_inner` at a depth that `max_depth` allows, `skip` being the call one level below. -/
def skipValue (skip : JsonLexer → JsonError × JsonLexer) (value : JsonLexer) :
    JsonError × JsonLexer :=
  let (token, value) := next value
  if token.kind = .error then (token.error, value)
  else if isScalar token.kind then (.none, value)
  else if token.kind = .leftBracket then skipContainer skip .rightBracket value
  else if token.kind = .leftBrace then skipContainer (skipMember skip) .rightBrace value
  else (.unexpectedToken, value)

/-- `skip_value_inner` with `max_depth + 1 - depth` levels left. -/
def skipValueInner : Nat → JsonLexer → JsonError × JsonLexer
  | 0, value => (.depthExceeded, value)
  | levels + 1, value => skipValue (skipValueInner levels) value

/-- The limit that `validate` uses. -/
def depthLimit (maxDepth : Int) : Nat := if maxDepth ≤ 0 then 256 else maxDepth.toNat

def validate (data : List UInt8) (maxDepth : Int) : JsonError :=
  let (error, value) := skipValueInner (depthLimit maxDepth + 1) (lexer data)
  if error ≠ .none then error
  else
    let (tail, _) := next value
    if tail.kind ≠ .endOfText then .trailingData else .none

end Raz.Json
