import Raz.Json.Model

/-!
# The JSON document parser

Translation of `std::encoding::json::document`: `parse_value`, `parse_borrowed` and `parse_owned`.
The arena of the nodes is a list, and there is always room for another node.
-/

namespace Raz.Json

inductive JsonValueKind
  | object
  | array
  | string
  | number
  | bool
  | null
  deriving DecidableEq, Repr

structure JsonNode where
  kind : JsonValueKind
  valueOffset : Int
  valueLength : Int
  keyOffset : Int
  keyLength : Int
  firstChild : Int
  nextSibling : Int
  childCount : Int
  boolValue : Bool
  deriving DecidableEq, Repr

structure JsonDocument where
  source : List UInt8
  nodes : List JsonNode
  root : Int
  borrowedSource : List UInt8
  borrowed : Bool
  deriving DecidableEq, Repr

def JsonDocument.empty : JsonDocument := ⟨[], [], -1, [], false⟩

/-- `alloc::vec::element_address`: the element at an index, if there is one. -/
def elementAddress (nodes : List JsonNode) (index : Int) : Option Nat :=
  if index < 0 ∨ index ≥ nodes.length then none else some index.toNat

/-- The nodes with another one, and its index. -/
def appendNode (nodes : List JsonNode) (node : JsonNode) : List JsonNode × Int :=
  (nodes ++ [node], nodes.length)

def attachChild (nodes : List JsonNode) (parent child previous : Int) : Bool × List JsonNode :=
  match elementAddress nodes parent with
  | none => (false, nodes)
  | some parentAddress =>
      let nodes := nodes.modify parentAddress fun node =>
        { node with
          firstChild := if node.firstChild < 0 then child else node.firstChild
          childCount := node.childCount + 1 }
      if previous ≥ 0 then
        match elementAddress nodes previous with
        | none => (false, nodes)
        | some previousAddress =>
            (true, nodes.modify previousAddress fun node => { node with nextSibling := child })
      else (true, nodes)

/-- What a call of `parse_value` leaves: its error, the lexer, the nodes and the output index. -/
structure ParseResult where
  error : JsonError
  lexer : JsonLexer
  nodes : List JsonNode
  output : Int
  deriving DecidableEq, Repr

/-- `parse_value` from the lexer, the nodes, `key_offset` and `key_length`. -/
abbrev Parser := JsonLexer → List JsonNode → Int → Int → ParseResult

/-- The key of a member and its colon; the elements of an array have none. -/
def parseKey (object : Bool) (lexer : JsonLexer) : JsonError × JsonLexer × Int × Int :=
  if object then
    let (key, lexer) := next lexer
    if key.kind = .error then (key.error, lexer, -1, 0)
    else if key.kind ≠ .string then (.unexpectedToken, lexer, -1, 0)
    else
      let (colon, lexer) := next lexer
      if colon.kind ≠ .colon then
        (if colon.kind = .error then colon.error else .unexpectedToken, lexer, key.lexeme.start,
          key.lexeme.length)
      else (.none, lexer, key.lexeme.start, key.lexeme.length)
  else (.none, lexer, -1, 0)

/-- The token that closes a container. -/
def closeKind (object : Bool) : JsonTokenKind := if object then .rightBrace else .rightBracket

/-- The loop of `parse_value`. Every round takes a byte at least. -/
def parseItems (parse : Parser) (object : Bool) (container : Int) :
    Nat → JsonLexer → List JsonNode → Int → ParseResult
  | 0, lexer, nodes, _ => ⟨.unexpectedToken, lexer, nodes, container⟩
  | rounds + 1, lexer, nodes, previous =>
      let (error, lexer, keyOffset, keyLength) := parseKey object lexer
      if error ≠ .none then ⟨error, lexer, nodes, container⟩
      else
        let parsed := parse lexer nodes keyOffset keyLength
        if parsed.error ≠ .none then ⟨parsed.error, parsed.lexer, parsed.nodes, container⟩
        else
          let (attached, nodes) := attachChild parsed.nodes container parsed.output previous
          if attached = false then ⟨.unexpectedEnd, parsed.lexer, nodes, container⟩
          else
            let (separator, lexer) := next parsed.lexer
            if separator.kind = .error then ⟨separator.error, lexer, nodes, container⟩
            else if separator.kind = closeKind object then
              ⟨.none, lexer, nodes, container⟩
            else if separator.kind ≠ .comma then ⟨.unexpectedToken, lexer, nodes, container⟩
            else parseItems parse object container rounds lexer nodes parsed.output

/-- A container behind its opening bracket. -/
def parseContainer (parse : Parser) (object : Bool) (lexer : JsonLexer) (nodes : List JsonNode)
    (container : Int) : ParseResult :=
  let (look, behind) := next lexer
  if look.kind = .error then ⟨look.error, behind, nodes, container⟩
  else if look.kind = closeKind object then ⟨.none, behind, nodes, container⟩
  else
    parseItems parse object container (lexer.source.length + 1)
      { behind with cursor := look.offset } nodes (-1)

/-- A node without children. -/
def leaf (kind : JsonValueKind) (valueOffset valueLength keyOffset keyLength : Int)
    (boolValue : Bool) : JsonNode :=
  ⟨kind, valueOffset, valueLength, keyOffset, keyLength, -1, -1, 0, boolValue⟩

/-- The kind of the node of a token that is a value. -/
def scalarKind : JsonTokenKind → JsonValueKind
  | .string => .string
  | .number => .number
  | .true | .false => .bool
  | _ => .null

/-- `parse_value` at a depth that `max_depth` allows, `parse` being the call one level below. -/
def parseValue (parse : Parser) : Parser := fun lexer nodes keyOffset keyLength =>
  let (token, lexer) := next lexer
  if token.kind = .error then ⟨token.error, lexer, nodes, -1⟩
  else if token.kind = .endOfText then ⟨.unexpectedEnd, lexer, nodes, -1⟩
  else if isScalar token.kind then
    let (nodes, index) := appendNode nodes (leaf (scalarKind token.kind) token.lexeme.start
      token.lexeme.length keyOffset keyLength (token.kind = .true))
    ⟨.none, lexer, nodes, index⟩
  else if token.kind ≠ .leftBrace ∧ token.kind ≠ .leftBracket then
    ⟨.unexpectedToken, lexer, nodes, -1⟩
  else
    let object : Bool := token.kind = .leftBrace
    let (nodes, container) := appendNode nodes (leaf (if object then .object else .array)
      token.offset 0 keyOffset keyLength false)
    parseContainer parse object lexer nodes container

/-- `parse_value` with `max_depth + 1 - depth` levels left. -/
def parseValueInner : Nat → Parser
  | 0 => fun lexer nodes _ _ => ⟨.depthExceeded, lexer, nodes, -1⟩
  | levels + 1 => parseValue (parseValueInner levels)

def parseBorrowed (data : List UInt8) (maxDepth : Int) (output : JsonDocument) :
    JsonError × JsonDocument :=
  if maxDepth ≤ 0 then (.depthExceeded, output)
  else if data = [] then (.unexpectedEnd, output)
  else
    -- the depth of the root is one
    let parsed := parseValueInner maxDepth.toNat (lexer data) [] (-1) 0
    if parsed.error ≠ .none then (parsed.error, { output with nodes := [] })
    else
      let (tail, _) := next parsed.lexer
      if tail.kind ≠ .endOfText then
        (if tail.kind = .error then tail.error else .trailingData, { output with nodes := [] })
      else (.none, ⟨[], parsed.nodes, parsed.output, data, true⟩)

/-- `parse_owned`: the bytes of `source` become those of the document. -/
def parseOwned (source : List UInt8) (maxDepth : Int) (output : JsonDocument) :
    JsonError × JsonDocument :=
  if maxDepth ≤ 0 then (.depthExceeded, output)
  else if source = [] then (.unexpectedEnd, output)
  else
    let parsed := parseValueInner maxDepth.toNat (lexer source) [] (-1) 0
    if parsed.error ≠ .none then (parsed.error, { output with nodes := [] })
    else
      let (tail, _) := next parsed.lexer
      if tail.kind ≠ .endOfText then
        (if tail.kind = .error then tail.error else .trailingData, { output with nodes := [] })
      else (.none, ⟨source, parsed.nodes, parsed.output, [], false⟩)

/-- The bytes that the ranges of the nodes are in, which begin at `source_base`. -/
def JsonDocument.bytes (document : JsonDocument) : List UInt8 :=
  if document.borrowed then document.borrowedSource else document.source

end Raz.Json
