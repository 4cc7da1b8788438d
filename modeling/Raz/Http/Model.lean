import Raz.Lib.Word

/-!
# HTTP/1.x messages

Translation of the parser and the writers of `std::net::http`. A view is the list of its bytes,
a search that fails returns `none` for -1, and `content_length` is -1 when there is none. An
argument pointer is never null here, and the strings the writers append to always have room.
-/

namespace Raz.Http

inductive HttpError
  | none
  | incomplete
  | invalidStartLine
  | invalidHeader
  | headersTooLarge
  | invalidContentLength
  | conflictingFraming
  | invalidChunk
  | bodyIncomplete
  deriving DecidableEq, Repr

/-- `bodyStart` is where the view of the body begins. -/
structure HttpRequestView where
  method : List UInt8
  target : List UInt8
  version : List UInt8
  headerBlock : List UInt8
  bodyStart : Nat
  body : List UInt8
  contentLength : Int
  chunked : Bool
  connectionClose : Bool
  deriving DecidableEq, Repr

structure HeaderIterator where
  block : List UInt8
  cursor : Nat
  invalid : Bool
  deriving DecidableEq, Repr

structure HeaderView where
  name : List UInt8
  value : List UInt8
  deriving DecidableEq, Repr

/-! ## Bytes -/

def slice (bytes : List UInt8) (start stop : Nat) : List UInt8 :=
  (bytes.drop start).take (stop - start)

/-- `core::ascii::to_lower`. -/
def lower (b : UInt8) : UInt8 := if 65 ≤ b ∧ b ≤ 90 then b + 32 else b

def isTokenByte (b : UInt8) : Bool :=
  (48 ≤ b && b ≤ 57) || (65 ≤ b && b ≤ 90) || (97 ≤ b && b ≤ 122) ||
    [33, 35, 36, 37, 38, 39, 42, 43, 45, 46, 94, 95, 96, 124, 126].contains b

/-- `core::bytes::find_byte`. -/
def findByte (bytes : List UInt8) (value : UInt8) : Option Nat := bytes.idxOf? value

/-- `find_crlf` at the cursor, with the bytes from there on. -/
def findCrlfFrom : Nat → List UInt8 → Option Nat
  | _, [] => none
  | cursor, b :: rest =>
      if b = 13 ∧ rest.head? = some 10 then some cursor else findCrlfFrom (cursor + 1) rest

def findCrlf (source : List UInt8) (start : Nat) : Option Nat :=
  findCrlfFrom start (source.drop start)

def isSpace (b : UInt8) : Bool := b = 32 || b = 9

/-- Without the spaces and tabs at both ends. -/
def trimOws (value : List UInt8) : List UInt8 :=
  ((value.dropWhile isSpace).reverse.dropWhile isSpace).reverse

/-- The loop of `parse_decimal`. -/
def decimalLoop : Int → List UInt8 → Int
  | result, [] => result
  | result, b :: rest =>
      if b < 48 ∨ 57 < b then -1
      else
        let digit : Int := b.toNat - 48
        if result > (9223372036854775807 - digit) / 10 then -1
        else decimalLoop (result * 10 + digit) rest

def parseDecimal (value : List UInt8) : Int :=
  let value := trimOws value
  if value = [] then -1 else decimalLoop 0 value

/-- The loop of `find_header_end`, at its head or on the way of `find_byte` to the next CR. The
head asks for four bytes below the limit, `find_byte` for one, and the bytes after the CR are
read up to the end of the source. -/
def headerEndFrom (limit : Nat) : Bool → Nat → List UInt8 → Option Nat
  | _, _, [] => none
  | atHead, cursor, b :: rest =>
      if atHead = true ∧ ¬ cursor + 3 < limit then none
      else if ¬ cursor < limit then none
      else if b = 13 then
        if rest.take 3 = [10, 13, 10] then some cursor
        else headerEndFrom limit true (cursor + 1) rest
      else headerEndFrom limit false (cursor + 1) rest

def findHeaderEnd (source : List UInt8) (maxHeaderBytes : Int) : Option Nat :=
  let limit :=
    if maxHeaderBytes > 0 ∧ (source.length : Int) > maxHeaderBytes then maxHeaderBytes.toNat
    else source.length
  headerEndFrom limit true 0 source

/-! ## Headers -/

def headers (headerBlock : List UInt8) : HeaderIterator := ⟨headerBlock, 0, false⟩

def HeaderIterator.fail (iterator : HeaderIterator) : HeaderIterator :=
  { iterator with invalid := true, cursor := iterator.block.length }

def nextHeader (iterator : HeaderIterator) : Option HeaderView × HeaderIterator :=
  if iterator.block.length ≤ iterator.cursor then (none, iterator)
  else
    match findCrlf iterator.block iterator.cursor with
    | none => (none, iterator.fail)
    | some lineEnd =>
        if lineEnd = iterator.cursor then (none, { iterator with cursor := lineEnd + 2 })
        else
          let line := slice iterator.block iterator.cursor lineEnd
          if line.head?.any isSpace then (none, iterator.fail)
          else
            match findByte line 58 with
            | none | some 0 => (none, iterator.fail)
            | some colon =>
                (some ⟨line.take colon, trimOws (line.drop (colon + 1))⟩,
                  { iterator with cursor := lineEnd + 2 })

def contentLengthName : List UInt8 :=
  [99, 111, 110, 116, 101, 110, 116, 45, 108, 101, 110, 103, 116, 104]

def transferEncodingName : List UInt8 :=
  [116, 114, 97, 110, 115, 102, 101, 114, 45, 101, 110, 99, 111, 100, 105, 110, 103]

def connectionName : List UInt8 := [99, 111, 110, 110, 101, 99, 116, 105, 111, 110]

/-- `name_is` and `token_is`. -/
def isIgnoringCase (value expected : List UInt8) : Bool := value.map lower = expected

def chunkedToken : List UInt8 := [99, 104, 117, 110, 107, 101, 100]

def closeToken : List UInt8 := [99, 108, 111, 115, 101]

/-- `value_contains_known_token`: the parts between commas, less the spaces, tabs and commas
before each. -/
def containsTokenLoop : Nat → List UInt8 → List UInt8 → Bool
  | 0, _, _ => false
  | rounds + 1, value, token =>
      if value = [] then false
      else
        let value := value.dropWhile (fun b => isSpace b || b = 44)
        let part := value.takeWhile (fun b => b ≠ 44)
        if isIgnoringCase (trimOws part) token then true
        else containsTokenLoop rounds (value.drop (part.length + 1)) token

def containsToken (value token : List UInt8) : Bool :=
  containsTokenLoop (value.length + 1) value token

/-- The headers `next_header` yields until it returns false, and the iterator then. -/
def readHeaders : Nat → HeaderIterator → List HeaderView × HeaderIterator
  | 0, iterator => ([], iterator)
  | rounds + 1, iterator =>
      match nextHeader iterator with
      | (none, iterator) => ([], iterator)
      | (some header, iterator) =>
          let (rest, iterator) := readHeaders rounds iterator
          (header :: rest, iterator)

/-- What `analyze_headers` has found. -/
structure Framing where
  contentLength : Int
  chunked : Bool
  connectionClose : Bool
  deriving DecidableEq, Repr

/-- One round of `analyze_headers`. -/
def analyzeHeader (framing : Framing) (header : HeaderView) : Except HttpError Framing :=
  if header.name.all isTokenByte = false then .error .invalidHeader
  else if isIgnoringCase header.name contentLengthName then
    let parsed := parseDecimal header.value
    if parsed < 0 then .error .invalidContentLength
    else if framing.contentLength ≥ 0 ∧ framing.contentLength ≠ parsed then
      .error .invalidContentLength
    else .ok { framing with contentLength := parsed }
  else if isIgnoringCase header.name transferEncodingName then
    if ¬ isIgnoringCase (trimOws header.value) chunkedToken then .error .conflictingFraming
    else if framing.chunked then .error .conflictingFraming
    else .ok { framing with chunked := true }
  else if isIgnoringCase header.name connectionName then
    if containsToken header.value closeToken then .ok { framing with connectionClose := true }
    else .ok framing
  else .ok framing

/-- The loop of `analyze_headers`. Every round takes at least one byte of the block. -/
def analyzeLoop : Nat → HeaderIterator → Framing → Except HttpError (HeaderIterator × Framing)
  | 0, iterator, framing => .ok (iterator, framing)
  | rounds + 1, iterator, framing =>
      match nextHeader iterator with
      | (none, iterator) => .ok (iterator, framing)
      | (some header, iterator) => do
          let framing ← analyzeHeader framing header
          analyzeLoop rounds iterator framing

def analyzeHeaders (block : List UInt8) : Except HttpError Framing := do
  let (iterator, framing) ← analyzeLoop (block.length + 1) (headers block) ⟨-1, false, false⟩
  if iterator.invalid then .error .invalidHeader
  else if framing.chunked ∧ framing.contentLength ≥ 0 then .error .conflictingFraming
  else .ok framing

/-! ## Requests -/

/-- HTTP/1. -/
def versionPrefix : List UInt8 := [72, 84, 84, 80, 47, 49, 46]

def supportedHttpVersion (value : List UInt8) : Bool :=
  value = versionPrefix ++ [48] || value = versionPrefix ++ [49]

def splitThree (line : List UInt8) : Option (List UInt8 × List UInt8 × List UInt8) :=
  match findByte line 32 with
  | none | some 0 => none
  | some first =>
      match findByte (line.drop (first + 1)) 32 with
      | none | some 0 => none
      | some secondRelative =>
          let second := first + 1 + secondRelative
          if line.length ≤ second + 1 then none
          else some (line.take first, slice line (first + 1) second, line.drop (second + 1))

/-- A byte of a request target. -/
def isTargetByte (b : UInt8) : Bool := ¬ (b ≤ 32 || b = 127)

/-- `parse_request`, with the view if it is written. -/
def parseRequest (source : List UInt8) (maxHeaderBytes : Int) :
    HttpError × Option HttpRequestView :=
  if source = [] then (.incomplete, none)
  else
    match findCrlf source 0 with
    | none => (.incomplete, none)
    | some firstEnd =>
        match splitThree (source.take firstEnd) with
        | none => (.invalidStartLine, none)
        | some (method, target, version) =>
            if method.all isTokenByte = false then (.invalidStartLine, none)
            else if supportedHttpVersion version = false then (.invalidStartLine, none)
            else if target.all isTargetByte = false then (.invalidStartLine, none)
            else
              match findHeaderEnd source maxHeaderBytes with
              | none =>
                  if maxHeaderBytes > 0 ∧ (source.length : Int) ≥ maxHeaderBytes then
                    (.headersTooLarge, none)
                  else (.incomplete, none)
              | some headerEnd =>
                  let block := slice source (firstEnd + 2) (headerEnd + 2)
                  match analyzeHeaders block with
                  | .error error => (error, none)
                  | .ok framing =>
                      let available := source.drop (headerEnd + 4)
                      let fixed := framing.chunked = false ∧ framing.contentLength ≥ 0
                      let body :=
                        if fixed ∧ (available.length : Int) > framing.contentLength then
                          available.take framing.contentLength.toNat
                        else available
                      (if fixed ∧ (available.length : Int) < framing.contentLength then
                          .bodyIncomplete
                        else .none,
                        some ⟨method, target, version, block, headerEnd + 4, body,
                          framing.contentLength, framing.chunked, framing.connectionClose⟩)

/-! ## Chunks -/

structure ChunkCursor where
  source : List UInt8
  cursor : Nat
  finished : Bool
  deriving DecidableEq, Repr

structure ChunkView where
  data : List UInt8
  trailers : List UInt8
  finalChunk : Bool
  deriving DecidableEq, Repr

def chunks (source : List UInt8) : ChunkCursor := ⟨source, 0, false⟩

def hexDigitValue (b : UInt8) : Option Nat :=
  if 48 ≤ b ∧ b ≤ 57 then some (b.toNat - 48)
  else if 65 ≤ b ∧ b ≤ 70 then some (b.toNat - 65 + 10)
  else if 97 ≤ b ∧ b ≤ 102 then some (b.toNat - 97 + 10)
  else none

/-- The loop of `next_chunk` over the size line, with whether there was a digit. -/
def chunkSizeLoop : Nat → Bool → List UInt8 → Option (Nat × Bool)
  | size, any, [] => some (size, any)
  | size, any, b :: rest =>
      if b = 59 then some (size, any)
      else
        match hexDigitValue b with
        | none => none
        | some digit =>
            if size > 576460752303423487 then none
            else chunkSizeLoop (size * 16 + digit) true rest

/-- The header iterator once `next_header` has returned false. -/
def drainHeaders (block : List UInt8) : HeaderIterator :=
  (readHeaders (block.length + 1) (headers block)).2

/-- The part of `next_chunk` for the chunk of size zero: an empty line, or trailers and one. -/
def nextFinal (cursor : ChunkCursor) (dataStart : Nat) :
    HttpError × Option ChunkView × ChunkCursor :=
  if dataStart + 2 > cursor.source.length then (.incomplete, none, cursor)
  else if slice cursor.source dataStart (dataStart + 2) = [13, 10] then
    (.none, some ⟨[], [], true⟩, ⟨cursor.source, dataStart + 2, true⟩)
  else
    match findHeaderEnd (cursor.source.drop dataStart) 0 with
    | none => (.incomplete, none, cursor)
    | some trailerEnd =>
        let block := slice cursor.source dataStart (dataStart + trailerEnd + 2)
        if (drainHeaders block).invalid then (.invalidHeader, none, cursor)
        else
          (.none, some ⟨[], block, true⟩, ⟨cursor.source, dataStart + trailerEnd + 4, true⟩)

/-- The part of `next_chunk` for the data of a chunk. A byte behind the source is none. -/
def nextData (cursor : ChunkCursor) (dataStart size : Nat) :
    HttpError × Option ChunkView × ChunkCursor :=
  if Word.wrap (dataStart + size + 2) > cursor.source.length then (.incomplete, none, cursor)
  else if cursor.source[dataStart + size]? ≠ some 13 ∨
      cursor.source[dataStart + size + 1]? ≠ some 10 then
    (.invalidChunk, none, cursor)
  else
    (.none, some ⟨slice cursor.source dataStart (dataStart + size), [], false⟩,
      ⟨cursor.source, dataStart + size + 2, false⟩)

/-- `next_chunk`, with the chunk if one is written. -/
def nextChunk (cursor : ChunkCursor) : HttpError × Option ChunkView × ChunkCursor :=
  if cursor.finished then (.none, none, cursor)
  else
    match findCrlf cursor.source cursor.cursor with
    | none => (.incomplete, none, cursor)
    | some lineEnd =>
        match chunkSizeLoop 0 false (slice cursor.source cursor.cursor lineEnd) with
        | none => (.invalidChunk, none, cursor)
        | some (size, any) =>
            if any = false then (.invalidChunk, none, cursor)
            else if size = 0 then nextFinal cursor (lineEnd + 2)
            else nextData cursor (lineEnd + 2) size

/-! ## Writers -/

def validHeaderComponent (bytes : List UInt8) (name : Bool) : Bool :=
  bytes ≠ [] &&
    bytes.all (fun b => if name then isTokenByte b else ¬ (b = 13 || b = 10 || b = 0))

def appendHeader (output : List UInt8) (name value : List UInt8) : Option (List UInt8) :=
  if ¬ validHeaderComponent name true ∨ ¬ validHeaderComponent value false then none
  else some (output ++ name ++ [58, 32] ++ value ++ [13, 10])

def appendRequestLine (output : List UInt8) (method target : List UInt8) :
    Option (List UInt8) :=
  if ¬ validHeaderComponent method true ∨ target = [] then none
  else some (output ++ method ++ [32] ++ target ++ [32] ++ (versionPrefix ++ [49]) ++ [13, 10])

def endHeaders (output : List UInt8) : List UInt8 := output ++ [13, 10]

/-- A request line, the headers in order, and the empty line. -/
def writeRequest (method target : List UInt8) (fields : List (List UInt8 × List UInt8)) :
    Option (List UInt8) := do
  let output ← appendRequestLine [] method target
  let output ← fields.foldlM (fun output field => appendHeader output field.1 field.2) output
  return endHeaders output

end Raz.Http
