import Raz.Http.Model

/-!
# The other readers of header fields

Translation of `parse_response` and of the part of the client's `read_body` that reads trailers. The
receive buffer is the list of its readable bytes, and what the transport reads is added to it; a
read that fails or brings nothing is the end of the list of arrivals or an empty one.
-/

namespace Raz.Http

/-! ## Responses -/

structure HttpResponseView where
  version : List UInt8
  status : Nat
  reason : List UInt8
  headerBlock : List UInt8
  bodyStart : Nat
  body : List UInt8
  contentLength : Int
  chunked : Bool
  connectionClose : Bool
  deriving DecidableEq, Repr

/-- The loop over the three digits of the status. -/
def statusLoop : Nat → List UInt8 → Option Nat
  | status, [] => some status
  | status, b :: rest =>
      if b < 48 ∨ 57 < b then none else statusLoop (status * 10 + b.toNat - 48) rest

/-- The version, the status and the reason. -/
def splitStatusLine (line : List UInt8) : Option (List UInt8 × Nat × List UInt8) :=
  match findByte line 32 with
  | none | some 0 => none
  | some firstSpace =>
      if supportedHttpVersion (line.take firstSpace) = false then none
      else
        let codeStart := firstSpace + 1
        if codeStart + 3 > line.length then none
        else
          match statusLoop 0 (slice line codeStart (codeStart + 3)) with
          | none => none
          | some status =>
              let reason := line.drop (codeStart + 3)
              some (line.take firstSpace, status,
                if reason.head? = some 32 then reason.drop 1 else reason)

/-- `parse_response`, with the view if it is written. -/
def parseResponse (source : List UInt8) (maxHeaderBytes : Int) :
    HttpError × Option HttpResponseView :=
  if source = [] then (.incomplete, none)
  else
    match findCrlf source 0 with
    | none => (.incomplete, none)
    | some firstEnd =>
        match splitStatusLine (source.take firstEnd) with
        | none => (.invalidStartLine, none)
        | some (version, status, reason) =>
            match findHeaderEnd source maxHeaderBytes with
            | none =>
                if maxHeaderBytes > 0 ∧ (source.length : Int) ≥ maxHeaderBytes then
                  (.headersTooLarge, none)
                else (.incomplete, none)
            | some headerEnd =>
                let block := slice source (firstEnd + 2) (headerEnd + 2)
                match analyzeHeaders block with
                | .error error => (error, none)
                | .ok framing =>
                    let available := source.drop (headerEnd + 4)
                    let fixed := framing.chunked = false ∧ framing.contentLength ≥ 0
                    let body :=
                      if fixed ∧ (available.length : Int) > framing.contentLength then
                        available.take framing.contentLength.toNat
                      else available
                    (if fixed ∧ (available.length : Int) < framing.contentLength then
                        .bodyIncomplete
                      else .none,
                      some ⟨version, status, reason, block, headerEnd + 4, body,
                        framing.contentLength, framing.chunked, framing.connectionClose⟩)

/-! ## Trailers -/

/-- `find_header_end_buffer` at the place, with the bytes from there on. -/
def headerEndBufferFrom : Nat → List UInt8 → Option Nat
  | _, [] => none
  | place, b :: rest =>
      if b = 13 ∧ rest.take 3 = [10, 13, 10] then some place
      else headerEndBufferFrom (place + 1) rest

def findHeaderEndBuffer (buffer : List UInt8) : Option Nat := headerEndBufferFrom 0 buffer

/-- How `read_body` ends in the trailers: with the block that it passes and the bytes left, or with
one of its errors. -/
inductive TrailerOutcome
  | finished (block rest : List UInt8)
  | protocol
  | io
  deriving DecidableEq, Repr

/-- One round of the loop over the trailers; none if more bytes are needed. -/
def trailerRound (maxHeaderBytes : Int) (buffer : List UInt8) : Option TrailerOutcome :=
  if buffer.take 2 = [13, 10] then some (.finished [] (buffer.drop 2))
  else
    match findHeaderEndBuffer buffer with
    | some headerEnd =>
        let block := buffer.take (headerEnd + 2)
        if (drainHeaders block).invalid then some .protocol
        else some (.finished block (buffer.drop (headerEnd + 4)))
    | none => if (buffer.length : Int) > maxHeaderBytes then some .protocol else none

/-- The loop over the trailers, with what the transport brings. -/
def readTrailers (maxHeaderBytes : Int) : List (List UInt8) → List UInt8 → TrailerOutcome
  | arrivals, buffer =>
      match trailerRound maxHeaderBytes buffer with
      | some outcome => outcome
      | none =>
          match arrivals with
          | [] | [] :: _ => .io
          | arrived :: arrivals => readTrailers maxHeaderBytes arrivals (buffer ++ arrived)

end Raz.Http
