import Raz.Http.Model
import Raz.Io.Buffer
import Raz.Lib.Framing

/-!
# Server connections

Translation of `std::net::http::server`: `decode_chunks`, `read_request_view` and
`release_request`. What the calls of `tcp_stream_receive` return is the list of their bytes, and
no more are received when it ends. Every block that the input asks for is granted. The decode
buffer only holds the body that the view of a chunked request points to; it is in the view here.
-/

namespace Raz.Http

open Raz.Io (ByteBuffer)

inductive ServerError
  | none
  | io
  | protocol
  | headersTooLarge
  | bodyTooLarge
  | outOfMemory
  | closed
  deriving DecidableEq, Repr

structure ServerConnection where
  input : ByteBuffer
  bufferCapacity : Nat
  maxHeaderBytes : Int
  maxBodyBytes : Int
  isOpen : Bool
  requestPending : Bool
  requestConsumed : Nat
  deriving DecidableEq, Repr

def closeConnection (connection : ServerConnection) : ServerConnection :=
  { connection with
    input := .empty connection.input.capacity
    isOpen := false
    requestPending := false
    requestConsumed := 0 }

/-- The loop of `decode_chunks`: the error, the output and `consumed_body` if it is written. Every
round takes a byte at least. -/
def decodeLoop (maxBody : Int) :
    Nat → ChunkCursor → ChunkView → List UInt8 → HttpError × List UInt8 × Option Nat
  | 0, _, _, output => (.invalidChunk, output, none)
  | rounds + 1, cursor, chunk, output =>
      let (error, written, cursor) := nextChunk cursor
      let chunk := written.getD chunk
      if error ≠ .none then (error, output, none)
      else if chunk.finalChunk then (.none, output, some cursor.cursor)
      else if (output.length : Int) > maxBody - chunk.data.length then
        (.bodyIncomplete, output, none)
      else decodeLoop maxBody rounds cursor chunk (output ++ chunk.data)

def decodeChunks (view : HttpRequestView) (maxBody : Int) :
    HttpError × List UInt8 × Option Nat :=
  decodeLoop maxBody (view.body.length + 1) (chunks view.body) ⟨[], [], false⟩ []

/-- The number of bytes that `read_request_view` lets the buffer hold. -/
def readableLimit (maxHeaderBytes maxBodyBytes : Int) : Int :=
  Word.wrap (Word.wrap (maxHeaderBytes + maxBodyBytes) + 65536)

/-- A round of `read_request_view` on the readable bytes: the view and the bytes it consumes. -/
@[irreducible] def checkRequest (maxHeaderBytes maxBodyBytes : Int) (readable : List UInt8) :
    Framing.Verdict ServerError (HttpRequestView × Nat) :=
  if (readable.length : Int) > readableLimit maxHeaderBytes maxBodyBytes then .fail .bodyTooLarge
  else if readable = [] then .more
  else
    match parseRequest readable maxHeaderBytes with
    | (.headersTooLarge, _) => .fail .headersTooLarge
    | (.incomplete, _) | (.bodyIncomplete, _) => .more
    | (.none, some view) =>
        if view.contentLength > maxBodyBytes then .fail .bodyTooLarge
        else if view.chunked then
          match decodeChunks view maxBodyBytes with
          | (.none, decoded, some chunkBytes) =>
              .done ({ view with body := decoded, contentLength := decoded.length },
                view.bodyStart + chunkBytes)
          | (.incomplete, _, _) => .more
          | (.bodyIncomplete, _, _) => .fail .bodyTooLarge
          | _ => .fail .protocol
        else if view.contentLength ≥ 0 then
          .done (view, view.bodyStart + view.contentLength.toNat)
        else .done (view, view.bodyStart)
    | _ => .fail .protocol

/-- `read_more` when the socket returns these bytes; `none` where the count is not positive. -/
def readMore (connection : ServerConnection) (bytes : List UInt8) : Option ServerConnection := do
  let input ← connection.input.reserve connection.bufferCapacity true
  if bytes = [] then none
  else
    let input ← input.commit bytes
    return { connection with input := input }

/-- What `read_request_view` returns, with what is still to be received. -/
abbrev Outcome := ServerError × Option HttpRequestView × ServerConnection × List (List UInt8)

/-- A round of the loop of `read_request_view`, if it returns. -/
def readRound (receives : List (List UInt8)) (connection : ServerConnection) : Option Outcome :=
  match checkRequest connection.maxHeaderBytes connection.maxBodyBytes
      connection.input.readable with
  | .fail error => some (error, none, connection, receives)
  | .done (view, consumed) =>
      some (.none, some view,
        { connection with requestPending := true, requestConsumed := consumed }, receives)
  | .more => none

def readLoop : List (List UInt8) → ServerConnection → Outcome
  | [], connection =>
      (readRound [] connection).getD (.io, none, closeConnection connection, [])
  | bytes :: receives, connection =>
      match readRound (bytes :: receives) connection with
      | some outcome => outcome
      | none =>
          match readMore connection bytes with
          | none => (.io, none, closeConnection connection, receives)
          | some connection => readLoop receives connection

def readRequestView (connection : ServerConnection) (receives : List (List UInt8)) : Outcome :=
  if connection.isOpen = false then (.closed, none, connection, receives)
  else if connection.requestPending then (.protocol, none, connection, receives)
  else readLoop receives connection

def releaseRequest (connection : ServerConnection) : Bool × ServerConnection :=
  if connection.requestPending = false then (false, connection)
  else
    let released := { connection with requestPending := false, requestConsumed := 0 }
    match connection.input.consume connection.requestConsumed with
    | none => (false, released)
    | some input => (true, { released with input := input })

/-- Calls of `read_request_view` and `release_request` in turn, with what the first ones return. -/
def serve : Nat → ServerConnection → List (List UInt8) →
    List (ServerError × Option HttpRequestView) × ServerConnection × List (List UInt8)
  | 0, connection, receives => ([], connection, receives)
  | rounds + 1, connection, receives =>
      let (error, view, connection, receives) := readRequestView connection receives
      let (rest, connection, receives) := serve rounds (releaseRequest connection).2 receives
      ((error, view) :: rest, connection, receives)

end Raz.Http
