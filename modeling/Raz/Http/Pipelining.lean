import Raz.Http.Requests

/-!
# Pipelined requests

A connection reads requests that stand back to back in what the socket returns, in pieces of any
length. The loop of `read_request_view` is the reader of `Raz.Lib.Framing` on the readable bytes,
and `release_request` takes the bytes of the request away.

Result: `serve_requests`: which runs show exactly the requests.
-/

namespace Raz.Http

open List
open Raz.Io (ByteBuffer)

/-! ## The loop -/

/-- What `accept` makes of a connection. -/
def accepted (capacity bufferCapacity : Nat) (maxHeaderBytes maxBodyBytes : Int) :
    ServerConnection :=
  ⟨.empty capacity, bufferCapacity, maxHeaderBytes, maxBodyBytes, true, false, 0⟩

/-- The pieces that the socket can return, with room for them. -/
structure Receives (connection : ServerConnection) (receives : List (List UInt8)) : Prop where
  piece : ∀ bytes ∈ receives, bytes ≠ [] ∧ bytes.length ≤ connection.bufferCapacity
  room : connection.input.raw.length + receives.flatten.length + connection.bufferCapacity ≤
    9223372036854775807

theorem readMore_spec {connection : ServerConnection} {bytes : List UInt8}
    {receives : List (List UInt8)} (h : Receives connection (bytes :: receives)) :
    ∃ input : ByteBuffer, readMore connection bytes = some { connection with input := input } ∧
      input.readable = connection.input.readable ++ bytes ∧
      input.raw.length ≤ connection.input.raw.length + bytes.length := by
  obtain ⟨hne, hlen⟩ := h.piece bytes mem_cons_self
  have hroom := h.room
  obtain ⟨reserved, hreserve, hreadable, hcap, hraw⟩ :=
    @ByteBuffer.reserve_spec connection.input connection.bufferCapacity (by omega)
  obtain ⟨input, hcommit, hin, hcount⟩ := @ByteBuffer.commit_spec reserved bytes (by omega)
  refine ⟨input, ?_, by rw [hin, hreadable], by omega⟩
  unfold readMore
  simp only [hreserve, Option.bind_eq_bind, Option.bind_some]
  rw [if_neg hne, hcommit]
  rfl

theorem Receives.next {connection : ServerConnection} {bytes : List UInt8}
    {receives : List (List UInt8)} (h : Receives connection (bytes :: receives))
    {input : ByteBuffer}
    (hin : input.raw.length ≤ connection.input.raw.length + bytes.length) :
    Receives { connection with input := input } receives := by
  have hroom := h.room
  rw [flatten_cons, length_append] at hroom
  exact ⟨fun piece hmem => h.piece piece (mem_cons_of_mem _ hmem),
    show input.raw.length + receives.flatten.length + connection.bufferCapacity ≤ _ by omega⟩

/-- What the loop returns when it has read on until then. -/
def settled (connection : ServerConnection) (receives : List (List UInt8)) :
    Framing.Verdict ServerError (HttpRequestView × Nat) → Outcome
  | .done (view, consumed) =>
      (.none, some view, { connection with requestPending := true, requestConsumed := consumed },
        receives)
  | .fail error => (error, none, connection, receives)
  | .more => (.io, none, closeConnection connection, receives)

/-- **The loop is the reader on the readable bytes.** -/
theorem readLoop_fetch (receives : List (List UInt8)) :
    ∀ {connection : ServerConnection}, Receives connection receives →
      ∀ {verdict : Framing.Verdict ServerError (HttpRequestView × Nat)} {bytes : List UInt8}
        {rest : List (List UInt8)},
        Framing.fetch (checkRequest connection.maxHeaderBytes connection.maxBodyBytes)
          connection.input.readable receives = (verdict, bytes, rest) →
        ∃ input : ByteBuffer, input.readable = bytes ∧
          Receives { connection with input := input } rest ∧
          readLoop receives connection =
            settled { connection with input := input } rest verdict := by
  induction receives with
  | nil =>
    intro connection h verdict bytes rest hfetch
    simp only [Framing.fetch, Prod.mk.injEq] at hfetch
    obtain ⟨hcheck, rfl, rfl⟩ := hfetch
    refine ⟨connection.input, rfl, h, ?_⟩
    rw [readLoop, readRound, hcheck]
    cases verdict <;> rfl
  | cons piece receives ih =>
    intro connection h verdict bytes rest hfetch
    rw [Framing.fetch] at hfetch
    rw [readLoop, readRound]
    cases hcheck : checkRequest connection.maxHeaderBytes connection.maxBodyBytes
        connection.input.readable with
    | more =>
      obtain ⟨input, hmore, hreadable, hraw⟩ := readMore_spec h
      rw [hcheck, ← hreadable] at hfetch
      simp only [hmore]
      exact ih (h.next hraw) hfetch
    | fail error =>
      rw [hcheck] at hfetch
      cases hfetch
      exact ⟨connection.input, rfl, h, rfl⟩
    | done value =>
      rw [hcheck] at hfetch
      cases hfetch
      exact ⟨connection.input, rfl, h, rfl⟩

/-! ## One request -/

/-- A connection between two requests. -/
structure Ready (connection : ServerConnection) : Prop where
  isOpen : connection.isOpen = true
  idle : connection.requestPending = false
  consumed : connection.requestConsumed = 0

theorem readRequestView_idle {connection : ServerConnection} (hopen : connection.isOpen = true)
    (hidle : connection.requestPending = false) (receives : List (List UInt8)) :
    readRequestView connection receives = readLoop receives connection := by
  unfold readRequestView
  rw [if_neg (by rw [hopen]; decide), if_neg (by rw [hidle]; decide)]

theorem releaseRequest_spec {connection : ServerConnection} (h : Ready connection) {consumed : Nat}
    (hconsumed : consumed ≤ connection.input.readable.length) :
    ∃ input : ByteBuffer,
      releaseRequest { connection with requestPending := true, requestConsumed := consumed } =
        (true, { connection with input := input }) ∧
      input.readable = connection.input.readable.drop consumed ∧
      input.raw.length ≤ connection.input.raw.length := by
  obtain ⟨input, hconsume, hreadable, hraw⟩ := ByteBuffer.consume_spec hconsumed
  have hidle := h.idle
  have hcount := h.consumed
  obtain ⟨_, capacity, maxHeader, maxBody, isOpen, pending, count⟩ := connection
  cases hidle
  cases hcount
  refine ⟨input, ?_, hreadable, hraw⟩
  unfold releaseRequest
  rw [if_neg (show ¬ true = false from nofun), hconsume]

/-- The bytes that have been received when a request is there. -/
def received (request : Request) (connection : ServerConnection) (receives : List (List UInt8)) :
    List UInt8 × List (List UInt8) :=
  Framing.arrive request.text.length connection.input.readable receives

section
variable {connection : ServerConnection} {request : Request} {receives : List (List UInt8)}
  {rest : List UInt8}

theorem readRequestView_large (hready : Ready connection) (hreceives : Receives connection receives)
    (h : request.WellFormed)
    (hwithin : request.Within connection.maxHeaderBytes connection.maxBodyBytes)
    (hlen : request.text.length ≤ 9223372036854775807)
    (hstream : connection.input.readable ++ receives.flatten = request.text ++ rest)
    (hlarge : readableLimit connection.maxHeaderBytes connection.maxBodyBytes <
      (received request connection receives).1.length) :
    (readRequestView connection receives).1 = .bodyTooLarge := by
  have hfetch := Framing.fetch_large
    (fun bytes behind htext hne hle => checkRequest_before h hwithin hlen htext hne hle)
    (fun bytes hlt => checkRequest_large hlt) receives hstream hlarge
  obtain ⟨input, -, -, hloop⟩ := readLoop_fetch receives hreceives rfl
  rw [readRequestView_idle hready.isOpen hready.idle, hloop, hfetch]
  rfl

theorem readRequestView_whole (hready : Ready connection) (hreceives : Receives connection receives)
    (h : request.WellFormed)
    (hwithin : request.Within connection.maxHeaderBytes connection.maxBodyBytes)
    (hlen : request.text.length ≤ 9223372036854775807)
    (hstream : connection.input.readable ++ receives.flatten = request.text ++ rest)
    (hlimit : ((received request connection receives).1.length : Int) ≤
      readableLimit connection.maxHeaderBytes connection.maxBodyBytes) :
    ∃ (view : HttpRequestView) (pending : ServerConnection) (input : ByteBuffer),
      readRequestView connection receives =
        (.none, some view, pending, (received request connection receives).2) ∧
      Views request.head view ∧
      view.body =
        request.body.shown ((received request connection receives).1.drop request.text.length) ∧
      releaseRequest pending = (true, { connection with input := input }) ∧
      input.readable = (received request connection receives).1.drop request.text.length ∧
      Receives { connection with input := input } (received request connection receives).2 := by
  have hspec := Framing.arrive_spec hstream
  have hfetch := Framing.fetch_message
    (fun bytes behind htext hne hle => checkRequest_before h hwithin hlen htext hne hle)
    (fun behind hle => by
      obtain ⟨view, hcheck, -⟩ := checkRequest_whole h hwithin hlen hle
      rw [hcheck]
      exact nofun) receives hstream hlimit
  unfold received at hlimit ⊢
  generalize Framing.arrive request.text.length connection.input.readable receives = arrived
    at hspec hfetch hlimit ⊢
  obtain ⟨bytes, receives'⟩ := arrived
  obtain ⟨behind, rfl, -⟩ := hspec
  obtain ⟨view, hcheck, hviews, hbody⟩ := checkRequest_whole h hwithin hlen hlimit
  rw [hcheck] at hfetch
  obtain ⟨input, hreadable, hrest, hloop⟩ := readLoop_fetch receives hreceives hfetch
  obtain ⟨released, hrelease, hreadable', hraw⟩ := @releaseRequest_spec
    { connection with input := input } ⟨hready.isOpen, hready.idle, hready.consumed⟩
    request.text.length (by
      rw [hreadable, length_append]
      exact Nat.le_add_right _ _)
  rw [drop_left]
  have hroom := hrest.room
  refine ⟨view, _, released, (readRequestView_idle hready.isOpen hready.idle receives).trans hloop,
    hviews, hbody, hrelease, ?_, hrest.piece, ?_⟩
  · rw [hreadable', hreadable, drop_left]
  · exact Nat.le_trans (Nat.add_le_add_right (Nat.add_le_add_right hraw _) _) hroom

end

/-! ## Runs -/

/-- What a caller sees of a request: the method, the target, the header block and the body. -/
structure Shown where
  method : List UInt8
  target : List UInt8
  headerBlock : List UInt8
  body : List UInt8
  deriving DecidableEq, Repr

/-- What a call of `read_request_view` shows. -/
def shown : ServerError × Option HttpRequestView → Option Shown
  | (.none, some view) => some ⟨view.method, view.target, view.headerBlock, view.body⟩
  | _ => none

def Request.own (request : Request) : Shown :=
  ⟨request.head.method, request.head.target, fieldsBlock request.head.fields,
    request.body.content⟩

/-- Each request finds the connection clear: when it is there, no more bytes have been received
than the limit, and none behind it if it has no body. The bytes behind it are the first ones of
the next request. -/
def Clear (maxHeaderBytes maxBodyBytes : Int) :
    List Request → List UInt8 → List (List UInt8) → Prop
  | [], _, _ => True
  | request :: requests, bytes, receives =>
      let arrived := Framing.arrive request.text.length bytes receives
      let behind := arrived.1.drop request.text.length
      ((arrived.1.length : Int) ≤ readableLimit maxHeaderBytes maxBodyBytes ∧
        (request.body = .absent → behind = [])) ∧
        Clear maxHeaderBytes maxBodyBytes requests behind arrived.2

theorem Body.shown_eq_content {body : Body} {behind : List UInt8} :
    body.shown behind = body.content ↔ (body = .absent → behind = []) := by
  cases body with
  | absent => exact ⟨fun h _ => h, fun h => h rfl⟩
  | length content => exact ⟨nofun, fun _ => rfl⟩
  | chunked chunks last => exact ⟨nofun, fun _ => rfl⟩

/-- The requests that a run shows and the bytes that it leaves. -/
def Served (requests : List Request)
    (run : List (ServerError × Option HttpRequestView) × ServerConnection × List (List UInt8)) :
    Prop :=
  run.1.map shown = requests.map (fun request => some request.own) ∧
    run.2.1.input.readable ++ run.2.2.flatten = []

theorem Receives.length_le {connection : ServerConnection} {receives : List (List UInt8)}
    (h : Receives connection receives) {message rest : List UInt8}
    (hstream : connection.input.readable ++ receives.flatten = message ++ rest) :
    message.length ≤ 9223372036854775807 := by
  have hroom := h.room
  have hreadable := connection.input.length_readable
  have hlen := congrArg List.length hstream
  simp only [length_append] at hlen
  omega

theorem shown_eq_own {request : Request} {view : HttpRequestView} (hviews : Views request.head view)
    {behind : List UInt8} (hbody : view.body = request.body.shown behind) :
    shown (.none, some view) = some request.own ↔ (request.body = .absent → behind = []) := by
  have hown : shown (.none, some view) = some ⟨request.head.method, request.head.target,
      fieldsBlock request.head.fields, request.body.shown behind⟩ := by
    rw [← hviews.method, ← hviews.target, ← hviews.headerBlock, ← hbody]
    rfl
  rw [hown, Request.own, Option.some.injEq, Shown.mk.injEq, Body.shown_eq_content]
  exact ⟨fun h => h.2.2.2, fun h => ⟨rfl, rfl, rfl, h⟩⟩

/-- **A run shows the requests if and only if each of them finds the connection clear.** -/
theorem serve_ready {maxHeaderBytes maxBodyBytes : Int} (requests : List Request)
    (hvalid : ∀ request ∈ requests, request.WellFormed)
    (hwithin : ∀ request ∈ requests, request.Within maxHeaderBytes maxBodyBytes) :
    ∀ {connection : ServerConnection} {receives : List (List UInt8)}, Ready connection →
      connection.maxHeaderBytes = maxHeaderBytes → connection.maxBodyBytes = maxBodyBytes →
      Receives connection receives →
      connection.input.readable ++ receives.flatten = requests.flatMap Request.text →
      (Served requests (serve requests.length connection receives) ↔
        Clear maxHeaderBytes maxBodyBytes requests connection.input.readable receives) := by
  induction requests with
  | nil =>
    intro connection receives _ _ _ _ hstream
    exact ⟨fun _ => trivial, fun _ => ⟨rfl, hstream⟩⟩
  | cons request requests ih =>
    intro connection receives hready hheader hbody hreceives hstream
    obtain ⟨hvalid₁, hvalid⟩ := forall_mem_cons.mp hvalid
    obtain ⟨hwithin₁, hwithin⟩ := forall_mem_cons.mp hwithin
    subst hheader hbody
    rw [flatMap_cons] at hstream
    have hlen := hreceives.length_le hstream
    rcases Int.lt_or_le (readableLimit connection.maxHeaderBytes connection.maxBodyBytes)
      (received request connection receives).1.length with hlarge | hlimit
    · have herr := readRequestView_large hready hreceives hvalid₁ hwithin₁ hlen hstream hlarge
      refine iff_of_false (fun hserved => ?_)
        (fun hclear => absurd hclear.1.1 (Int.not_le.mpr hlarge))
      have hfirst := congrArg List.head? hserved.1
      rw [length_cons, serve] at hfirst
      generalize readRequestView connection receives = outcome at herr hfirst
      obtain ⟨error, view, connection, receives⟩ := outcome
      cases herr
      cases hfirst
    · obtain ⟨view, pending, input, hview, hviews, hshown, hrelease, hreadable, hrest⟩ :=
        readRequestView_whole hready hreceives hvalid₁ hwithin₁ hlen hstream hlimit
      obtain ⟨behind, hbehind, hflatten⟩ := Framing.arrive_spec hstream
      have hbytes : (received request connection receives).1.drop request.text.length = behind := by
        unfold received
        rw [hbehind, drop_left]
      rw [hbytes] at hshown hreadable
      have hnext := @ih hvalid hwithin { connection with input := input } _
        ⟨hready.isOpen, hready.idle, hready.consumed⟩ rfl rfl hrest
        (by rw [hreadable]; exact hflatten)
      rw [hreadable] at hnext
      have hserve : serve (request :: requests).length connection receives =
          ((.none, some view) :: (serve requests.length { connection with input := input }
            (received request connection receives).2).1,
            (serve requests.length { connection with input := input }
              (received request connection receives).2).2) := by
        rw [length_cons, serve, hview]
        simp only
        rw [hrelease]
      have hclear : Clear connection.maxHeaderBytes connection.maxBodyBytes (request :: requests)
          connection.input.readable receives ↔ (request.body = .absent → behind = []) ∧
            Clear connection.maxHeaderBytes connection.maxBodyBytes requests behind
              (received request connection receives).2 := by
        rw [Clear, ← hbytes]
        exact ⟨fun h => ⟨h.1.2, h.2⟩, fun h => ⟨⟨hlimit, h.1⟩, h.2⟩⟩
      rw [hclear, ← hnext, ← shown_eq_own hviews hshown, Served, hserve, map_cons,
        map_cons, List.cons.injEq, and_assoc]
      rfl

/-- **The requests in a stream are shown one by one, however the socket splits it, if and only if
each of them finds the connection clear.** -/
theorem serve_requests {capacity bufferCapacity : Nat} {maxHeaderBytes maxBodyBytes : Int}
    {requests : List Request} (hvalid : ∀ request ∈ requests, request.WellFormed)
    (hwithin : ∀ request ∈ requests, request.Within maxHeaderBytes maxBodyBytes)
    {receives : List (List UInt8)}
    (hpiece : ∀ bytes ∈ receives, bytes ≠ [] ∧ bytes.length ≤ bufferCapacity)
    (hroom : receives.flatten.length + bufferCapacity ≤ 9223372036854775807)
    (hstream : receives.flatten = requests.flatMap Request.text) :
    Served requests (serve requests.length
        (accepted capacity bufferCapacity maxHeaderBytes maxBodyBytes) receives) ↔
      Clear maxHeaderBytes maxBodyBytes requests [] receives := by
  refine serve_ready requests hvalid hwithin ⟨rfl, rfl, rfl⟩ rfl rfl ⟨hpiece, ?_⟩ hstream
  show 0 + receives.flatten.length + bufferCapacity ≤ _
  rw [Nat.zero_add]
  exact hroom

/-- `GET /`. -/
def plainRequest : Request := ⟨⟨[71, 69, 84], [47], versionPrefix ++ [49], []⟩, .absent⟩

/-- `POST /` of the body `hi` in a chunk. -/
def chunkedRequest : Request :=
  ⟨⟨[80, 79, 83, 84], [47], versionPrefix ++ [49], [(transferEncodingName, chunkedToken)]⟩,
    .chunked [⟨[50], [], [104, 105]⟩] ⟨[48], [], []⟩⟩

theorem plainRequest_wellFormed : plainRequest.WellFormed where
  head := ⟨by decide, by decide, by decide, by decide, by decide, nofun⟩
  frames := nofun
  body := trivial

theorem chunkedRequest_wellFormed : chunkedRequest.WellFormed where
  head := ⟨by decide, by decide, by decide, by decide, by decide,
    forall_mem_singleton.mpr ⟨by decide, by decide, by decide⟩⟩
  frames := ⟨[], _, [], rfl, by decide, by decide, nofun⟩
  body := ⟨forall_mem_singleton.mpr ⟨⟨by decide,
    forall_mem_singleton.mpr (by decide), by decide, .inl rfl, by decide⟩, by decide⟩,
    ⟨⟨by decide, forall_mem_singleton.mpr (by decide), by decide, .inl rfl, by decide⟩, nofun⟩⟩

/-- The chunks, and the first byte of the next request with them. -/
theorem serve_requests_chunked :
    Served [chunkedRequest, plainRequest] (serve 2 (accepted 1024 1024 4096 4096)
      [chunkedRequest.text ++ [71], plainRequest.text.tail]) := by
  refine (@serve_requests 1024 1024 4096 4096 [chunkedRequest, plainRequest]
    (forall_mem_cons.mpr ⟨chunkedRequest_wellFormed,
      forall_mem_singleton.mpr plainRequest_wellFormed⟩)
    (forall_mem_cons.mpr ⟨⟨by decide, by decide⟩, forall_mem_singleton.mpr ⟨by decide, by decide⟩⟩)
    [chunkedRequest.text ++ [71], plainRequest.text.tail]
    (forall_mem_cons.mpr ⟨by decide, forall_mem_singleton.mpr (by decide)⟩) (by decide)
    rfl).mpr ?_
  exact ⟨⟨by decide, nofun⟩, ⟨by decide, fun _ => rfl⟩, trivial⟩

/-- Two requests without a body that are received at once: the second is the first one's body. -/
theorem serve_requests_plain :
    ¬ ∀ (requests : List Request) (receives : List (List UInt8)),
      (∀ request ∈ requests, request.WellFormed ∧ request.Within 4096 4096) →
      (∀ bytes ∈ receives, bytes ≠ [] ∧ bytes.length ≤ 1024) →
      receives.flatten = requests.flatMap Request.text →
      Served requests (serve requests.length (accepted 1024 1024 4096 4096) receives) := by
  intro hall
  have hvalid := And.intro plainRequest_wellFormed
    (show plainRequest.Within 4096 4096 from ⟨by decide, by decide⟩)
  have hserved := hall [plainRequest, plainRequest] [plainRequest.text ++ plainRequest.text]
    (forall_mem_cons.mpr ⟨hvalid, forall_mem_singleton.mpr hvalid⟩)
    (forall_mem_singleton.mpr (by decide)) rfl
  have hfirst : ((serve 2 (accepted 1024 1024 4096 4096)
      [plainRequest.text ++ plainRequest.text]).1.map shown).head? =
        some (some ⟨[71, 69, 84], [47], [], plainRequest.text⟩) := by decide +kernel
  have hown : ((serve 2 (accepted 1024 1024 4096 4096)
      [plainRequest.text ++ plainRequest.text]).1.map shown).head? =
        some (some plainRequest.own) := congrArg List.head? hserved.1
  rw [hown] at hfirst
  exact absurd hfirst (by decide)

end Raz.Http
