import Raz.Http.Pipelining
import Raz.Http.Searches

/-!
# Readiness of a buffered request

Translation of `buffered_request_ready`. It parses the buffered bytes and walks their chunks as
`read_request_view` does, but of the limits of the connection it knows the one of the headers only.

Result: `ready_exact`: what the answer says about the next call of `read_request_view`.
-/

namespace Raz.Http

/-- The loop of `buffered_request_ready` over the chunks. Every round takes a byte at least. -/
def readyLoop : Nat → ChunkCursor → ChunkView → Bool
  | 0, _, _ => false
  | rounds + 1, cursor, chunk =>
      let (error, written, cursor) := nextChunk cursor
      let chunk := written.getD chunk
      if error ≠ .none then false
      else if chunk.finalChunk then true
      else readyLoop rounds cursor chunk

def bufferedRequestReady (connection : ServerConnection) : Bool :=
  if connection.isOpen = false ∨ connection.requestPending = true then false
  else if connection.input.readable = [] then false
  else
    match parseRequest connection.input.readable connection.maxHeaderBytes with
    | (.none, some view) =>
        if view.chunked = false then true
        else readyLoop (view.body.length + 1) (chunks view.body) ⟨[], [], false⟩
    | _ => false

/-! ## Chunks -/

section

variable {cursor after : ChunkCursor} {written : Option ChunkView} {chunk : ChunkView}
  {maxBody : Int} {rounds : Nat} {output : List UInt8}

/-- The data of a chunk lies between the cursor and what is left behind it. -/
theorem nextChunk_data (hfin : cursor.finished = false)
    (h : nextChunk cursor = (.none, written, after)) :
    ∃ chunk, written = some chunk ∧ (chunk.finalChunk = false →
      after.finished = false ∧ chunk.data.length + (after.source.length - after.cursor) ≤
        cursor.source.length - cursor.cursor) := by
  unfold nextChunk at h
  rw [if_neg (by rw [hfin]; decide)] at h
  cases hline : findCrlf cursor.source cursor.cursor with
  | none =>
    rw [hline] at h
    nomatch h
  | some lineEnd =>
    obtain ⟨hge, -⟩ := findCrlf_bounds hline
    rw [hline] at h
    dsimp only at h
    split at h
    · nomatch h
    split at h
    · nomatch h
    split at h
    · -- the last chunk
      unfold nextFinal at h
      split at h
      · nomatch h
      split at h
      · cases h
        exact ⟨_, rfl, nofun⟩
      split at h
      · nomatch h
      dsimp only at h
      split at h
      · nomatch h
      · cases h
        exact ⟨_, rfl, nofun⟩
    · rename_i size _ _ _ _
      unfold nextData at h
      split at h
      · nomatch h
      split at h
      · nomatch h
      rename_i hcrlf
      cases h
      refine ⟨_, rfl, fun _ => ⟨rfl, ?_⟩⟩
      obtain ⟨-, hlf⟩ := not_or.mp hcrlf
      have hlt := (List.getElem?_eq_some_iff.mp (Decidable.not_not.mp hlf)).1
      have hdata : (slice cursor.source (lineEnd + 2) (lineEnd + 2 + size)).length ≤ size := by
        rw [slice, Nat.add_sub_cancel_left]
        exact List.length_take_le _ _
      dsimp only
      omega

theorem decodeLoop_done {decoded : List UInt8} {consumed : Option Nat}
    (h : decodeLoop maxBody rounds cursor chunk output = (.none, decoded, consumed)) :
    readyLoop rounds cursor chunk = true := by
  induction rounds generalizing cursor chunk output with
  | zero => cases h
  | succ rounds ih =>
    rw [decodeLoop] at h
    rw [readyLoop]
    rcases hnext : nextChunk cursor with ⟨error, written, after⟩
    rw [hnext] at h
    dsimp only at h ⊢
    split at h
    · cases h
      exact absurd rfl ‹_›
    rw [if_neg ‹_›]
    split at h
    · exact if_pos ‹_›
    rw [if_neg ‹_›]
    split at h
    · cases h
    · exact ih h

/-- **A walk that gets to the last chunk** decodes the chunks, unless they exceed the limit. -/
theorem decodeLoop_ready (h : readyLoop rounds cursor chunk = true) :
    (∃ decoded consumed, decodeLoop maxBody rounds cursor chunk output =
      (.none, decoded, some consumed)) ∨
    (∃ decoded, decodeLoop maxBody rounds cursor chunk output = (.bodyIncomplete, decoded, none)) ∧
      (cursor.finished = false →
        maxBody < output.length + (cursor.source.length - cursor.cursor : Nat)) := by
  induction rounds generalizing cursor chunk output with
  | zero => cases h
  | succ rounds ih =>
    rw [readyLoop] at h
    rw [decodeLoop]
    rcases hnext : nextChunk cursor with ⟨error, written, after⟩
    rw [hnext] at h
    dsimp only at h ⊢
    split at h
    · cases h
    rename_i hnone
    obtain rfl := Decidable.not_not.mp hnone
    rw [if_neg hnone]
    split at h
    · rw [if_pos ‹_›]
      exact .inl ⟨_, _, rfl⟩
    rename_i hmore
    rw [if_neg hmore]
    have hdata (hfin : cursor.finished = false) : after.finished = false ∧
        (written.getD chunk).data.length + (after.source.length - after.cursor) ≤
          cursor.source.length - cursor.cursor := by
      obtain ⟨next, rfl, hkept⟩ := nextChunk_data hfin hnext
      exact hkept (eq_false_of_ne_true hmore)
    split
    · refine .inr ⟨⟨_, rfl⟩, fun hfin => ?_⟩
      have hle := (hdata hfin).2
      omega
    refine (ih h).imp_right fun hrest => ⟨hrest.1, fun hfin => ?_⟩
    obtain ⟨hafter, hle⟩ := hdata hfin
    have hover := hrest.2 hafter
    rw [List.length_append] at hover
    omega

end

/-! ## Requests -/

theorem parseRequest_fits {source : List UInt8} {maxHeaderBytes : Int} {view : HttpRequestView}
    (h : parseRequest source maxHeaderBytes = (.none, some view)) :
    view.contentLength ≤ source.length ∧ view.body.length ≤ source.length := by
  unfold parseRequest at h
  split at h
  · nomatch h
  split at h
  · nomatch h
  split at h
  · nomatch h
  split at h
  · nomatch h
  split at h
  · nomatch h
  split at h
  · nomatch h
  split at h
  · split at h <;> nomatch h
  rename_i headerEnd _
  dsimp only at h
  split at h
  · nomatch h
  rename_i framing hframing
  obtain ⟨herr, hview⟩ := Prod.mk.inj h
  cases hview
  have hdrop : (source.drop (headerEnd + 4)).length ≤ source.length := by
    rw [List.length_drop]
    exact Nat.sub_le _ _
  constructor
  · have hconflict : ¬ (framing.chunked = true ∧ framing.contentLength ≥ 0) := by
      intro hboth
      unfold analyzeHeaders at hframing
      simp only [bind, Except.bind] at hframing
      split at hframing
      · nomatch hframing
      split at hframing
      · nomatch hframing
      split at hframing
      · nomatch hframing
      · cases hframing
        exact absurd hboth ‹_›
    split at herr
    · nomatch herr
    rename_i hfixed
    dsimp only
    by_cases hlen : framing.contentLength ≥ 0
    · have hplain : framing.chunked = false :=
        eq_false_of_ne_true fun hchunked => hconflict ⟨hchunked, hlen⟩
      have hroom := not_and.mp hfixed ⟨hplain, hlen⟩
      omega
    · omega
  · dsimp only
    split
    · exact Nat.le_trans (List.length_take_le' _ _) hdrop
    · exact hdrop

section

variable {connection : ServerConnection} {maxBody : Int}

/-- A request that a round returns is ready, whatever the limits. -/
theorem ready_of_checkRequest {request : HttpRequestView × Nat} (hopen : connection.isOpen = true)
    (hidle : connection.requestPending = false)
    (h : checkRequest connection.maxHeaderBytes maxBody connection.input.readable =
      .done request) : bufferedRequestReady connection = true := by
  unfold bufferedRequestReady
  unfold checkRequest at h
  rw [if_neg (by rw [hopen, hidle]; decide)]
  split at h
  · nomatch h
  split at h
  · nomatch h
  rw [if_neg ‹_›]
  split at h
  · nomatch h
  · nomatch h
  · nomatch h
  · rename_i view hparse
    rw [hparse]
    dsimp only
    split at h
    · nomatch h
    split at h
    · rename_i hchunked
      rw [if_neg (ne_false_of_eq_true hchunked)]
      split at h
      · rename_i decoded chunkBytes hdecode
        exact decodeLoop_done hdecode
      · nomatch h
      · nomatch h
      · nomatch h
    · exact if_pos (eq_false_of_ne_true ‹_›)
  · nomatch h

theorem checkRequest_of_ready (h : bufferedRequestReady connection = true) (maxBody : Int) :
    (∃ request, checkRequest connection.maxHeaderBytes maxBody connection.input.readable =
      .done request) ∨
    checkRequest connection.maxHeaderBytes maxBody connection.input.readable =
      .fail .bodyTooLarge ∧
      (maxBody < connection.input.readable.length ∨
        readableLimit connection.maxHeaderBytes maxBody < connection.input.readable.length) := by
  unfold bufferedRequestReady at h
  unfold checkRequest
  split at h
  · nomatch h
  split at h
  · nomatch h
  rename_i hne
  by_cases hlarge : (connection.input.readable.length : Int) >
      readableLimit connection.maxHeaderBytes maxBody
  · exact .inr ⟨if_pos hlarge, .inr hlarge⟩
  rw [if_neg hlarge, if_neg hne]
  split at h
  · rename_i view hparse
    obtain ⟨hlen, hbody⟩ := parseRequest_fits hparse
    rw [hparse]
    dsimp only
    by_cases hlong : view.contentLength > maxBody
    · exact .inr ⟨if_pos hlong, .inl (by omega)⟩
    rw [if_neg hlong]
    split at h
    · rename_i hplain
      rw [if_neg (Bool.not_eq_true _ ▸ hplain)]
      split
      · exact .inl ⟨_, rfl⟩
      · exact .inl ⟨_, rfl⟩
    · rename_i hchunked
      rw [if_pos (eq_true_of_ne_false hchunked)]
      rcases @decodeLoop_ready _ _ maxBody _ [] h with ⟨decoded, consumed, hdecode⟩ |
        ⟨⟨decoded, hdecode⟩, hlimit⟩
      · unfold decodeChunks
        rw [hdecode]
        exact .inl ⟨_, rfl⟩
      have hover := hlimit rfl
      unfold decodeChunks
      rw [hdecode]
      refine .inr ⟨rfl, .inl ?_⟩
      change maxBody < (0 : Nat) + (view.body.length - 0 : Nat) at hover
      omega
  · nomatch h

/-- The next call of `read_request_view` returns a request without another byte. -/
def AtOnce (connection : ServerConnection) : Prop :=
  ∀ receives, ∃ view later,
    readRequestView connection receives = (.none, some view, later, receives)

theorem readLoop_of_round {receives : List (List UInt8)} {outcome : Outcome}
    (h : readRound receives connection = some outcome) :
    readLoop receives connection = outcome := by
  cases receives with
  | nil => rw [readLoop, h, Option.getD_some]
  | cons bytes receives => rw [readLoop, h]

theorem atOnce_iff (hidle : connection.requestPending = false) :
    AtOnce connection ↔ connection.isOpen = true ∧
      ∃ request, checkRequest connection.maxHeaderBytes connection.maxBodyBytes
        connection.input.readable = .done request := by
  constructor
  · intro h
    obtain ⟨view, later, hread⟩ := h []
    cases hopen : connection.isOpen with
    | false =>
      unfold readRequestView at hread
      rw [if_pos hopen] at hread
      cases hread
    | true =>
      refine ⟨rfl, ?_⟩
      rw [readRequestView_idle hopen hidle, readLoop] at hread
      unfold readRound at hread
      split at hread
      · cases hread
      · exact ⟨_, ‹_›⟩
      · cases hread
  · rintro ⟨hopen, ⟨view, consumed⟩, hcheck⟩ receives
    refine ⟨view, { connection with requestPending := true, requestConsumed := consumed }, ?_⟩
    rw [readRequestView_idle hopen hidle]
    refine readLoop_of_round ?_
    unfold readRound
    rw [hcheck]

/-- **Readiness knows the limit of the headers only.** What the next call returns at once is ready,
and it can refuse what is ready as too large only. Under a limit that no buffered body exceeds, they
are the same. -/
theorem ready_exact (hidle : connection.requestPending = false) :
    (AtOnce connection → bufferedRequestReady connection = true) ∧
    (bufferedRequestReady connection = true → AtOnce connection ∨ ∀ receives,
      readRequestView connection receives = (.bodyTooLarge, none, connection, receives)) ∧
    ∀ limit : Int, connection.input.readable.length ≤ limit → 0 < connection.maxHeaderBytes →
      connection.maxHeaderBytes + limit + 65536 < 2 ^ 63 →
      (bufferedRequestReady connection = true ↔
        AtOnce { connection with maxBodyBytes := limit }) := by
  have hisOpen (h : bufferedRequestReady connection = true) : connection.isOpen = true := by
    unfold bufferedRequestReady at h
    split at h
    · nomatch h
    · rename_i hshut
      exact eq_true_of_ne_false fun hclosed => hshut (.inl hclosed)
  have hready (maxBody : Int) (h : AtOnce { connection with maxBodyBytes := maxBody }) :
      bufferedRequestReady connection = true := by
    obtain ⟨hopen, request, hcheck⟩ := (@atOnce_iff { connection with maxBodyBytes := maxBody }
      hidle).mp h
    exact ready_of_checkRequest hopen hidle hcheck
  refine ⟨hready connection.maxBodyBytes, fun h => ?_, fun limit hlimit hheader hfits =>
    ⟨fun h => ?_, hready limit⟩⟩
  · obtain hdone | ⟨hfail, -⟩ := checkRequest_of_ready h connection.maxBodyBytes
    · exact .inl ((atOnce_iff hidle).mpr ⟨hisOpen h, hdone⟩)
    refine .inr fun receives => ?_
    rw [readRequestView_idle (hisOpen h) hidle]
    refine readLoop_of_round ?_
    unfold readRound
    rw [hfail]
  · refine (@atOnce_iff { connection with maxBodyBytes := limit } hidle).mpr ⟨hisOpen h, ?_⟩
    refine (checkRequest_of_ready h limit).resolve_right fun hover => ?_
    have hover := hover.2
    have hroom : readableLimit connection.maxHeaderBytes limit =
        connection.maxHeaderBytes + limit + 65536 := by
      unfold readableLimit
      rw [Word.wrap_of_range (show -(2 ^ 63) ≤ connection.maxHeaderBytes + limit by omega)
        (by omega), Word.wrap_of_range (by omega) hfits]
    rw [hroom] at hover
    omega

end

/-- A request without a body, and one with a body of two bytes, in one segment. -/
def segment : List UInt8 :=
  [71, 69, 84, 32, 47, 32, 72, 84, 84, 80, 47, 49, 46, 49, 13, 10, 13, 10] ++
  [71, 69, 84, 32, 47, 32, 72, 84, 84, 80, 47, 49, 46, 49, 13, 10,
    67, 111, 110, 116, 101, 110, 116, 45, 76, 101, 110, 103, 116, 104, 58, 32, 50, 13, 10, 13, 10,
    97, 98]

/-- The connection after the first request of the segment. -/
def afterFirst (maxBodyBytes : Int) : ServerConnection :=
  (serve 1 (accepted 1024 1024 4096 maxBodyBytes) [segment]).2.1

theorem ready_exact_second :
    bufferedRequestReady (afterFirst 1) = true ∧
      AtOnce { afterFirst 1 with maxBodyBytes := 64 } := by
  have hready : bufferedRequestReady (afterFirst 1) = true := by decide +kernel
  exact ⟨hready, ((@ready_exact (afterFirst 1) (by decide +kernel)).2.2 64 (by decide +kernel)
    (by decide +kernel) (by decide +kernel)).mp hready⟩

/-- A connection that takes bodies of one byte: the second request is ready, and it is refused. -/
theorem ready_large :
    ¬ ∀ capacity bufferCapacity maxHeaderBytes maxBodyBytes rounds receives,
      let connection := (serve rounds
        (accepted capacity bufferCapacity maxHeaderBytes maxBodyBytes) receives).2.1
      connection.requestPending = false →
        (bufferedRequestReady connection = true ↔ AtOnce connection) := by
  intro h
  obtain ⟨view, later, hread⟩ := (h 1024 1024 4096 1 1 [segment] (by decide +kernel)).mp
    (by decide +kernel) []
  have herr : (readRequestView (afterFirst 1) []).1 = .bodyTooLarge := by decide +kernel
  nomatch herr.symm.trans (congrArg Prod.fst hread)

end Raz.Http
