import Raz.Http.Searches
import Raz.Lib.Access

/-!
# The reads of the chunk reader

The chunk reader again, with each access to a byte checked and the views as positions of the source.
A size line may give a size near the largest word; the sum that is compared with the length of the
source wraps around then.

Result: `Checked.findCrlf_eq`, `Checked.findHeaderEnd_eq`, `Checked.nextHeader_eq`: the searches and
the header fields are read inside their view, whatever it holds.
-/

namespace Raz.Http

open Access List

variable {source : List UInt8} {count rounds : Nat}

namespace Checked

/-- A value, an error, or an access outside. -/
abbrev Reads := Except (Fault HttpError)

def report {α : Type} (error : HttpError) : Reads α := .error (.reported error)

/-- A view of the source. Its bytes are taken to be read, as a search in it may. -/
def view (source : List UInt8) (start count : Nat) : Reads (List UInt8) :=
  accesses source start count

/-! ## Searches -/

/-- The loop of `find_crlf`. -/
def findCrlfLoop (source : List UInt8) : Nat → Nat → Reads (Option Nat)
  | 0, _ => .ok none
  | rounds + 1, cursor =>
    if cursor + 1 < source.length then do
      match findByte (← view source cursor (source.length - cursor)) 13 with
      | none => .ok none
      | some relative =>
        if cursor + relative + 1 < source.length then do
          if (← access source (cursor + relative + 1)) = 10 then .ok (some (cursor + relative))
          else findCrlfLoop source rounds (cursor + relative + 1)
        else findCrlfLoop source rounds (cursor + relative + 1)
    else .ok none

def findCrlf (source : List UInt8) (start : Nat) : Reads (Option Nat) :=
  findCrlfLoop source (source.length + 1) start

/-- The loop of `find_header_end`. -/
def headerEndLoop (source : List UInt8) (limit : Nat) : Nat → Nat → Reads (Option Nat)
  | 0, _ => .ok none
  | rounds + 1, cursor =>
    if cursor + 3 < limit then do
      match findByte (← view source cursor (limit - cursor)) 13 with
      | none => .ok none
      | some relative =>
        if cursor + relative + 3 < source.length then do
          if (← accesses source (cursor + relative + 1) 3) = [10, 13, 10] then
            .ok (some (cursor + relative))
          else headerEndLoop source limit rounds (cursor + relative + 1)
        else headerEndLoop source limit rounds (cursor + relative + 1)
    else .ok none

def findHeaderEnd (source : List UInt8) (maxHeaderBytes : Int) : Reads (Option Nat) :=
  let limit :=
    if maxHeaderBytes > 0 ∧ (source.length : Int) > maxHeaderBytes then maxHeaderBytes.toNat
    else source.length
  headerEndLoop source limit (limit + 1) 0

/-! ## Header fields -/

/-- The first byte that is not a space, of `count` bytes from `start` on. -/
def trimFront (value : List UInt8) : Nat → Nat → Reads Nat
  | start, 0 => .ok start
  | start, count + 1 => do
    if isSpace (← access value start) then trimFront value (start + 1) count
    else .ok start

/-- How many of the `count` bytes from `start` on are left without the spaces at their end. -/
def trimBack (value : List UInt8) (start : Nat) : Nat → Reads Nat
  | 0 => .ok 0
  | count + 1 => do
    if isSpace (← access value (start + count)) then trimBack value start count
    else .ok (count + 1)

def trimOws (value : List UInt8) : Reads (List UInt8) := do
  let start ← trimFront value 0 value.length
  let count ← trimBack value start (value.length - start)
  view value start count

/-- The place of the colon, of `count` bytes from `colon` on, or the place behind them. -/
def findColon (block : List UInt8) : Nat → Nat → Reads Nat
  | colon, 0 => .ok colon
  | colon, count + 1 => do
    if (← access block colon) = 58 then .ok colon
    else findColon block (colon + 1) count

def nextHeader (iterator : HeaderIterator) : Reads (Option HeaderView × HeaderIterator) :=
  if iterator.block.length ≤ iterator.cursor then .ok (none, iterator)
  else do
    match ← findCrlf iterator.block iterator.cursor with
    | none => .ok (none, iterator.fail)
    | some lineEnd =>
      if lineEnd = iterator.cursor then .ok (none, { iterator with cursor := lineEnd + 2 })
      else do
        if isSpace (← access iterator.block iterator.cursor) then .ok (none, iterator.fail)
        else do
          let colon ← findColon iterator.block iterator.cursor (lineEnd - iterator.cursor)
          if colon ≤ iterator.cursor ∨ lineEnd ≤ colon then .ok (none, iterator.fail)
          else do
            let name ← view iterator.block iterator.cursor (colon - iterator.cursor)
            let value ← trimOws (← view iterator.block (colon + 1) (lineEnd - colon - 1))
            .ok (some ⟨name, value⟩, { iterator with cursor := lineEnd + 2 })

/-- `next_header` until it returns false. -/
def drainHeaders : Nat → HeaderIterator → Reads HeaderIterator
  | 0, iterator => .ok iterator
  | rounds + 1, iterator => do
    match ← nextHeader iterator with
    | (none, iterator) => .ok iterator
    | (some _, iterator) => drainHeaders rounds iterator

/-! ## Chunks -/

/-- A view as a place in the source. -/
structure Span where
  start : Nat
  length : Nat
deriving DecidableEq, Repr

/-- `ChunkView`; a view of null is none. -/
structure Chunk where
  data : Span
  trailers : Option Span
  finalChunk : Bool
deriving DecidableEq, Repr

/-- The loop over the `count` bytes of the size line from `index` on. -/
def chunkSizeLoop (source : List UInt8) : Nat → Nat → Nat → Bool → Reads (Nat × Bool)
  | 0, _, size, any => .ok (size, any)
  | count + 1, index, size, any => do
    let b ← access source index
    if b = 59 then .ok (size, any)
    else
      match hexDigitValue b with
      | none => report .invalidChunk
      | some digit =>
        if size > 576460752303423487 then report .invalidChunk
        else chunkSizeLoop source count (index + 1) (size * 16 + digit) true

/-- Whether there are CR and LF; the second is looked at behind a CR only. -/
def crlfAt (source : List UInt8) (offset : Nat) : Reads Bool := do
  if (← access source offset) = 13 then return (← access source (offset + 1)) = 10
  else return false

/-- The part of `next_chunk` for the chunk of size zero. -/
def nextFinal (cursor : ChunkCursor) (dataStart : Nat) : Reads (Option Chunk × ChunkCursor) :=
  if Word.wrap (dataStart + 2) > cursor.source.length then report .incomplete
  else do
    if ← crlfAt cursor.source dataStart then
      .ok (some ⟨⟨dataStart, 0⟩, some ⟨dataStart, 0⟩, true⟩,
        ⟨cursor.source, dataStart + 2, true⟩)
    else do
      let rest ← view cursor.source dataStart (cursor.source.length - dataStart)
      match ← findHeaderEnd rest 0 with
      | none => report .incomplete
      | some trailerEnd =>
        let block ← view cursor.source dataStart (trailerEnd + 2)
        let iterator ← drainHeaders (block.length + 1) (headers block)
        if iterator.invalid then report .invalidHeader
        else
          .ok (some ⟨⟨dataStart, 0⟩, some ⟨dataStart, trailerEnd + 2⟩, true⟩,
            ⟨cursor.source, dataStart + trailerEnd + 4, true⟩)

/-- The part of `next_chunk` for the data of a chunk. -/
def nextData (cursor : ChunkCursor) (dataStart size : Nat) :
    Reads (Option Chunk × ChunkCursor) :=
  if Word.wrap (dataStart + size + 2) > cursor.source.length then report .incomplete
  else do
    if ← crlfAt cursor.source (dataStart + size) then
      .ok (some ⟨⟨dataStart, size⟩, none, false⟩,
        ⟨cursor.source, dataStart + size + 2, false⟩)
    else report .invalidChunk

/-- `next_chunk`: an error leaves the cursor and the output as they are. -/
def nextChunk (cursor : ChunkCursor) : Reads (Option Chunk × ChunkCursor) :=
  if cursor.finished then .ok (none, cursor)
  else do
    match ← findCrlf cursor.source cursor.cursor with
    | none => report .incomplete
    | some lineEnd =>
      let (size, any) ←
        chunkSizeLoop cursor.source (lineEnd - cursor.cursor) cursor.cursor 0 false
      if any = false then report .invalidChunk
      else if size = 0 then nextFinal cursor (lineEnd + 2)
      else nextData cursor (lineEnd + 2) size

/-! ## The searches stay inside -/

theorem view_eq {start : Nat} (h : start + count ≤ source.length) :
    view source start count = .ok (slice source start (start + count)) := by
  unfold view slice
  rw [accesses_eq h, Nat.add_sub_cancel_left]

theorem findCrlfFrom_skip : ∀ {bytes : List UInt8} {cursor : Nat},
    findCrlfFrom cursor bytes =
      match findByte bytes 13 with
      | none => none
      | some relative =>
        if (bytes.drop (relative + 1)).head? = some 10 then some (cursor + relative)
        else findCrlfFrom (cursor + relative + 1) (bytes.drop (relative + 1))
  | [], _ => rfl
  | b :: rest, cursor => by
    rw [findByte_cons, findCrlfFrom]
    by_cases hb : b = 13
    · rw [if_pos hb]
      by_cases hrest : rest.head? = some 10
      · rw [if_pos ⟨hb, hrest⟩]
        exact (if_pos hrest).symm
      · rw [if_neg fun h => hrest h.2]
        exact (if_neg hrest).symm
    · rw [if_neg hb, if_neg fun h => hb h.1, findCrlfFrom_skip]
      cases findByte rest 13 with
      | none => rfl
      | some relative =>
        have hcur : cursor + 1 + relative = cursor + (relative + 1) := by omega
        simp [hcur]

theorem findCrlfFrom_short {bytes : List UInt8} {cursor : Nat} (h : bytes.length ≤ 1) :
    findCrlfFrom cursor bytes = none := by
  rw [findCrlfFrom_skip]
  cases hcr : findByte bytes 13 with
  | none => rfl
  | some relative =>
    have hnil : bytes.drop (relative + 1) = [] := drop_eq_nil_of_le (by omega)
    dsimp only
    rw [hnil]
    rfl

theorem findCrlfLoop_eq : ∀ {cursor : Nat},
    source.length < rounds + cursor →
    findCrlfLoop source rounds cursor = .ok (findCrlfFrom cursor (source.drop cursor)) := by
  induction rounds with
  | zero =>
    intro cursor h
    rw [drop_eq_nil_of_le (by omega)]
    rfl
  | succ rounds ih =>
    intro cursor h
    unfold findCrlfLoop
    by_cases hcur : cursor + 1 < source.length
    · have hview : view source cursor (source.length - cursor) = .ok (source.drop cursor) := by
        rw [view_eq (by omega), slice, take_of_length_le (by rw [length_drop]; omega)]
      rw [if_pos hcur, hview, findCrlfFrom_skip]
      simp only [bind, Except.bind]
      cases findByte (source.drop cursor) 13 with
      | none => rfl
      | some relative =>
        have hdrop : (source.drop cursor).drop (relative + 1) =
            source.drop (cursor + relative + 1) := by
          rw [drop_drop, Nat.add_assoc]
        dsimp only
        rw [hdrop, ih (by omega), List.head?_drop]
        by_cases hnext : cursor + relative + 1 < source.length
        · rw [if_pos hnext, access_eq hnext, List.getElem?_eq_getElem hnext]
          simp only [Option.some.injEq]
          split <;> rfl
        · rw [if_neg hnext, List.getElem?_eq_none (by omega)]
          rfl
    · rw [if_neg hcur, findCrlfFrom_short]
      rw [length_drop]
      omega

/-- **`find_crlf` reads inside its view.** -/
theorem findCrlf_eq (source : List UInt8) (start : Nat) :
    findCrlf source start = .ok (Http.findCrlf source start) :=
  findCrlfLoop_eq (by omega)

theorem headerEndFrom_skip {limit : Nat} : ∀ {bytes : List UInt8} {atHead : Bool} {cursor : Nat},
    (atHead = true → cursor + 3 < limit) →
    headerEndFrom limit atHead cursor bytes =
      match findByte (bytes.take (limit - cursor)) 13 with
      | none => none
      | some relative =>
        if (bytes.drop (relative + 1)).take 3 = [10, 13, 10] then some (cursor + relative)
        else headerEndFrom limit true (cursor + relative + 1) (bytes.drop (relative + 1))
  | [], _, _, _ => by
    rw [take_nil]
    rfl
  | b :: rest, atHead, cursor, hhead => by
    rw [headerEndFrom, if_neg fun h => h.2 (hhead h.1)]
    by_cases hlimit : cursor < limit
    · have htake : (b :: rest).take (limit - cursor) = b :: rest.take (limit - (cursor + 1)) := by
        rw [show limit - cursor = limit - (cursor + 1) + 1 by omega, take_succ_cons]
      rw [if_neg (not_not_intro hlimit), htake, findByte_cons]
      by_cases hb : b = 13
      · rw [if_pos hb, if_pos hb]
        rfl
      rw [if_neg hb, if_neg hb, headerEndFrom_skip fun h => absurd h Bool.false_ne_true]
      cases findByte (rest.take (limit - (cursor + 1))) 13 with
      | none => rfl
      | some relative =>
        have hcur : cursor + 1 + relative = cursor + (relative + 1) := by omega
        simp [hcur]
    · rw [if_pos hlimit, Nat.sub_eq_zero_of_le (Nat.not_lt.mp hlimit)]
      rfl

theorem headerEndLoop_eq {limit : Nat} (hle : limit ≤ source.length) :
    ∀ {cursor : Nat}, limit < rounds + cursor → headerEndLoop source limit rounds cursor =
      .ok (headerEndFrom limit true cursor (source.drop cursor)) := by
  have hdone : ∀ {cursor : Nat}, ¬ cursor + 3 < limit →
      headerEndFrom limit true cursor (source.drop cursor) = none := by
    intro cursor h
    cases source.drop cursor with
    | nil => rfl
    | cons b rest => exact if_pos ⟨rfl, h⟩
  induction rounds with
  | zero =>
    intro cursor h
    rw [hdone (by omega)]
    rfl
  | succ rounds ih =>
    intro cursor h
    unfold headerEndLoop
    by_cases hcur : cursor + 3 < limit
    · have hview : view source cursor (limit - cursor) =
          .ok ((source.drop cursor).take (limit - cursor)) := by
        rw [view_eq (by omega), slice, Nat.add_sub_cancel_left]
      rw [if_pos hcur, hview, headerEndFrom_skip fun _ => hcur]
      simp only [bind, Except.bind]
      cases findByte ((source.drop cursor).take (limit - cursor)) 13 with
      | none => rfl
      | some relative =>
        have hdrop : (source.drop cursor).drop (relative + 1) =
            source.drop (cursor + relative + 1) := by
          rw [drop_drop, Nat.add_assoc]
        dsimp only
        rw [hdrop, ih (by omega)]
        by_cases hnext : cursor + relative + 3 < source.length
        · rw [if_pos hnext, accesses_eq (by omega)]
          dsimp only
          split <;> rfl
        have hshort : (source.drop (cursor + relative + 1)).take 3 ≠ [10, 13, 10] := by
          intro heq
          have hlen := congrArg List.length heq
          rw [length_take, length_drop] at hlen
          change min 3 _ = 3 at hlen
          omega
        rw [if_neg hnext, if_neg hshort]
    · rw [if_neg hcur, hdone hcur]

/-- **`find_header_end` reads inside its view.** -/
theorem findHeaderEnd_eq (source : List UInt8) (maxHeaderBytes : Int) :
    findHeaderEnd source maxHeaderBytes = .ok (Http.findHeaderEnd source maxHeaderBytes) := by
  unfold findHeaderEnd Http.findHeaderEnd
  refine headerEndLoop_eq ?_ (Nat.lt_succ_self _)
  split <;> omega

/-! ## The fields stay inside -/

theorem trimFront_eq {value : List UInt8} : ∀ {start : Nat},
    start + count = value.length → ∃ stop ≤ value.length, trimFront value start count = .ok stop ∧
      value.drop stop = (value.drop start).dropWhile isSpace := by
  induction count with
  | zero =>
    intro start h
    refine ⟨start, by omega, rfl, ?_⟩
    rw [drop_eq_nil_of_le (by omega)]
    rfl
  | succ count ih =>
    intro start h
    have hlt : start < value.length := by omega
    rw [trimFront, access_eq hlt, drop_eq_getElem_cons hlt, dropWhile_cons]
    by_cases hspace : isSpace value[start] = true
    · rw [if_pos hspace]
      obtain ⟨stop, hle, hfront, hdrop⟩ := ih (show start + 1 + count = value.length by omega)
      exact ⟨stop, hle, (if_pos hspace).trans hfront, hdrop⟩
    · rw [if_neg hspace, ← drop_eq_getElem_cons hlt]
      exact ⟨start, Nat.le_of_lt hlt, if_neg hspace, rfl⟩

theorem trimBack_eq {value : List UInt8} {start : Nat} (h : start + count ≤ value.length) :
    ∃ kept ≤ count, trimBack value start count = .ok kept ∧
      (value.drop start).take kept =
        (((value.drop start).take count).reverse.dropWhile isSpace).reverse := by
  induction count with
  | zero => exact ⟨0, Nat.le_refl 0, rfl, rfl⟩
  | succ count ih =>
    have hlt : start + count < value.length := by omega
    have hlast : (value.drop start).take (count + 1) =
        (value.drop start).take count ++ [value[start + count]] := by
      rw [take_add_one, List.getElem?_drop, List.getElem?_eq_getElem hlt]
      rfl
    rw [trimBack, access_eq hlt, hlast, reverse_append, reverse_singleton,
      singleton_append, dropWhile_cons]
    by_cases hspace : isSpace value[start + count] = true
    · rw [if_pos hspace]
      obtain ⟨kept, hle, hback, htake⟩ := ih (by omega)
      exact ⟨kept, Nat.le_succ_of_le hle, (if_pos hspace).trans hback, htake⟩
    · refine ⟨count + 1, Nat.le_refl _, if_neg hspace, ?_⟩
      rw [if_neg hspace, reverse_cons, reverse_reverse, hlast]

theorem trimOws_eq (value : List UInt8) : trimOws value = .ok (Http.trimOws value) := by
  obtain ⟨start, hstart, hfront, hdrop⟩ := trimFront_eq (Nat.zero_add value.length)
  obtain ⟨kept, hkept, hback, htake⟩ :=
    trimBack_eq (show start + (value.length - start) ≤ value.length by omega)
  rw [drop_zero] at hdrop
  unfold trimOws Http.trimOws
  rw [hfront]
  simp only [bind, Except.bind]
  rw [hback]
  simp only
  rw [view_eq (by omega), slice, Nat.add_sub_cancel_left, htake, hdrop, take_of_length_le]
  exact Nat.le_of_eq (by rw [← hdrop, length_drop])

theorem findColon_eq {block : List UInt8} : ∀ {colon : Nat},
    colon + count ≤ block.length → findColon block colon count =
      .ok (match findByte ((block.drop colon).take count) 58 with
        | none => colon + count
        | some relative => colon + relative) := by
  induction count with
  | zero => exact fun _ => rfl
  | succ count ih =>
    intro colon h
    have hlt : colon < block.length := by omega
    rw [findColon, access_eq hlt, drop_eq_getElem_cons hlt, take_succ_cons, findByte_cons]
    by_cases hcolon : block[colon] = 58
    · rw [if_pos hcolon]
      exact if_pos hcolon
    rw [if_neg hcolon]
    refine (if_neg hcolon).trans ?_
    rw [ih (by omega)]
    cases findByte ((block.drop (colon + 1)).take count) 58 with
    | none => exact congrArg Except.ok (show colon + 1 + count = colon + (count + 1) by omega)
    | some relative =>
      exact congrArg Except.ok (show colon + 1 + relative = colon + (relative + 1) by omega)

/-- **`next_header` reads inside the block.** -/
theorem nextHeader_eq (iterator : HeaderIterator) :
    nextHeader iterator = .ok (Http.nextHeader iterator) := by
  unfold nextHeader Http.nextHeader
  by_cases hdone : iterator.block.length ≤ iterator.cursor
  · rw [if_pos hdone, if_pos hdone]
  rw [if_neg hdone, if_neg hdone, findCrlf_eq]
  simp only [bind, Except.bind]
  cases hline : Http.findCrlf iterator.block iterator.cursor with
  | none => rfl
  | some lineEnd =>
    obtain ⟨hge, hle⟩ := findCrlf_bounds hline
    dsimp only
    by_cases hempty : lineEnd = iterator.cursor
    · rw [if_pos hempty, if_pos hempty]
    have hlt : iterator.cursor < iterator.block.length := by omega
    have hhead : (slice iterator.block iterator.cursor lineEnd).head? =
        some iterator.block[iterator.cursor] := by
      rw [slice, List.head?_take, if_neg (by omega), List.head?_drop, List.getElem?_eq_getElem hlt]
    rw [if_neg hempty, if_neg hempty, access_eq hlt, hhead]
    dsimp only [Option.any_some]
    by_cases hspace : isSpace iterator.block[iterator.cursor] = true
    · rw [if_pos hspace, if_pos hspace]
    rw [if_neg hspace, if_neg hspace, findColon_eq (by omega), ← slice]
    cases hcolon : findByte (slice iterator.block iterator.cursor lineEnd) 58 with
    | none =>
      dsimp only
      rw [if_pos (.inr (by omega))]
    | some relative =>
      have hrelative := findByte_lt hcolon
      rw [slice, length_take, length_drop] at hrelative
      dsimp only
      cases relative with
      | zero =>
        rw [if_pos (.inl (by omega))]
        rfl
      | succ relative =>
        rw [if_neg (by omega), view_eq (by omega)]
        rw [view_eq (by omega)]
        dsimp only
        have hname : slice iterator.block iterator.cursor
            (iterator.cursor + (iterator.cursor + (relative + 1) - iterator.cursor)) =
            (slice iterator.block iterator.cursor lineEnd).take (relative + 1) := by
          rw [slice_take (by omega), Nat.add_sub_cancel_left]
        have hval : slice iterator.block (iterator.cursor + (relative + 1) + 1)
            (iterator.cursor + (relative + 1) + 1 +
              (lineEnd - (iterator.cursor + (relative + 1)) - 1)) =
            (slice iterator.block iterator.cursor lineEnd).drop (relative + 1 + 1) := by
          rw [slice_drop, Nat.add_assoc iterator.cursor]
          congr 1
          omega
        rw [trimOws_eq, hname, hval]
        rfl

theorem drainHeaders_eq : ∀ {iterator : HeaderIterator},
    drainHeaders rounds iterator = .ok (readHeaders rounds iterator).2 := by
  induction rounds with
  | zero => exact rfl
  | succ rounds ih =>
    intro iterator
    rw [drainHeaders, readHeaders, nextHeader_eq]
    simp only [bind, Except.bind]
    cases hnext : Http.nextHeader iterator with
    | mk found next =>
      cases found with
      | none => rfl
      | some header => exact ih

/-! ## The size of a chunk -/

theorem chunkSizeLoop_eq : ∀ {index size : Nat} {any : Bool},
    index + count ≤ source.length → chunkSizeLoop source count index size any =
      match Http.chunkSizeLoop size any ((source.drop index).take count) with
      | none => report .invalidChunk
      | some read => .ok read := by
  induction count with
  | zero => exact fun _ => rfl
  | succ count ih =>
    intro index size any h
    have hlt : index < source.length := by omega
    rw [chunkSizeLoop, access_eq hlt, drop_eq_getElem_cons hlt, take_succ_cons, Http.chunkSizeLoop]
    simp only [bind, Except.bind]
    by_cases hend : source[index] = 59
    · rw [if_pos hend, if_pos hend]
    rw [if_neg hend, if_neg hend]
    cases hexDigitValue source[index] with
    | none => rfl
    | some digit =>
      dsimp only
      by_cases hlarge : size > 576460752303423487
      · rw [if_pos hlarge, if_pos hlarge]
      · rw [if_neg hlarge, if_neg hlarge, ih (by omega)]

end Checked

end Raz.Http
