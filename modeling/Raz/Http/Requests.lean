import Raz.Http.Lines
import Raz.Http.Server

/-!
# Well-formed requests

The texts of requests: a request line, header fields and a body with a length, a body in chunks or
no body. A round of `read_request_view` asks for more until a request is there and then takes
exactly its bytes, whatever has arrived behind it.

Result: `checkRequest_whole`, `checkRequest_before`: a request.
-/

namespace Raz.Http

open List

variable {n : Nat} {field : List UInt8 × List UInt8} {bytes behind readable : List UInt8}
  {last : LastChunk} {maxHeaderBytes maxBodyBytes : Int} {request : Request}

/-! ## Numbers -/

/-- The number of decimal digits, behind the digits read so far. -/
def decimalNumber (result : Nat) (digits : List UInt8) : Nat :=
  digits.foldl (fun result b => result * 10 + (b.toNat - 48)) result

/-- The number of hexadecimal digits, behind the digits read so far. -/
def hexNumber (result : Nat) (digits : List UInt8) : Nat :=
  digits.foldl (fun result b => result * 16 + (hexDigitValue b).getD 0) result

def isDecimalDigit (b : UInt8) : Bool := 48 ≤ b && b ≤ 57

theorem le_decimalNumber (digits : List UInt8) :
    ∀ result, result ≤ decimalNumber result digits := by
  induction digits with
  | nil => exact fun _ => Nat.le_refl _
  | cons b digits ih =>
    intro result
    exact Nat.le_trans (by omega) (ih (result * 10 + (b.toNat - 48)))

theorem le_hexNumber (digits : List UInt8) : ∀ result, result ≤ hexNumber result digits := by
  induction digits with
  | nil => exact fun _ => Nat.le_refl _
  | cons b digits ih =>
    intro result
    exact Nat.le_trans (by omega) (ih (result * 16 + (hexDigitValue b).getD 0))

theorem decimalLoop_eq (digits : List UInt8) (hdigs : digits.all isDecimalDigit = true) :
    ∀ result : Nat, decimalNumber result digits ≤ 9223372036854775807 →
      decimalLoop result digits = decimalNumber result digits := by
  induction digits with
  | nil => exact fun _ _ => rfl
  | cons b digits ih =>
    intro result hle
    obtain ⟨hb, hrest⟩ := Bool.and_eq_true_iff.mp (all_cons ▸ hdigs)
    obtain ⟨hlow, hhigh⟩ := Bool.and_eq_true_iff.mp hb
    have hlow := UInt8.le_iff_toNat_le.mp (of_decide_eq_true hlow)
    have hhigh := UInt8.le_iff_toNat_le.mp (of_decide_eq_true hhigh)
    have hnext := le_decimalNumber digits (result * 10 + (b.toNat - 48))
    have hstep : decimalNumber result (b :: digits) =
        decimalNumber (result * 10 + (b.toNat - 48)) digits := rfl
    rw [hstep] at hle ⊢
    rw [← ih hrest _ hle, decimalLoop]
    have h48 : (48 : UInt8).toNat = 48 := rfl
    rw [if_neg (by simp only [UInt8.lt_iff_toNat_lt]; omega)]
    rw [if_neg (by omega)]
    congr 1
    omega

theorem chunkSizeLoop_eq (digits : List UInt8)
    (hdigs : ∀ b ∈ digits, (hexDigitValue b).isSome = true) (ext : List UInt8)
    (hext : ext = [] ∨ ext.head? = some 59) :
    ∀ (size : Nat) (any : Bool), hexNumber size digits ≤ 9223372036854775807 →
      chunkSizeLoop size any (digits ++ ext) =
        some (hexNumber size digits, any || digits ≠ []) := by
  induction digits with
  | nil =>
    intro size any _
    rcases hext with rfl | hext
    · simp [chunkSizeLoop, hexNumber]
    cases ext with
    | nil => cases hext
    | cons b ext =>
      cases hext
      simp [chunkSizeLoop, hexNumber]
  | cons b digits ih =>
    intro size any hle
    obtain ⟨hb, hrest⟩ := forall_mem_cons.mp hdigs
    obtain ⟨digit, hdigit⟩ := Option.isSome_iff_exists.mp hb
    have hstep : hexNumber size (b :: digits) = hexNumber (size * 16 + digit) digits := by
      simp [hexNumber, hdigit]
    have hnext := le_hexNumber digits (size * 16 + digit)
    have hne : b ≠ 59 := by
      rintro rfl
      cases hdigit
    rw [hstep] at hle ⊢
    rw [cons_append, chunkSizeLoop, if_neg hne, hdigit]
    simp only
    rw [if_neg (by omega), ih hrest _ _ hle]
    simp

/-! ## Framing -/

/-- A chunk: the digits of its size, an extension and its data. -/
structure Chunk where
  size : List UInt8
  ext : List UInt8
  data : List UInt8

/-- The chunk of size zero, with the trailer fields. -/
structure LastChunk where
  size : List UInt8
  ext : List UInt8
  trailers : List (List UInt8 × List UInt8)

inductive Body
  | absent
  | length (content : List UInt8)
  | chunked (chunks : List Chunk) (last : LastChunk)

/-- A Content-Length field. -/
def isLength (field : List UInt8 × List UInt8) : Bool := isIgnoringCase field.1 contentLengthName

/-- A Transfer-Encoding field. -/
def isTransfer (field : List UInt8 × List UInt8) : Bool :=
  isIgnoringCase field.1 transferEncodingName

/-- The decimal digits of a number. -/
structure IsDecimal (value : List UInt8) (n : Nat) : Prop where
  ne_nil : value ≠ []
  digits : value.all isDecimalDigit = true
  number : decimalNumber 0 value = n

/-- The fields say which body there is: none if they do not mention one, one of a length if every
Content-Length has this length, one in chunks if there is one Transfer-Encoding, of that token. -/
def Frames (fields : List (List UInt8 × List UInt8)) : Body → Prop
  | .absent => ∀ field ∈ fields, isLength field = false ∧ isTransfer field = false
  | .length content =>
      (∃ field ∈ fields, isLength field = true) ∧
        ∀ field ∈ fields, isTransfer field = false ∧
          (isLength field = true → IsDecimal (trimOws field.2) content.length)
  | .chunked _ _ =>
      ∃ front field back, fields = front ++ field :: back ∧ isTransfer field = true ∧
        (trimOws field.2).map lower = chunkedToken ∧
        ∀ other ∈ front ++ back, isLength other = false ∧ isTransfer other = false

/-- The framing of a body. -/
def Body.framing (body : Body) (close : Bool) : Framing :=
  match body with
  | .absent => ⟨-1, false, close⟩
  | .length content => ⟨content.length, false, close⟩
  | .chunked _ _ => ⟨-1, true, close⟩

theorem trimOws_of_all {value : List UInt8} (h : ∀ b ∈ value, isSpace b = false) :
    trimOws value = value := by
  have hdrop (value : List UInt8) (h : ∀ b ∈ value, isSpace b = false) :
      value.dropWhile isSpace = value := by
    cases value with
    | nil => rfl
    | cons b value => exact dropWhile_cons_of_neg (by rw [h b mem_cons_self]; decide)
  unfold trimOws
  rw [hdrop value h, hdrop _ (fun b hb => h b (mem_reverse.mp hb)), reverse_reverse]

theorem IsDecimal.parse {value : List UInt8} {n : Nat} (h : IsDecimal value n)
    (hn : n ≤ 9223372036854775807) : parseDecimal value = n := by
  have hspace : ∀ b ∈ value, isSpace b = false := by
    intro b hb
    refine Bool.of_not_eq_true fun hspace => ?_
    have hdigit := all_eq_true.mp h.digits b hb
    have hcases : b = 32 ∨ b = 9 := by simpa [isSpace] using hspace
    rcases hcases with rfl | rfl <;> cases hdigit
  unfold parseDecimal
  rw [trimOws_of_all hspace]
  rw [if_neg h.ne_nil]
  have hloop := decimalLoop_eq value h.digits 0 (by rw [h.number]; exact hn)
  rw [h.number] at hloop
  exact hloop

theorem analyzeHeader_length (h : IsField field) (hname : isLength field = true)
    (hval : IsDecimal (trimOws field.2) n) (hn : n ≤ 9223372036854775807) {framing : Framing}
    (hframing : framing.contentLength = -1 ∨ framing.contentLength = n) :
    analyzeHeader framing (readField field) = .ok { framing with contentLength := n } := by
  unfold isLength at hname
  unfold analyzeHeader readField
  rw [if_neg (by rw [h.name_token]; decide), if_pos hname, hval.parse hn, if_neg (by omega),
    if_neg (by omega)]

theorem not_isLength_of_isTransfer (h : isTransfer field = true) : isLength field = false := by
  refine Bool.of_not_eq_true fun hlen => ?_
  have h1 : field.1.map lower = transferEncodingName := by
    simpa [isTransfer, isIgnoringCase] using h
  have h2 : field.1.map lower = contentLengthName := by
    simpa [isLength, isIgnoringCase] using hlen
  rw [h1] at h2
  exact absurd h2 (by decide)

theorem analyzeHeader_transfer (h : IsField field) (hname : isTransfer field = true)
    (hval : (trimOws field.2).map lower = chunkedToken) {framing : Framing}
    (hframing : framing.chunked = false) :
    analyzeHeader framing (readField field) = .ok { framing with chunked := true } := by
  have hspace : ∀ b ∈ trimOws field.2, isSpace b = false := by
    intro b hb
    refine Bool.of_not_eq_true fun hspace => ?_
    have hmem : lower b ∈ chunkedToken := hval ▸ mem_map_of_mem hb
    have hcases : b = 32 ∨ b = 9 := by simpa [isSpace] using hspace
    rcases hcases with rfl | rfl <;> exact absurd hmem (by decide)
  have hlen := not_isLength_of_isTransfer hname
  have htoken : isIgnoringCase (trimOws (trimOws field.2)) chunkedToken = true := by
    rw [trimOws_of_all hspace]
    exact decide_eq_true hval
  unfold isLength at hlen
  unfold isTransfer at hname
  unfold analyzeHeader readField
  rw [if_neg (by rw [h.name_token]; decide), if_neg (by rw [hlen]; decide), if_pos hname,
    if_neg (not_not_intro htoken), if_neg (by rw [hframing]; decide)]

theorem analyzeHeader_other (h : IsField field) (hlen : isLength field = false)
    (htransfer : isTransfer field = false) (framing : Framing) :
    ∃ close, analyzeHeader framing (readField field) =
      .ok { framing with connectionClose := close } := by
  unfold isLength at hlen
  unfold isTransfer at htransfer
  unfold analyzeHeader readField
  rw [if_neg (by rw [h.name_token]; decide), if_neg (by rw [hlen]; decide),
    if_neg (by rw [htransfer]; decide)]
  split
  · split
    · exact ⟨true, rfl⟩
    · exact ⟨framing.connectionClose, rfl⟩
  · exact ⟨framing.connectionClose, rfl⟩

theorem foldlM_other (fields : List (List UInt8 × List UInt8))
    (hfields : ∀ field ∈ fields, IsField field)
    (hother : ∀ field ∈ fields, isLength field = false ∧ isTransfer field = false) :
    ∀ framing : Framing, ∃ close, (fields.map readField).foldlM analyzeHeader framing =
      .ok { framing with connectionClose := close } := by
  induction fields with
  | nil => exact fun framing => ⟨framing.connectionClose, rfl⟩
  | cons field fields ih =>
    intro framing
    obtain ⟨hfield, hfields⟩ := forall_mem_cons.mp hfields
    obtain ⟨⟨hlen, htransfer⟩, hother⟩ := forall_mem_cons.mp hother
    obtain ⟨close, hclose⟩ := analyzeHeader_other hfield hlen htransfer framing
    obtain ⟨close', hrest⟩ := ih hfields hother { framing with connectionClose := close }
    refine ⟨close', ?_⟩
    rw [map_cons, foldlM_cons, hclose]
    exact hrest

theorem foldlM_length (hn : n ≤ 9223372036854775807) (fields : List (List UInt8 × List UInt8))
    (hfields : ∀ field ∈ fields, IsField field) (hsame : ∀ field ∈ fields, isTransfer field = false
      ∧ (isLength field = true → IsDecimal (trimOws field.2) n)) :
    ∀ framing : Framing, framing.contentLength = n ∨
        framing.contentLength = -1 ∧ (∃ field ∈ fields, isLength field = true) →
      ∃ close, (fields.map readField).foldlM analyzeHeader framing =
        .ok ⟨n, framing.chunked, close⟩ := by
  induction fields with
  | nil =>
    intro framing h
    rcases h with h | ⟨_, _, hmem, _⟩
    · refine ⟨framing.connectionClose, ?_⟩
      rw [← h]
      rfl
    · cases hmem
  | cons field fields ih =>
    intro framing h
    obtain ⟨hfield, hfields⟩ := forall_mem_cons.mp hfields
    obtain ⟨⟨htransfer, hval⟩, hsame⟩ := forall_mem_cons.mp hsame
    rw [map_cons, foldlM_cons]
    cases hlen : isLength field with
    | true =>
      rw [analyzeHeader_length hfield hlen (hval hlen) hn (h.symm.imp And.left id)]
      exact ih hfields hsame { framing with contentLength := n } (.inl rfl)
    | false =>
      obtain ⟨close, hclose⟩ := analyzeHeader_other hfield hlen htransfer framing
      rw [hclose]
      refine ih hfields hsame { framing with connectionClose := close } (h.imp id ?_)
      rintro ⟨hnone, other, hmem, hother⟩
      rcases mem_cons.mp hmem with rfl | hmem
      · rw [hlen] at hother
        cases hother
      · exact ⟨hnone, other, hmem, hother⟩

theorem analyzeHeaders_body {fields : List (List UInt8 × List UInt8)}
    (hfields : ∀ field ∈ fields, IsField field) {body : Body} (hbody : Frames fields body)
    (hlen : ∀ content, body = .length content → content.length ≤ 9223372036854775807) :
    ∃ close, analyzeHeaders (fieldsBlock fields) = .ok (body.framing close) := by
  cases body with
  | absent =>
    obtain ⟨close, hclose⟩ := foldlM_other fields hfields hbody ⟨-1, false, false⟩
    exact ⟨close, analyzeHeaders_fields hfields hclose (fun h => Bool.false_ne_true h.1)⟩
  | length content =>
    obtain ⟨close, hclose⟩ := foldlM_length (hlen content rfl) fields hfields hbody.2
      ⟨-1, false, false⟩ (.inr ⟨rfl, hbody.1⟩)
    exact ⟨close, analyzeHeaders_fields hfields hclose (fun h => Bool.false_ne_true h.1)⟩
  | chunked chunks last =>
    obtain ⟨front, field, back, rfl, htransfer, htoken, hother⟩ := hbody
    obtain ⟨hfront, hback⟩ := forall_mem_append.mp hother
    obtain ⟨hfields', hfields''⟩ := forall_mem_append.mp hfields
    obtain ⟨hfield, hfields''⟩ := forall_mem_cons.mp hfields''
    obtain ⟨close, hclose⟩ := foldlM_other front hfields' hfront ⟨-1, false, false⟩
    obtain ⟨close', hclose'⟩ := foldlM_other back hfields'' hback ⟨-1, true, close⟩
    refine ⟨close', analyzeHeaders_fields hfields ?_
      (fun h => absurd (show (-1 : Int) ≥ 0 from h.2) (by decide))⟩
    rw [map_append, foldlM_append, hclose, map_cons]
    show List.foldlM analyzeHeader _ (_ :: _) = _
    rw [foldlM_cons, analyzeHeader_transfer hfield htransfer htoken rfl]
    exact hclose'

/-! ## Chunks -/

/-- The line of a chunk of `n` bytes. -/
structure IsSizeLine (size ext : List UInt8) (n : Nat) : Prop where
  size_ne : size ≠ []
  digits : ∀ b ∈ size, (hexDigitValue b).isSome = true
  number : hexNumber 0 size = n
  ext_head : ext = [] ∨ ext.head? = some 59
  ext_cr : 13 ∉ ext

theorem IsSizeLine.not_mem {size ext : List UInt8} (h : IsSizeLine size ext n) :
    13 ∉ size ++ ext := by
  intro hmem
  rcases mem_append.mp hmem with hmem | hmem
  · exact absurd (h.digits 13 hmem) (by decide)
  · exact h.ext_cr hmem

def Chunk.text (chunk : Chunk) : List UInt8 :=
  chunk.size ++ chunk.ext ++ 13 :: 10 :: (chunk.data ++ [13, 10])

structure Chunk.WellFormed (chunk : Chunk) : Prop where
  line : IsSizeLine chunk.size chunk.ext chunk.data.length
  data_ne : chunk.data ≠ []

def LastChunk.text (last : LastChunk) : List UInt8 :=
  last.size ++ last.ext ++ 13 :: 10 :: linesText (last.trailers.map fieldLine)

structure LastChunk.WellFormed (last : LastChunk) : Prop where
  line : IsSizeLine last.size last.ext 0
  trailers_valid : ∀ field ∈ last.trailers, IsField field

theorem nextChunk_line {size ext : List UInt8} (h : IsSizeLine size ext n)
    (hn : n ≤ 9223372036854775807) (front rest : List UInt8) :
    nextChunk ⟨front ++ (size ++ ext ++ 13 :: 10 :: rest), front.length, false⟩ =
      if n = 0 then
        nextFinal ⟨front ++ (size ++ ext ++ 13 :: 10 :: rest), front.length, false⟩
          (front.length + (size ++ ext).length + 2)
      else
        nextData ⟨front ++ (size ++ ext ++ 13 :: 10 :: rest), front.length, false⟩
          (front.length + (size ++ ext).length + 2) n := by
  have hend : findCrlf (front ++ (size ++ ext ++ 13 :: 10 :: rest)) front.length =
      some (front.length + (size ++ ext).length) := by
    unfold findCrlf
    rw [drop_left]
    exact findCrlfFrom_append h.not_mem _ _
  have hline : slice (front ++ (size ++ ext ++ 13 :: 10 :: rest)) front.length
      (front.length + (size ++ ext).length) = size ++ ext := by
    unfold slice
    rw [drop_left, Nat.add_sub_cancel_left, take_left]
  have hsize := chunkSizeLoop_eq size h.digits ext h.ext_head 0 false (by rw [h.number]; exact hn)
  have hany : (false || decide (size ≠ [])) = true := decide_eq_true h.size_ne
  rw [h.number, hany] at hsize
  unfold nextChunk
  simp only
  rw [if_neg (by decide), hend]
  simp only
  rw [hline, hsize]
  simp only
  rw [if_neg (by decide)]

theorem nextChunk_none {source : List UInt8} {cursor : Nat} (h : findCrlf source cursor = none) :
    nextChunk ⟨source, cursor, false⟩ = (.incomplete, none, ⟨source, cursor, false⟩) := by
  unfold nextChunk
  simp only
  rw [if_neg (by decide), h]

theorem nextChunk_whole {chunk : Chunk} (h : chunk.WellFormed) (front more : List UInt8)
    (hlen : (front ++ chunk.text).length ≤ 9223372036854775807) :
    nextChunk ⟨front ++ (chunk.text ++ more), front.length, false⟩ =
      (.none, some ⟨chunk.data, [], false⟩,
        ⟨front ++ (chunk.text ++ more), (front ++ chunk.text).length, false⟩) := by
  have htext : chunk.text ++ more =
      chunk.size ++ chunk.ext ++ 13 :: 10 :: (chunk.data ++ 13 :: 10 :: more) := by
    simp [Chunk.text]
  have hcount : (front ++ chunk.text).length =
      front.length + (chunk.size ++ chunk.ext).length + 2 + chunk.data.length + 2 := by
    simp only [Chunk.text, length_append, length_cons, length_nil]
    omega
  have hpos := length_pos_iff.mpr h.data_ne
  -- the data stand behind the line
  have hdrop : (front ++ (chunk.text ++ more)).drop
      (front.length + (chunk.size ++ chunk.ext).length + 2) = chunk.data ++ 13 :: 10 :: more := by
    rw [Nat.add_assoc, ← drop_drop, drop_left, htext, ← drop_drop, drop_left]
    rfl
  have hget (k : Nat) : (front ++ (chunk.text ++ more))[front.length +
      (chunk.size ++ chunk.ext).length + 2 + chunk.data.length + k]? = (13 :: 10 :: more)[k]? := by
    rw [Nat.add_assoc, ← List.getElem?_drop, hdrop, List.getElem?_append_right (by omega)]
    congr 1
    omega
  have hslice : slice (front ++ (chunk.text ++ more))
      (front.length + (chunk.size ++ chunk.ext).length + 2)
      (front.length + (chunk.size ++ chunk.ext).length + 2 + chunk.data.length) = chunk.data := by
    rw [slice, hdrop, Nat.add_sub_cancel_left]
    exact take_left
  have hfits : (front ++ (chunk.text ++ more)).length =
      (front ++ chunk.text).length + more.length := by
    rw [← append_assoc, length_append]
  rw [htext, nextChunk_line h.line (by omega), ← htext, if_neg (by omega)]
  unfold nextData
  simp only
  rw [Word.wrap_of_range (by omega) (by omega), if_neg (by omega), hslice, if_neg (by
      have h0 := hget 0
      have h1 := hget 1
      rw [Nat.add_zero] at h0
      rw [h0, h1]
      simp), hcount]

theorem nextChunk_before {chunk : Chunk} (h : chunk.WellFormed) (front : List UInt8)
    (hlen : (front ++ chunk.text).length ≤ 9223372036854775807)
    (htext : bytes ++ behind = chunk.text) (hbehind : behind ≠ []) :
    (nextChunk ⟨front ++ bytes, front.length, false⟩).1 = .incomplete := by
  have hcount : (front ++ chunk.text).length =
      front.length + (chunk.size ++ chunk.ext).length + 2 + chunk.data.length + 2 := by
    simp only [Chunk.text, length_append, length_cons, length_nil]
    omega
  have hpos := length_pos_iff.mpr h.data_ne
  have hshort := length_pos_iff.mpr hbehind
  rcases line_arrives h.line.not_mem htext with hnone | ⟨rest, rfl, hrest⟩
  · rw [nextChunk_none]
    unfold findCrlf
    rw [drop_left]
    exact hnone _
  · have htotal := congrArg List.length htext
    rw [hcount] at hlen
    simp only [Chunk.text, length_append, length_cons, length_nil] at htotal hlen
    rw [nextChunk_line h.line (by omega), if_neg (by omega)]
    unfold nextData
    rw [Word.wrap_of_range (by simp only [length_append]; omega)
      (by simp only [length_append]; omega), if_pos]
    simp only [length_append, length_cons]
    omega

theorem drainHeaders_fields {fields : List (List UInt8 × List UInt8)}
    (hfields : ∀ field ∈ fields, IsField field) :
    (drainHeaders (fieldsBlock fields)).invalid = false := by
  unfold drainHeaders
  rw [readHeaders_block hfields (Nat.lt_succ_self _)]

theorem linesText_ne {first : List UInt8} (hfirst : IsLine first) (lines : List (List UInt8))
    (more : List UInt8) {n : Nat} :
    (linesText (first :: lines) ++ more).take n ≠ [13, 10] := by
  obtain ⟨b, line, rfl⟩ := exists_cons_of_ne_nil hfirst.1
  have hb : b ≠ 13 := fun heq => hfirst.2 (heq ▸ mem_cons_self)
  cases n with
  | zero => exact nofun
  | succ n =>
    intro h
    have hhead := congrArg List.head? h
    simp [linesText, joinLines] at hhead
    exact hb hhead

/-- The text of the trailers, as the fields and what ends them. -/
theorem linesText_fields (fields : List (List UInt8 × List UInt8)) (more : List UInt8) :
    linesText (fields.map fieldLine) ++ more = fieldsBlock fields ++ 13 :: 10 :: more := by
  simp [linesText, fieldsBlock]

/-- The trailers of the chunk of size zero, and what follows them. -/
theorem nextFinal_text {fields : List (List UInt8 × List UInt8)}
    (hvalid : ∀ field ∈ fields, IsField field) {cursor : ChunkCursor} {dataStart : Nat}
    {more : List UInt8}
    (hdrop : cursor.source.drop dataStart = linesText (fields.map fieldLine) ++ more) :
    ∃ trailers, nextFinal cursor dataStart = (.none, some ⟨[], trailers, true⟩,
      ⟨cursor.source, dataStart + (linesText (fields.map fieldLine)).length, true⟩) := by
  have hslice (n : Nat) : slice cursor.source dataStart (dataStart + n) =
      (linesText (fields.map fieldLine) ++ more).take n := by
    rw [slice, hdrop, Nat.add_sub_cancel_left]
  have hfits := congrArg List.length hdrop
  rw [length_drop, length_append] at hfits
  unfold nextFinal
  rw [hslice, hdrop]
  cases fields with
  | nil =>
    have htwo : (linesText (([] : List (List UInt8 × List UInt8)).map fieldLine)).length = 2 := rfl
    rw [htwo] at hfits ⊢
    have htake : (linesText (([] : List (List UInt8 × List UInt8)).map fieldLine) ++ more).take 2 =
        [13, 10] := rfl
    refine ⟨[], ?_⟩
    rw [if_neg (by omega), if_pos htake]
  | cons field fields =>
    have hlines : ∀ line ∈ fields.map fieldLine, IsLine line := by
      intro line hmem
      obtain ⟨field', hfield, rfl⟩ := mem_map.mp hmem
      exact (hvalid field' (mem_cons_of_mem _ hfield)).isLine
    have hfirst := (hvalid field mem_cons_self).isLine
    have hlen := length_linesText (fieldLine field) (fields.map fieldLine)
    have hblock : (linesText ((field :: fields).map fieldLine) ++ more).take
        ((fieldLine field).length + (joinLines (fields.map fieldLine)).length + 2) =
          fieldsBlock (field :: fields) := by
      have hcount : (fieldLine field).length + (joinLines (fields.map fieldLine)).length + 2 =
          (fieldsBlock (field :: fields)).length := by
        rw [fieldsBlock_cons]
        simp only [fieldsBlock, length_append, length_cons]
        omega
      rw [linesText_fields, hcount]
      exact take_left
    refine ⟨fieldsBlock (field :: fields), ?_⟩
    rw [map_cons] at hslice hfits hblock ⊢
    rw [if_neg (by omega), if_neg (linesText_ne hfirst _ more), findHeaderEnd_text hfirst hlines
      (.inl (Int.le_refl _)) more]
    simp only
    rw [Nat.add_assoc dataStart, hslice, hblock, 
      if_neg (Bool.eq_false_iff.mp (drainHeaders_fields hvalid)), hlen, Nat.add_assoc dataStart]

theorem nextChunk_last (h : last.WellFormed) (front more : List UInt8) :
    ∃ trailers, nextChunk ⟨front ++ (last.text ++ more), front.length, false⟩ =
      (.none, some ⟨[], trailers, true⟩,
        ⟨front ++ (last.text ++ more), (front ++ last.text).length, true⟩) := by
  have htext : last.text ++ more = last.size ++ last.ext ++
      13 :: 10 :: (linesText (last.trailers.map fieldLine) ++ more) := by
    simp [LastChunk.text]
  have hdrop : (front ++ (last.text ++ more)).drop
      (front.length + (last.size ++ last.ext).length + 2) =
        linesText (last.trailers.map fieldLine) ++ more := by
    rw [Nat.add_assoc, ← drop_drop, drop_left, htext, ← drop_drop, drop_left]
    rfl
  have hcount : (front ++ last.text).length = front.length + (last.size ++ last.ext).length + 2 +
      (linesText (last.trailers.map fieldLine)).length := by
    simp only [LastChunk.text, length_append, length_cons]
    omega
  obtain ⟨trailers, hfinal⟩ := @nextFinal_text _ h.trailers_valid
    ⟨front ++ (last.text ++ more), front.length, false⟩ _ _ hdrop
  refine ⟨trailers, ?_⟩
  rw [htext, nextChunk_line h.line (Nat.zero_le _), ← htext, if_pos rfl, hfinal, hcount]

theorem nextChunk_last_before (h : last.WellFormed) (front : List UInt8)
    (htext : bytes ++ behind = last.text) (hbehind : behind ≠ []) :
    (nextChunk ⟨front ++ bytes, front.length, false⟩).1 = .incomplete := by
  rcases line_arrives h.line.not_mem htext with hnone | ⟨rest, rfl, hrest⟩
  · rw [nextChunk_none]
    unfold findCrlf
    rw [drop_left]
    exact hnone _
  · have hdrop : (front ++ (last.size ++ last.ext ++ 13 :: 10 :: rest)).drop
        (front.length + (last.size ++ last.ext).length + 2) = rest := by
      rw [Nat.add_assoc, ← drop_drop, drop_left, ← drop_drop, drop_left]
      rfl
    have hlen := congrArg List.length hdrop
    rw [length_drop] at hlen
    rw [nextChunk_line h.line (Nat.zero_le _), if_pos rfl]
    unfold nextFinal
    simp only
    split
    · rfl
    rw [slice, hdrop, Nat.add_sub_cancel_left]
    have hvalid := h.trailers_valid
    cases htrailers : last.trailers with
    | nil =>
      -- the empty line is there
      rw [htrailers] at hrest
      have hrest := congrArg List.length hrest
      have hpos := length_pos_iff.mpr hbehind
      have htwo : (linesText (([] : List (List UInt8 × List UInt8)).map fieldLine)).length = 2 :=
        rfl
      rw [htwo, length_append] at hrest
      omega
    | cons field fields =>
      rw [htrailers] at hrest hvalid
      have hlines : ∀ line ∈ fields.map fieldLine, IsLine line := by
        intro line hmem
        obtain ⟨field', hfield, rfl⟩ := mem_map.mp hmem
        exact (hvalid field' (mem_cons_of_mem _ hfield)).isLine
      have hfirst := (hvalid field mem_cons_self).isLine
      have htake := @linesText_ne _ hfirst (fields.map fieldLine) [] 2
      rw [append_nil, ← map_cons, ← hrest, take_append_of_le_length (by omega)] at htake
      rw [if_neg htake, findHeaderEnd_before hfirst hlines 0 hrest hbehind]

def chunksText (chunks : List Chunk) : List UInt8 := chunks.flatMap Chunk.text

def chunksData (chunks : List Chunk) : List UInt8 := chunks.flatMap Chunk.data

theorem Chunk.text_ne (chunk : Chunk) : 0 < chunk.text.length := by
  unfold Chunk.text
  rw [length_append]
  exact Nat.lt_add_left _ (Nat.succ_pos _)

theorem decodeLoop_chunk {first : Chunk} (h : first.WellFormed) {front output : List UInt8}
    (hlen : (front ++ first.text).length ≤ 9223372036854775807) {maxBody : Int}
    (hmax : (output.length + first.data.length : Int) ≤ maxBody) (rounds : Nat) (chunk : ChunkView)
    (more : List UInt8) :
    decodeLoop maxBody (rounds + 1) ⟨front ++ (first.text ++ more), front.length, false⟩ chunk
        output =
      decodeLoop maxBody rounds ⟨front ++ first.text ++ more, (front ++ first.text).length, false⟩
        ⟨first.data, [], false⟩ (output ++ first.data) := by
  rw [decodeLoop, nextChunk_whole h front more hlen, ← append_assoc front]
  simp only [Option.getD_some]
  rw [if_neg (not_not_intro rfl), if_neg Bool.false_ne_true, if_neg (by omega)]

theorem chunksText_cons (chunk : Chunk) (chunks : List Chunk) (more : List UInt8) :
    chunksText (chunk :: chunks) ++ more = chunk.text ++ (chunksText chunks ++ more) :=
  append_assoc _ _ _

theorem chunksData_cons (output : List UInt8) (chunk : Chunk) (chunks : List Chunk) :
    output ++ chunksData (chunk :: chunks) = output ++ chunk.data ++ chunksData chunks :=
  (append_assoc _ _ _).symm

theorem fits_front {front rest : List UInt8} {bound : Nat}
    (h : (front ++ rest).length ≤ bound) : front.length ≤ bound := by
  rw [length_append] at h
  exact Nat.le_of_add_right_le h

theorem fits_output {output data rest : List UInt8} {bound : Int}
    (h : ((output ++ data ++ rest).length : Int) ≤ bound) :
    (output.length + data.length : Int) ≤ bound := by
  simp only [length_append] at h
  omega

theorem decodeLoop_whole {last : LastChunk} (hlast : last.WellFormed) (more : List UInt8)
    {maxBody : Int} (chunks : List Chunk) (hchunks : ∀ chunk ∈ chunks, chunk.WellFormed) :
    ∀ {rounds : Nat} {front output : List UInt8} (chunk : ChunkView),
      (chunksText chunks).length < rounds →
      (front ++ (chunksText chunks ++ last.text)).length ≤ 9223372036854775807 →
      ((output ++ chunksData chunks).length : Int) ≤ maxBody →
      decodeLoop maxBody rounds
          ⟨front ++ (chunksText chunks ++ (last.text ++ more)), front.length, false⟩ chunk output =
        (.none, output ++ chunksData chunks,
          some (front ++ (chunksText chunks ++ last.text)).length) := by
  induction chunks with
  | nil =>
    intro rounds front output chunk hrounds _ _
    obtain ⟨trailers, hnext⟩ := nextChunk_last hlast front more
    obtain ⟨rounds, rfl⟩ := Nat.exists_eq_succ_of_ne_zero (Nat.ne_of_gt hrounds)
    simp only [chunksText, chunksData, flatMap_nil, nil_append, append_nil]
    rw [decodeLoop, hnext]
    rfl
  | cons first chunks ih =>
    intro rounds front output chunk hrounds hlen hmax
    obtain ⟨hfirst, hchunks⟩ := forall_mem_cons.mp hchunks
    obtain ⟨rounds, rfl⟩ := Nat.exists_eq_succ_of_ne_zero (Nat.ne_of_gt (Nat.zero_lt_of_lt hrounds))
    have hpos := first.text_ne
    rw [chunksText_cons, ← append_assoc] at hlen
    rw [chunksData_cons] at hmax
    rw [chunksText_cons, chunksText_cons, chunksData_cons, ← append_assoc front first.text
      (chunksText chunks ++ last.text)]
    have htext : (chunksText (first :: chunks)).length =
        first.text.length + (chunksText chunks).length := length_append
    rw [decodeLoop_chunk hfirst (fits_front hlen) (fits_output hmax)]
    exact ih hchunks _ (by omega) hlen hmax

theorem decodeLoop_incomplete {cursor : ChunkCursor} (h : (nextChunk cursor).1 = .incomplete)
    (maxBody : Int) (rounds : Nat) (chunk : ChunkView) (output : List UInt8) :
    (decodeLoop maxBody (rounds + 1) cursor chunk output).1 = .incomplete := by
  rw [decodeLoop]
  generalize nextChunk cursor = next at h
  obtain ⟨error, written, cursor⟩ := next
  cases h
  rfl

theorem decodeLoop_before {last : LastChunk} (hlast : last.WellFormed) {maxBody : Int}
    {behind : List UInt8} (hbehind : behind ≠ []) (chunks : List Chunk)
    (hchunks : ∀ chunk ∈ chunks, chunk.WellFormed) :
    ∀ {rounds : Nat} {front output bytes : List UInt8} (chunk : ChunkView),
      bytes.length < rounds → bytes ++ behind = chunksText chunks ++ last.text →
      (front ++ (chunksText chunks ++ last.text)).length ≤ 9223372036854775807 →
      ((output ++ chunksData chunks).length : Int) ≤ maxBody →
      (decodeLoop maxBody rounds ⟨front ++ bytes, front.length, false⟩ chunk output).1 =
        .incomplete := by
  induction chunks with
  | nil =>
    intro rounds front output bytes chunk hrounds htext _ _
    obtain ⟨rounds, rfl⟩ := Nat.exists_eq_succ_of_ne_zero (Nat.ne_of_gt (Nat.zero_lt_of_lt hrounds))
    exact decodeLoop_incomplete (nextChunk_last_before hlast front htext hbehind) _ _ _ _
  | cons first chunks ih =>
    intro rounds front output bytes chunk hrounds htext hlen hmax
    obtain ⟨hfirst, hchunks⟩ := forall_mem_cons.mp hchunks
    obtain ⟨rounds, rfl⟩ := Nat.exists_eq_succ_of_ne_zero (Nat.ne_of_gt (Nat.zero_lt_of_lt hrounds))
    rw [chunksText_cons, ← append_assoc] at hlen
    rw [chunksText_cons] at htext
    rw [chunksData_cons] at hmax
    rcases Framing.part_or_whole htext with ⟨missing, hmissing, hpart⟩ | ⟨rest, rfl, hrest⟩
    · exact decodeLoop_incomplete
        (nextChunk_before hfirst front (fits_front hlen) hpart hmissing) _ _ _ _
    have hpos := first.text_ne
    rw [length_append] at hrounds
    rw [decodeLoop_chunk hfirst (fits_front hlen) (fits_output hmax)]
    exact ih hchunks _ (by omega) hrest hlen hmax

/-- The texts of the chunks and of the last one, and what follows. -/
theorem decodeChunks_whole {chunks : List Chunk} (hchunks : ∀ chunk ∈ chunks, chunk.WellFormed)
    (hlast : last.WellFormed) (more : List UInt8) {maxBody : Int}
    (hlen : (chunksText chunks ++ last.text).length ≤ 9223372036854775807)
    (hmax : ((chunksData chunks).length : Int) ≤ maxBody) {view : HttpRequestView}
    (hbody : view.body = chunksText chunks ++ (last.text ++ more)) :
    decodeChunks view maxBody =
      (.none, chunksData chunks, some (chunksText chunks ++ last.text).length) := by
  unfold decodeChunks
  rw [hbody]
  exact @decodeLoop_whole _ hlast more _ chunks hchunks _ [] [] _
    (Nat.lt_succ_of_le (length_append ▸ Nat.le_add_right _ _)) hlen hmax

theorem decodeChunks_before {chunks : List Chunk} (hchunks : ∀ chunk ∈ chunks, chunk.WellFormed)
    {last : LastChunk} (hlast : last.WellFormed) {maxBody : Int}
    (hlen : (chunksText chunks ++ last.text).length ≤ 9223372036854775807)
    (hmax : ((chunksData chunks).length : Int) ≤ maxBody) {view : HttpRequestView}
    {behind : List UInt8} (hbody : view.body ++ behind = chunksText chunks ++ last.text)
    (hbehind : behind ≠ []) : (decodeChunks view maxBody).1 = .incomplete :=
  @decodeLoop_before _ hlast _ _ hbehind chunks hchunks _ [] [] _ _
    (Nat.lt_succ_self _) hbody hlen hmax

/-! ## Requests -/

namespace Body

def text : Body → List UInt8
  | .absent => []
  | .length content => content
  | .chunked chunks last => chunksText chunks ++ last.text

/-- The bytes that the body stands for. -/
def content : Body → List UInt8
  | .absent => []
  | .length content => content
  | .chunked chunks _ => chunksData chunks

def WellFormed : Body → Prop
  | .absent | .length _ => True
  | .chunked chunks last => (∀ chunk ∈ chunks, chunk.WellFormed) ∧ last.WellFormed

end Body

structure Request where
  head : RequestHead
  body : Body

namespace Request

def text (request : Request) : List UInt8 := request.head.text ++ request.body.text

structure WellFormed (request : Request) : Prop where
  head : request.head.WellFormed
  frames : Frames request.head.fields request.body
  body : request.body.WellFormed

/-- The limits of a connection. -/
structure Within (maxHeaderBytes maxBodyBytes : Int) (request : Request) : Prop where
  head : maxHeaderBytes ≤ 0 ∨ (request.head.text.length : Int) ≤ maxHeaderBytes
  body : (request.body.content.length : Int) ≤ maxBodyBytes

end Request

theorem checkRequest_large (h : readableLimit maxHeaderBytes maxBodyBytes < readable.length) :
    checkRequest maxHeaderBytes maxBodyBytes readable = .fail .bodyTooLarge := by
  unfold checkRequest
  rw [if_pos h]

theorem checkRequest_view
    (hlimit : (readable.length : Int) ≤ readableLimit maxHeaderBytes maxBodyBytes)
    (hne : readable ≠ []) {view : HttpRequestView}
    (hparse : parseRequest readable maxHeaderBytes = (.none, some view))
    (hmax : view.contentLength ≤ maxBodyBytes) :
    checkRequest maxHeaderBytes maxBodyBytes readable =
      if view.chunked then
        match decodeChunks view maxBodyBytes with
        | (.none, decoded, some chunkBytes) =>
            .done ({ view with body := decoded, contentLength := decoded.length },
              view.bodyStart + chunkBytes)
        | (.incomplete, _, _) => .more
        | (.bodyIncomplete, _, _) => .fail .bodyTooLarge
        | _ => .fail .protocol
      else if view.contentLength ≥ 0 then
        .done (view, view.bodyStart + view.contentLength.toNat)
      else .done (view, view.bodyStart) := by
  unfold checkRequest
  rw [if_neg (Int.not_lt.mpr hlimit), if_neg hne, hparse]
  exact if_neg (Int.not_lt.mpr hmax)

/-- The body that the view of a request has: without one, it is all that has arrived behind. -/
def Body.shown (body : Body) (behind : List UInt8) : List UInt8 :=
  match body with
  | .absent => behind
  | _ => body.content

theorem Request.WellFormed.framing (h : request.WellFormed)
    (hlen : request.text.length ≤ 9223372036854775807) :
    ∃ close, analyzeHeaders (fieldsBlock request.head.fields) =
      .ok (request.body.framing close) := by
  refine analyzeHeaders_body h.head.fields_valid h.frames fun content hcontent => ?_
  unfold Request.text at hlen
  rw [hcontent, length_append] at hlen
  exact Nat.le_trans (Nat.le_add_left _ _) hlen

theorem RequestHead.text_ne (head : RequestHead) (more : List UInt8) : head.text ++ more ≠ [] := by
  rw [head.text_cut]
  exact append_ne_nil_of_right_ne_nil _ (cons_ne_nil _ _)

/-- A view of the request line and the headers. -/
structure Views (head : RequestHead) (view : HttpRequestView) : Prop where
  method : view.method = head.method
  target : view.target = head.target
  headerBlock : view.headerBlock = fieldsBlock head.fields

/-- The view of a request without a length has all that has arrived. -/
theorem parseRequest_open {head : RequestHead} (h : head.WellFormed) {chunked close : Bool}
    (hframing : analyzeHeaders (fieldsBlock head.fields) = .ok ⟨-1, chunked, close⟩)
    {maxHeaderBytes : Int}
    (hmax : maxHeaderBytes ≤ 0 ∨ (head.text.length : Int) ≤ maxHeaderBytes)
    (available : List UInt8) :
    ∃ view, parseRequest (head.text ++ available) maxHeaderBytes = (.none, some view) ∧
      Views head view ∧ view.bodyStart = head.text.length ∧ view.body = available ∧
      view.contentLength = -1 ∧ view.chunked = chunked := by
  have hopen (p : Prop) : ¬ ((chunked = false ∧ (-1 : Int) ≥ 0) ∧ p) :=
    fun h => absurd h.1.2 (by decide)
  refine ⟨headView head ⟨-1, chunked, close⟩ available, ?_, ⟨rfl, rfl, rfl⟩, rfl, ?_, rfl, rfl⟩
  · rw [parseRequest_head h hframing hmax, if_neg (hopen _)]
  · exact if_neg (hopen _)

theorem parseRequest_length {head : RequestHead} (h : head.WellFormed) {content : List UInt8}
    {close : Bool}
    (hframing : analyzeHeaders (fieldsBlock head.fields) = .ok ⟨content.length, false, close⟩)
    (hmax : maxHeaderBytes ≤ 0 ∨ (head.text.length : Int) ≤ maxHeaderBytes) (behind : List UInt8) :
    ∃ view, parseRequest (head.text ++ (content ++ behind)) maxHeaderBytes = (.none, some view) ∧
      Views head view ∧ view.bodyStart = head.text.length ∧ view.body = content ∧
      view.contentLength = content.length ∧ view.chunked = false := by
  have hlen : (content ++ behind).length = content.length + behind.length := length_append
  have hshort : ¬ ((content ++ behind).length : Int) < content.length := by omega
  refine ⟨headView head ⟨content.length, false, close⟩ (content ++ behind), ?_, ⟨rfl, rfl, rfl⟩,
    rfl, ?_, rfl, rfl⟩
  · rw [parseRequest_head h hframing hmax, if_neg (fun hfixed => hshort hfixed.2)]
  unfold headView
  simp only
  split
  · exact take_left
  rename_i hmore
  have hnil : behind = [] := by
    refine eq_nil_iff_length_eq_zero.mpr (Nat.eq_zero_of_not_pos fun hpos => hmore ?_)
    exact ⟨⟨trivial, Int.natCast_nonneg _⟩, by omega⟩
  rw [hnil, append_nil]

/-- **A request that has arrived is taken**, with its own body unless it has none. -/
theorem checkRequest_whole (h : request.WellFormed)
    (hwithin : request.Within maxHeaderBytes maxBodyBytes)
    (hlen : request.text.length ≤ 9223372036854775807)
    (hlimit : ((request.text ++ behind).length : Int) ≤ readableLimit maxHeaderBytes maxBodyBytes) :
    ∃ view, checkRequest maxHeaderBytes maxBodyBytes (request.text ++ behind) =
        .done (view, request.text.length) ∧
      Views request.head view ∧ view.body = request.body.shown behind := by
  obtain ⟨close, hframing⟩ := h.framing hlen
  obtain ⟨head, body⟩ := request
  have hmax := hwithin.body
  have hpos : (-1 : Int) ≤ maxBodyBytes :=
    Int.le_trans (by decide) (Int.le_trans (Int.natCast_nonneg _) hmax)
  simp only [Request.text] at hlen hlimit hframing hmax ⊢
  have hne := head.text_ne (body.text ++ behind)
  rw [append_assoc] at hlimit ⊢
  cases body with
  | absent =>
    obtain ⟨view, hparse, hview, hstart, hbody, hcount, hchunked⟩ :=
      parseRequest_open h.head hframing hwithin.head behind
    refine ⟨view, ?_, hview, hbody⟩
    rw [checkRequest_view hlimit hne hparse (by rw [hcount]; exact hpos),
      if_neg (by simp [hchunked]), if_neg (by rw [hcount]; decide), hstart]
    simp [Body.text]
  | length content =>
    obtain ⟨view, hparse, hview, hstart, hbody, hcount, hchunked⟩ :=
      parseRequest_length h.head hframing hwithin.head behind
    refine ⟨view, ?_, hview, hbody⟩
    rw [checkRequest_view hlimit hne hparse (by rw [hcount]; exact hmax),
      if_neg (by simp [hchunked]), if_pos (by rw [hcount]; exact Int.natCast_nonneg _),
      hstart, hcount, length_append]
    rfl
  | chunked chunks last =>
    obtain ⟨hchunks, hlast⟩ := h.body
    obtain ⟨view, hparse, hview, hstart, hbody, hcount, hchunked⟩ :=
      parseRequest_open h.head hframing hwithin.head ((Body.chunked chunks last).text ++ behind)
    have hdecode := decodeChunks_whole hchunks hlast behind (by
      rw [length_append] at hlen
      exact Nat.le_trans (Nat.le_add_left _ _) hlen) hmax
      (hbody.trans (append_assoc _ _ _))
    refine ⟨{ view with body := chunksData chunks, contentLength := (chunksData chunks).length },
      ?_, ⟨hview.method, hview.target, hview.headerBlock⟩, rfl⟩
    have hconsumed : view.bodyStart + (chunksText chunks ++ last.text).length =
        (head.text ++ (Body.chunked chunks last).text).length := by
      rw [hstart]
      exact length_append.symm
    rw [checkRequest_view hlimit hne hparse (by rw [hcount]; exact hpos), if_pos hchunked, hdecode,
      ← hconsumed]

theorem checkRequest_wait
    (hlimit : (readable.length : Int) ≤ readableLimit maxHeaderBytes maxBodyBytes) (hparse :
      (parseRequest readable maxHeaderBytes).1 = .incomplete ∨ (parseRequest readable
      maxHeaderBytes).1 = .bodyIncomplete) :
    checkRequest maxHeaderBytes maxBodyBytes readable = .more := by
  unfold checkRequest
  rw [if_neg (Int.not_lt.mpr hlimit)]
  split
  · rfl
  generalize parseRequest readable maxHeaderBytes = parsed at hparse
  obtain ⟨error, view⟩ := parsed
  rcases hparse with rfl | rfl <;> rfl

/-- **A part of a request is not taken.** -/
theorem checkRequest_before (h : request.WellFormed)
    (hwithin : request.Within maxHeaderBytes maxBodyBytes)
    (hlen : request.text.length ≤ 9223372036854775807) (htext : bytes ++ behind = request.text)
    (hbehind : behind ≠ [])
    (hlimit : (bytes.length : Int) ≤ readableLimit maxHeaderBytes maxBodyBytes) :
    checkRequest maxHeaderBytes maxBodyBytes bytes = .more := by
  obtain ⟨close, hframing⟩ := h.framing hlen
  obtain ⟨head, body⟩ := request
  rcases Framing.part_or_whole htext with ⟨missing, hmissing, hpart⟩ | ⟨available, rfl, hrest⟩
  · refine checkRequest_wait hlimit (.inl ?_)
    rw [parseRequest_before h.head hwithin.head hpart hmissing]
  have hshort := congrArg List.length hrest
  have hpos := length_pos_iff.mpr hbehind
  rw [length_append] at hshort
  cases body with
  | absent => exact absurd (append_eq_nil_iff.mp hrest).2 hbehind
  | length content =>
    have hfixed : (available.length : Int) < content.length := by
      have hcount : available.length + behind.length = content.length := hshort
      omega
    refine checkRequest_wait hlimit (.inr ?_)
    rw [parseRequest_head h.head hframing hwithin.head]
    exact if_pos ⟨⟨rfl, Int.natCast_nonneg _⟩, hfixed⟩
  | chunked chunks last =>
    obtain ⟨hchunks, hlast⟩ := h.body
    obtain ⟨view, hparse, -, -, hbody, hcount, hchunked⟩ :=
      parseRequest_open h.head hframing hwithin.head available
    have hle : (-1 : Int) ≤ maxBodyBytes :=
      Int.le_trans (by decide) (Int.le_trans (Int.natCast_nonneg _) hwithin.body)
    have hdecode := @decodeChunks_before _ hchunks _ hlast maxBodyBytes (by
      unfold Request.text at hlen
      rw [length_append] at hlen
      exact Nat.le_trans (Nat.le_add_left _ _) hlen) hwithin.body view _
      (by rw [hbody]; exact hrest) hbehind
    rw [checkRequest_view hlimit (head.text_ne _) hparse (by rw [hcount]; exact hle),
      if_pos hchunked]
    generalize decodeChunks view maxBodyBytes = decoded at hdecode
    obtain ⟨error, output, consumed⟩ := decoded
    cases hdecode
    rfl

end Raz.Http
