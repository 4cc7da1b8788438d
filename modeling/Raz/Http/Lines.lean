import Raz.Http.Model

/-!
# Texts of lines

A request or a list of trailers is a text of lines: no line has a CR, and none but the last is
empty. The searches of the parser find the ends of these lines, whatever comes behind the text,
and do not find them before they are there.

Result: `parseRequest_head`, `parseRequest_before`: a request whose headers have arrived, and
before.
-/

namespace Raz.Http

open List

variable {limit : Nat} {source : List UInt8} {maxHeaderBytes : Int} {head : RequestHead}

/-! ## Bytes -/

theorem ne_of_isTokenByte {b other : UInt8} (h : isTokenByte b = true)
    (hother : isTokenByte other = false) : b ≠ other := by
  rintro rfl
  rw [h] at hother
  cases hother

theorem not_mem_of_all {p : UInt8 → Bool} {bytes : List UInt8} {other : UInt8}
    (h : bytes.all p = true) (hother : p other = false) : other ∉ bytes := by
  intro hmem
  rw [all_eq_true.mp h other hmem] at hother
  cases hother

theorem findByte_append {left : List UInt8} {value : UInt8} (h : value ∉ left)
    (right : List UInt8) : findByte (left ++ value :: right) value = some left.length := by
  unfold findByte
  induction left with
  | nil => simp [List.idxOf?, List.findIdx?_cons]
  | cons b left ih =>
    have hne : b ≠ value := fun heq => h (heq ▸ mem_cons_self)
    have hrest := ih (fun hmem => h (mem_cons_of_mem _ hmem))
    simp only [List.idxOf?] at hrest ⊢
    rw [cons_append, List.findIdx?_cons, hrest]
    simp [hne]

theorem findCrlfFrom_append {line : List UInt8} (h : 13 ∉ line) (rest : List UInt8) :
    ∀ cursor : Nat,
      findCrlfFrom cursor (line ++ 13 :: 10 :: rest) = some (cursor + line.length) := by
  induction line with
  | nil =>
    intro cursor
    simp [findCrlfFrom]
  | cons b line ih =>
    intro cursor
    have hne : b ≠ 13 := fun heq => h (heq ▸ mem_cons_self)
    rw [cons_append, findCrlfFrom, if_neg (fun hboth => hne hboth.1),
      ih (fun hmem => h (mem_cons_of_mem _ hmem)), length_cons]
    congr 1
    omega

theorem trimOws_space (value : List UInt8) : trimOws (32 :: value) = trimOws value := by
  unfold trimOws
  rw [dropWhile_cons_of_pos (by decide)]

/-! ## Texts of lines -/

/-- The lines with their ends. -/
def joinLines (lines : List (List UInt8)) : List UInt8 :=
  lines.flatMap (fun line => line ++ [13, 10])

/-- A line that is not the empty one that ends the headers. -/
def IsLine (line : List UInt8) : Prop := line ≠ [] ∧ 13 ∉ line

theorem headerEndFrom_line {line : List UInt8} (hcr : 13 ∉ line) (rest : List UInt8) :
    ∀ (atHead : Bool) {cursor : Nat}, (atHead = true → cursor + 3 < limit) →
      cursor + line.length ≤ limit → line ≠ [] →
      headerEndFrom limit atHead cursor (line ++ rest) =
        headerEndFrom limit false (cursor + line.length) rest := by
  induction line with
  | nil => exact fun _ _ _ _ hne => absurd rfl hne
  | cons b line ih =>
    intro atHead cursor hhead hle _
    rw [length_cons] at hle
    have hne : b ≠ 13 := fun heq => hcr (heq ▸ mem_cons_self)
    rw [cons_append, headerEndFrom, if_neg (fun hboth => hboth.2 (hhead hboth.1)),
      if_neg (by omega), if_neg hne, length_cons]
    cases line with
    | nil => rfl
    | cons next line =>
      rw [ih (fun hmem => hcr (mem_cons_of_mem _ hmem)) false nofun (by omega) (cons_ne_nil _ _)]
      congr 1
      omega

theorem headerEndFrom_text (lines : List (List UInt8)) (hlines : ∀ line ∈ lines, IsLine line) :
    ∀ {cursor : Nat}, cursor + (joinLines lines).length + 4 ≤ limit →
      headerEndFrom limit false cursor (13 :: 10 :: (joinLines lines ++ [13, 10])) =
        some (cursor + (joinLines lines).length) := by
  induction lines with
  | nil =>
    intro cursor hle
    have hle : cursor + 4 ≤ limit := hle
    simp only [joinLines, flatMap_nil, nil_append, headerEndFrom]
    rw [if_neg (fun hboth => Bool.false_ne_true hboth.1), if_neg (by omega)]
    rfl
  | cons line lines ih =>
    intro cursor hle
    obtain ⟨hne, hcr⟩ := hlines line mem_cons_self
    have hjoin : joinLines (line :: lines) = line ++ 13 :: 10 :: joinLines lines := by
      simp [joinLines]
    rw [hjoin] at hle ⊢
    simp only [length_append, length_cons] at hle ⊢
    obtain ⟨b, line', rfl⟩ := exists_cons_of_ne_nil hne
    have hb : b ≠ 13 := fun heq => hcr (heq ▸ mem_cons_self)
    rw [headerEndFrom, if_neg (fun hboth => Bool.false_ne_true hboth.1), if_neg (by omega),
      if_pos rfl, if_neg (by simp [hb]), headerEndFrom, if_neg (fun hboth => hboth.2 (by omega)),
      if_neg (by omega), if_neg (by decide), append_assoc,
      headerEndFrom_line hcr _ false nofun (by omega) hne, cons_append, cons_append,
      ih (fun line hmem => hlines line (mem_cons_of_mem _ hmem))
        (by simp only [length_cons] at hle ⊢; omega)]
    congr 1
    simp only [length_cons]
    omega

/-! ## More bytes -/

theorem findCrlfFrom_extend :
    ∀ {cursor found : Nat}, findCrlfFrom cursor source = some found → ∀ more : List UInt8,
      findCrlfFrom cursor (source ++ more) = some found ∧ found + 2 ≤ cursor + source.length := by
  induction source with
  | nil => exact fun h => nomatch h
  | cons b rest ih =>
    intro cursor found h more
    rw [findCrlfFrom] at h
    rw [cons_append, findCrlfFrom, length_cons]
    split at h <;> rename_i hboth
    · cases h
      obtain ⟨hb, hhead⟩ := hboth
      cases rest with
      | nil => cases hhead
      | cons next rest =>
        rw [if_pos ⟨hb, hhead⟩, length_cons]
        exact ⟨rfl, by omega⟩
    · obtain ⟨hrest, hle⟩ := ih h more
      have hne : ¬ (b = 13 ∧ (rest ++ more).head? = some 10) := by
        intro ⟨hb, hhead⟩
        cases rest with
        | nil => cases h
        | cons next rest => exact hboth ⟨hb, hhead⟩
      rw [if_neg hne]
      exact ⟨hrest, by omega⟩

theorem line_arrives {line : List UInt8} (hcr : 13 ∉ line) {rest bytes behind : List UInt8}
    (h : bytes ++ behind = line ++ 13 :: 10 :: rest) :
    (∀ cursor, findCrlfFrom cursor bytes = none) ∨
      ∃ rest', bytes = line ++ 13 :: 10 :: rest' ∧ rest' ++ behind = rest := by
  rcases Nat.lt_or_ge bytes.length (line.length + 2) with hlt | hge
  · refine .inl fun cursor => ?_
    cases hfound : findCrlfFrom cursor bytes with
    | none => rfl
    | some found =>
      obtain ⟨hline, hle⟩ := findCrlfFrom_extend hfound behind
      rw [h, findCrlfFrom_append hcr] at hline
      cases hline
      omega
  · have hline : (line ++ [13, 10]).length = line.length + 2 := length_append
    obtain ⟨rest', hrest⟩ := prefix_of_prefix_length_le
      (⟨rest, by simp⟩ : line ++ [13, 10] <+: line ++ 13 :: 10 :: rest) ⟨behind, h⟩
      (by rw [hline]; exact hge)
    refine .inr ⟨rest', by rw [← hrest]; simp, ?_⟩
    rw [← hrest] at h
    simpa using h

theorem le_headerEndFrom :
    ∀ {atHead : Bool} {cursor found : Nat},
      headerEndFrom limit atHead cursor source = some found → cursor ≤ found := by
  induction source with
  | nil => exact fun h => nomatch h
  | cons b rest ih =>
    intro atHead cursor found h
    rw [headerEndFrom] at h
    split at h
    · cases h
    split at h
    · cases h
    split at h
    · split at h
      · cases h
        exact Nat.le_refl _
      · exact Nat.le_of_succ_le (ih h)
    · exact Nat.le_of_succ_le (ih h)

theorem headerEndFrom_bound :
    ∀ {atHead : Bool} {cursor found : Nat},
      headerEndFrom limit atHead cursor source = some found →
      found + 4 ≤ cursor + source.length := by
  induction source with
  | nil => exact fun h => nomatch h
  | cons b rest ih =>
    intro atHead cursor found h
    rw [headerEndFrom] at h
    split at h
    · cases h
    split at h
    · cases h
    rw [length_cons]
    split at h
    · split at h
      · rename_i htake
        cases h
        have hlen := congrArg List.length htake
        rw [length_take] at hlen
        simp only [length_cons, length_nil] at hlen
        omega
      · have := ih h
        omega
    · have := ih h
      omega

theorem headerEndFrom_extend {limit' : Nat} (hle : limit ≤ limit') :
    ∀ {atHead : Bool} {cursor found : Nat},
      headerEndFrom limit atHead cursor source = some found → ∀ more : List UInt8,
      headerEndFrom limit' atHead cursor (source ++ more) = some found := by
  induction source with
  | nil => exact fun h => nomatch h
  | cons b rest ih =>
    intro atHead cursor found h more
    rw [headerEndFrom] at h
    split at h
    · cases h
    rename_i hhead
    split at h
    · cases h
    rw [cons_append, headerEndFrom,
      if_neg (fun hboth => hhead ⟨hboth.1, fun hlt => hboth.2 (by omega)⟩), if_neg (by omega)]
    split at h <;> rename_i hb
    · rw [if_pos hb]
      split at h <;> rename_i htake
      · have hlen := congrArg List.length htake
        rw [length_take] at hlen
        simp only [length_cons, length_nil] at hlen
        rw [if_pos (by rw [take_append_of_le_length (by omega)]; exact htake)]
        exact h
      · -- four more bytes, so that three of them do not come from behind
        have hrest := headerEndFrom_bound h
        have hlen : 3 ≤ rest.length := by
          have hge := le_headerEndFrom h
          omega
        rw [if_neg (by rw [take_append_of_le_length hlen]; exact htake)]
        exact ih h more
    · rw [if_neg hb]
      exact ih h more

/-- The text of the lines and of the empty one behind them. -/
def linesText (lines : List (List UInt8)) : List UInt8 := joinLines lines ++ [13, 10]

theorem length_linesText (first : List UInt8) (lines : List (List UInt8)) :
    (linesText (first :: lines)).length = first.length + (joinLines lines).length + 4 := by
  unfold linesText joinLines
  simp only [flatMap_cons, length_append, length_cons, length_nil]
  omega

section

variable {first : List UInt8} {lines : List (List UInt8)} (hfirst : IsLine first)
  (hlines : ∀ line ∈ lines, IsLine line)

include hfirst hlines

theorem headerEndFrom_linesText :
    headerEndFrom (linesText (first :: lines)).length true 0 (linesText (first :: lines)) =
      some (first.length + (joinLines lines).length) := by
  obtain ⟨hne, hcr⟩ := hfirst
  have hjoin : linesText (first :: lines) = first ++ 13 :: 10 :: (joinLines lines ++ [13, 10]) := by
    simp [linesText, joinLines]
  rw [length_linesText, hjoin, headerEndFrom_line hcr _ true (fun _ => by omega) (by omega) hne,
    headerEndFrom_text lines hlines (by omega), Nat.zero_add]

/-- The end of the headers is found in front of whatever follows. -/
theorem findHeaderEnd_text
    (hmax : maxHeaderBytes ≤ 0 ∨ ((linesText (first :: lines)).length : Int) ≤ maxHeaderBytes)
    (more : List UInt8) :
    findHeaderEnd (linesText (first :: lines) ++ more) maxHeaderBytes =
      some (first.length + (joinLines lines).length) := by
  unfold findHeaderEnd
  refine headerEndFrom_extend ?_ (headerEndFrom_linesText hfirst hlines) more
  rw [length_append]
  split
  · omega
  · exact Nat.le_add_right _ _

theorem findHeaderEnd_before (maxHeaderBytes : Int) {bytes behind : List UInt8}
    (h : bytes ++ behind = linesText (first :: lines)) (hbehind : behind ≠ []) :
    findHeaderEnd bytes maxHeaderBytes = none := by
  have hlen := congrArg List.length h
  rw [length_append, length_linesText] at hlen
  have hpos := length_pos_iff.mpr hbehind
  cases hfound : findHeaderEnd bytes maxHeaderBytes with
  | none => rfl
  | some found =>
    unfold findHeaderEnd at hfound
    have hbound := headerEndFrom_bound hfound
    have hlimit : (if maxHeaderBytes > 0 ∧ (bytes.length : Int) > maxHeaderBytes then
        maxHeaderBytes.toNat else bytes.length) ≤ (linesText (first :: lines)).length := by
      rw [length_linesText]
      split
      · omega
      · omega
    have htext := headerEndFrom_extend hlimit hfound behind
    rw [h, headerEndFrom_linesText hfirst hlines] at htext
    cases htext
    omega

end

/-! ## Header blocks -/

/-- A header line: its name, and the bytes behind the colon. -/
def fieldLine (field : List UInt8 × List UInt8) : List UInt8 := field.1 ++ 58 :: field.2

structure IsField (field : List UInt8 × List UInt8) : Prop where
  name_ne : field.1 ≠ []
  name_token : field.1.all isTokenByte = true
  value_cr : 13 ∉ field.2

theorem IsField.isLine {field : List UInt8 × List UInt8} (h : IsField field) :
    IsLine (fieldLine field) := by
  have hcr := not_mem_of_all h.name_token (show isTokenByte 13 = false by decide)
  refine ⟨append_ne_nil_of_left_ne_nil h.name_ne _, ?_⟩
  simp [fieldLine, hcr, h.value_cr]

/-- What is read of a field. -/
def readField (field : List UInt8 × List UInt8) : HeaderView := ⟨field.1, trimOws field.2⟩

theorem nextHeader_line {field : List UInt8 × List UInt8} (h : IsField field)
    (before after : List UInt8) :
    nextHeader ⟨before ++ (fieldLine field ++ 13 :: 10 :: after), before.length, false⟩ =
      (some (readField field), ⟨before ++ (fieldLine field ++ 13 :: 10 :: after),
        before.length + (fieldLine field).length + 2, false⟩) := by
  obtain ⟨hne, hcr⟩ := h.isLine
  have hline : slice (before ++ (fieldLine field ++ 13 :: 10 :: after)) before.length
      (before.length + (fieldLine field).length) = fieldLine field := by
    unfold slice
    rw [drop_left, Nat.add_sub_cancel_left, take_left]
  have hend : findCrlf (before ++ (fieldLine field ++ 13 :: 10 :: after)) before.length =
      some (before.length + (fieldLine field).length) := by
    unfold findCrlf
    rw [drop_left]
    exact findCrlfFrom_append hcr _ _
  have hpos := length_pos_iff.mpr hne
  have hcolon : findByte (fieldLine field) 58 = some field.1.length :=
    findByte_append (not_mem_of_all h.name_token (by decide)) _
  obtain ⟨b, name, hname⟩ := exists_cons_of_ne_nil h.name_ne
  have hb : isTokenByte b = true := by
    refine all_eq_true.mp h.name_token b ?_
    rw [hname]
    exact mem_cons_self
  have hspace : isSpace b = false := by
    have h32 := ne_of_isTokenByte hb (show isTokenByte 32 = false by decide)
    have h9 := ne_of_isTokenByte hb (show isTokenByte 9 = false by decide)
    simp [isSpace, h32, h9]
  unfold nextHeader
  rw [if_neg (by simp only [length_append, length_cons]; omega), hend]
  simp only
  rw [if_neg (by omega), hline, if_neg (by simp [fieldLine, hname, hspace]), hcolon, hname]
  simp [readField, fieldLine, hname]

/-- The block of the fields. -/
def fieldsBlock (fields : List (List UInt8 × List UInt8)) : List UInt8 :=
  joinLines (fields.map fieldLine)

theorem fieldsBlock_cons (field : List UInt8 × List UInt8)
    (fields : List (List UInt8 × List UInt8)) :
    fieldsBlock (field :: fields) = fieldLine field ++ 13 :: 10 :: fieldsBlock fields := by
  simp [fieldsBlock, joinLines]

theorem nextHeader_end (block : List UInt8) :
    nextHeader ⟨block, block.length, false⟩ = (none, ⟨block, block.length, false⟩) :=
  if_pos (Nat.le_refl _)

theorem length_behind (before : List UInt8) (field : List UInt8 × List UInt8) :
    (before ++ (fieldLine field ++ [13, 10])).length =
      before.length + (fieldLine field).length + 2 := by
  simp only [length_append, length_cons, length_nil]
  omega

theorem behind (before : List UInt8) (field : List UInt8 × List UInt8)
    (fields : List (List UInt8 × List UInt8)) :
    before ++ fieldsBlock (field :: fields) =
      (before ++ (fieldLine field ++ [13, 10])) ++ fieldsBlock fields := by
  rw [fieldsBlock_cons]
  simp

theorem readHeaders_fields (fields : List (List UInt8 × List UInt8))
    (hfields : ∀ field ∈ fields, IsField field) :
    ∀ (before : List UInt8) {rounds : Nat}, fields.length < rounds →
      readHeaders rounds ⟨before ++ fieldsBlock fields, before.length, false⟩ =
        (fields.map readField, ⟨before ++ fieldsBlock fields,
          (before ++ fieldsBlock fields).length, false⟩) := by
  induction fields with
  | nil =>
    intro before rounds hrounds
    obtain ⟨rounds, rfl⟩ : ∃ n, rounds = n + 1 := ⟨rounds - 1, by simp at hrounds; omega⟩
    rw [show before ++ fieldsBlock [] = before from append_nil _, readHeaders, nextHeader_end]
    rfl
  | cons field fields ih =>
    intro before rounds hrounds
    rw [length_cons] at hrounds
    obtain ⟨rounds, rfl⟩ : ∃ n, rounds = n + 1 := ⟨rounds - 1, by omega⟩
    have hrest := ih (fun field hmem => hfields field (mem_cons_of_mem _ hmem))
      (before ++ (fieldLine field ++ [13, 10])) (show fields.length < rounds by omega)
    rw [← behind, length_behind] at hrest
    rw [readHeaders, fieldsBlock_cons, nextHeader_line (hfields field mem_cons_self),
      ← fieldsBlock_cons]
    simp only
    rw [hrest]
    rfl

theorem length_fields_le (fields : List (List UInt8 × List UInt8)) :
    fields.length ≤ (fieldsBlock fields).length := by
  induction fields with
  | nil => exact Nat.le_refl _
  | cons field fields ih =>
    rw [fieldsBlock_cons]
    simp only [length_append, length_cons]
    omega

theorem readHeaders_block {fields : List (List UInt8 × List UInt8)}
    (hfields : ∀ field ∈ fields, IsField field) {rounds : Nat}
    (hrounds : (fieldsBlock fields).length < rounds) :
    readHeaders rounds (headers (fieldsBlock fields)) =
      (fields.map readField, ⟨fieldsBlock fields, (fieldsBlock fields).length, false⟩) :=
  readHeaders_fields fields hfields [] (Nat.lt_of_le_of_lt (length_fields_le fields) hrounds)

theorem analyzeLoop_fields (fields : List (List UInt8 × List UInt8))
    (hfields : ∀ field ∈ fields, IsField field) :
    ∀ (before : List UInt8) (framing : Framing) {rounds : Nat}, fields.length < rounds →
      analyzeLoop rounds ⟨before ++ fieldsBlock fields, before.length, false⟩ framing =
        ((fields.map readField).foldlM analyzeHeader framing).map fun framing =>
          (⟨before ++ fieldsBlock fields, (before ++ fieldsBlock fields).length, false⟩,
            framing) := by
  induction fields with
  | nil =>
    intro before framing rounds hrounds
    obtain ⟨rounds, rfl⟩ : ∃ n, rounds = n + 1 := ⟨rounds - 1, by simp at hrounds; omega⟩
    rw [show before ++ fieldsBlock [] = before from append_nil _, analyzeLoop, nextHeader_end]
    rfl
  | cons field fields ih =>
    intro before framing rounds hrounds
    rw [length_cons] at hrounds
    obtain ⟨rounds, rfl⟩ : ∃ n, rounds = n + 1 := ⟨rounds - 1, by omega⟩
    rw [analyzeLoop, fieldsBlock_cons, nextHeader_line (hfields field mem_cons_self),
      ← fieldsBlock_cons, map_cons, foldlM_cons]
    cases hheader : analyzeHeader framing (readField field) with
    | error error =>
      simp only [hheader]
      rfl
    | ok next =>
      have hrest := ih (fun field hmem => hfields field (mem_cons_of_mem _ hmem))
        (before ++ (fieldLine field ++ [13, 10])) next (show fields.length < rounds by omega)
      rw [← behind, length_behind] at hrest
      simp only [hheader]
      exact hrest

theorem analyzeHeaders_fields {fields : List (List UInt8 × List UInt8)} {framing : Framing}
    (hfields : ∀ field ∈ fields, IsField field)
    (hframing : (fields.map readField).foldlM analyzeHeader ⟨-1, false, false⟩ = .ok framing)
    (hone : ¬ (framing.chunked = true ∧ framing.contentLength ≥ 0)) :
    analyzeHeaders (fieldsBlock fields) = .ok framing := by
  have hle := length_fields_le fields
  have hloop := analyzeLoop_fields fields hfields [] ⟨-1, false, false⟩
    (show fields.length < (fieldsBlock fields).length + 1 by omega)
  rw [nil_append, length_nil, hframing] at hloop
  unfold analyzeHeaders
  rw [headers, hloop]
  exact if_neg hone

/-! ## Requests -/

/-- A request line and the headers. -/
structure RequestHead where
  method : List UInt8
  target : List UInt8
  version : List UInt8
  fields : List (List UInt8 × List UInt8)

namespace RequestHead

def line (head : RequestHead) : List UInt8 :=
  head.method ++ 32 :: (head.target ++ 32 :: head.version)

/-- The bytes up to the empty line. -/
def text (head : RequestHead) : List UInt8 :=
  linesText (head.line :: head.fields.map fieldLine)

structure WellFormed (head : RequestHead) : Prop where
  method_ne : head.method ≠ []
  method_token : head.method.all isTokenByte = true
  target_ne : head.target ≠ []
  target_byte : head.target.all isTargetByte = true
  version_supported : supportedHttpVersion head.version = true
  fields_valid : ∀ field ∈ head.fields, IsField field

theorem WellFormed.version_cases (h : head.WellFormed) :
    head.version = versionPrefix ++ [48] ∨ head.version = versionPrefix ++ [49] := by
  simpa [supportedHttpVersion] using h.version_supported

theorem WellFormed.isLine (h : head.WellFormed) : IsLine head.line := by
  have hmethod : 13 ∉ head.method := not_mem_of_all h.method_token (by decide)
  have htarget : 13 ∉ head.target := not_mem_of_all h.target_byte (by decide)
  refine ⟨append_ne_nil_of_left_ne_nil h.method_ne _, ?_⟩
  rcases h.version_cases with hver | hver <;>
    simp [line, hmethod, htarget, hver, versionPrefix]

theorem WellFormed.lines (h : head.WellFormed) :
    ∀ line ∈ head.fields.map fieldLine, IsLine line := by
  intro line hmem
  obtain ⟨field, hfield, rfl⟩ := mem_map.mp hmem
  exact (h.fields_valid field hfield).isLine

theorem text_cut (head : RequestHead) (more : List UInt8) :
    head.text ++ more = head.line ++ 13 :: 10 :: (fieldsBlock head.fields ++ 13 :: 10 :: more) := by
  simp [text, linesText, joinLines, fieldsBlock]

end RequestHead

theorem splitThree_text {method target version : List UInt8} (hmethod : method ≠ [])
    (hmethodSpace : 32 ∉ method) (htarget : target ≠ []) (htargetSpace : 32 ∉ target)
    (hver : version ≠ []) :
    splitThree (method ++ 32 :: (target ++ 32 :: version)) = some (method, target, version) := by
  have hm := length_pos_iff.mpr hmethod
  have ht := length_pos_iff.mpr htarget
  have hv := length_pos_iff.mpr hver
  have hdrop : (method ++ 32 :: (target ++ 32 :: version)).drop (method.length + 1) =
      target ++ 32 :: version := by
    rw [drop_append]
    simp
  have hlast : (method ++ 32 :: (target ++ 32 :: version)).drop
      (method.length + 1 + target.length + 1) = version := by
    rw [Nat.add_assoc (method.length + 1), ← drop_drop, hdrop, drop_append]
    simp
  have htake : (method ++ 32 :: (target ++ 32 :: version)).take method.length = method := take_left
  have hslice : slice (method ++ 32 :: (target ++ 32 :: version)) (method.length + 1)
      (method.length + 1 + target.length) = target := by
    unfold slice
    rw [hdrop, Nat.add_sub_cancel_left]
    exact take_left
  have hlen : (method ++ 32 :: (target ++ 32 :: version)).length =
      method.length + 1 + target.length + 1 + version.length := by
    simp only [length_append, length_cons]
    omega
  obtain ⟨k, hk⟩ : ∃ k, method.length = k + 1 := ⟨method.length - 1, by omega⟩
  obtain ⟨l, hl⟩ : ∃ l, target.length = l + 1 := ⟨target.length - 1, by omega⟩
  unfold splitThree
  rw [findByte_append hmethodSpace, hk]
  simp only
  rw [← hk, hdrop, findByte_append htargetSpace, hl]
  simp only
  rw [← hl, if_neg (by omega), htake, hslice, hlast]

theorem RequestHead.WellFormed.split (h : head.WellFormed) :
    splitThree head.line = some (head.method, head.target, head.version) := by
  have hver : head.version ≠ [] := by
    rcases h.version_cases with hver | hver <;> rw [hver] <;> decide
  exact splitThree_text h.method_ne (not_mem_of_all h.method_token (by decide)) h.target_ne
    (not_mem_of_all h.target_byte (by decide)) hver

/-- The view of a request whose headers have arrived, with a part of what follows them. -/
def headView (head : RequestHead) (framing : Framing) (available : List UInt8) :
    HttpRequestView :=
  ⟨head.method, head.target, head.version, fieldsBlock head.fields, head.text.length,
    if (framing.chunked = false ∧ framing.contentLength ≥ 0) ∧
        (available.length : Int) > framing.contentLength then
      available.take framing.contentLength.toNat
    else available,
    framing.contentLength, framing.chunked, framing.connectionClose⟩

theorem parseRequest_head {head : RequestHead} (h : head.WellFormed) {framing : Framing}
    (hframing : analyzeHeaders (fieldsBlock head.fields) = .ok framing) {maxHeaderBytes : Int}
    (hmax : maxHeaderBytes ≤ 0 ∨ (head.text.length : Int) ≤ maxHeaderBytes)
    (available : List UInt8) :
    parseRequest (head.text ++ available) maxHeaderBytes =
      (if (framing.chunked = false ∧ framing.contentLength ≥ 0) ∧
          (available.length : Int) < framing.contentLength then .bodyIncomplete else .none,
        some (headView head framing available)) := by
  have hcut := head.text_cut available
  have hend := findHeaderEnd_text h.isLine h.lines hmax available
  have hlen := length_linesText head.line (head.fields.map fieldLine)
  have hcrlf : findCrlf (head.text ++ available) 0 = some head.line.length := by
    rw [hcut, findCrlf, drop_zero, findCrlfFrom_append h.isLine.2, Nat.zero_add]
  have htake : (head.text ++ available).take head.line.length = head.line := by
    rw [hcut]
    exact take_left
  have hblock : slice (head.text ++ available) (head.line.length + 2)
      (head.line.length + (joinLines (head.fields.map fieldLine)).length + 2) =
        fieldsBlock head.fields := by
    have hlen : head.line.length + (joinLines (head.fields.map fieldLine)).length + 2 -
        (head.line.length + 2) = (fieldsBlock head.fields).length := by
      unfold fieldsBlock
      omega
    rw [slice, hlen, hcut, ← drop_drop, drop_left]
    exact take_left
  have hne : head.text ++ available ≠ [] := by
    rw [hcut]
    exact append_ne_nil_of_left_ne_nil h.isLine.1 _
  unfold parseRequest
  rw [if_neg hne, hcrlf]
  simp only
  rw [htake, h.split]
  simp only
  rw [if_neg (by rw [h.method_token]; decide), if_neg (by rw [h.version_supported]; decide),
    if_neg (by rw [h.target_byte]; decide)]
  unfold RequestHead.text at hblock ⊢
  rw [hend]
  simp only
  rw [hblock, hframing, ← hlen, drop_left]
  rfl

theorem parseRequest_before (h : head.WellFormed)
    (hmax : maxHeaderBytes ≤ 0 ∨ (head.text.length : Int) ≤ maxHeaderBytes)
    {bytes behind : List UInt8} (htext : bytes ++ behind = head.text) (hbehind : behind ≠ []) :
    parseRequest bytes maxHeaderBytes = (.incomplete, none) := by
  have hlen := congrArg List.length htext
  have hpos := length_pos_iff.mpr hbehind
  rw [length_append] at hlen
  unfold parseRequest
  split
  · rfl
  cases hfound : findCrlf bytes 0 with
  | none => rfl
  | some found =>
    -- the first line is there
    obtain ⟨hline, hle⟩ := findCrlfFrom_extend hfound behind
    rw [drop_zero] at hline hle
    have hcut := head.text_cut []
    rw [append_nil] at hcut
    rw [htext, hcut, findCrlfFrom_append h.isLine.2] at hline
    cases hline
    have htake : bytes.take (0 + head.line.length) = head.line := by
      rw [← @take_append_of_le_length _ bytes behind _ (by omega), htext, hcut, Nat.zero_add]
      exact take_left
    simp only
    rw [htake, h.split]
    simp only
    rw [if_neg (by rw [h.method_token]; decide), if_neg (by rw [h.version_supported]; decide),
      if_neg (by rw [h.target_byte]; decide),
      findHeaderEnd_before h.isLine h.lines maxHeaderBytes htext hbehind]
    rw [if_neg (by omega)]

end Raz.Http
