import Raz.Http.Arrival
import Raz.Http.FieldReaders
import Mathlib.Data.List.Basic
import Mathlib.Data.List.TakeWhile

/-!
# The grammar of header and trailer fields

A block of fields is cut into lines at the pairs of CR and LF, and a line into a name and a value at
its first colon. The readers take what they get by these cuts: the names of headers are checked, the
names of trailers are not, and no reader looks for other control bytes in a value.

Result: `accepted_strict_iff`: when the fields that are accepted are strict.
-/

namespace Raz.Http

open List

variable {b : UInt8} {line source rest : List UInt8} {place : Nat} {maxHeaderBytes : Int}

/-! ## Lines -/

/-- The lines of a block, cut at the pairs of CR and LF. -/
def crlfLines : List UInt8 → List (List UInt8)
  | [] => []
  | [b] => [[b]]
  | b :: next :: rest =>
    if b = 13 ∧ next = 10 then [] :: crlfLines rest
    else
      match crlfLines (next :: rest) with
      | [] => [[b]]
      | line :: lines => (b :: line) :: lines

def isCleanByte (b : UInt8) : Bool := b ≠ 13 && b ≠ 10 && b ≠ 0

/-- CR and LF stand in pairs only, and there is no NUL. -/
def cleanBytes : List UInt8 → Bool
  | [] => true
  | [b] => isCleanByte b
  | b :: next :: rest =>
    if b = 13 ∧ next = 10 then cleanBytes rest
    else isCleanByte b && cleanBytes (next :: rest)

def lineName (line : List UInt8) : List UInt8 := line.takeWhile (fun b => b ≠ 58)

/-- The field that a line gives. -/
def lineField (line : List UInt8) : HeaderView :=
  ⟨lineName line, trimOws (line.drop ((lineName line).length + 1))⟩

/-- The fields of a block. -/
def blockFields (block : List UInt8) : List HeaderView := (crlfLines block).map lineField

/-- Up to the first colon a line is of token bytes. -/
def tokenNames (block : List UInt8) : Bool :=
  (crlfLines block).all fun line => (lineName line).all isTokenByte

/-- A line that ends at the first pair of CR and LF. -/
def IsCut (line : List UInt8) : Prop := FirstAt lineEnd (line ++ lineEnd) line.length

theorem IsCut.not_pair {next : UInt8} (h : IsCut (b :: next :: line)) : ¬ (b = 13 ∧ next = 10) := by
  rintro ⟨rfl, rfl⟩
  exact h.first 0 (Nat.succ_pos _) rfl

theorem IsCut.tail (h : IsCut (b :: line)) : IsCut line :=
  ⟨h.here, fun earlier hlt => h.first (earlier + 1) (Nat.succ_lt_succ hlt)⟩

theorem crlfLines_cut (h : IsCut line) (rest : List UInt8) :
    crlfLines (line ++ 13 :: 10 :: rest) = line :: crlfLines rest := by
  induction line with
  | nil => rfl
  | cons b line ih =>
    have htail := ih h.tail
    cases line with
    | nil =>
      have hpair : ¬ (b = 13 ∧ (13 : UInt8) = 10) := fun hboth => absurd hboth.2 (by decide)
      change crlfLines (b :: 13 :: 10 :: rest) = _
      rw [crlfLines, if_neg hpair]
      change (match crlfLines ([] ++ 13 :: 10 :: rest) with
        | [] => [[b]]
        | line :: lines => (b :: line) :: lines) = _
      rw [htail]
    | cons next line =>
      change crlfLines (b :: next :: (line ++ 13 :: 10 :: rest)) = _
      rw [crlfLines, if_neg h.not_pair]
      change (match crlfLines ((next :: line) ++ 13 :: 10 :: rest) with
        | [] => [[b]]
        | line :: lines => (b :: line) :: lines) = _
      rw [htail]

theorem cleanBytes_cut (h : IsCut line) (rest : List UInt8) :
    cleanBytes (line ++ 13 :: 10 :: rest) = (line.all isCleanByte && cleanBytes rest) := by
  induction line with
  | nil => rfl
  | cons b line ih =>
    have htail := ih h.tail
    cases line with
    | nil =>
      have hpair : ¬ (b = 13 ∧ (13 : UInt8) = 10) := fun hboth => absurd hboth.2 (by decide)
      change cleanBytes (b :: 13 :: 10 :: rest) = _
      rw [cleanBytes, if_neg hpair]
      change (isCleanByte b && cleanBytes ([] ++ 13 :: 10 :: rest)) = _
      rw [htail, all_cons, Bool.and_assoc]
    | cons next line =>
      change cleanBytes (b :: next :: (line ++ 13 :: 10 :: rest)) = _
      rw [cleanBytes, if_neg h.not_pair]
      change (isCleanByte b && cleanBytes ((next :: line) ++ 13 :: 10 :: rest)) = _
      rw [htail]
      simp [Bool.and_assoc]

section

variable {lines : List (List UInt8)}

theorem joinLines_cons (line : List UInt8) (lines : List (List UInt8)) :
    joinLines (line :: lines) = line ++ 13 :: 10 :: joinLines lines := by
  simp [joinLines]

theorem crlfLines_joinLines (h : ∀ line ∈ lines, IsCut line) :
    crlfLines (joinLines lines) = lines := by
  induction lines with
  | nil => rfl
  | cons line lines ih =>
    obtain ⟨hline, hlines⟩ := forall_mem_cons.mp h
    rw [joinLines_cons, crlfLines_cut hline, ih hlines]

theorem cleanBytes_joinLines (h : ∀ line ∈ lines, IsCut line) :
    cleanBytes (joinLines lines) = true ↔ ∀ line ∈ lines, line.all isCleanByte = true := by
  induction lines with
  | nil => exact iff_of_true rfl nofun
  | cons line lines ih =>
    obtain ⟨hline, hlines⟩ := forall_mem_cons.mp h
    rw [joinLines_cons, cleanBytes_cut hline, Bool.and_eq_true, ih hlines, forall_mem_cons]

end

/-! ## Reading a block -/

theorem lineName_of_findByte : ∀ {line : List UInt8} {colon : Nat},
    findByte line 58 = some colon → lineName line = line.take colon
  | [], _, h => nomatch h
  | b :: line, colon, h => by
    rw [findByte_cons] at h
    unfold lineName
    by_cases hb : b = 58
    · rw [if_pos hb] at h
      cases h
      exact takeWhile_cons_of_neg fun hne => of_decide_eq_true hne hb
    rw [if_neg hb] at h
    obtain ⟨place, hplace, rfl⟩ := Option.map_eq_some_iff.mp h
    rw [take_succ_cons, ← lineName_of_findByte hplace]
    exact takeWhile_cons_of_pos (decide_eq_true hb)

theorem mem_of_findByte {value : UInt8} (h : findByte line value = some place) : value ∈ line := by
  obtain ⟨hlt, hbyte, -⟩ := List.idxOf?_eq_some_iff.mp h
  exact hbyte ▸ getElem_mem hlt

/-- A line that `next_header` takes. -/
structure IsFieldLine (line : List UInt8) : Prop where
  cut : IsCut line
  name : lineName line ≠ []
  colon : 58 ∈ line

/-- No line of the block is empty. -/
structure NoEmptyLine (block : List UInt8) : Prop where
  first : block.take 2 ≠ lineEnd
  later : ∀ place : Nat, (block.drop place).take 4 ≠ headersEnd

theorem drop_line {block : List UInt8} {cursor : Nat} (h : findCrlf block cursor = some place) :
    IsCut (slice block cursor place) ∧
      block.drop cursor = slice block cursor place ++ block.drop place ∧
      block.drop place = 13 :: 10 :: block.drop (place + 2) := by
  obtain ⟨offset, rfl, hat⟩ := findCrlfFrom_eq_some_iff.mp h
  have hle := hat.le (cons_ne_nil _ _)
  have hline : slice block cursor (cursor + offset) = (block.drop cursor).take offset := by
    rw [slice, Nat.add_sub_cancel_left]
  have hlen : ((block.drop cursor).take offset).length = offset := by
    rw [length_take]
    omega
  have hhere := hat.here
  rw [drop_drop] at hhere
  rw [hline, ← drop_drop, ← drop_drop, take_append_drop]
  refine ⟨?_, rfl, ?_⟩
  · have hpart : (block.drop cursor).take (offset + 2) =
        (block.drop cursor).take offset ++ lineEnd := by
      rw [take_add]
      exact congrArg _ hat.here
    have hcut : FirstAt lineEnd ((block.drop cursor).take (offset + 2)) offset :=
      hat.take le_rfl
    unfold IsCut
    rwa [hlen, ← hpart]
  · rw [drop_drop]
    exact (take_append_drop 2 (block.drop (cursor + offset))).symm.trans (congrArg (· ++ _) hhere)

/-- **A valid block is read line by line.** -/
theorem readHeaders_lines {block : List UInt8} (hempty : ∀ place : Nat,
    (block.drop place).take 4 ≠ headersEnd) : ∀ {rounds cursor : Nat},
    block.length < rounds + cursor → cursor ≤ block.length →
    (block.drop cursor).take 2 ≠ lineEnd →
    (readHeaders rounds ⟨block, cursor, false⟩).2.invalid = false →
    ∃ lines, block.drop cursor = joinLines lines ∧
      (readHeaders rounds ⟨block, cursor, false⟩).1 = lines.map lineField ∧
      ∀ line ∈ lines, IsFieldLine line := by
  intro rounds
  induction rounds with
  | zero =>
    intro cursor hrounds hle
    omega
  | succ rounds ih =>
    intro cursor hrounds hle hfirst hvalid
    rw [readHeaders] at hvalid ⊢
    unfold nextHeader at hvalid ⊢
    by_cases hdone : block.length ≤ cursor
    · rw [if_pos hdone]
      exact ⟨[], drop_eq_nil_of_le hdone, rfl, fun _ h => absurd h not_mem_nil⟩
    rw [if_neg hdone] at hvalid ⊢
    cases hline : findCrlf block cursor with
    | none =>
      rw [hline] at hvalid
      cases hvalid
    | some place =>
      obtain ⟨hcut, hdrop, hpair⟩ := drop_line hline
      obtain ⟨hge, hplace⟩ := findCrlf_bounds hline
      rw [hline] at hvalid
      dsimp only at hvalid ⊢
      have hne : place ≠ cursor := by
        rintro rfl
        rw [hpair] at hfirst
        exact hfirst rfl
      rw [if_neg hne] at hvalid ⊢
      by_cases hspace : (slice block cursor place).head?.any isSpace = true
      · rw [if_pos hspace] at hvalid
        cases hvalid
      rw [if_neg hspace] at hvalid ⊢
      cases hcolon : findByte (slice block cursor place) 58 with
      | none =>
        rw [hcolon] at hvalid
        cases hvalid
      | some colon =>
        rw [hcolon] at hvalid
        cases colon with
        | zero => cases hvalid
        | succ colon =>
          have hname := lineName_of_findByte hcolon
          have hnext : (block.drop (place + 2)).take 2 ≠ lineEnd := by
            intro hnext
            refine hempty place ?_
            rw [hpair]
            exact congrArg (13 :: 10 :: ·) hnext
          obtain ⟨lines, hjoin, hread, hlines⟩ := ih (by omega) hplace hnext hvalid
          refine ⟨slice block cursor place :: lines, ?_, ?_, ?_⟩
          · rw [joinLines_cons, ← hjoin, ← hpair]
            exact hdrop
          · have hlen : (lineName (slice block cursor place)).length = colon + 1 := by
              have hlt := findByte_lt hcolon
              rw [hname, length_take]
              omega
            rw [map_cons, ← hread, lineField, hlen, hname]
            rfl
          · refine forall_mem_cons.mpr ⟨⟨hcut, ?_, mem_of_findByte hcolon⟩, hlines⟩
            have hlt := findByte_lt hcolon
            rw [hname]
            exact ne_nil_of_length_pos (by rw [length_take]; omega)

/-! ## Strict fields -/

/-- The grammar of the writers: a name of token bytes, a value without CR, LF and NUL. -/
structure StrictField (field : HeaderView) : Prop where
  name : field.name ≠ []
  token : ∀ b ∈ field.name, isTokenByte b = true
  value : ∀ b ∈ field.value, b ≠ 13 ∧ b ≠ 10 ∧ b ≠ 0

theorem isCleanByte_iff : isCleanByte b = true ↔ b ≠ 13 ∧ b ≠ 10 ∧ b ≠ 0 := by
  unfold isCleanByte
  rw [Bool.and_eq_true, Bool.and_eq_true, and_assoc]
  exact and_congr decide_eq_true_iff (and_congr decide_eq_true_iff decide_eq_true_iff)

theorem isCleanByte_of_isTokenByte (h : isTokenByte b = true) : isCleanByte b = true :=
  isCleanByte_iff.mpr ⟨ne_of_isTokenByte h (by decide), ne_of_isTokenByte h (by decide),
    ne_of_isTokenByte h (by decide)⟩

theorem isCleanByte_of_isSpace (h : isSpace b = true) : isCleanByte b = true := by
  unfold isSpace at h
  rw [Bool.or_eq_true, decide_eq_true_iff, decide_eq_true_iff] at h
  rcases h with rfl | rfl <;> rfl

theorem all_dropWhile {p q : UInt8 → Bool} (h : ∀ b, p b = true → q b = true) :
    ∀ bytes : List UInt8, (bytes.dropWhile p).all q = bytes.all q
  | [] => rfl
  | b :: bytes => by
    rw [dropWhile_cons]
    by_cases hp : p b = true
    · rw [if_pos hp, all_dropWhile h bytes, all_cons, h b hp, Bool.true_and]
    · rw [if_neg hp]

theorem all_trimOws (value : List UInt8) :
    (trimOws value).all isCleanByte = value.all isCleanByte := by
  unfold trimOws
  rw [all_reverse, all_dropWhile fun _ => isCleanByte_of_isSpace, all_reverse,
    all_dropWhile fun _ => isCleanByte_of_isSpace]

theorem lineName_append (h : 58 ∈ line) :
    lineName line ++ 58 :: line.drop ((lineName line).length + 1) = line := by
  obtain ⟨place, hplace⟩ := Option.isSome_iff_exists.mp (isSome_idxOf?.mpr h)
  obtain ⟨hlt, hcolon, -⟩ := List.idxOf?_eq_some_iff.mp hplace
  have hlen : (line.take place).length = place := by
    rw [length_take]
    omega
  rw [lineName_of_findByte hplace, hlen, ← hcolon, ← drop_eq_getElem_cons hlt, take_append_drop]

theorem strictField_iff (h : IsFieldLine line) :
    StrictField (lineField line) ↔
      line.all isCleanByte = true ∧ (lineName line).all isTokenByte = true := by
  have hline : line.all isCleanByte =
      ((lineName line).all isCleanByte && (lineField line).value.all isCleanByte) := by
    unfold lineField
    rw [all_trimOws]
    conv => lhs; rw [← lineName_append h.colon]
    rw [all_append, all_cons]
    rfl
  rw [hline, Bool.and_eq_true]
  constructor
  · intro hstrict
    refine ⟨⟨?_, ?_⟩, all_eq_true.mpr hstrict.token⟩
    · exact all_eq_true.mpr fun b hb => isCleanByte_of_isTokenByte (hstrict.token b hb)
    · exact all_eq_true.mpr fun b hb => isCleanByte_iff.mpr (hstrict.value b hb)
  · rintro ⟨⟨-, hval⟩, htoken⟩
    exact ⟨h.name, all_eq_true.mp htoken,
      fun b hb => isCleanByte_iff.mp (all_eq_true.mp hval b hb)⟩

theorem blockFields_strict_iff {block : List UInt8} {lines : List (List UInt8)}
    (hblock : block = joinLines lines) (hlines : ∀ line ∈ lines, IsFieldLine line) :
    (∀ field ∈ blockFields block, StrictField field) ↔
      cleanBytes block = true ∧ tokenNames block = true := by
  have hcut : ∀ line ∈ lines, IsCut line := fun line hline => (hlines line hline).cut
  unfold blockFields tokenNames
  rw [hblock, crlfLines_joinLines hcut, cleanBytes_joinLines hcut, forall_mem_map,
    all_eq_true, ← forall₂_and]
  exact forall₂_congr fun line hline => strictField_iff (hlines line hline)

/-! ## Tokens of a value -/

theorem trimOws_space_cons (h : isSpace b = true) (value : List UInt8) :
    trimOws (b :: value) = trimOws value := by
  unfold trimOws
  rw [dropWhile_cons_of_pos h]

section

variable {token : List UInt8}

/-- The token is a part of the value between commas. -/
def HasToken (value token : List UInt8) : Prop :=
  ∃ part ∈ value.splitOn 44, isIgnoringCase (trimOws part) token = true

theorem isIgnoringCase_nil (h : token ≠ []) : isIgnoringCase (trimOws []) token = false :=
  decide_eq_false fun heq => h heq.symm

theorem hasToken_comma (h : token ≠ []) (rest : List UInt8) :
    HasToken (44 :: rest) token ↔ HasToken rest token := by
  unfold HasToken
  rw [splitOn_cons_eq_if_modifyHead, if_pos (beq_self_eq_true _), exists_mem_cons_iff,
    isIgnoringCase_nil h, or_iff_right Bool.false_ne_true]

theorem hasToken_space (h : isSpace b = true) (rest : List UInt8) :
    HasToken (b :: rest) token ↔ HasToken rest token := by
  have hcomma : ¬ (b == 44) = true := by
    intro heq
    rw [eq_of_beq heq] at h
    exact absurd h (by decide)
  unfold HasToken
  rw [splitOn_cons_eq_if_modifyHead, if_neg hcomma]
  obtain ⟨part, parts, hparts⟩ := exists_cons_of_ne_nil (splitOn_ne_nil 44 rest)
  rw [hparts, modifyHead_cons, exists_mem_cons_iff, exists_mem_cons_iff, trimOws_space_cons h]

theorem hasToken_dropWhile (h : token ≠ []) : ∀ value : List UInt8,
    HasToken (value.dropWhile fun b => isSpace b || b = 44) token ↔ HasToken value token
  | [] => Iff.rfl
  | b :: rest => by
    rw [dropWhile_cons]
    by_cases hb : (isSpace b || decide (b = 44)) = true
    · rw [if_pos hb, hasToken_dropWhile h rest]
      rcases Bool.or_eq_true_iff.mp hb with hspace | hcomma
      · exact (hasToken_space hspace rest).symm
      · rw [of_decide_eq_true hcomma]
        exact (hasToken_comma h rest).symm
    · rw [if_neg hb]

theorem not_hasToken_nil (h : token ≠ []) : ¬ HasToken [] token := by
  rintro ⟨part, hpart, htoken⟩
  rw [splitOn_nil, mem_singleton] at hpart
  rw [hpart, isIgnoringCase_nil h] at htoken
  cases htoken

theorem hasToken_part (h : token ≠ []) (value : List UInt8) :
    HasToken value token ↔
      isIgnoringCase (trimOws (value.takeWhile fun b => decide (b ≠ 44))) token = true ∨
        HasToken (value.drop ((value.takeWhile fun b => decide (b ≠ 44)).length + 1)) token := by
  have hval : value.takeWhile (fun b => decide (b ≠ 44)) ++
      value.dropWhile (fun b => decide (b ≠ 44)) = value := takeWhile_append_dropWhile
  have hnot : 44 ∉ value.takeWhile fun b => decide (b ≠ 44) := fun hmem =>
    absurd (mem_takeWhile_imp hmem) (by decide)
  cases hrest : value.dropWhile fun b => decide (b ≠ 44) with
  | nil =>
    rw [hrest, append_nil] at hval
    rw [hval] at hnot ⊢
    rw [drop_eq_nil_of_le (Nat.le_succ _), or_iff_left (not_hasToken_nil h)]
    unfold HasToken
    rw [splitOn_eq_singleton hnot]
    exact ⟨fun ⟨_, hpart, htoken⟩ => mem_singleton.mp hpart ▸ htoken,
      fun htoken => ⟨_, mem_singleton_self _, htoken⟩⟩
  | cons b rest =>
    have hb : b = 44 := by
      have hhead := List.head?_dropWhile_not (fun b : UInt8 => decide (b ≠ 44)) value
      rw [hrest] at hhead
      simpa using hhead
    rw [hrest, hb] at hval
    generalize value.takeWhile (fun b => decide (b ≠ 44)) = part at hval hnot ⊢
    subst hval
    have hdrop : (part ++ 44 :: rest).drop (part.length + 1) = rest := by
      rw [← drop_drop, drop_left]
      rfl
    rw [hdrop]
    unfold HasToken
    rw [splitOn_append_cons_self_of_not_mem hnot, exists_mem_cons_iff]

/-- **A token of a value is a part between commas.** -/
theorem containsTokenLoop_iff (h : token ≠ []) : ∀ {rounds : Nat} {value : List UInt8},
    value.length < rounds →
    (containsTokenLoop rounds value token = true ↔ HasToken value token) := by
  intro rounds
  induction rounds with
  | zero => exact fun hlt => absurd hlt (Nat.not_lt_zero _)
  | succ rounds ih =>
    intro value hlt
    rw [containsTokenLoop]
    by_cases hnil : value = []
    · subst hnil
      rw [if_pos rfl]
      exact iff_of_false Bool.false_ne_true (not_hasToken_nil h)
    rw [if_neg hnil, ← hasToken_dropWhile h]
    have hle : (value.dropWhile fun b => isSpace b || decide (b = 44)).length ≤ value.length :=
      (dropWhile_sublist _).length_le
    generalize value.dropWhile (fun b => isSpace b || decide (b = 44)) = left at hle ⊢
    rw [hasToken_part h]
    by_cases hpart : isIgnoringCase (trimOws (left.takeWhile fun b => decide (b ≠ 44))) token = true
    · rw [if_pos hpart]
      exact iff_of_true rfl (.inl hpart)
    rw [if_neg hpart, or_iff_right hpart]
    refine ih ?_
    have hpos := length_pos_iff.mpr hnil
    rw [length_drop]
    omega

theorem containsToken_iff (h : token ≠ []) {value : List UInt8} :
    containsToken value token = true ↔ HasToken value token :=
  containsTokenLoop_iff h (Nat.lt_succ_self _)

end

/-! ## Decisions -/

def IsNamed (name : List UInt8) (field : HeaderView) : Prop := isIgnoringCase field.name name = true

instance (name : List UInt8) (field : HeaderView) : Decidable (IsNamed name field) :=
  inferInstanceAs (Decidable (_ = _))

theorem IsNamed.unique {name other : List UInt8} {field : HeaderView} (h : IsNamed name field)
    (hother : IsNamed other field) : name = other :=
  (of_decide_eq_true h).symm.trans (of_decide_eq_true hother)

/-- The framing that a list of fields asks for. -/
structure Decides (fields : List HeaderView) (framing : Framing) : Prop where
  length : ∀ field ∈ fields, IsNamed contentLengthName field →
    0 ≤ framing.contentLength ∧ parseDecimal field.value = framing.contentLength
  noLength : framing.contentLength = -1 ∨ ∃ field ∈ fields, IsNamed contentLengthName field
  coding : ∀ field ∈ fields, IsNamed transferEncodingName field →
    isIgnoringCase (trimOws field.value) chunkedToken = true
  codingOnce : (fields.filter fun field => IsNamed transferEncodingName field).length ≤ 1
  chunked : framing.chunked = true ↔ ∃ field ∈ fields, IsNamed transferEncodingName field
  close : framing.connectionClose = true ↔
    ∃ field ∈ fields, IsNamed connectionName field ∧ HasToken field.value closeToken

theorem decides_nil : Decides [] ⟨-1, false, false⟩ where
  length := nofun
  noLength := .inl rfl
  coding := nofun
  codingOnce := Nat.zero_le _
  chunked := iff_of_false Bool.false_ne_true nofun
  close := iff_of_false Bool.false_ne_true nofun

section

variable {seen : List HeaderView} {field : HeaderView} {framing next : Framing}

theorem exists_mem_concat {p : HeaderView → Prop} :
    (∃ other ∈ seen ++ [field], p other) ↔ (∃ other ∈ seen, p other) ∨ p field := by
  simp [or_and_right, exists_or]

theorem forall_mem_concat {p : HeaderView → Prop} :
    (∀ other ∈ seen ++ [field], p other) ↔ (∀ other ∈ seen, p other) ∧ p field := by
  rw [forall_mem_append, forall_mem_singleton]

/-- A field that is not asked about leaves a decision as it is. -/
theorem Decides.concat (h : Decides seen framing)
    (hlen : IsNamed contentLengthName field → 0 ≤ next.contentLength ∧
      parseDecimal field.value = next.contentLength)
    (hsame : 0 ≤ framing.contentLength ∨ ¬ IsNamed contentLengthName field →
      next.contentLength = framing.contentLength)
    (hcoding : IsNamed transferEncodingName field →
      isIgnoringCase (trimOws field.value) chunkedToken = true ∧ framing.chunked = false)
    (hchunked : next.chunked = true ↔ framing.chunked = true ∨ IsNamed transferEncodingName field)
    (hclose : next.connectionClose = true ↔ framing.connectionClose = true ∨
      (IsNamed connectionName field ∧ HasToken field.value closeToken)) :
    Decides (seen ++ [field]) next where
  length := by
    refine forall_mem_concat.mpr ⟨fun other hother hnamed => ?_, hlen⟩
    obtain ⟨hpos, hval⟩ := h.length other hother hnamed
    rw [hsame (.inl hpos)]
    exact ⟨hpos, hval⟩
  noLength := by
    rw [exists_mem_concat]
    by_cases hnamed : IsNamed contentLengthName field
    · exact .inr (.inr hnamed)
    · rw [hsame (.inr hnamed)]
      exact h.noLength.imp_right .inl
  coding := forall_mem_concat.mpr ⟨h.coding, fun hnamed => (hcoding hnamed).1⟩
  codingOnce := by
    rw [filter_append, length_append]
    by_cases hnamed : IsNamed transferEncodingName field
    · have hnone : seen.filter (fun field => IsNamed transferEncodingName field) = [] := by
        refine filter_eq_nil_iff.mpr fun other hother hnamed' => ?_
        have hchunked' := h.chunked.mpr ⟨other, hother, of_decide_eq_true hnamed'⟩
        rw [(hcoding hnamed).2] at hchunked'
        cases hchunked'
      rw [hnone, length_nil, Nat.zero_add]
      exact length_filter_le _ [field]
    · have hnone : [field].filter (fun field => IsNamed transferEncodingName field) = [] :=
        filter_cons_of_neg fun htrue => hnamed (of_decide_eq_true htrue)
      rw [hnone]
      exact h.codingOnce
  chunked := by rw [hchunked, h.chunked, exists_mem_concat]
  close := by rw [hclose, h.close, exists_mem_concat]

theorem closeToken_ne : closeToken ≠ [] := cons_ne_nil _ _

/-- **What one field decides.** -/
theorem analyzeHeader_decides (h : Decides seen framing)
    (hnext : analyzeHeader framing field = .ok next) :
    Decides (seen ++ [field]) next ∧ field.name.all isTokenByte = true := by
  unfold analyzeHeader at hnext
  cases htoken : field.name.all isTokenByte with
  | false =>
    rw [if_pos htoken] at hnext
    cases hnext
  | true =>
    rw [if_neg (ne_false_of_eq_true htoken)] at hnext
    refine ⟨?_, rfl⟩
    by_cases hlen : isIgnoringCase field.name contentLengthName = true
    · have hcoding : ¬ IsNamed transferEncodingName field := fun hother =>
        absurd (@IsNamed.unique contentLengthName _ field hlen hother) (by decide)
      have hconnection : ¬ IsNamed connectionName field := fun hother =>
        absurd (@IsNamed.unique contentLengthName _ field hlen hother) (by decide)
      rw [if_pos hlen] at hnext
      by_cases hparsed : parseDecimal field.value < 0
      · rw [if_pos hparsed] at hnext
        cases hnext
      rw [if_neg hparsed] at hnext
      by_cases hother : framing.contentLength ≥ 0 ∧ framing.contentLength ≠ parseDecimal field.value
      · rw [if_pos hother] at hnext
        cases hnext
      rw [if_neg hother] at hnext
      cases hnext
      refine h.concat (fun _ => ⟨Int.not_lt.mp hparsed, rfl⟩) ?_ (absurd · hcoding) ?_ ?_
      · rintro (hpos | hnot)
        · exact Classical.byContradiction fun hne => hother ⟨hpos, fun heq => hne heq.symm⟩
        · exact absurd hlen hnot
      · exact (or_iff_left hcoding).symm
      · rw [or_iff_left fun hboth => hconnection hboth.1]
    rw [if_neg hlen] at hnext
    by_cases hcoding : isIgnoringCase field.name transferEncodingName = true
    · have hconnection : ¬ IsNamed connectionName field := fun hother =>
        absurd (@IsNamed.unique transferEncodingName _ field hcoding hother) (by decide)
      rw [if_pos hcoding] at hnext
      by_cases hval : isIgnoringCase (trimOws field.value) chunkedToken = true
      · rw [if_neg (not_not_intro hval)] at hnext
        cases hchunked : framing.chunked with
        | true =>
          rw [if_pos hchunked] at hnext
          cases hnext
        | false =>
          rw [if_neg (ne_true_of_eq_false hchunked)] at hnext
          cases hnext
          refine h.concat (absurd · hlen) (fun _ => rfl) (fun _ => ⟨hval, hchunked⟩) ?_ ?_
          · exact iff_of_true rfl (.inr hcoding)
          · rw [or_iff_left fun hboth => hconnection hboth.1]
      · rw [if_pos hval] at hnext
        cases hnext
    rw [if_neg hcoding] at hnext
    by_cases hconnection : isIgnoringCase field.name connectionName = true
    · rw [if_pos hconnection] at hnext
      by_cases hclose : containsToken field.value closeToken = true
      · rw [if_pos hclose] at hnext
        cases hnext
        refine h.concat (absurd · hlen) (fun _ => rfl) (absurd · hcoding) ?_ ?_
        · exact (or_iff_left hcoding).symm
        · exact iff_of_true rfl (.inr ⟨hconnection, (containsToken_iff closeToken_ne).mp hclose⟩)
      · rw [if_neg hclose] at hnext
        cases hnext
        refine h.concat (absurd · hlen) (fun _ => rfl) (absurd · hcoding) ?_ ?_
        · exact (or_iff_left hcoding).symm
        · rw [or_iff_left fun hboth => hclose ((containsToken_iff closeToken_ne).mpr hboth.2)]
    · rw [if_neg hconnection] at hnext
      cases hnext
      refine h.concat (absurd · hlen) (fun _ => rfl) (absurd · hcoding) ?_ ?_
      · exact (or_iff_left hcoding).symm
      · rw [or_iff_left fun hboth => hconnection hboth.1]

end

/-- **The decisions are those of the fields**, in any order that they come. -/
theorem foldlM_decides {fields : List HeaderView} : ∀ {seen : List HeaderView}
    {framing last : Framing}, Decides seen framing →
    fields.foldlM analyzeHeader framing = .ok last →
    Decides (seen ++ fields) last ∧ ∀ field ∈ fields, field.name.all isTokenByte = true := by
  induction fields with
  | nil =>
    intro seen framing last h hlast
    cases hlast
    exact ⟨(append_nil seen).symm ▸ h, nofun⟩
  | cons field fields ih =>
    intro seen framing last h hlast
    rw [foldlM_cons] at hlast
    cases hnext : analyzeHeader framing field with
    | error error =>
      rw [hnext] at hlast
      cases hlast
    | ok next =>
      rw [hnext] at hlast
      obtain ⟨hdecides, htoken⟩ := analyzeHeader_decides h hnext
      obtain ⟨hall, htokens⟩ := ih hdecides hlast
      rw [append_assoc] at hall
      exact ⟨hall, forall_mem_cons.mpr ⟨htoken, htokens⟩⟩

/-- The loop of `analyze_headers` over the fields that `next_header` yields. -/
theorem analyzeLoop_eq {rounds : Nat} : ∀ {iterator last : HeaderIterator}
    {framing after : Framing}, analyzeLoop rounds iterator framing = .ok (last, after) →
    last = (readHeaders rounds iterator).2 ∧
      (readHeaders rounds iterator).1.foldlM analyzeHeader framing = .ok after := by
  induction rounds with
  | zero =>
    intro iterator last framing after h
    cases h
    exact ⟨rfl, rfl⟩
  | succ rounds ih =>
    intro iterator last framing after h
    rw [analyzeLoop] at h
    rw [readHeaders]
    cases hnext : nextHeader iterator with
    | mk found next =>
      rw [hnext] at h
      cases found with
      | none =>
        cases h
        exact ⟨rfl, rfl⟩
      | some header =>
        dsimp only at h ⊢
        cases hheader : analyzeHeader framing header with
        | error error =>
          rw [hheader] at h
          cases h
        | ok between =>
          rw [hheader] at h
          obtain ⟨hlast, hfold⟩ := ih h
          refine ⟨hlast, ?_⟩
          rw [foldlM_cons, hheader]
          exact hfold

/-! ## What is accepted -/

/-- The blocks that the readers accept, with what they decide by the fields of a header. -/
inductive Accepted : List UInt8 → Option Framing → Prop
  | request {source : List UInt8} {maxHeaderBytes : Int} {error : HttpError}
      {view : HttpRequestView} : parseRequest source maxHeaderBytes = (error, some view) →
      Accepted view.headerBlock (some ⟨view.contentLength, view.chunked, view.connectionClose⟩)
  | response {source : List UInt8} {maxHeaderBytes : Int} {error : HttpError}
      {view : HttpResponseView} : parseResponse source maxHeaderBytes = (error, some view) →
      Accepted view.headerBlock (some ⟨view.contentLength, view.chunked, view.connectionClose⟩)
  | chunk {cursor after : ChunkCursor} {view : ChunkView} :
      nextChunk cursor = (.none, some view, after) → Accepted view.trailers none
  | body {maxHeaderBytes : Int} {arrivals : List (List UInt8)} {buffer block rest : List UInt8} :
      readTrailers maxHeaderBytes arrivals buffer = .finished block rest → Accepted block none

/-- What stands behind every accepted block: its lines, all of them fields. -/
structure IsRead (block : List UInt8) (framing : Option Framing) : Prop where
  lines : ∃ lines, block = joinLines lines ∧ ∀ line ∈ lines, IsFieldLine line
  headers : ∀ decided, framing = some decided →
    Decides (blockFields block) decided ∧ ¬ (decided.chunked = true ∧ decided.contentLength ≥ 0) ∧
      tokenNames block = true

theorem isRead_nil : IsRead [] none := ⟨⟨[], rfl, nofun⟩, nofun⟩

section

variable {block : List UInt8}

theorem drainHeaders_lines (h : NoEmptyLine block) (hvalid : (drainHeaders block).invalid = false) :
    ∃ lines, block = joinLines lines ∧
      (readHeaders (block.length + 1) (headers block)).1 = lines.map lineField ∧
      ∀ line ∈ lines, IsFieldLine line := by
  have hread := readHeaders_lines h.later (show block.length < block.length + 1 + 0 by omega)
    (Nat.zero_le _) h.first hvalid
  exact hread

theorem isRead_of_valid (h : NoEmptyLine block) (hvalid : (drainHeaders block).invalid = false) :
    IsRead block none := by
  obtain ⟨lines, hblock, -, hlines⟩ := drainHeaders_lines h hvalid
  exact ⟨⟨lines, hblock, hlines⟩, nofun⟩

theorem isRead_of_analyzed {framing : Framing} (h : NoEmptyLine block)
    (hanalyzed : analyzeHeaders block = .ok framing) : IsRead block (some framing) := by
  unfold analyzeHeaders at hanalyzed
  cases hloop : analyzeLoop (block.length + 1) (headers block) ⟨-1, false, false⟩ with
  | error error =>
    rw [hloop] at hanalyzed
    cases hanalyzed
  | ok result =>
    obtain ⟨last, after⟩ := result
    rw [hloop] at hanalyzed
    simp only [bind, Except.bind] at hanalyzed
    obtain ⟨hlast, hfold⟩ := analyzeLoop_eq hloop
    by_cases hinvalid : last.invalid = true
    · rw [if_pos hinvalid] at hanalyzed
      cases hanalyzed
    rw [if_neg hinvalid] at hanalyzed
    by_cases hboth : after.chunked = true ∧ after.contentLength ≥ 0
    · rw [if_pos hboth] at hanalyzed
      cases hanalyzed
    rw [if_neg hboth] at hanalyzed
    cases hanalyzed
    have hvalid : (drainHeaders block).invalid = false := by
      rw [hlast] at hinvalid
      exact Bool.eq_false_iff.mpr hinvalid
    obtain ⟨lines, hblock, hread, hlines⟩ := drainHeaders_lines h hvalid
    have hcut : ∀ line ∈ lines, IsCut line := fun line hline => (hlines line hline).cut
    have hcrlf : crlfLines block = lines := by
      rw [hblock, crlfLines_joinLines hcut]
    rw [hread] at hfold
    obtain ⟨hdecides, htokens⟩ := foldlM_decides decides_nil hfold
    refine ⟨⟨lines, hblock, hlines⟩, ?_⟩
    rintro decided ⟨⟩
    unfold blockFields tokenNames
    rw [hcrlf]
    refine ⟨hdecides, hboth, all_eq_true.mpr fun line hline => ?_⟩
    exact htokens (lineField line) (mem_map_of_mem hline)

end

/-! ## The four readers -/

theorem FirstAt.drop {pattern : List UInt8} {position start : Nat}
    (h : FirstAt pattern source position) (hle : start ≤ position) :
    FirstAt pattern (source.drop start) (position - start) := by
  constructor
  · rw [drop_drop, Nat.add_sub_cancel' hle]
    exact h.here
  · intro earlier hlt
    rw [drop_drop]
    exact h.first (start + earlier) (by omega)

theorem noEmptyLine_short {block : List UInt8} (h : block.length < 2) : NoEmptyLine block := by
  constructor
  · intro heq
    have hlen := congrArg List.length heq
    rw [length_take] at hlen
    change min 2 block.length = 2 at hlen
    omega
  · intro place heq
    have hlen := congrArg List.length heq
    rw [length_take, length_drop] at hlen
    change min 4 (block.length - place) = 4 at hlen
    omega

theorem noEmptyLine_take (h : FirstAt headersEnd rest place) (hfirst : rest.take 2 ≠ lineEnd) :
    NoEmptyLine (rest.take (place + 2)) := by
  constructor
  · rwa [take_take, Nat.min_eq_left (by omega)]
  intro other heq
  have hlen := congrArg List.length heq
  rw [length_take, length_drop, length_take] at hlen
  change _ = 4 at hlen
  rw [drop_take_eq (by omega)] at heq
  exact h.first other (by omega) heq

theorem noEmptyLine_headers {firstEnd headerEnd : Nat} (hline : findCrlf source 0 = some firstEnd)
    (hend : FirstAt headersEnd source headerEnd) :
    NoEmptyLine (slice source (firstEnd + 2) (headerEnd + 2)) := by
  by_cases hle : firstEnd + 2 ≤ headerEnd
  · have hblock : slice source (firstEnd + 2) (headerEnd + 2) =
        (source.drop (firstEnd + 2)).take (headerEnd - (firstEnd + 2) + 2) := by
      rw [slice]
      congr 1
      omega
    rw [hblock]
    refine noEmptyLine_take (hend.drop hle) fun hempty => ?_
    refine hend.first firstEnd (by omega) ?_
    rw [(drop_line hline).2.2]
    exact congrArg (13 :: 10 :: ·) hempty
  · refine noEmptyLine_short ?_
    rw [slice, length_take]
    omega

theorem headerEndBufferFrom_firstAt : ∀ {bytes : List UInt8} {place found : Nat},
    headerEndBufferFrom place bytes = some found →
    ∃ offset, found = place + offset ∧ FirstAt headersEnd bytes offset
  | [], _, _, h => nomatch h
  | b :: rest, place, found, h => by
    rw [headerEndBufferFrom] at h
    have hpattern : (b = 13 ∧ rest.take 3 = [10, 13, 10]) ↔
        (b :: rest).take headersEnd.length = headersEnd := by
      simp [headersEnd]
    by_cases hhere : b = 13 ∧ rest.take 3 = [10, 13, 10]
    · rw [if_pos hhere] at h
      exact ⟨0, (Option.some.inj h).symm, firstAt_zero (hpattern.mp hhere)⟩
    · rw [if_neg hhere] at h
      obtain ⟨offset, rfl, hat⟩ := headerEndBufferFrom_firstAt h
      exact ⟨offset + 1, by omega, (firstAt_cons (mt hpattern.mpr hhere)).mpr hat⟩

theorem parseRequest_isRead {error : HttpError} {view : HttpRequestView}
    (h : parseRequest source maxHeaderBytes = (error, some view)) :
    IsRead view.headerBlock
      (some ⟨view.contentLength, view.chunked, view.connectionClose⟩) := by
  unfold parseRequest at h
  split at h
  · cases h
  cases hline : findCrlf source 0 with
  | none =>
    rw [hline] at h
    cases h
  | some firstEnd =>
    rw [hline] at h
    dsimp only at h
    cases hsplit : splitThree (source.take firstEnd) with
    | none =>
      rw [hsplit] at h
      cases h
    | some parts =>
      obtain ⟨method, target, version⟩ := parts
      rw [hsplit] at h
      dsimp only at h
      by_cases hmethod : method.all isTokenByte = false
      · rw [if_pos hmethod] at h
        cases h
      rw [if_neg hmethod] at h
      by_cases hver : supportedHttpVersion version = false
      · rw [if_pos hver] at h
        cases h
      rw [if_neg hver] at h
      by_cases htarget : target.all isTargetByte = false
      · rw [if_pos htarget] at h
        cases h
      rw [if_neg htarget] at h
      cases hend : findHeaderEnd source maxHeaderBytes with
      | none =>
        rw [hend] at h
        dsimp only at h
        split at h <;> cases h
      | some headerEnd =>
        have hempty := noEmptyLine_headers hline (firstAt_of_findHeaderEnd hend)
        rw [hend] at h
        dsimp only at h
        cases hanalyzed : analyzeHeaders (slice source (firstEnd + 2) (headerEnd + 2)) with
        | error failure =>
          rw [hanalyzed] at h
          cases h
        | ok framing =>
          rw [hanalyzed] at h
          obtain ⟨-, hview⟩ := Prod.mk.inj h
          cases hview
          exact isRead_of_analyzed hempty hanalyzed

theorem parseResponse_isRead {error : HttpError} {view : HttpResponseView}
    (h : parseResponse source maxHeaderBytes = (error, some view)) :
    IsRead view.headerBlock
      (some ⟨view.contentLength, view.chunked, view.connectionClose⟩) := by
  unfold parseResponse at h
  split at h
  · cases h
  cases hline : findCrlf source 0 with
  | none =>
    rw [hline] at h
    cases h
  | some firstEnd =>
    rw [hline] at h
    dsimp only at h
    cases hsplit : splitStatusLine (source.take firstEnd) with
    | none =>
      rw [hsplit] at h
      cases h
    | some parts =>
      rw [hsplit] at h
      cases hend : findHeaderEnd source maxHeaderBytes with
      | none =>
        rw [hend] at h
        dsimp only at h
        split at h <;> cases h
      | some headerEnd =>
        have hempty := noEmptyLine_headers hline (firstAt_of_findHeaderEnd hend)
        rw [hend] at h
        dsimp only at h
        cases hanalyzed : analyzeHeaders (slice source (firstEnd + 2) (headerEnd + 2)) with
        | error failure =>
          rw [hanalyzed] at h
          cases h
        | ok framing =>
          rw [hanalyzed] at h
          obtain ⟨-, hview⟩ := Prod.mk.inj h
          cases hview
          exact isRead_of_analyzed hempty hanalyzed

theorem nextFinal_isRead {cursor after : ChunkCursor} {dataStart : Nat} {view : ChunkView}
    (h : nextFinal cursor dataStart = (.none, some view, after)) : IsRead view.trailers none := by
  unfold nextFinal at h
  split at h
  · cases h
  by_cases hcrlf : slice cursor.source dataStart (dataStart + 2) = [13, 10]
  · rw [if_pos hcrlf] at h
    obtain ⟨-, hview, -⟩ := by simpa only [Prod.mk.injEq] using h
    cases hview
    exact isRead_nil
  rw [if_neg hcrlf] at h
  cases hend : findHeaderEnd (cursor.source.drop dataStart) 0 with
  | none =>
    rw [hend] at h
    cases h
  | some trailerEnd =>
    rw [hend] at h
    dsimp only at h
    have hblock : slice cursor.source dataStart (dataStart + trailerEnd + 2) =
        (cursor.source.drop dataStart).take (trailerEnd + 2) := by
      rw [slice, Nat.add_assoc, Nat.add_sub_cancel_left]
    have hfirst : (cursor.source.drop dataStart).take 2 ≠ lineEnd := by
      rwa [slice, Nat.add_sub_cancel_left] at hcrlf
    rw [hblock] at h
    split at h
    · cases h
    rename_i hvalid
    obtain ⟨-, hview, -⟩ := by simpa only [Prod.mk.injEq] using h
    cases hview
    exact isRead_of_valid (noEmptyLine_take (firstAt_of_findHeaderEnd hend) hfirst)
      (Bool.eq_false_iff.mpr hvalid)

theorem nextChunk_isRead {cursor after : ChunkCursor} {view : ChunkView}
    (h : nextChunk cursor = (.none, some view, after)) : IsRead view.trailers none := by
  unfold nextChunk at h
  split at h
  · cases h
  split at h
  · cases h
  split at h
  · cases h
  split at h
  · cases h
  split at h
  · exact nextFinal_isRead h
  unfold nextData at h
  split at h
  · cases h
  split at h
  · cases h
  · obtain ⟨-, hview, -⟩ := by simpa only [Prod.mk.injEq] using h
    cases hview
    exact isRead_nil

theorem trailerRound_isRead {buffer block : List UInt8}
    (h : trailerRound maxHeaderBytes buffer = some (.finished block rest)) :
    IsRead block none := by
  unfold trailerRound at h
  by_cases hfirst : buffer.take 2 = [13, 10]
  · rw [if_pos hfirst] at h
    obtain ⟨rfl, -⟩ := TrailerOutcome.finished.inj (Option.some.inj h)
    exact isRead_nil
  rw [if_neg hfirst] at h
  cases hend : findHeaderEndBuffer buffer with
  | none =>
    rw [hend] at h
    dsimp only at h
    split at h <;> cases h
  | some headerEnd =>
    rw [hend] at h
    dsimp only at h
    obtain ⟨offset, hoff, hat⟩ := headerEndBufferFrom_firstAt hend
    rw [Nat.zero_add] at hoff
    subst hoff
    split at h
    · cases h
    · rename_i hvalid
      obtain ⟨rfl, -⟩ := TrailerOutcome.finished.inj (Option.some.inj h)
      exact isRead_of_valid (noEmptyLine_take hat hfirst) (Bool.eq_false_iff.mpr hvalid)

theorem readTrailers_isRead {block : List UInt8} :
    ∀ {arrivals : List (List UInt8)} {buffer : List UInt8},
    readTrailers maxHeaderBytes arrivals buffer = .finished block rest → IsRead block none := by
  intro arrivals
  induction arrivals with
  | nil =>
    intro buffer h
    unfold readTrailers at h
    cases hround : trailerRound maxHeaderBytes buffer with
    | none =>
      rw [hround] at h
      cases h
    | some outcome =>
      rw [hround] at h
      exact trailerRound_isRead (hround.trans (congrArg some h))
  | cons arrived arrivals ih =>
    intro buffer h
    unfold readTrailers at h
    cases hround : trailerRound maxHeaderBytes buffer with
    | none =>
      rw [hround] at h
      cases arrived with
      | nil => cases h
      | cons b arrived => exact ih h
    | some outcome =>
      rw [hround] at h
      exact trailerRound_isRead (hround.trans (congrArg some h))

theorem Accepted.isRead {block : List UInt8} {framing : Option Framing}
    (h : Accepted block framing) : IsRead block framing := by
  cases h with
  | request hparsed => exact parseRequest_isRead hparsed
  | response hparsed => exact parseResponse_isRead hparsed
  | chunk hnext => exact nextChunk_isRead hnext
  | body hread => exact readTrailers_isRead hread

/-- The fields of the block are strict, and the decisions by them are theirs. -/
structure StrictlyRead (block : List UInt8) (framing : Option Framing) : Prop where
  strict : ∀ field ∈ blockFields block, StrictField field
  decided : ∀ decided, framing = some decided →
    Decides (blockFields block) decided ∧ ¬ (decided.chunked = true ∧ decided.contentLength ≥ 0)

/-- **An accepted block is strictly read** if it has no NUL and CR and LF in pairs only, and the
names in a trailer are of token bytes. -/
theorem accepted_strict_iff {block : List UInt8} {framing : Option Framing}
    (h : Accepted block framing) : StrictlyRead block framing ↔
      cleanBytes block = true ∧ (framing = none → tokenNames block = true) := by
  have hread := h.isRead
  obtain ⟨lines, hblock, hlines⟩ := hread.lines
  have hstrict := blockFields_strict_iff hblock hlines
  constructor
  · intro hread
    obtain ⟨hclean, hnames⟩ := hstrict.mp hread.strict
    exact ⟨hclean, fun _ => hnames⟩
  rintro ⟨hclean, hnames⟩
  refine ⟨hstrict.mpr ⟨hclean, ?_⟩, fun decided hdecided => ?_⟩
  · cases framing with
    | none => exact hnames rfl
    | some decided => exact (hread.headers decided rfl).2.2
  · obtain ⟨hdecides, hboth, -⟩ := hread.headers decided hdecided
    exact ⟨hdecides, hboth⟩

theorem crossingRequest_strict :
    StrictlyRead [65, 58, 32, 98, 13, 10] (some ⟨-1, false, false⟩) := by
  have hparsed : parseRequest crossingRequest 0 =
      (.none, some ⟨[71, 69, 84], [47], [72, 84, 84, 80, 47, 49, 46, 49], [65, 58, 32, 98, 13, 10],
        24, [], -1, false, false⟩) := by decide
  exact (accepted_strict_iff (.request hparsed)).mpr ⟨by decide, nofun⟩

/-- A request whose value ends with a NUL. -/
def nulRequest : List UInt8 :=
  [71, 69, 84, 32, 47, 32, 72, 84, 84, 80, 47, 49, 46, 49, 13, 10, 65, 58, 32, 98, 0, 13, 10, 13,
    10]

/-- The NUL is part of the value that is handed out. -/
theorem nulRequest_accepted :
    ¬ ∀ block framing, Accepted block framing → StrictlyRead block framing := by
  intro h
  have hparsed : parseRequest nulRequest 0 =
      (.none, some ⟨[71, 69, 84], [47], [72, 84, 84, 80, 47, 49, 46, 49],
        [65, 58, 32, 98, 0, 13, 10], 25, [], -1, false, false⟩) := by decide
  have hstrict := (h _ _ (.request hparsed)).strict ⟨[65], [98, 0]⟩ (by decide)
  exact (hstrict.value 0 (by decide)).2.2 rfl

end Raz.Http
