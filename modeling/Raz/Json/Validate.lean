import Raz.Json.Scanner

/-!
# What `validate` accepts

`skip_value_inner` goes over a value exactly if there is one. It is built level by level as the
values of the grammar are: if the call one level below decides the values inside, then the call
itself decides the values made of them.

Result: `accepts_json`: for texts within the limit it decides what is a JSON text.
-/

namespace Raz.Json

open Grammar

variable {l r : List UInt8} {value : JsonLexer} {kind : JsonTokenKind}

/-- The call goes over what the rule derives, and reports no error only then. -/
structure Decides (skip : JsonLexer → JsonError × JsonLexer)
    (rule : List UInt8 → List UInt8 → Prop) : Prop where
  source : ∀ value, (skip value).2.source = value.source
  sound : ∀ value, (skip value).1 = .none → ∃ l, Ws value.rest l ∧ rule l (skip value).2.rest
  complete : ∀ value l r, Ws value.rest l → rule l r → Ends isNumberByte r →
    (skip value).1 = .none ∧ (skip value).2.rest = r

/-- What the proofs below use of the values inside. -/
structure IsValueRule (rule : List UInt8 → List UInt8 → Prop) : Prop where
  suffix : ∀ l r, rule l r → r <:+ l
  head : ∀ l r, rule l r → ∃ b l', l = b :: l' ∧ b ∉ [32, 9, 10, 13] ∧ b ≠ 93

/-! ## Whitespace -/

theorem Ws.trans {m : List UInt8} (h : Ws l m) (h' : Ws m r) : Ws l r := by
  induction h with
  | nil => exact h'
  | cons hb _ ih => exact .cons hb (ih h')

theorem Ws.ends (h : Ws l r) (hr : Ends isNumberByte r) : Ends isNumberByte l := by
  cases h with
  | nil => exact hr
  | @cons b l r hb =>
    rintro _ ⟨⟩
    have hall : [32, 9, 10, 13].all (fun b => isNumberByte b = false) = true := by decide
    exact of_decide_eq_true (List.all_eq_true.mp hall b hb)

theorem Ws.unique {l m m' : List UInt8} (h : Ws l m) (h' : Ws l m') (hm : Ends whitespace m)
    (hm' : Ends whitespace m') : m = m' := by
  rw [← dropWhile_of_ends hm, ← dropWhile_of_ends hm', ← dropWhile_of_ws h, ← dropWhile_of_ws h']

theorem ends_of_not_mem {b : UInt8} (hb : b ∉ [32, 9, 10, 13]) : Ends whitespace (b :: l) := by
  rintro _ ⟨⟩
  exact Bool.of_not_eq_true fun h => hb (whitespace_iff.mp h)

theorem ws_rest (value : JsonLexer) : Ws value.rest (skipWhitespace value).rest := by
  rw [rest_skipWhitespace]
  exact ws_dropWhile _

theorem ws_skipWhitespace (h : Ws value.rest l) (hl : Ends whitespace l) :
    Ws (skipWhitespace value).rest l := by
  rw [rest_skipWhitespace_of_ws h hl]
  exact .nil

theorem next_of_kind (h : (next value).1.kind = kind) (hkind : kind ≠ .error) :
    ∃ l, Ws value.rest l ∧ Token kind l (next value).2.rest := by
  subst h
  exact (next_sound value).resolve_left fun herr => hkind herr.1

theorem next_error (h : (next value).1.kind = .error) : (next value).1.error ≠ .none := by
  rcases next_sound value with ⟨_, herr⟩ | ⟨l, _, htoken⟩
  · exact herr
  · rw [h] at htoken
    cases htoken

/-! ## Items -/

section
variable {item : JsonLexer → JsonError × JsonLexer} {rule : List UInt8 → List UInt8 → Prop}
  {close : JsonTokenKind} {byte : UInt8}

section

variable (hitem : Decides item rule)

include hitem

theorem skipItems_source (rounds : Nat) :
    ∀ value, (skipItems item close rounds value).2.source = value.source := by
  induction rounds with
  | zero => exact fun value => rfl
  | succ rounds ih =>
    intro value
    have hsrc := hitem.source value
    unfold skipItems
    simp only
    split
    · exact hsrc
    split
    · exact (next_source _).trans hsrc
    split
    · exact (next_source _).trans hsrc
    · exact (ih _).trans ((next_source _).trans hsrc)

theorem skipItems_sound (hclose : ∀ {l r}, Token close l r → l = byte :: r) (hkind : close ≠ .error)
    (rounds : Nat) :
    ∀ value, (skipItems item close rounds value).1 = .none →
      Items rule byte value.rest (skipItems item close rounds value).2.rest := by
  induction rounds with
  | zero => exact fun value h => nomatch h
  | succ rounds ih =>
    intro value h
    unfold skipItems at h ⊢
    simp only at h ⊢
    split at h
    · rename_i hnested
      exact absurd h hnested
    rename_i hnested
    obtain ⟨l, hws, hrule⟩ := hitem.sound value (Decidable.not_not.mp hnested)
    rw [if_neg hnested]
    split at h
    · rename_i hsep
      rw [if_pos hsep]
      obtain ⟨l', hws', htoken⟩ := next_of_kind hsep hkind
      rw [hclose htoken] at hws'
      exact .last hws hrule hws'
    rename_i hsep
    rw [if_neg hsep]
    split at h
    · cases h
    rename_i hcomma
    rw [if_neg hcomma]
    obtain ⟨l', hws', htoken⟩ := next_of_kind (Decidable.not_not.mp hcomma) nofun
    have hrest := ih _ h
    generalize (next (item value).2).2.rest = behind at htoken hrest
    cases htoken with
    | comma => exact .more hws hrule hws' hrest

theorem skipItems_complete (hsuf : ∀ l r, rule l r → r <:+ l)
    (hclose : ∀ r, Token close (byte :: r) r) (hkind : close ≠ .comma) (hnum : close ≠ .number)
    (hbyte : isNumberByte byte = false) (h : Items rule byte l r) :
    ∀ {value rounds}, value.rest = l → l.length < rounds →
      (skipItems item close rounds value).1 = .none ∧
        (skipItems item close rounds value).2.rest = r := by
  induction h with
  | @last l m k r hws hrule hws' =>
    intro value rounds hrest hrounds
    obtain ⟨rounds, rfl⟩ : ∃ n, rounds = n + 1 := ⟨rounds - 1, by omega⟩
    subst hrest
    have hends : Ends isNumberByte (byte :: r) := by
      rintro _ ⟨⟩
      exact hbyte
    obtain ⟨hnone, hbehind⟩ := hitem.complete value m k hws hrule (Ws.ends hws' hends)
    obtain ⟨hsep, hrest⟩ := next_complete (hbehind ▸ hws') (hclose r)
      (fun heq => absurd heq hnum)
    unfold skipItems
    simp only
    rw [if_neg (not_not_intro hnone), if_pos hsep]
    exact ⟨rfl, hrest⟩
  | @more l m k k' r hws hrule hws' _ ih =>
    intro value rounds hrest hrounds
    obtain ⟨rounds, rfl⟩ : ∃ n, rounds = n + 1 := ⟨rounds - 1, by omega⟩
    subst hrest
    have hends : Ends isNumberByte (44 :: k') := by
      rintro _ ⟨⟩
      rfl
    obtain ⟨hnone, hbehind⟩ := hitem.complete value m k hws hrule (Ws.ends hws' hends)
    obtain ⟨hsep, hrest⟩ := next_complete (hbehind ▸ hws') .comma nofun
    have hlt : k'.length < value.rest.length := by
      have hle := (hws'.suffix.trans ((hsuf _ _ hrule).trans hws.suffix)).length_le
      rw [List.length_cons] at hle
      omega
    unfold skipItems
    simp only
    rw [if_neg (not_not_intro hnone), if_neg (by rw [hsep]; exact fun h => hkind h.symm),
      if_neg (not_not_intro hsep)]
    exact ih hrest (by omega)

end

end

/-! ## Members -/

section
variable {skip : JsonLexer → JsonError × JsonLexer} {rule : List UInt8 → List UInt8 → Prop}

theorem decides_skipMember (hskip : Decides skip rule) :
    Decides (skipMember skip) (Member rule) where
  source value := by
    unfold skipMember
    simp only
    split
    · exact next_source _
    split
    · exact next_source _
    split
    · exact (next_source _).trans (next_source _)
    · exact (hskip.source _).trans ((next_source _).trans (next_source _))
  sound value h := by
    unfold skipMember at h ⊢
    simp only at h ⊢
    split at h
    · rename_i hkey
      exact absurd h (next_error hkey)
    rename_i herr
    rw [if_neg herr]
    split at h
    · cases h
    rename_i hkey
    rw [if_neg hkey]
    split at h
    · cases h
    rename_i hcolon
    rw [if_neg hcolon]
    obtain ⟨l, hws, hkey⟩ := next_of_kind (Decidable.not_not.mp hkey) nofun
    obtain ⟨m, hws', hcolon⟩ := next_of_kind (Decidable.not_not.mp hcolon) nofun
    obtain ⟨k, hws'', hrule⟩ := hskip.sound _ h
    generalize (next value).2.rest = behind at hkey hws'
    generalize (next (next value).2).2.rest = behind' at hcolon hws''
    cases hkey with
    | string hcontent =>
      cases hcolon with
      | colon => exact ⟨_, hws, .mk hcontent hws' hws'' hrule⟩
  complete value l r hws h hr := by
    cases h with
    | mk hcontent hws' hws'' hrule =>
      obtain ⟨hkey, hrest⟩ := next_complete hws (.string hcontent) nofun
      obtain ⟨hcolon, hrest'⟩ := next_complete (hrest ▸ hws') .colon nofun
      unfold skipMember
      simp only
      rw [if_neg (by rw [hkey]; decide), if_neg (not_not_intro hkey), if_neg (not_not_intro hcolon)]
      exact hskip.complete _ _ _ (hrest' ▸ hws'') hrule hr

/-! ## Values -/

theorem look_ne {b c : UInt8} (hws : Ws value.rest (b :: l)) (hb : b ∉ [32, 9, 10, 13])
    (hne : b ≠ c) (hkind : kind ≠ .error) (htoken : ∀ {m r}, Token kind m r → m = c :: r) :
    (next value).1.kind ≠ kind := by
  intro heq
  obtain ⟨m, hws', h⟩ := next_of_kind heq hkind
  have hsame := Ws.unique hws hws' (ends_of_not_mem hb) h.ends
  rw [htoken h] at hsame
  cases hsame
  exact hne rfl

theorem items_head {item : List UInt8 → List UInt8 → Prop} {close : UInt8}
    (h : Items item close l r) : ∃ m k, Ws l m ∧ item m k := by
  cases h with
  | last hws hitem => exact ⟨_, _, hws, hitem⟩
  | more hws hitem => exact ⟨_, _, hws, hitem⟩

section
variable {item : JsonLexer → JsonError × JsonLexer} {close : JsonTokenKind} {byte : UInt8}

theorem skipContainer_source (hitem : Decides item rule) (value : JsonLexer) :
    (skipContainer item close value).2.source = value.source := by
  unfold skipContainer
  simp only
  split
  · exact next_source _
  · exact (skipItems_source hitem _ _).trans (next_source _)

theorem skipContainer_sound (hitem : Decides item rule)
    (hclose : ∀ {l r}, Token close l r → l = byte :: r) (hkind : close ≠ .error)
    (value : JsonLexer) (h : (skipContainer item close value).1 = .none) :
    Ws value.rest (byte :: (skipContainer item close value).2.rest) ∨
      Items rule byte value.rest (skipContainer item close value).2.rest := by
  unfold skipContainer at h ⊢
  simp only at h ⊢
  split at h <;> rename_i hlook
  · obtain ⟨l, hws, htoken⟩ := next_of_kind hlook hkind
    rw [if_pos hlook]
    exact .inl (hclose htoken ▸ hws)
  · rw [if_neg hlook]
    have hitems := skipItems_sound hitem hclose hkind _ _ h
    refine .inr ?_
    -- the items begin behind the whitespace
    rw [goBack] at hitems ⊢
    generalize (skipItems _ _ _ _).2.rest = r at hitems ⊢
    cases hitems with
    | last hws hrule hend => exact .last (Ws.trans (ws_rest value) hws) hrule hend
    | more hws hrule hcomma hrest => exact .more (Ws.trans (ws_rest value) hws) hrule hcomma hrest

theorem skipContainer_empty (hclose : ∀ r, Token close (byte :: r) r) (hnum : close ≠ .number)
    (h : Ws value.rest (byte :: r)) :
    (skipContainer item close value).1 = .none ∧
      (skipContainer item close value).2.rest = r := by
  obtain ⟨hlook, hrest⟩ := next_complete h (hclose r) (fun heq => absurd heq hnum)
  unfold skipContainer
  simp only
  rw [if_pos hlook]
  exact ⟨rfl, hrest⟩

theorem skipContainer_complete (hitem : Decides item rule) (hrule : ∀ l r, rule l r → r <:+ l)
    (hhead : ∀ l r, rule l r → ∃ b l', l = b :: l' ∧ b ∉ [32, 9, 10, 13] ∧ b ≠ byte)
    (hclose : ∀ {l r}, Token close l r ↔ l = byte :: r) (hkind : close ≠ .comma)
    (hnum : close ≠ .number) (herr : close ≠ .error) (hbyte : isNumberByte byte = false)
    (h : Items rule byte value.rest r) :
    (skipContainer item close value).1 = .none ∧
      (skipContainer item close value).2.rest = r := by
  obtain ⟨m, k, hws, hfirst⟩ := items_head h
  obtain ⟨b, l', rfl, hb, hne⟩ := hhead _ _ hfirst
  unfold skipContainer
  simp only
  rw [if_neg (look_ne hws hb hne herr hclose.mp)]
  -- the same items, seen from behind the whitespace
  have hitems : Items rule byte (skipWhitespace value).rest r := by
    cases h with
    | last hws' hitem' hend =>
      obtain ⟨b', l'', rfl, hb', _⟩ := hhead _ _ hitem'
      exact .last (ws_skipWhitespace hws' (ends_of_not_mem hb')) hitem' hend
    | more hws' hitem' hcomma hrest =>
      obtain ⟨b', l'', rfl, hb', _⟩ := hhead _ _ hitem'
      exact .more (ws_skipWhitespace hws' (ends_of_not_mem hb')) hitem' hcomma hrest
  rw [goBack]
  refine skipItems_complete hitem hrule (fun r => hclose.mpr rfl) hkind hnum hbyte hitems rfl ?_
  have hlen := (skipWhitespace value).rest_suffix.length_le
  exact Nat.lt_succ_of_le hlen

end

theorem token_rightBracket : Token .rightBracket l r ↔ l = 93 :: r :=
  ⟨fun h => by cases h; rfl, fun h => h ▸ .rightBracket⟩

theorem token_rightBrace : Token .rightBrace l r ↔ l = 125 :: r :=
  ⟨fun h => by cases h; rfl, fun h => h ▸ .rightBrace⟩

theorem member_head (h : Member rule l r) :
    ∃ b l', l = b :: l' ∧ b ∉ [32, 9, 10, 13] ∧ b ≠ 125 := by
  cases h with
  | mk => exact ⟨_, _, rfl, by decide, by decide⟩

theorem skipValue_source (hskip : Decides skip rule) (value : JsonLexer) :
    (skipValue skip value).2.source = value.source := by
  unfold skipValue
  simp only
  split
  · exact next_source _
  split
  · exact next_source _
  split
  · exact (skipContainer_source hskip _).trans (next_source _)
  split
  · exact (skipContainer_source (decides_skipMember hskip) _).trans (next_source _)
  · exact next_source _

theorem valueOf_of_scalar (h : Token kind l r) (hscalar : isScalar kind = true) :
    ValueOf rule l r := by
  cases h with
  | string hcontent => exact .string hcontent
  | number hnum => exact .number hnum
  | true => exact .true
  | false => exact .false
  | null => exact .null
  | _ => cases hscalar

theorem skipValue_sound (hskip : Decides skip rule) (value : JsonLexer)
    (h : (skipValue skip value).1 = .none) :
    ∃ l, Ws value.rest l ∧ ValueOf rule l (skipValue skip value).2.rest := by
  unfold skipValue at h ⊢
  simp only at h ⊢
  split at h
  · rename_i herr
    exact absurd h (next_error herr)
  rename_i herr
  obtain ⟨l, hws, htoken⟩ := next_of_kind rfl herr
  rw [if_neg herr]
  split at h
  · rename_i hscalar
    rw [if_pos hscalar]
    exact ⟨l, hws, valueOf_of_scalar htoken hscalar⟩
  rename_i hscalar
  rw [if_neg hscalar]
  split at h
  · rename_i hbracket
    rw [if_pos hbracket]
    rw [hbracket] at htoken
    have hcontainer := skipContainer_sound hskip token_rightBracket.mp nofun _ h
    generalize (next value).2.rest = behind at htoken hcontainer
    cases htoken with
    | leftBracket => exact ⟨_, hws, hcontainer.elim .emptyArray .array⟩
  rename_i hbracket
  rw [if_neg hbracket]
  split at h
  · rename_i hbrace
    rw [if_pos hbrace]
    rw [hbrace] at htoken
    have hcontainer := skipContainer_sound (decides_skipMember hskip) token_rightBrace.mp nofun _ h
    generalize (next value).2.rest = behind at htoken hcontainer
    cases htoken with
    | leftBrace => exact ⟨_, hws, hcontainer.elim .emptyObject .object⟩
  · cases h

theorem skipValue_scalar (hws : Ws value.rest l) (h : Token kind l r) (hr : Ends isNumberByte r)
    (hscalar : isScalar kind = true) (herr : kind ≠ .error) :
    (skipValue skip value).1 = .none ∧ (skipValue skip value).2.rest = r := by
  obtain ⟨hkind, hrest⟩ := next_complete hws h (fun _ => hr)
  unfold skipValue
  simp only
  rw [if_neg (by rw [hkind]; exact herr), if_pos (by rw [hkind]; exact hscalar)]
  exact ⟨rfl, hrest⟩

theorem skipValue_array {value : JsonLexer} {l : List UInt8} (hws : Ws value.rest (91 :: l)) :
    ∃ behind : JsonLexer, behind.rest = l ∧
      skipValue skip value = skipContainer skip .rightBracket behind := by
  obtain ⟨hkind, hrest⟩ := next_complete hws .leftBracket nofun
  refine ⟨(next value).2, hrest, ?_⟩
  unfold skipValue
  simp only
  rw [if_neg (by rw [hkind]; decide), if_neg (by rw [hkind]; decide), if_pos hkind]

theorem skipValue_object {value : JsonLexer} {l : List UInt8} (hws : Ws value.rest (123 :: l)) :
    ∃ behind : JsonLexer, behind.rest = l ∧
      skipValue skip value = skipContainer (skipMember skip) .rightBrace behind := by
  obtain ⟨hkind, hrest⟩ := next_complete hws .leftBrace nofun
  refine ⟨(next value).2, hrest, ?_⟩
  unfold skipValue
  simp only
  rw [if_neg (by rw [hkind]; decide), if_neg (by rw [hkind]; decide),
    if_neg (by rw [hkind]; decide), if_pos hkind]

/-- One level decides the values made of those one level below. -/
theorem decides_skipValue (hskip : Decides skip rule) (hrule : IsValueRule rule) :
    Decides (skipValue skip) (ValueOf rule) where
  source := skipValue_source hskip
  sound := skipValue_sound hskip
  complete value l r hws h hr := by
    cases h with
    | false => exact skipValue_scalar hws .false hr rfl nofun
    | null => exact skipValue_scalar hws .null hr rfl nofun
    | true => exact skipValue_scalar hws .true hr rfl nofun
    | number hnum => exact skipValue_scalar hws (.number hnum) hr rfl nofun
    | string hcontent => exact skipValue_scalar hws (.string hcontent) hr rfl nofun
    | emptyArray hend =>
      obtain ⟨behind, rfl, heq⟩ := @skipValue_array skip _ _ hws
      rw [heq]
      exact skipContainer_empty (fun r => .rightBracket) nofun hend
    | array hitems =>
      obtain ⟨behind, rfl, heq⟩ := @skipValue_array skip _ _ hws
      rw [heq]
      exact skipContainer_complete hskip hrule.suffix hrule.head token_rightBracket nofun nofun
        nofun rfl hitems
    | emptyObject hend =>
      obtain ⟨behind, rfl, heq⟩ := @skipValue_object skip _ _ hws
      rw [heq]
      exact skipContainer_empty (fun r => .rightBrace) nofun hend
    | object hitems =>
      obtain ⟨behind, rfl, heq⟩ := @skipValue_object skip _ _ hws
      rw [heq]
      exact skipContainer_complete (decides_skipMember hskip) (Member.suffix hrule.suffix)
        (fun _ _ => member_head) token_rightBrace nofun nofun nofun rfl hitems

end

/-! ## All levels -/

theorem isValueRule_value (n : Nat) : IsValueRule (Value n) :=
  ⟨Value.suffix n, fun _ _ => Value.head⟩

theorem decides_skipValueInner (n : Nat) : Decides (skipValueInner (n + 1)) (Value n) := by
  induction n with
  | zero =>
    have hnone : Decides (skipValueInner 0) (fun _ _ => False) :=
      ⟨fun _ => rfl, fun _ => nofun, fun _ _ _ _ h => h.elim⟩
    exact decides_skipValue hnone ⟨fun _ _ h => h.elim, fun _ _ h => h.elim⟩
  | succ n ih => exact decides_skipValue ih (isValueRule_value n)

theorem text_iff {skip : JsonLexer → JsonError × JsonLexer} {n : Nat}
    (hskip : Decides skip (Value n)) (data : List UInt8) :
    (skip (lexer data)).1 = .none ∧ (next (skip (lexer data)).2).1.kind = .endOfText ↔
      JsonText n data := by
  refine ⟨fun ⟨hnone, hend⟩ => ?_, fun ⟨m, k, hm, hval, hk⟩ => ?_⟩
  · obtain ⟨l, hws, hval⟩ := hskip.sound _ hnone
    obtain ⟨m, hws', htoken⟩ := next_of_kind hend nofun
    generalize (next _).2.rest = behind at htoken
    cases htoken with
    | endOfText => exact ⟨_, _, hws, hval, hws'⟩
  · obtain ⟨hnone, hrest⟩ := hskip.complete (lexer data) m k hm hval (Ws.ends hk nofun)
    exact ⟨hnone, (next_complete (hrest ▸ hk) .endOfText nofun).1⟩

/-- `validate` accepts the JSON texts that nest as deep as the limit. -/
theorem validate_iff {data : List UInt8} {maxDepth : Int} :
    validate data maxDepth = .none ↔ JsonText (depthLimit maxDepth) data := by
  rw [← text_iff (decides_skipValueInner (depthLimit maxDepth))]
  unfold validate
  simp only
  refine ⟨fun h => ?_, fun ⟨hnone, hend⟩ => ?_⟩
  · split at h
    · rename_i herr
      exact absurd h herr
    rename_i hnone
    split at h
    · cases h
    rename_i hend
    exact ⟨Decidable.not_not.mp hnone, Decidable.not_not.mp hend⟩
  · rw [if_neg (not_not_intro hnone), if_neg (not_not_intro hend)]

/-- **Of the texts that nest no deeper than the limit, `validate` accepts the JSON texts.** -/
theorem accepts_json {data : List UInt8} {maxDepth : Int}
    (h : ∀ n, JsonText n data → JsonText (depthLimit maxDepth) data) :
    validate data maxDepth = .none ↔ ∃ n, JsonText n data := by
  rw [validate_iff]
  exact ⟨fun htext => ⟨_, htext⟩, fun ⟨n, htext⟩ => h n htext⟩

/-- `[1]` with a limit of one. -/
theorem accepts_json_array :
    validate [91, 49, 93] 1 = .none ↔ ∃ n, JsonText n [91, 49, 93] :=
  accepts_json fun _ _ => validate_iff.mp (by decide)

end Raz.Json
