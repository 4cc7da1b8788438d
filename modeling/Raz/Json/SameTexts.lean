import Raz.Json.Document
import Raz.Json.Validate

/-!
# The document parser and `validate`

With the same levels left, the document parser reads what `skip_value_inner` goes over, call by
call. But `parse_borrowed` counts the root as depth one and `validate` counts it as depth zero, so
that the same limit leaves the parser one level less.

Results:
1. `same_texts`: the two agree on all texts but those that nest exactly as deep as the limit.
2. `same_texts_one`: a text on which they differ.
-/

namespace Raz.Json

open Grammar

/-! ## Going back -/

theorem skipWhitespace_idem (value : JsonLexer) :
    skipWhitespace (skipWhitespace value) = skipWhitespace value := by
  unfold skipWhitespace
  have hrest := rest_skipWhitespace value
  unfold skipWhitespace at hrest
  rw [hrest, dropWhile_of_ends (dropWhile_ends _ _)]
  rfl

theorem next_skipWhitespace (value : JsonLexer) : next (skipWhitespace value) = next value := by
  unfold next
  rw [skipWhitespace_idem]

theorem skipValueInner_error (levels : Nat) {value : JsonLexer}
    (h : (next value).1.kind = .error) : (skipValueInner levels value).1 ≠ .none := by
  cases levels with
  | zero => nofun
  | succ levels =>
    unfold skipValueInner skipValue
    simp only
    rw [if_pos h]
    exact next_error h

theorem skipMember_error {skip : JsonLexer → JsonError × JsonLexer} {value : JsonLexer}
    (h : (next value).1.kind = .error) : (skipMember skip value).1 ≠ .none := by
  unfold skipMember
  simp only
  rw [if_pos h]
  exact next_error h

/-! ## Nodes -/

theorem elementAddress_of_lt {nodes : List JsonNode} {index : Int} (h : 0 ≤ index)
    (hlt : index < nodes.length) : elementAddress nodes index = some index.toNat :=
  if_neg (by omega)

theorem attachChild_of_lt {nodes : List JsonNode} {parent child previous : Int}
    (h : 0 ≤ parent) (hlt : parent < nodes.length) (hprev : previous < nodes.length) :
    (attachChild nodes parent child previous).1 = true ∧
      (attachChild nodes parent child previous).2.length = nodes.length := by
  unfold attachChild
  rw [elementAddress_of_lt h hlt]
  simp only
  split
  · rename_i hge
    rw [elementAddress_of_lt hge (by rw [List.length_modify]; exact hprev)]
    exact ⟨rfl, by rw [List.length_modify, List.length_modify]⟩
  · exact ⟨rfl, List.length_modify _ _ _⟩

/-! ## One level -/

/-- Both report an error, or both stop at the same place and the output is a node. -/
inductive Agree (count : Nat) : ParseResult → JsonError × JsonLexer → Prop
  | accepted {lexer : JsonLexer} {nodes : List JsonNode} {output : Int} : count ≤ nodes.length →
      0 ≤ output → output < nodes.length →
      Agree count ⟨.none, lexer, nodes, output⟩ (.none, lexer)
  | refused {parsed : ParseResult} {skipped : JsonError × JsonLexer} : parsed.error ≠ .none →
      skipped.1 ≠ .none → Agree count parsed skipped

theorem Agree.mono {count count' : Nat} (hle : count ≤ count') {parsed : ParseResult}
    {skipped : JsonError × JsonLexer} (h : Agree count' parsed skipped) :
    Agree count parsed skipped := by
  cases h with
  | accepted hcount hout hlt => exact .accepted (Nat.le_trans hle hcount) hout hlt
  | refused hparsed hskipped => exact .refused hparsed hskipped

/-- The calls one level below agree. -/
def AgreeBelow (parse : Parser) (skip : JsonLexer → JsonError × JsonLexer) : Prop :=
  ∀ lexer nodes keyOffset keyLength,
    Agree nodes.length (parse lexer nodes keyOffset keyLength) (skip lexer)

/-- How `skip_value_inner` goes over an item. -/
def skipItem (object : Bool) (skip : JsonLexer → JsonError × JsonLexer) :
    JsonLexer → JsonError × JsonLexer :=
  if object then skipMember skip else skip

theorem skipItem_eq (object : Bool) (skip : JsonLexer → JsonError × JsonLexer) (lexer : JsonLexer) :
    (∃ keyOffset keyLength, parseKey object lexer =
        (.none, (parseKey object lexer).2.1, keyOffset, keyLength) ∧
        skipItem object skip lexer = skip (parseKey object lexer).2.1) ∨
      (parseKey object lexer).1 ≠ .none ∧ (skipItem object skip lexer).1 ≠ .none := by
  cases object with
  | false => exact .inl ⟨-1, 0, rfl, rfl⟩
  | true =>
    show _ ∨ _ ∧ (skipMember skip lexer).1 ≠ .none
    unfold parseKey skipItem skipMember
    simp only [if_true]
    rcases Decidable.em ((next lexer).1.kind = .error) with herror | herror
    · simp only [if_pos herror]
      exact .inr ⟨next_error herror, next_error herror⟩
    simp only [if_neg herror]
    rcases Decidable.em ((next lexer).1.kind ≠ .string) with hkey | hkey
    · simp only [if_pos hkey]
      exact .inr ⟨nofun, nofun⟩
    simp only [if_neg hkey]
    rcases Decidable.em ((next (next lexer).2).1.kind ≠ .colon) with hcolon | hcolon
    · simp only [if_pos hcolon]
      refine .inr ⟨?_, nofun⟩
      split
      · rename_i herr'
        exact next_error herr'
      · nofun
    · simp only [if_neg hcolon]
      exact .inl ⟨_, _, rfl, trivial⟩

section
variable {parse : Parser} {skip : JsonLexer → JsonError × JsonLexer}

section

variable (h : AgreeBelow parse skip)

include h

theorem agree_items (object : Bool) {container : Int}
    (hcontainer : 0 ≤ container) (rounds : Nat) :
    ∀ {lexer : JsonLexer} {nodes : List JsonNode} {previous : Int}, container < nodes.length →
      previous < nodes.length →
      Agree nodes.length (parseItems parse object container rounds lexer nodes previous)
        (skipItems (skipItem object skip) (closeKind object) rounds lexer) := by
  have hne : JsonError.unexpectedToken ≠ .none := by decide
  induction rounds with
  | zero => exact fun _ _ => .refused hne hne
  | succ rounds ih =>
    intro lexer nodes previous hlt hprev
    unfold parseItems skipItems
    simp only
    rcases skipItem_eq object skip lexer with ⟨keyOffset, keyLength, hkey, hskip⟩ | ⟨hkey, hskip⟩
    · rw [hkey, hskip]
      generalize (parseKey object lexer).2.1 = lexer'
      have hitem := h lexer' nodes keyOffset keyLength
      generalize parse lexer' nodes keyOffset keyLength = parsed at hitem
      generalize skip lexer' = skipped at hitem
      rw [if_neg (not_not_intro rfl)]
      cases hitem with
      | refused hparsed hskipped =>
        rw [if_pos hparsed, if_pos hskipped]
        exact .refused hparsed hskipped
      | @accepted behind nodes' output hcount hout hout' =>
        obtain ⟨hattached, hlen⟩ := @attachChild_of_lt _ _ output _ hcontainer
          (show container < nodes'.length by omega) (show previous < nodes'.length by omega)
        simp only
        generalize attachChild nodes' container output previous = attached at hattached hlen
        rw [if_neg (not_not_intro rfl), if_neg (not_not_intro rfl),
          if_neg (by rw [hattached]; decide)]
        -- the separator
        rcases Decidable.em ((next behind).1.kind = .error) with herror | herror
        · rw [if_pos herror, if_neg (by rw [herror]; cases object <;> decide),
            if_pos (by rw [herror]; decide)]
          exact .refused (next_error herror) hne
        rw [if_neg herror]
        rcases Decidable.em ((next behind).1.kind = closeKind object) with hclose | hclose
        · rw [if_pos hclose, if_pos hclose]
          exact .accepted (by omega) hcontainer (by omega)
        rw [if_neg hclose, if_neg hclose]
        rcases Decidable.em ((next behind).1.kind ≠ .comma) with hcomma | hcomma
        · rw [if_pos hcomma, if_pos hcomma]
          exact .refused hne hne
        rw [if_neg hcomma, if_neg hcomma]
        refine Agree.mono (show nodes.length ≤ attached.2.length by omega) (ih ?_ ?_)
        · omega
        · omega
    · rw [if_pos hkey, if_pos hskip]
      exact .refused hkey hskip

section

variable (herror : ∀ value, (next value).1.kind = .error → (skip value).1 ≠ .none)

include herror

theorem agree_container (object : Bool)
    (lexer : JsonLexer) (nodes : List JsonNode) (node : JsonNode) :
    Agree nodes.length (parseContainer parse object lexer (nodes ++ [node]) nodes.length)
      (skipContainer (skipItem object skip) (closeKind object) lexer) := by
  have hlen : (nodes ++ [node]).length = nodes.length + 1 := List.length_append
  unfold parseContainer skipContainer
  simp only
  rcases Decidable.em ((next lexer).1.kind = .error) with hlook | hlook
  · rw [if_pos hlook, if_neg (by rw [hlook]; cases object <;> decide)]
    refine .refused (next_error hlook) ?_
    -- the first item begins at the error token
    have hitem : (skipItem object skip (skipWhitespace lexer)).1 ≠ .none := by
      rw [← next_skipWhitespace] at hlook
      cases object with
      | false => exact herror _ hlook
      | true => exact skipMember_error hlook
    rw [goBack]
    unfold skipItems
    simp only
    rw [if_pos hitem]
    exact hitem
  rw [if_neg hlook]
  rcases Decidable.em ((next lexer).1.kind = closeKind object) with hclose | hclose
  · rw [if_pos hclose, if_pos hclose]
    exact .accepted (by omega) (by omega) (by omega)
  · rw [if_neg hclose, if_neg hclose]
    exact Agree.mono (show nodes.length ≤ (nodes ++ [node]).length by omega)
      (agree_items h object (by omega) _ (by omega) (by omega))

theorem agree_parseValue :
    AgreeBelow (parseValue parse) (skipValue skip) := by
  intro lexer nodes keyOffset keyLength
  have htoken : (next lexer).1.kind = .error → (next lexer).1.error ≠ .none := next_error
  unfold parseValue skipValue
  generalize next lexer = result at htoken
  obtain ⟨⟨kind, lexeme, offset, error⟩, behind⟩ := result
  cases kind with
  | error => exact .refused (htoken rfl) (htoken rfl)
  | endOfText => exact .refused nofun nofun
  | leftBracket => exact agree_container h herror false behind nodes _
  | leftBrace => exact agree_container h herror true behind nodes _
  | string | number | true | false | null =>
    refine .accepted ?_ (Int.natCast_nonneg _) ?_
    · exact (List.length_append ▸ Nat.le_add_right _ _)
    · exact Int.ofNat_lt.mpr (by rw [List.length_append]; exact Nat.lt_succ_self _)
  | rightBrace | rightBracket | colon | comma => exact .refused nofun nofun

end

end

theorem agree_parseValueInner (levels : Nat) :
    AgreeBelow (parseValueInner levels) (skipValueInner levels) := by
  induction levels with
  | zero => exact fun _ _ _ _ => .refused nofun nofun
  | succ levels ih => exact agree_parseValue ih fun _ => skipValueInner_error levels

end

/-! ## Texts -/

theorem jsonText_ne_nil {n : Nat} {data : List UInt8} (h : JsonText n data) : data ≠ [] := by
  obtain ⟨m, k, hws, hval, _⟩ := h
  rintro rfl
  cases hws with
  | nil =>
    obtain ⟨b, l, hl, _⟩ := hval.head
    cases hl

/-- `parse_borrowed` accepts the JSON texts that nest less deep than the limit. -/
theorem parseBorrowed_iff {data : List UInt8} {maxDepth : Int} (hdepth : 1 ≤ maxDepth)
    (output : JsonDocument) :
    (parseBorrowed data maxDepth output).1 = .none ↔ JsonText (maxDepth.toNat - 1) data := by
  obtain ⟨n, hn⟩ : ∃ n, maxDepth.toNat = n + 1 := ⟨maxDepth.toNat - 1, by omega⟩
  have hskip := decides_skipValueInner n
  have hagree := agree_parseValueInner (n + 1) (lexer data) [] (-1) 0
  rw [hn, Nat.add_sub_cancel]
  unfold parseBorrowed
  rw [if_neg (by omega), hn]
  rcases Decidable.em (data = []) with hnil | hne
  · rw [if_pos hnil]
    exact ⟨nofun, fun h => absurd hnil (jsonText_ne_nil h)⟩
  rw [if_neg hne, ← text_iff hskip data]
  generalize parseValueInner (n + 1) (lexer data) [] (-1) 0 = parsed at hagree
  generalize skipValueInner (n + 1) (lexer data) = skipped at hagree
  simp only
  cases hagree with
  | refused hparsed hskipped =>
    rw [if_pos hparsed]
    exact ⟨fun h => absurd h hparsed, fun h => absurd h.1 hskipped⟩
  | @accepted behind nodes index =>
    rw [if_neg (not_not_intro rfl)]
    rcases Decidable.em ((next behind).1.kind = .endOfText) with hend | hend
    · rw [if_neg (not_not_intro hend)]
      exact ⟨fun _ => ⟨rfl, hend⟩, fun _ => rfl⟩
    rw [if_pos hend]
    refine ⟨fun h => ?_, fun h => absurd h.2 hend⟩
    split at h
    · rename_i herror
      exact absurd h (next_error herror)
    · cases h

/-- **`validate` and `parse_borrowed` agree on all texts but the JSON texts that nest exactly as
deep as the limit.** -/
theorem same_texts {data : List UInt8} {maxDepth : Int} (hdepth : 1 ≤ maxDepth)
    (output : JsonDocument) :
    (validate data maxDepth = .none ↔ (parseBorrowed data maxDepth output).1 = .none) ↔
      ¬ (JsonText maxDepth.toNat data ∧ ¬ JsonText (maxDepth.toNat - 1) data) := by
  have hlimit : depthLimit maxDepth = maxDepth.toNat := if_neg (by omega)
  rw [validate_iff, hlimit, parseBorrowed_iff hdepth output]
  refine ⟨fun hsame ⟨htext, hdeep⟩ => hdeep (hsame.mp htext), fun h => ⟨fun htext => ?_, ?_⟩⟩
  · exact Classical.not_not.mp fun hdeep => h ⟨htext, hdeep⟩
  · exact JsonText.mono (Nat.sub_le _ _)

/-- `[1]` with a limit of two. -/
theorem same_texts_array :
    (validate [91, 49, 93] 2 = .none ↔ (parseBorrowed [91, 49, 93] 2 .empty).1 = .none) ↔
      ¬ (JsonText 2 [91, 49, 93] ∧ ¬ JsonText 1 [91, 49, 93]) :=
  same_texts (by decide) .empty

/-- `[1]` with a limit of one: the root is an array, and the number in it is one level below. -/
theorem same_texts_one :
    ¬ ∀ (data : List UInt8) (maxDepth : Int) (output : JsonDocument), 1 ≤ maxDepth →
      (validate data maxDepth = .none ↔ (parseBorrowed data maxDepth output).1 = .none) := by
  intro h
  have hsame := h [91, 49, 93] 1 .empty (by decide)
  exact absurd (hsame.mp (by decide)) (by decide)

end Raz.Json
