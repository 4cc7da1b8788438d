import Raz.Json.SameTexts
import Raz.Json.StringTokens

/-!
# Where tokens stand

A token that is read takes the bytes from its offset to the cursor behind it, its lexeme is among
them, and it is read again from its offset.

Result: `next_again`: a token is read again.
-/

namespace Raz.Json

open Grammar List

variable {value : JsonLexer}

/-- The cursor is in the source or at its end. -/
def JsonLexer.Inside (value : JsonLexer) : Prop := value.cursor ≤ value.source.length

/-- The bytes of a token, and where its lexeme is among them: a string is without its quotes. -/
structure Spans (start : Nat) (result : JsonToken × JsonLexer) : Prop where
  source : result.2.cursor ≤ result.2.source.length
  offset : result.1.offset = start
  lexeme : result.1.lexeme.start = start + if result.1.kind = .string then 1 else 0
  nonempty : result.1.lexeme.start < result.2.cursor
  inside : result.1.lexeme.start + result.1.lexeme.length ≤ result.2.cursor

theorem length_rest (value : JsonLexer) :
    value.rest.length = value.source.length - value.cursor := by
  unfold JsonLexer.rest
  rw [length_drop]

theorem skipWhitespace_inside (h : value.Inside) :
    value.cursor ≤ (skipWhitespace value).cursor ∧ (skipWhitespace value).Inside := by
  have hle := (dropWhile_suffix (l := value.rest) whitespace).length_le
  rw [length_rest] at hle
  unfold JsonLexer.Inside at h ⊢
  unfold skipWhitespace JsonLexer.moveTo
  dsimp only
  omega

/-- The token is an error or the end, or it spans bytes from here on. -/
def SpansHere (value : JsonLexer) (result : JsonToken × JsonLexer) : Prop :=
  result.1.kind = .error ∨ result.1.kind = .endOfText ∨ Spans value.cursor result

theorem spans_fixedToken {value : JsonLexer} {kind : JsonTokenKind} {word : List UInt8}
    (hkind : kind ≠ .string) (hword : word ≠ []) (h : word <+: value.rest) :
    SpansHere value (fixedToken value kind word.length) := by
  have hle := h.length_le
  have hpos := length_pos_iff.mpr hword
  rw [length_rest] at hle
  refine .inr (.inr ⟨?_, rfl, ?_, Nat.lt_add_of_pos_right hpos, le_rfl⟩)
  · show value.cursor + word.length ≤ value.source.length
    omega
  · show value.cursor = value.cursor + if kind = .string then 1 else 0
    rw [if_neg hkind, Nat.add_zero]

section

variable (h : value.Inside)

include h

theorem spans_scanString {l : List UInt8} (hrest : value.rest = 34 :: l) :
    SpansHere value (scanString value value.cursor) := by
  rcases Decidable.em ((scanString value value.cursor).1.kind = .error) with herr | hok
  · exact .inl herr
  obtain ⟨content, r, hcontent, rfl, -⟩ := scanString_sound hrest hok
  have htoken := nextToken_string hcontent hrest
  unfold nextToken at htoken
  rw [hrest] at htoken
  have hscan : scanString value value.cursor = _ := htoken
  have hlen := length_rest value
  rw [hrest, length_cons, length_append, length_cons] at hlen
  unfold JsonLexer.Inside at h
  rw [hscan]
  refine .inr (.inr ⟨Nat.sub_le _ _, rfl, rfl, ?_, ?_⟩)
  · show value.cursor + 1 < value.source.length - r.length
    omega
  · show value.cursor + 1 + content.length ≤ value.source.length - r.length
    omega

theorem spans_scanNumber : SpansHere value (scanNumber value value.cursor) := by
  unfold scanNumber
  cases hnum : skipNumber value.rest with
  | none => exact .inl rfl
  | some tail =>
    have hlt := (skipNumber_sound hnum).length_lt
    rw [length_rest] at hlt
    unfold JsonLexer.Inside at h
    refine .inr (.inr ⟨Nat.sub_le _ _, rfl, rfl, ?_, ?_⟩)
    · show value.cursor < value.source.length - tail.length
      omega
    · show value.cursor + (value.source.length - tail.length - value.cursor) ≤
        value.source.length - tail.length
      omega

theorem nextToken_spans : SpansHere value (nextToken value) := by
  unfold nextToken
  cases hrest : value.rest with
  | nil => exact .inr (.inl rfl)
  | cons byte rest =>
    have hbyte (kind : JsonTokenKind) (hkind : kind ≠ .string) :
        SpansHere value (fixedToken value kind 1) :=
      @spans_fixedToken value kind [byte] hkind (cons_ne_nil _ _)
        (hrest ▸ prefix_append [byte] rest)
    have hword (kind : JsonTokenKind) (hkind : kind ≠ .string) {word : List UInt8}
        (hne : word ≠ []) (htake : (byte :: rest).take word.length = word) :
        SpansHere value (fixedToken value kind word.length) :=
      spans_fixedToken hkind hne (hrest ▸ htake ▸ take_prefix _ _)
    refine iteInduction (fun _ => hbyte _ nofun) fun _ => ?_
    refine iteInduction (fun _ => hbyte _ nofun) fun _ => ?_
    refine iteInduction (fun _ => hbyte _ nofun) fun _ => ?_
    refine iteInduction (fun _ => hbyte _ nofun) fun _ => ?_
    refine iteInduction (fun _ => hbyte _ nofun) fun _ => ?_
    refine iteInduction (fun _ => hbyte _ nofun) fun _ => ?_
    refine iteInduction (fun hquote => spans_scanString h (hquote ▸ hrest)) fun _ => ?_
    refine iteInduction (fun _ => spans_scanNumber h) fun _ => ?_
    refine iteInduction (fun htrue => ?_) fun _ => ?_
    · exact @hword .true nofun [116, 114, 117, 101] (cons_ne_nil _ _) htrue
    refine iteInduction (fun hfalse => ?_) fun _ => ?_
    · exact @hword .false nofun [102, 97, 108, 115, 101] (cons_ne_nil _ _) hfalse
    refine iteInduction (fun hnull => ?_) fun _ => ?_
    · exact @hword .null nofun [110, 117, 108, 108] (cons_ne_nil _ _) hnull
    exact .inl rfl

/-- **The bytes of a token** behind the whitespace. -/
theorem next_spans (herr : (next value).1.kind ≠ .error)
    (hend : (next value).1.kind ≠ .endOfText) :
    value.cursor ≤ (next value).1.offset ∧ Spans (next value).1.offset (next value) := by
  obtain ⟨hle, hinside⟩ := skipWhitespace_inside h
  have hspans : Spans (skipWhitespace value).cursor (next value) :=
    ((nextToken_spans hinside).resolve_left herr).resolve_left hend
  have hoff : (next value).1.offset = (skipWhitespace value).cursor := hspans.offset
  rw [hoff]
  exact ⟨hle, hspans⟩

end

/-- **A token is read again** from its offset. -/
theorem next_again (value : JsonLexer) :
    next ⟨value.source, (next value).1.offset⟩ = next value := by
  have hplace : JsonLexer.mk value.source (next value).1.offset = skipWhitespace value :=
    (congrArg (JsonLexer.mk · (next value).1.offset) (next_source value).symm).trans (goBack value)
  rw [hplace, next_skipWhitespace]

end Raz.Json
