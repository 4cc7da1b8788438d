import Raz.Json.Decoding

/-!
# String tokens

An escaped string is one token that spells the string, every string token spells a text, and the
text that a token spells is decoded.

Result: `strings_exact`: escaping, scanning and decoding agree.
-/

namespace Raz.Json

open Memory Raz.Path Raz.Path.Storage Grammar Unicode List

variable {byte : UInt8} {bytes t content : List UInt8} {value : JsonLexer}

/-! ## Escaped strings -/

theorem hexDigit_spec {k : Nat} (h : k < 16) : HexDigit (hexDigit k) k := by
  have hall : ∀ k < 16, hexValue (hexDigit k) = some k := by decide
  exact hexValue_iff.mp (hall k h)

theorem hex4_spec {n : Nat} (h : n < 65536) : Hex4 (hex4 n) n := by
  have hmod (k : Nat) : k &&& 15 = k % 16 := Nat.and_two_pow_sub_one_eq_mod k 4
  have hlt (k : Nat) : k &&& 15 < 16 := by
    rw [hmod]
    exact Nat.mod_lt k (by decide)
  have hdigs : Hex4 (hex4 n) _ := .mk (hexDigit_spec (hlt (n >>> 12)))
    (hexDigit_spec (hlt (n >>> 8))) (hexDigit_spec (hlt (n >>> 4))) (hexDigit_spec (hlt n))
  rw [hmod, hmod, hmod, hmod, Nat.shiftRight_eq_div_pow, Nat.shiftRight_eq_div_pow,
    Nat.shiftRight_eq_div_pow] at hdigs
  have hn : ((n / 2 ^ 12 % 16 * 16 + n / 2 ^ 8 % 16) * 16 + n / 2 ^ 4 % 16) * 16 + n % 16 = n := by
    omega
  rwa [hn] at hdigs

theorem escapeOf_cases (h : isEscaped byte = true) :
    (∃ e ∈ simpleEscapes, simpleEscape e = some byte ∧ escapeOf byte = [92, e]) ∨
    ∃ digits, Hex4 digits byte.toNat ∧ byte.toNat < 32 ∧
      escapeOf byte = 92 :: 117 :: digits := by
  unfold escapeOf
  by_cases hself : byte = 34 ∨ byte = 92
  · rw [if_pos hself]
    obtain rfl | rfl := hself
    · exact .inl ⟨34, by decide, by decide, rfl⟩
    · exact .inl ⟨92, by decide, by decide, rfl⟩
  rw [if_neg hself]
  split
  · rename_i hbyte
    exact .inl ⟨98, by decide, by rw [hbyte]; decide, rfl⟩
  split
  · rename_i hbyte
    exact .inl ⟨116, by decide, by rw [hbyte]; decide, rfl⟩
  split
  · rename_i hbyte
    exact .inl ⟨110, by decide, by rw [hbyte]; decide, rfl⟩
  split
  · rename_i hbyte
    exact .inl ⟨102, by decide, by rw [hbyte]; decide, rfl⟩
  split
  · rename_i hbyte
    exact .inl ⟨114, by decide, by rw [hbyte]; decide, rfl⟩
  obtain ⟨hquote, hslash⟩ := not_or.mp hself
  unfold isEscaped at h
  rw [decide_eq_false hquote, decide_eq_false hslash, Bool.false_or, Bool.false_or,
    decide_eq_true_iff] at h
  have hlt : byte.toNat < 32 := UInt8.lt_iff_toNat_lt.mp h
  exact .inr ⟨hex4 byte.toNat, hex4_spec (by omega), hlt, rfl⟩

theorem encoding_ascii (h : byte.toNat < 128) : Core.Utf8.encoding byte.toNat = [byte] := by
  have hwidth : Core.Utf8.scalarWidth byte.toNat = 1 := by
    unfold Core.Utf8.scalarWidth Core.Utf8.scalarValid
    rw [if_neg (show ¬ ((byte.toNat : Int) < 0 ∨ (byte.toNat : Int) > 1114111) by omega),
      decide_eq_true (show (byte.toNat : Int) < 55296 by omega), Bool.true_or, if_neg nofun,
      if_pos (by omega)]
  unfold Core.Utf8.encoding
  rw [if_pos hwidth, Int.toNat_natCast, UInt8.ofNat_toNat]

theorem escaped_cons (byte : UInt8) (rest : List UInt8) :
    escaped (byte :: rest) = (if isEscaped byte then escapeOf byte else [byte]) ++ escaped rest :=
  rfl

theorem not_isEscaped (h : ¬ isEscaped byte = true) : 32 ≤ byte ∧ byte ≠ 34 ∧ byte ≠ 92 := by
  unfold isEscaped at h
  rw [Bool.or_eq_true, Bool.or_eq_true, decide_eq_true_iff, decide_eq_true_iff,
    decide_eq_true_iff] at h
  obtain ⟨hself, hcontrol⟩ := not_or.mp h
  exact ⟨UInt8.not_lt.mp hcontrol, not_or.mp hself⟩

/-- **An escaped string spells the string**, whatever its bytes are. -/
theorem spells_escaped (bytes : List UInt8) : Spells (escaped bytes) bytes := by
  induction bytes with
  | nil => exact .nil
  | cons byte bytes ih =>
    rw [escaped_cons]
    by_cases hescaped : isEscaped byte = true
    · rw [if_pos hescaped]
      obtain ⟨e, -, hsimple, heq⟩ | ⟨digits, hdigs, hlt, heq⟩ := escapeOf_cases hescaped
      · rw [heq]
        exact .escape hsimple ih
      have hspelled : UnicodeSpelled (117 :: digits) byte.toNat := .single hdigs (by omega)
      have hspells := Spells.unicode hspelled ih
      rw [encoding_ascii (by omega)] at hspells
      rw [heq]
      exact hspells
    · rw [if_neg hescaped]
      exact .plain (not_isEscaped hescaped).2.2 ih

theorem scans_escaped (bytes : List UInt8) : Scans (escaped bytes) := by
  induction bytes with
  | nil => exact .nil
  | cons byte bytes ih =>
    rw [escaped_cons]
    by_cases hescaped : isEscaped byte = true
    · rw [if_pos hescaped]
      obtain ⟨e, hsimple, -, heq⟩ | ⟨digits, hdigs, hlt, heq⟩ := escapeOf_cases hescaped
      · rw [heq]
        exact .escape hsimple ih
      · rw [heq]
        exact .unicode hdigs (by omega) ih
    · rw [if_neg hescaped]
      obtain ⟨hcontrol, hquote, hslash⟩ := not_isEscaped hescaped
      exact .plain hcontrol hquote hslash ih

theorem escaped_high (h : ∀ b ∈ bytes, 128 ≤ b.toNat) : escaped bytes = bytes := by
  induction bytes with
  | nil => rfl
  | cons byte bytes ih =>
    obtain ⟨hbyte, hrest⟩ := forall_mem_cons.mp h
    have hescaped : ¬ isEscaped byte = true := by
      unfold isEscaped
      rw [Bool.or_eq_true, Bool.or_eq_true, decide_eq_true_iff, decide_eq_true_iff,
        decide_eq_true_iff]
      rintro ((rfl | rfl) | hlt)
      · exact absurd hbyte (by decide)
      · exact absurd hbyte (by decide)
      · have hlt : byte.toNat < 32 := UInt8.lt_iff_toNat_lt.mp hlt
        omega
    rw [escaped_cons, if_neg hescaped, ih hrest]
    rfl

theorem isUtf8_escaped (h : IsUtf8 bytes) : IsUtf8 (escaped bytes) := by
  obtain ⟨text, rfl⟩ := h
  induction text with
  | nil => exact isUtf8_nil
  | cons c text ih =>
    have hsplit : escaped ((c :: text).flatMap String.utf8EncodeChar) =
        escaped (String.utf8EncodeChar c) ++ escaped (text.flatMap String.utf8EncodeChar) := by
      rw [flatMap_cons]
      exact flatMap_append
    have hformed := wellFormed_utf8EncodeChar c
    rw [hsplit]
    rcases hformed.cases with ⟨a, ha, heq⟩ | ⟨-, hbytes⟩
    · rw [heq, escaped_cons]
      by_cases hescaped : isEscaped a = true
      · rw [if_pos hescaped]
        obtain ⟨e, hsimple, -, heq⟩ | ⟨digits, hdigs, -, heq⟩ := escapeOf_cases hescaped
        · rw [heq]
          exact (isUtf8_cons_iff (by decide)).mpr
            ((isUtf8_cons_iff (simpleEscapes_ascii hsimple)).mpr ih)
        · rw [heq, append_assoc]
          exact (isUtf8_hex4 hdigs).mpr ih
      · rw [if_neg hescaped]
        exact (isUtf8_cons_iff ha).mpr ih
    · rw [escaped_high hbytes]
      exact IsUtf8.append hformed ih

theorem chars_escaped (h : IsUtf8 bytes) : Chars (escaped bytes) :=
  chars_iff.mpr ⟨scans_escaped bytes, isUtf8_escaped h⟩

/-! ## Content of tokens -/

theorem simpleEscape_mem {e : UInt8} (h : e ∈ simpleEscapes) :
    ∃ d, simpleEscape e = some d ∧ d.toNat ≤ 127 := by
  have hall : ∀ e ∈ simpleEscapes, (simpleEscape e).any (fun d => d.toNat ≤ 127) = true := by
    decide +kernel
  have hany := hall e h
  cases hsimple : simpleEscape e with
  | none =>
    rw [hsimple] at hany
    nomatch hany
  | some d =>
    rw [hsimple] at hany
    exact ⟨d, rfl, of_decide_eq_true hany⟩

theorem Spells.append_plain {front l : List UInt8} (hfront : ∀ b ∈ front, b ≠ 92) (h : Spells l t) :
    Spells (front ++ l) (front ++ t) := by
  induction front with
  | nil => exact h
  | cons b front ih =>
    obtain ⟨hb, hrest⟩ := forall_mem_cons.mp hfront
    exact .plain hb (ih hrest)

theorem isUtf8_encoding {code : Nat} (hcode : Core.Utf8.scalarValid code = true) (ht : IsUtf8 t) :
    IsUtf8 (Core.Utf8.encoding code ++ t) :=
  IsUtf8.append (Core.Utf8.wellFormed_encoding.mpr ⟨code, hcode, rfl⟩) ht

/-- **The content of a string token spells a text**, which is valid UTF-8. -/
theorem Chars.spells (h : Chars content) : ∃ t, Spells content t ∧ IsUtf8 t := by
  induction h with
  | nil => exact ⟨[], .nil, isUtf8_nil⟩
  | unescaped hcontrol hquote hslash _ ih =>
    obtain ⟨t, hspells, hutf8⟩ := ih
    have hplain := plain_of_unescaped hcontrol hquote hslash
    exact ⟨_, hspells.append_plain fun b hb => (hplain b hb).2.2,
      IsUtf8.append (wellFormed_utf8EncodeChar _) hutf8⟩
  | escape hescape _ ih =>
    obtain ⟨t, hspells, hutf8⟩ := ih
    obtain ⟨d, hsimple, hascii⟩ := simpleEscape_mem hescape
    exact ⟨d :: t, .escape hsimple hspells, (isUtf8_cons_iff hascii).mpr hutf8⟩
  | unicode hdigs hcode _ ih =>
    obtain ⟨t, hspells, hutf8⟩ := ih
    have hspelled := UnicodeSpelled.single hdigs hcode
    exact ⟨_, .unicode hspelled hspells, isUtf8_encoding hspelled.valid hutf8⟩
  | pair hdigs hhigh hhigh' hdigs' hlow hlow' _ ih =>
    obtain ⟨t, hspells, hutf8⟩ := ih
    have hspelled := UnicodeSpelled.pair hdigs hhigh hhigh' hdigs' hlow hlow'
    have hpair := Spells.unicode hspelled hspells
    rw [cons_append, append_assoc] at hpair
    exact ⟨_, hpair, isUtf8_encoding hspelled.valid hutf8⟩

/-! ## Tokens -/

theorem nextToken_string {r : List UInt8} (hcontent : Chars content)
    (hrest : value.rest = 34 :: (content ++ 34 :: r)) :
    nextToken value = (⟨.string, ⟨value.cursor + 1, content.length⟩, value.cursor, .none⟩,
      value.moveTo r) := by
  obtain ⟨hscans, hutf8⟩ := chars_iff.mp hcontent
  have hlen : (content ++ 34 :: r).length - (34 :: r).length = content.length := by
    rw [length_append, Nat.add_sub_cancel]
  have hvalid : ¬ Core.Utf8.validate content = false := by
    rw [Core.Utf8.validate_iff.mpr hutf8]
    nofun
  unfold nextToken
  rw [hrest]
  change scanString value value.cursor = _
  unfold scanString
  rw [hrest]
  simp only [drop_succ_cons, drop_zero, stringLoop_complete hscans, hlen, take_left]
  rw [if_neg hvalid]

theorem skipWhitespace_self {b : UInt8} {l : List UInt8} (hrest : value.rest = b :: l)
    (hb : whitespace b = false) : skipWhitespace value = value := by
  have hlt : value.cursor < value.source.length := by
    refine Nat.lt_of_not_le fun hle => ?_
    have hnil : value.rest = [] := drop_of_length_le hle
    exact nomatch hrest.symm.trans hnil
  unfold skipWhitespace JsonLexer.moveTo
  rw [hrest, dropWhile_cons_of_neg (by rw [hb]; nofun), ← hrest]
  have hcur : value.source.length - value.rest.length = value.cursor := by
    unfold JsonLexer.rest
    rw [length_drop]
    omega
  rw [hcur]

/-- **The token of a string** whose quote the lexer is at. -/
theorem next_string {r : List UInt8} (hcontent : Chars content)
    (hrest : value.rest = 34 :: (content ++ 34 :: r)) :
    next value = (⟨.string, ⟨value.cursor + 1, content.length⟩, value.cursor, .none⟩,
      value.moveTo r) := by
  unfold next
  rw [skipWhitespace_self hrest (by decide)]
  exact nextToken_string hcontent hrest

theorem next_string_sound (h : (next value).1.kind = .string) :
    ∃ lead content trail, Chars content ∧ value.source = lead ++ content ++ trail ∧
      (next value).1.lexeme = ⟨lead.length, content.length⟩ := by
  have hsrc : (skipWhitespace value).source = value.source := rfl
  obtain ⟨herr, -⟩ | htoken := nextToken_sound (skipWhitespace value)
  · exact nomatch h.symm.trans herr
  have hkind : (nextToken (skipWhitespace value)).1.kind = .string := h
  rw [hkind] at htoken
  generalize hl : (skipWhitespace value).rest = l at htoken
  generalize (nextToken (skipWhitespace value)).2.rest = r at htoken
  cases htoken with
  | @string content _ hcontent =>
    have hnext : next value = _ := nextToken_string hcontent hl
    have hsplit : value.source = value.source.take (skipWhitespace value).cursor ++
        34 :: (content ++ 34 :: r) := by
      rw [← hl, JsonLexer.rest, hsrc, take_append_drop]
    have hlt : (skipWhitespace value).cursor < value.source.length := by
      refine Nat.lt_of_not_le fun hle => ?_
      have hnil : (skipWhitespace value).rest = [] := drop_of_length_le hle
      exact nomatch hl.symm.trans hnil
    refine ⟨value.source.take (skipWhitespace value).cursor ++ [34], content, 34 :: r, hcontent,
      hsplit.trans (by simp), ?_⟩
    rw [hnext, length_append, length_take, Nat.min_eq_left (Nat.le_of_lt hlt)]
    rfl

/-! ## Escaping, scanning and decoding -/

/-- A string that can be written: it holds the text, the bytes at `base` stand apart from it, and
the allocator keeps them apart. -/
structure Writable (allocator : Allocator) (grants : Nat → Bool) (memory : Bytes)
    (output : Storage) (text : List UInt8) (base : Nat) (source : List UInt8) : Prop where
  ready : Ready memory output text base source
  allocator : Reallocates allocator grants base source.length
  limit : output.capacity ≤ 9223372036854775807
  data : source = [] ∨ base ≠ 0

/-- The call is done if there is room, and then it has appended the bytes. -/
def Appended (room : Prop) (text bytes : List UInt8) (base : Nat) (source : List UInt8)
    (outcome : Outcome) : Prop :=
  (room → outcome.1 = true) ∧
    (outcome.1 = true → Ready outcome.2.1 outcome.2.2 (text ++ bytes) base source)

/-- `decode_string` appends the text for the token, if room for the lexeme is granted. -/
def DecodesTo (source : List UInt8) (token : JsonToken) (t : List UInt8) : Prop :=
  ∀ (allocator : Allocator) (grants : Nat → Bool) (memory : Bytes) (output : Storage)
    (text : List UInt8) (base : Nat), Writable allocator grants memory output text base source →
    Appended (grows grants output.capacity (text.length + token.lexeme.length) = true) text t base
      source (decodeString allocator memory base token output)

/-- Wherever the bytes stand, they are scanned as one string token that covers them, and it is
decoded to the text. -/
def OneToken (bytes t : List UInt8) : Prop :=
  ∀ before after : List UInt8, ∃ token,
    next ⟨before ++ bytes ++ after, before.length⟩ =
      (token, ⟨before ++ bytes ++ after, before.length + bytes.length⟩) ∧
    token = ⟨.string, ⟨before.length + 1, bytes.length - 2⟩, before.length, .none⟩ ∧
    DecodesTo (before ++ bytes ++ after) token t

/-- `append_escaped_string` writes a token that is decoded to the text. -/
def EscapesBack (s : List UInt8) : Prop :=
  OneToken (quoted s) s ∧
    ∀ (allocator : Allocator) (grants : Nat → Bool) (memory : Bytes) (output : Storage)
      (text : List UInt8) (base : Nat), Writable allocator grants memory output text base s →
      Appended (HasRoom grants output.capacity (text.length + (quoted s).length)) text (quoted s)
        base s (appendEscapedString allocator memory output base s.length)

/-- A `decode_string` that fails, for any token whose view lies in the source, leaves the string
with its text. -/
def FailsClean (source : List UInt8) (token : JsonToken) : Prop :=
  token.lexeme.start + token.lexeme.length ≤ source.length →
  ∀ (allocator : Allocator) (grants : Nat → Bool) (memory : Bytes) (output : Storage)
    (text : List UInt8) (base : Nat), Writable allocator grants memory output text base source →
    (decodeString allocator memory base token output).1 = false →
      Ready (decodeString allocator memory base token output).2.1
        (decodeString allocator memory base token output).2.2 text base source

theorem decodesTo_of_spells {source lead trail : List UInt8} {token : JsonToken}
    (hsrc : source = lead ++ content ++ trail) (hkind : token.kind = .string)
    (htoken : token.lexeme = ⟨lead.length, content.length⟩) (ht : Spells content t) :
    DecodesTo source token t := by
  intro allocator grants memory output text base h
  have hdata : content = [] ∨ base ≠ 0 := by
    obtain hnil | hbase := h.data
    · rw [hsrc] at hnil
      exact .inl (append_eq_nil_iff.mp (append_eq_nil_iff.mp hnil).1).2
    · exact .inr hbase
  have hspec := (decodeString_spec h.ready h.allocator h.limit hdata hsrc htoken).2.2 t hkind ht
  rw [htoken]
  exact ⟨hspec.2, hspec.1⟩

theorem failsClean (source : List UInt8) (token : JsonToken) : FailsClean source token := by
  intro hview allocator grants memory output text base h
  have hlen : source.length - (source.length - token.lexeme.start) = token.lexeme.start := by
    omega
  have hsplit : source = source.take token.lexeme.start ++
      (source.drop token.lexeme.start).take token.lexeme.length ++
      (source.drop token.lexeme.start).drop token.lexeme.length := by
    rw [append_assoc, take_append_drop, take_append_drop]
  have htoken : token.lexeme = ⟨(source.take token.lexeme.start).length,
      ((source.drop token.lexeme.start).take token.lexeme.length).length⟩ := by
    rw [length_take, length_take, length_drop,
      Nat.min_eq_left (Nat.le_trans (Nat.le_add_right _ _) hview), Nat.min_eq_left (by omega)]
  refine (decodeString_spec h.ready h.allocator h.limit ?_ hsplit htoken).2.1
  obtain rfl | hbase := h.data
  · exact .inl (by rw [drop_nil, take_nil])
  · exact .inr hbase

theorem oneToken (hcontent : Chars content) (ht : Spells content t) :
    OneToken ([34] ++ (content ++ [34])) t := by
  intro before after
  have hsrc : before ++ ([34] ++ (content ++ [34])) ++ after =
      before ++ [34] ++ content ++ (34 :: after) := by
    simp
  have hrest : (JsonLexer.mk (before ++ ([34] ++ (content ++ [34])) ++ after) before.length).rest =
      34 :: (content ++ 34 :: after) := by
    unfold JsonLexer.rest
    simp
  have hlen : ([34] ++ (content ++ [34]) : List UInt8).length = content.length + 2 := by
    simp
  refine ⟨_, ?_, rfl, decodesTo_of_spells hsrc rfl ?_ ht⟩
  · rw [next_string hcontent hrest, hlen, Nat.add_sub_cancel]
    unfold JsonLexer.moveTo
    congr 2
    simp
    omega
  · rw [hlen, Nat.add_sub_cancel, length_append]
    rfl

theorem escapesBack {s : List UInt8} (h : IsUtf8 s) : EscapesBack s := by
  refine ⟨oneToken (chars_escaped h) (spells_escaped s), ?_⟩
  intro allocator grants memory output text base hwritable
  have happends := appends_escaped hwritable.ready hwritable.allocator hwritable.limit
    hwritable.data
  exact ⟨happends.done, happends.written⟩

/-- **Escaping, scanning and decoding agree**: an escaped text is one token that is decoded to the
text, every string token is decoded to valid UTF-8, and a call that fails leaves the string as it
was. -/
theorem strings_exact : (∀ s, IsUtf8 s → EscapesBack s) ∧
    (∀ value : JsonLexer, (next value).1.kind = .string →
      ∃ t, IsUtf8 t ∧ DecodesTo value.source (next value).1 t) ∧
    ∀ source token, FailsClean source token := by
  refine ⟨fun s h => escapesBack h, fun value h => ?_, failsClean⟩
  obtain ⟨lead, content, trail, hcontent, hsrc, htoken⟩ := next_string_sound h
  obtain ⟨t, hspells, hutf8⟩ := Chars.spells hcontent
  exact ⟨t, hutf8, decodesTo_of_spells hsrc h htoken hspells⟩

theorem exists_writable {base : Nat} (hbase : base ≠ 0) (source : List UInt8) :
    ∃ allocator memory, Writable allocator (fun _ => true) memory ⟨0, 0, 0⟩ [] base source := by
  obtain ⟨memory, hmemory⟩ := exists_stands 0 base source
  refine ⟨⟨fun _ => none, fun pointer old _ => some (pointer + old + base + source.length)⟩, memory,
    ⟨trivial, rfl, le_rfl, fun _ => rfl, hmemory, .inr ?_⟩, ?_, by decide, .inr hbase⟩
  · exact Nat.one_le_iff_ne_zero.mpr hbase
  rintro pointer old size
  refine ⟨rfl, ?_⟩
  rintro _ ⟨⟩
  exact ⟨by omega, .inr (.inl (by omega)), .inl (by omega)⟩

/-- A line break is written to an empty string as `"\n"`, which is decoded to it. -/
theorem newline_token : OneToken [34, 92, 110, 34] [10] ∧ ∃ allocator memory outcome,
    outcome = appendEscapedString allocator memory ⟨0, 0, 0⟩ 1 1 ∧ outcome.1 = true ∧
      Ready outcome.2.1 outcome.2.2 [34, 92, 110, 34] 1 [10] := by
  obtain ⟨allocator, memory, hwritable⟩ := @exists_writable 1 (by decide) [10]
  obtain ⟨htoken, hwrites⟩ := strings_exact.1 [10] ⟨['\n'], by decide⟩
  obtain ⟨hdone, hready⟩ := hwrites allocator _ memory _ _ _ hwritable
  have htrue := hdone (.inr ⟨fun _ => rfl, by decide⟩)
  exact ⟨htoken, allocator, memory, _, rfl, htrue, hready htrue⟩

end Raz.Json
