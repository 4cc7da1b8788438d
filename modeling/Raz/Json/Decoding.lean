import Raz.Json.Appending
import Raz.Json.Scanner

/-!
# Strings that are decoded

Translation of `decode_string`. The bytes of the token are read from memory while the string is
written, and every failure takes the string back to its old length.

Result: `decodeString_spec`: the text is appended, or the string is as it was.
-/

namespace Raz.Json

open Memory Raz.Path Raz.Path.Storage Grammar List

variable {code : Nat} {l t : List UInt8}

def simpleEscape (escape : UInt8) : Option UInt8 :=
  if escape = 34 ∨ escape = 92 ∨ escape = 47 then some escape
  else if escape = 98 then some 8
  else if escape = 102 then some 12
  else if escape = 110 then some 10
  else if escape = 114 then some 13
  else if escape = 116 then some 9
  else none

/-- `scan_hex4` over the bytes at `data`. -/
def scanHex4At (memory : Bytes) (data length offset : Nat) : Option Nat :=
  if offset + 4 > length then none
  else
    scanHex4 (memory (data + offset)) (memory (data + offset + 1)) (memory (data + offset + 2))
      (memory (data + offset + 3))

/-- A code point behind a backslash, and the index behind it. -/
def unicodeEscape (memory : Bytes) (data length index : Nat) : Option (Nat × Nat) :=
  if memory (data + index) ≠ 117 ∨ index + 4 ≥ length then none
  else
    match scanHex4At memory data length (index + 1) with
    | none => none
    | some high =>
        if high ≥ 55296 ∧ high ≤ 56319 then
          if index + 5 + 5 ≥ length ∨ memory (data + (index + 5)) ≠ 92 ∨
              memory (data + (index + 5) + 1) ≠ 117 then none
          else
            match scanHex4At memory data length (index + 5 + 2) with
            | none => none
            | some low =>
                if low < 56320 ∨ low > 57343 then none
                else some (65536 + (high - 55296) * 1024 + (low - 56320), index + 5 + 6)
        else if high ≥ 56320 ∧ high ≤ 57343 then none
        else some (high, index + 5)

/-- The loop of `decode_string` with the last run behind it. -/
def decodeLoop (allocator : Allocator) (data length : Nat) :
    Nat → Nat → Nat → Bytes → Storage → Outcome
  | 0, index, run, memory, output => appendRun allocator data run index memory output
  | rounds + 1, index, run, memory, output =>
      if index ≥ length then appendRun allocator data run index memory output
      else if memory (data + index) ≠ 92 then
        decodeLoop allocator data length rounds (index + 1) run memory output
      else
        andThen (appendRun allocator data run index memory output) fun memory output =>
          if index + 1 ≥ length then (false, memory, output)
          else
            match simpleEscape (memory (data + (index + 1))) with
            | some decoded =>
                andThen (answer memory output (pushByte allocator memory output decoded))
                  (decodeLoop allocator data length rounds (index + 2) (index + 2))
            | none =>
                match unicodeEscape memory data length (index + 1) with
                | none => (false, memory, output)
                | some (codepoint, behind) =>
                    andThen (appendUtf8Codepoint allocator codepoint memory output)
                      (decodeLoop allocator data length rounds behind behind)

/-- `truncate(output, original)`, and false. -/
def rollBack (original : Nat) (memory : Bytes) (output : Storage) : Outcome :=
  match truncate memory output original with
  | none => (false, memory, output)
  | some (memory, output) => (false, memory, output)

/-- The source of the token is at `base`. A sum that does not fit wraps to a negative length, for
which no room is needed. -/
def decodeString (allocator : Allocator) (memory : Bytes) (base : Nat) (token : JsonToken)
    (output : Storage) : Outcome :=
  if token.kind ≠ .string then (false, memory, output)
  else
    let original := output.length
    let reserved :=
      if original + token.lexeme.length ≤ 9223372036854775807 then
        reserve allocator memory output (original + token.lexeme.length)
      else some (memory, output)
    match reserved with
    | none => (false, memory, output)
    | some (memory, output) =>
        let (done, memory, output) :=
          decodeLoop allocator (base + token.lexeme.start) token.lexeme.length token.lexeme.length
            0 0 memory output
        if done then (true, memory, output) else rollBack original memory output

/-! ## Code points -/

/-- The bytes behind a backslash that stand for a code point. -/
inductive UnicodeSpelled : List UInt8 → Nat → Prop
  | single {digits : List UInt8} {code : Nat} : Hex4 digits code →
      ¬ (55296 ≤ code ∧ code ≤ 57343) → UnicodeSpelled (117 :: digits) code
  | pair {digits digits' : List UInt8} {high low : Nat} : Hex4 digits high → 55296 ≤ high →
      high ≤ 56319 → Hex4 digits' low → 56320 ≤ low → low ≤ 57343 →
      UnicodeSpelled (117 :: (digits ++ 92 :: 117 :: digits'))
        (65536 + (high - 55296) * 1024 + (low - 56320))

theorem hexDigit_lt {b : UInt8} {v : Nat} (h : HexDigit b v) : v < 16 := by
  cases h with
  | digit hlow hhigh =>
    have hle : b.toNat ≤ 57 := UInt8.le_iff_toNat_le.mp hhigh
    omega
  | upper hlow hhigh =>
    have hle : b.toNat ≤ 70 := UInt8.le_iff_toNat_le.mp hhigh
    omega
  | lower hlow hhigh =>
    have hle : b.toNat ≤ 102 := UInt8.le_iff_toNat_le.mp hhigh
    omega

theorem hex4_lt {digits : List UInt8} (h : Hex4 digits code) : code < 65536 := by
  cases h with
  | mk hw hx hy hz =>
    have hw := hexDigit_lt hw
    have hx := hexDigit_lt hx
    have hy := hexDigit_lt hy
    have hz := hexDigit_lt hz
    omega

theorem UnicodeSpelled.valid {used : List UInt8} (h : UnicodeSpelled used code) :
    Core.Utf8.scalarValid code = true := by
  unfold Core.Utf8.scalarValid
  cases h with
  | single hdigs hrange =>
    have hlt := hex4_lt hdigs
    rw [if_neg (by omega), Bool.or_eq_true, decide_eq_true_iff, decide_eq_true_iff]
    omega
  | pair =>
    rw [if_neg (by omega), Bool.or_eq_true, decide_eq_true_iff, decide_eq_true_iff]
    omega

theorem hex4_digits {digits : List UInt8} (h : Hex4 digits code) :
    ∃ a b c d, digits = [a, b, c, d] := by
  cases h with
  | mk => exact ⟨_, _, _, _, rfl⟩

theorem exists_five {l : List UInt8} (h : 5 ≤ l.length) :
    ∃ a b c d e r, l = a :: b :: c :: d :: e :: r :=
  match l, h with
  | a :: b :: c :: d :: e :: r, _ => ⟨a, b, c, d, e, r, rfl⟩

theorem exists_six {l : List UInt8} (h : 6 ≤ l.length) :
    ∃ a b c d e f r, l = a :: b :: c :: d :: e :: f :: r :=
  match l, h with
  | a :: b :: c :: d :: e :: f :: r, _ => ⟨a, b, c, d, e, f, r, rfl⟩

section

variable {memory : Bytes} {data index length : Nat} {rest : List UInt8}

theorem scanHex4At_eq {a b c d : UInt8}
    (h : Stands memory (data + index) (a :: b :: c :: d :: rest))
    (hlen : index + 4 ≤ length) : scanHex4At memory data length index = scanHex4 a b c d := by
  obtain ⟨ha, hb, hc, hd, -⟩ := h
  unfold scanHex4At
  rw [if_neg (Nat.not_lt.mpr hlen), ha, hb]
  change scanHex4 a b (memory (data + index + 1 + 1)) (memory (data + index + 1 + 1 + 1)) = _
  rw [hc, hd]

/-- **Which bytes are read as an escaped code point.** -/
theorem unicodeEscape_iff (h : Stands memory (data + index) rest)
    (hlen : index + rest.length = length) {code behind : Nat} :
    unicodeEscape memory data length index = some (code, behind) ↔
      ∃ used last, rest = used ++ last ∧ behind = index + used.length ∧
        UnicodeSpelled used code := by
  constructor
  · intro hsome
    unfold unicodeEscape at hsome
    split at hsome
    · nomatch hsome
    rename_i hfirst
    obtain ⟨hu, hroom⟩ := not_or.mp hfirst
    obtain ⟨u, a, b, c, d, last, rfl⟩ := @exists_five rest (by omega)
    have hu : u = 117 := h.1.symm.trans (Decidable.not_not.mp hu)
    subst hu
    have hdigs := @scanHex4At_eq memory data (index + 1) length last a b c d h.2 (by omega)
    rw [hdigs] at hsome
    split at hsome
    · nomatch hsome
    rename_i high hhigh
    have hhigh := scanHex4_iff.mp hhigh
    split at hsome
    · rename_i hrange
      split at hsome
      · nomatch hsome
      rename_i hnext
      obtain ⟨hroom', hnext⟩ := not_or.mp hnext
      obtain ⟨hslash, hu'⟩ := not_or.mp hnext
      simp only [length_cons] at hlen
      obtain ⟨backslash, u, a', b', c', d', last, rfl⟩ := @exists_six last (by omega)
      have hlast : Stands memory (data + (index + 5)) _ := h.2.2.2.2.2
      obtain rfl : backslash = 92 := hlast.1.symm.trans (Decidable.not_not.mp hslash)
      obtain rfl : u = 117 := hlast.2.1.symm.trans (Decidable.not_not.mp hu')
      simp only [length_cons] at hlen
      have hdigs' := @scanHex4At_eq memory data (index + 5 + 2) length last a' b' c' d'
        hlast.2.2 (by omega)
      rw [hdigs'] at hsome
      split at hsome
      · nomatch hsome
      rename_i low hlow
      split at hsome
      · nomatch hsome
      obtain ⟨rfl, rfl⟩ := Prod.mk.inj (Option.some.inj hsome)
      exact ⟨_, last, rfl, rfl, .pair hhigh hrange.1 hrange.2 (scanHex4_iff.mp hlow) (by omega)
        (by omega)⟩
    · split at hsome
      · nomatch hsome
      · cases hsome
        exact ⟨[117, a, b, c, d], last, rfl, rfl, .single hhigh (by omega)⟩
  · rintro ⟨used, last, rfl, rfl, hspelled⟩
    unfold unicodeEscape
    cases hspelled with
    | single hdigs hrange =>
      obtain ⟨a, b, c, d, rfl⟩ := hex4_digits hdigs
      simp only [cons_append, nil_append, length_cons] at h hlen
      have hfirst : ¬ (memory (data + index) ≠ 117 ∨ index + 4 ≥ length) :=
        not_or.mpr ⟨fun hne => hne h.1, by omega⟩
      have hread := @scanHex4At_eq memory data (index + 1) length last a b c d h.2 (by omega)
      rw [if_neg hfirst, hread, scanHex4_iff.mpr hdigs]
      dsimp only
      rw [if_neg (by omega), if_neg (by omega)]
      rfl
    | @pair _ _ high low hdigs hlow hhigh hdigs' hlow' hhigh' =>
      obtain ⟨a, b, c, d, rfl⟩ := hex4_digits hdigs
      obtain ⟨a', b', c', d', rfl⟩ := hex4_digits hdigs'
      simp only [cons_append, nil_append, length_cons] at h hlen
      have hfirst : ¬ (memory (data + index) ≠ 117 ∨ index + 4 ≥ length) :=
        not_or.mpr ⟨fun hne => hne h.1, by omega⟩
      have hlast : Stands memory (data + (index + 5)) _ := h.2.2.2.2.2
      have hsecond : ¬ (index + 5 + 5 ≥ length ∨ memory (data + (index + 5)) ≠ 92 ∨
          memory (data + (index + 5) + 1) ≠ 117) :=
        not_or.mpr ⟨by omega, not_or.mpr ⟨fun hne => hne hlast.1, fun hne => hne hlast.2.1⟩⟩
      have hread := @scanHex4At_eq memory data (index + 1) length _ a b c d h.2 (by omega)
      have hread' := @scanHex4At_eq memory data (index + 5 + 2) length last a' b' c' d'
        hlast.2.2 (by omega)
      rw [if_neg hfirst, hread, scanHex4_iff.mpr hdigs]
      dsimp only
      rw [if_pos ⟨hlow, hhigh⟩, if_neg hsecond, hread', scanHex4_iff.mpr hdigs']
      dsimp only
      rw [if_neg (by omega)]
      rfl

theorem UnicodeSpelled.unique {used used' last last' : List UInt8} {code code' : Nat}
    (h : UnicodeSpelled used code) (h' : UnicodeSpelled used' code')
    (heq : used ++ last = used' ++ last') : used = used' ∧ code = code' ∧ last = last' := by
  obtain ⟨memory, hstands⟩ := exists_stands 0 (0 + 0) (used ++ last)
  have hiff {code behind : Nat} := @unicodeEscape_iff memory 0 0 (0 + (used ++ last).length)
    (used ++ last) hstands rfl code behind
  have hone := hiff.mpr ⟨used, last, rfl, rfl, h⟩
  have hother := hiff.mpr ⟨used', last', heq, rfl, h'⟩
  obtain ⟨hcode, hlengths⟩ := Prod.mk.inj (Option.some.inj (hone.symm.trans hother))
  obtain ⟨hused, hlast⟩ := append_inj heq (Nat.add_left_cancel hlengths)
  exact ⟨hused, hcode, hlast⟩

end

/-! ## The loop -/

/-- The content of a token spells a text. -/
inductive Spells : List UInt8 → List UInt8 → Prop
  | nil : Spells [] []
  | plain {b : UInt8} {l t : List UInt8} : b ≠ 92 → Spells l t → Spells (b :: l) (b :: t)
  | escape {e d : UInt8} {l t : List UInt8} : simpleEscape e = some d → Spells l t →
      Spells (92 :: e :: l) (d :: t)
  | unicode {used l t : List UInt8} {code : Nat} : UnicodeSpelled used code → Spells l t →
      Spells (92 :: (used ++ l)) (Core.Utf8.encoding code ++ t)

theorem Spells.of_plain {b : UInt8} (h : Spells (b :: l) t) (hb : b ≠ 92) :
    ∃ t', t = b :: t' ∧ Spells l t' := by
  cases h with
  | plain _ h => exact ⟨_, rfl, h⟩
  | escape => exact absurd rfl hb
  | unicode => exact absurd rfl hb

theorem UnicodeSpelled.head {used : List UInt8} (h : UnicodeSpelled used code) :
    ∃ last, used = 117 :: last := by
  cases h with
  | single => exact ⟨_, rfl⟩
  | pair => exact ⟨_, rfl⟩

theorem Spells.of_backslash (h : Spells (92 :: l) t) :
    (∃ e d l' t', l = e :: l' ∧ simpleEscape e = some d ∧ t = d :: t' ∧ Spells l' t') ∨
    ∃ used code l' t', l = used ++ l' ∧ UnicodeSpelled used code ∧
      t = Core.Utf8.encoding code ++ t' ∧ Spells l' t' := by
  cases h with
  | plain hb => exact absurd rfl hb
  | escape hescape h => exact .inl ⟨_, _, _, _, rfl, hescape, rfl, h⟩
  | unicode hspelled h => exact .inr ⟨_, _, _, _, rfl, hspelled, rfl, h⟩

/-- **A content spells one text.** -/
theorem Spells.unique {l t t' : List UInt8} (h : Spells l t) (h' : Spells l t') : t = t' := by
  induction h generalizing t' with
  | nil =>
    cases h'
    rfl
  | plain hb _ ih =>
    obtain ⟨last, rfl, hlast⟩ := h'.of_plain hb
    exact congrArg _ (ih hlast)
  | @escape e d l t hsimple _ ih =>
    obtain ⟨e', d', l', last, heq, hsimple', rfl, hlast⟩ | ⟨used, _, _, _, heq, hspelled, -⟩ :=
      h'.of_backslash
    · obtain ⟨rfl, rfl⟩ := List.cons.inj heq
      obtain rfl := Option.some.inj (hsimple.symm.trans hsimple')
      exact congrArg _ (ih hlast)
    · obtain ⟨_, rfl⟩ := hspelled.head
      obtain ⟨rfl, -⟩ := List.cons.inj heq
      nomatch hsimple
  | @unicode used l t code hspelled _ ih =>
    obtain ⟨e, _, _, _, heq, hsimple, -⟩ | ⟨used', code', l', last, heq, hspelled', rfl, hlast⟩ :=
      h'.of_backslash
    · obtain ⟨_, rfl⟩ := hspelled.head
      obtain ⟨rfl, -⟩ := List.cons.inj heq
      nomatch hsimple
    · obtain ⟨-, rfl, rfl⟩ := hspelled.unique hspelled' heq
      exact congrArg _ (ih hlast)

/-- The text that the rest spells is appended behind a run; where the rest spells none, or room is
refused, bytes may stand behind the old text. -/
def Decodes (grants : Nat → Bool) (output : Storage) (text : List UInt8) (source : Nat)
    (part run rest : List UInt8) (outcome : Outcome) : Prop :=
  Grown output text source part outcome ∧
    ∀ t, Spells rest t → Appends grants output text source part (run ++ t) outcome

section

variable {allocator : Allocator} {grants : Nat → Bool} {source data length : Nat}
  {lead trail part text run rest : List UInt8} {memory : Bytes} {output : Storage}
  {outcome : Outcome}

theorem decodes_end (h : Appends grants output text source part run outcome) :
    Decodes grants output text source part run [] outcome := by
  refine ⟨h.grown, fun t ht => ?_⟩
  cases ht
  rwa [append_nil]

theorem decodes_failed (h : Ready memory output text source part)
    (hlimit : output.capacity ≤ 9223372036854775807) (hrest : ∀ t, ¬ Spells rest t) :
    Decodes grants output text source part run rest (false, memory, output) :=
  ⟨Grown.refl h hlimit false, fun t ht => absurd ht (hrest t)⟩

theorem Appends.decodes {second : Bytes → Storage → Outcome} {first : List UInt8}
    (rest' : List UInt8) (h : Appends grants output text source part first outcome)
    (hspells : ∀ t, Spells rest t → ∃ t', Spells rest' t' ∧ run ++ t = first ++ t')
    (hsecond : outcome.1 = true → Decodes grants outcome.2.2 (text ++ first) source part [] rest'
      (second outcome.2.1 outcome.2.2)) :
    Decodes grants output text source part run rest (Json.andThen outcome second) := by
  refine ⟨h.grown_andThen fun hdone => (hsecond hdone).1, fun t ht => ?_⟩
  obtain ⟨t', ht', heq⟩ := hspells t ht
  rw [heq]
  exact h.andThen fun hdone => (hsecond hdone).2 t' ht'

/-- **The loop from an index on.** -/
theorem decodeLoop_spec (halloc : Reallocates allocator grants source part.length)
    (hsrc : source ≠ 0) (hdata : data = source + lead.length) (rounds : Nat) :
    ∀ {front plain rest : List UInt8} {memory : Bytes} {output : Storage} {text : List UInt8},
      part = lead ++ front ++ plain ++ (rest ++ trail) →
      length = front.length + plain.length + rest.length →
      Ready memory output text source part → output.capacity ≤ 9223372036854775807 →
      rest.length ≤ rounds →
      Decodes grants output text source part plain rest (decodeLoop allocator data length rounds
        (front.length + plain.length) front.length memory output) := by
  have hrun {front plain rest : List UInt8} {memory : Bytes} {output : Storage} {text : List UInt8}
      (hpart : part = lead ++ front ++ plain ++ (rest ++ trail))
      (h : Ready memory output text source part) (hlimit : output.capacity ≤ 9223372036854775807) :
      Appends grants output text source part plain (appendRun allocator data front.length
        (front.length + plain.length) memory output) := by
    rw [hpart] at h halloc ⊢
    refine appends_run h halloc hlimit hsrc ?_ rfl
    rw [hdata, length_append, Nat.add_assoc]
  have hread {front plain rest : List UInt8} {memory : Bytes} {output : Storage}
      {text : List UInt8} (hpart : part = lead ++ front ++ plain ++ (rest ++ trail))
      (h : Ready memory output text source part) :
      Stands memory (data + (front.length + plain.length)) rest := by
    have hstands := h.beside
    rw [hpart] at hstands
    have hlast := (Stands.append_iff.mp (Stands.append_iff.mp hstands).2).1
    rwa [length_append, length_append, Nat.add_assoc, ← Nat.add_assoc source, ← hdata] at hlast
  induction rounds with
  | zero =>
    intro front plain rest memory output text hpart _ h hlimit hrounds
    obtain rfl := eq_nil_of_length_eq_zero (Nat.le_zero.mp hrounds)
    exact decodes_end (hrun hpart h hlimit)
  | succ rounds ih =>
    intro front plain rest memory output text hpart hlen h hlimit hrounds
    have hfirst := hrun hpart h hlimit
    rw [decodeLoop]
    cases rest with
    | nil =>
      rw [if_pos (show front.length + plain.length ≥ length from Nat.le_of_eq hlen)]
      exact decodes_end hfirst
    | cons byte rest =>
      rw [length_cons] at hlen hrounds
      rw [if_neg (by omega), (hread hpart h).1]
      by_cases hplain : byte ≠ 92
      · -- the run goes on
        rw [if_pos hplain]
        have hidx : front.length + plain.length + 1 =
            front.length + (plain ++ [byte]).length := by
          rw [length_append, Nat.add_assoc]
          rfl
        obtain ⟨hgrown, happends⟩ := @ih front (plain ++ [byte]) rest memory output text
          (by rw [hpart]; simp) (by omega) h hlimit (by omega)
        rw [hidx]
        refine ⟨hgrown, fun t ht => ?_⟩
        obtain ⟨t', rfl, ht'⟩ := ht.of_plain hplain
        have hnext := happends t' ht'
        rwa [append_assoc] at hnext
      obtain rfl := Decidable.not_not.mp hplain
      rw [if_neg hplain]
      refine hfirst.decodes (92 :: rest) (fun t ht => ⟨t, ht, rfl⟩) fun hdone => ?_
      have hready := hfirst.written hdone
      have hlimit := hfirst.grown.limit
      have hbehind := (hread hpart hready).2
      -- the rest behind an escape, in front of which nothing is left to append
      have hnext {used last : List UInt8} (hrest : rest = used ++ last) {memory : Bytes}
          {output : Storage} {text : List UInt8} (h : Ready memory output text source part)
          (hlimit : output.capacity ≤ 9223372036854775807) :
          Decodes grants output text source part [] last (decodeLoop allocator data length rounds
            (front.length + plain.length + 1 + used.length)
            (front.length + plain.length + 1 + used.length) memory output) := by
        have hidx : front.length + plain.length + 1 + used.length =
            (front ++ plain ++ 92 :: used).length := by
          rw [length_append, length_append, length_cons]
          omega
        rw [hrest, length_append] at hlen hrounds
        rw [hidx]
        exact @ih (front ++ plain ++ 92 :: used) [] last memory output text
          (by rw [hpart, hrest]; simp) (by rw [← hidx]; simp; omega) h hlimit (by omega)
      generalize (appendRun allocator data front.length (front.length + plain.length) memory
        output).2 = state at hready hlimit hbehind ⊢
      obtain ⟨memory, output⟩ := state
      dsimp only at hready hlimit hbehind ⊢
      cases rest with
      | nil =>
        rw [if_pos (by rw [hlen]; exact le_rfl)]
        refine decodes_failed hready hlimit fun t ht => ?_
        obtain ⟨_, _, _, _, hnil, -⟩ | ⟨used, _, _, _, hnil, hspelled, -⟩ := ht.of_backslash
        · nomatch hnil
        · obtain ⟨_, rfl⟩ := hspelled.head
          nomatch hnil
      | cons e rest =>
        rw [length_cons] at hlen
        rw [if_neg (by omega)]
        have hescape : memory (data + (front.length + plain.length + 1)) = e := hbehind.1
        rw [hescape]
        cases hsimple : simpleEscape e with
        | some d =>
          have hpush := appends_pushByte hready halloc hlimit d
          refine hpush.decodes rest (fun t ht => ?_) fun hdone' =>
            @hnext [e] rest rfl _ _ _ (hpush.written hdone') hpush.grown.limit
          obtain ⟨_, d', _, t', heq, hsimple', rfl, ht'⟩ | ⟨_, _, _, _, heq, hspelled, -⟩ :=
            ht.of_backslash
          · obtain ⟨rfl, rfl⟩ := List.cons.inj heq
            obtain rfl := Option.some.inj (hsimple.symm.trans hsimple')
            exact ⟨t', ht', rfl⟩
          · obtain ⟨_, rfl⟩ := hspelled.head
            obtain ⟨rfl, -⟩ := List.cons.inj heq
            nomatch hsimple
        | none =>
          have hiff {code behind : Nat} := @unicodeEscape_iff memory data
            (front.length + plain.length + 1) length (e :: rest) hbehind
            (by rw [length_cons]; omega) code behind
          cases hunicode : unicodeEscape memory data length (front.length + plain.length + 1) with
          | none =>
            refine decodes_failed hready hlimit fun t ht => ?_
            obtain ⟨_, _, _, _, heq, hsimple', -⟩ | ⟨used, code, last, _, heq, hspelled, -⟩ :=
              ht.of_backslash
            · obtain ⟨rfl, -⟩ := List.cons.inj heq
              exact nomatch hsimple.symm.trans hsimple'
            · exact nomatch hunicode.symm.trans (hiff.mpr ⟨used, last, heq, rfl, hspelled⟩)
          | some result =>
            obtain ⟨code, behind⟩ := result
            obtain ⟨used, last, heq, rfl, hspelled⟩ := hiff.mp hunicode
            have hcode := appends_codepoint hready halloc hlimit hspelled.valid
            refine hcode.decodes last (fun t ht => ?_) fun hdone' =>
              hnext heq (hcode.written hdone') hcode.grown.limit
            obtain ⟨_, d, _, _, heq', hsimple', -⟩ | ⟨used', code', last', t', heq', hspelled',
              rfl, ht'⟩ := ht.of_backslash
            · obtain ⟨rfl, -⟩ := List.cons.inj heq'
              exact nomatch hsimple.symm.trans hsimple'
            have hsame := hunicode.symm.trans (hiff.mpr ⟨used', last', heq', rfl, hspelled'⟩)
            obtain ⟨rfl, hlengths⟩ := Prod.mk.inj (Option.some.inj hsame)
            obtain ⟨-, rfl⟩ := append_inj (heq.symm.trans heq') (Nat.add_left_cancel hlengths)
            exact ⟨t', ht', rfl⟩

theorem Spells.length_le (h : Spells l t) : t.length ≤ l.length := by
  induction h with
  | nil => exact le_rfl
  | plain _ _ ih => exact Nat.succ_le_succ ih
  | escape _ _ ih => exact Nat.succ_le_succ (Nat.le_succ_of_le ih)
  | @unicode used l t code hspelled _ ih =>
    have hwidth := Core.Utf8.scalarWidth_le code
    have hused : 4 ≤ used.length := by
      cases hspelled with
      | single hdigs =>
        obtain ⟨_, _, _, _, rfl⟩ := hex4_digits hdigs
        exact Nat.le_succ 4
      | pair hdigs =>
        obtain ⟨_, _, _, _, rfl⟩ := hex4_digits hdigs
        exact Nat.le_add_left 4 _
    rw [length_append, length_cons, length_append, Core.Utf8.length_encoding hspelled.valid]
    omega

theorem rollBack_ready {written : List UInt8}
    (h : Ready memory output (text ++ written) source part) :
    (rollBack text.length memory output).1 = false ∧
      Ready (rollBack text.length memory output).2.1 (rollBack text.length memory output).2.2 text
        source part ∧
      (rollBack text.length memory output).2.2.capacity = output.capacity := by
  obtain ⟨memory', output', htruncate, hready, hcap⟩ := h.truncate
  unfold rollBack
  rw [htruncate]
  exact ⟨rfl, hready, hcap⟩

variable {content : List UInt8} {token : JsonToken}

/-- Behind the loop the text stays, or the string is taken back. -/
theorem Decodes.finish (h : Decodes grants output text source part [] content outcome)
    {result : Outcome} (hres : result = if outcome.1 then (true, outcome.2.1, outcome.2.2)
      else rollBack text.length outcome.2.1 outcome.2.2) :
    result.1 = outcome.1 ∧ Grown output text source part result ∧
      (result.1 = false → Ready result.2.1 result.2.2 text source part) ∧
      ∀ t, Spells content t → result.1 = true →
        Ready result.2.1 result.2.2 (text ++ t) source part := by
  obtain ⟨hgrown, happends⟩ := h
  obtain ⟨written, hready⟩ := hgrown.ready
  obtain ⟨hfalse, hback, hcap⟩ := rollBack_ready hready
  cases hdone : outcome.1 with
  | true =>
    rw [hdone, if_pos rfl] at hres
    subst hres
    exact ⟨rfl, ⟨hgrown.ready, hgrown.limit, hgrown.room⟩, nofun,
      fun t ht _ => (happends t ht).written hdone⟩
  | false =>
    rw [hdone, if_neg nofun] at hres
    subst hres
    refine ⟨hfalse, ⟨⟨[], ?_⟩, ?_, ?_⟩, fun _ => hback, fun t _ htrue => ?_⟩
    · rwa [append_nil]
    · rw [hcap]
      exact hgrown.limit
    · rw [hcap]
      exact hgrown.room
    · exact nomatch hfalse.symm.trans htrue

/-- **A token is decoded.** The string is as it was where the answer is false. Where the content of
a string token spells a text, the text is appended, and all that can be refused is the room for the
content. -/
theorem decodeString_spec (h : Ready memory output text source part)
    (halloc : Reallocates allocator grants source part.length)
    (hlimit : output.capacity ≤ 9223372036854775807) (hsrc : content = [] ∨ source ≠ 0)
    (hpart : part = lead ++ content ++ trail)
    (htoken : token.lexeme = ⟨lead.length, content.length⟩) :
    Grown output text source part (decodeString allocator memory source token output) ∧
    ((decodeString allocator memory source token output).1 = false →
      Ready (decodeString allocator memory source token output).2.1
        (decodeString allocator memory source token output).2.2 text source part) ∧
    ∀ t, token.kind = .string → Spells content t →
      ((decodeString allocator memory source token output).1 = true →
        Ready (decodeString allocator memory source token output).2.1
          (decodeString allocator memory source token output).2.2 (text ++ t) source part) ∧
      (grows grants output.capacity (text.length + content.length) = true →
        (decodeString allocator memory source token output).1 = true) := by
  unfold decodeString
  rw [htoken]
  dsimp only
  by_cases hkind : token.kind ≠ .string
  · rw [if_pos hkind]
    exact ⟨Grown.refl h hlimit false, fun _ => h, fun _ hstr => absurd hstr hkind⟩
  rw [if_neg hkind]
  -- the loop behind the room that is reserved
  have hloop {memory : Bytes} {output' : Storage} (h : Ready memory output' text source part)
      (hlimit : output'.capacity ≤ 9223372036854775807)
      (hcap : output.capacity ≤ output'.capacity)
      (hroom : grows grants output.capacity (text.length + content.length) = true →
        text.length + content.length ≤ output'.capacity) {outcome : Outcome}
      (houtcome : outcome = decodeLoop allocator (source + lead.length) content.length
        content.length 0 0 memory output') {result : Outcome}
      (hres : result = if outcome.1 then (true, outcome.2.1, outcome.2.2)
        else rollBack text.length outcome.2.1 outcome.2.2) :
      Grown output text source part result ∧
      (result.1 = false → Ready result.2.1 result.2.2 text source part) ∧
      ∀ t, token.kind = .string → Spells content t →
        (result.1 = true → Ready result.2.1 result.2.2 (text ++ t) source part) ∧
        (grows grants output.capacity (text.length + content.length) = true →
          result.1 = true) := by
    have hdecodes : Decodes grants output' text source part [] content outcome := by
      rw [houtcome]
      obtain rfl | hsrc := hsrc
      · exact decodes_end (Appends.refl h hlimit)
      · exact @decodeLoop_spec allocator grants source (source + lead.length) content.length lead
          trail part halloc hsrc rfl content.length [] [] content memory output' text
          (by rw [hpart]; simp) (by simp) h hlimit le_rfl
    obtain ⟨hsame, hgrown, hback, hwrote⟩ := hdecodes.finish hres
    refine ⟨⟨hgrown.ready, hgrown.limit, Nat.le_trans hcap hgrown.room⟩, hback,
      fun t _ ht => ⟨hwrote t ht, fun hgrows => ?_⟩⟩
    have hlen := ht.length_le
    have hle := hroom hgrows
    exact hsame.trans ((hdecodes.2 t ht).done (.inl (by rw [nil_append]; omega)))
  rw [h.length]
  by_cases hsum : text.length + content.length ≤ 9223372036854775807
  · rw [if_pos hsum]
    obtain ⟨hgrows, hnone⟩ | ⟨hgrows, memory', output', hsome, hready, hcap⟩ :=
      h.reserve halloc (text.length + content.length)
    · rw [hnone]
      exact ⟨Grown.refl h hlimit false, fun _ => h,
        fun t _ _ => ⟨nofun, fun htrue => nomatch hgrows.symm.trans htrue⟩⟩
    rw [hsome]
    have hle := le_growthCapacity output.capacity (text.length + content.length)
    exact hloop hready (hcap ▸ growthCapacity_le hlimit hgrows) (hcap ▸ hle.2)
      (fun _ => hcap ▸ hle.1) rfl rfl
  · rw [if_neg hsum]
    refine hloop h hlimit le_rfl (fun hgrows => ?_) rfl rfl
    have hle := growthCapacity_le hlimit hgrows
    have hroom := (le_growthCapacity output.capacity (text.length + content.length)).1
    omega

/-- A token is not decoded where the block for its lexeme is refused. -/
theorem decodeString_refused (h : Ready memory output text source part)
    (halloc : Reallocates allocator grants source part.length)
    (hlen : text.length + token.lexeme.length ≤ 9223372036854775807)
    (hgrows : grows grants output.capacity (text.length + token.lexeme.length) = false) :
    (decodeString allocator memory source token output).1 = false := by
  unfold decodeString
  rw [h.length]
  dsimp only
  by_cases hkind : token.kind ≠ .string
  · rw [if_pos hkind]
  rw [if_neg hkind, if_pos hlen]
  obtain ⟨-, hnone⟩ | ⟨hgranted, -⟩ :=
    h.reserve halloc (text.length + token.lexeme.length)
  · rw [hnone]
  · exact nomatch hgrows.symm.trans hgranted

end

end Raz.Json
