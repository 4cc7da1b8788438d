import Raz.Lib.Utf8

/-!
# JSON texts

The grammar of RFC 8259 over the bytes of a text. A rule relates the bytes in front of what it
derives to the bytes behind. Outside of strings every character is ASCII; a character of a string
is its encoding, and a surrogate escape only comes in a pair.

`Value n` has the values in which nothing lies inside more than `n` arrays and objects, so that a
text nests at most `n` deep if it is a `JsonText n`.

Result: `Number.head`, `Value.head`: the byte that begins a number or a value.
-/

namespace Raz.Json.Grammar

open List

variable {l r m : List UInt8} {inner : List UInt8 → List UInt8 → Prop} {n : Nat}

/-- `ws`, in front of the second list. -/
inductive Ws : List UInt8 → List UInt8 → Prop
  | nil {r : List UInt8} : Ws r r
  | cons {b : UInt8} {l r : List UInt8} : b ∈ [32, 9, 10, 13] → Ws l r → Ws (b :: l) r

/-! ## Numbers -/

def IsDigit (b : UInt8) : Prop := 48 ≤ b ∧ b ≤ 57

/-- `*DIGIT`. -/
inductive Digits : List UInt8 → List UInt8 → Prop
  | nil {r : List UInt8} : Digits r r
  | cons {d : UInt8} {l r : List UInt8} : IsDigit d → Digits l r → Digits (d :: l) r

/-- `int = zero / ( digit1-9 *DIGIT )`. -/
inductive Integer : List UInt8 → List UInt8 → Prop
  | zero {r : List UInt8} : Integer (48 :: r) r
  | digits {d : UInt8} {l r : List UInt8} : 49 ≤ d → d ≤ 57 → Digits l r → Integer (d :: l) r

/-- `[ decimal-point 1*DIGIT ]`. -/
inductive Frac : List UInt8 → List UInt8 → Prop
  | absent {r : List UInt8} : Frac r r
  | digits {d : UInt8} {l r : List UInt8} : IsDigit d → Digits l r → Frac (46 :: d :: l) r

/-- `[ e [ minus / plus ] 1*DIGIT ]`. -/
inductive Exp : List UInt8 → List UInt8 → Prop
  | absent {r : List UInt8} : Exp r r
  | digits {e d : UInt8} {l r : List UInt8} : e ∈ [101, 69] → IsDigit d → Digits l r →
      Exp (e :: d :: l) r
  | signed {e sign d : UInt8} {l r : List UInt8} : e ∈ [101, 69] → sign ∈ [43, 45] → IsDigit d →
      Digits l r → Exp (e :: sign :: d :: l) r

/-- `number = [ minus ] int [ frac ] [ exp ]`. -/
inductive Number : List UInt8 → List UInt8 → Prop
  | plain {l m k r : List UInt8} : Integer l m → Frac m k → Exp k r → Number l r
  | minus {l m k r : List UInt8} : Integer l m → Frac m k → Exp k r → Number (45 :: l) r

/-! ## Strings -/

/-- `HEXDIG`, with its value. -/
inductive HexDigit : UInt8 → Nat → Prop
  | digit {b : UInt8} : 48 ≤ b → b ≤ 57 → HexDigit b (b.toNat - 48)
  | upper {b : UInt8} : 65 ≤ b → b ≤ 70 → HexDigit b (b.toNat - 55)
  | lower {b : UInt8} : 97 ≤ b → b ≤ 102 → HexDigit b (b.toNat - 87)

/-- `4HEXDIG`, with its value. -/
inductive Hex4 : List UInt8 → Nat → Prop
  | mk {a b c d : UInt8} {w x y z : Nat} : HexDigit a w → HexDigit b x → HexDigit c y →
      HexDigit d z → Hex4 [a, b, c, d] (((w * 16 + x) * 16 + y) * 16 + z)

/-- `*char`: what stands between the quotation marks. -/
inductive Chars : List UInt8 → Prop
  | nil : Chars []
  /-- `unescaped`. -/
  | unescaped {c : Char} {l : List UInt8} : 32 ≤ c.val.toNat → c ≠ '"' → c ≠ '\\' → Chars l →
      Chars (String.utf8EncodeChar c ++ l)
  | escape {e : UInt8} {l : List UInt8} : e ∈ [34, 92, 47, 98, 102, 110, 114, 116] → Chars l →
      Chars (92 :: e :: l)
  | unicode {digits l : List UInt8} {code : Nat} : Hex4 digits code →
      ¬ (55296 ≤ code ∧ code ≤ 57343) → Chars l → Chars (92 :: 117 :: (digits ++ l))
  /-- A high surrogate and a low one. -/
  | pair {digits digits' l : List UInt8} {high low : Nat} : Hex4 digits high →
      55296 ≤ high → high ≤ 56319 → Hex4 digits' low → 56320 ≤ low → low ≤ 57343 → Chars l →
      Chars (92 :: 117 :: (digits ++ 92 :: 117 :: (digits' ++ l)))

/-! ## Values -/

/-- Items with commas between them, and the byte that closes them. -/
inductive Items (item : List UInt8 → List UInt8 → Prop) (close : UInt8) :
    List UInt8 → List UInt8 → Prop
  | last {l m k r : List UInt8} : Ws l m → item m k → Ws k (close :: r) → Items item close l r
  | more {l m k k' r : List UInt8} : Ws l m → item m k → Ws k (44 :: k') →
      Items item close k' r → Items item close l r

/-- `member = string name-separator value`. -/
inductive Member (value : List UInt8 → List UInt8 → Prop) : List UInt8 → List UInt8 → Prop
  | mk {key l m k r : List UInt8} : Chars key → Ws l (58 :: m) → Ws m k → value k r →
      Member value (34 :: (key ++ 34 :: l)) r

/-- `value`, the values inside it being those of `inner`. -/
inductive ValueOf (inner : List UInt8 → List UInt8 → Prop) : List UInt8 → List UInt8 → Prop
  | false {r : List UInt8} : ValueOf inner (102 :: 97 :: 108 :: 115 :: 101 :: r) r
  | null {r : List UInt8} : ValueOf inner (110 :: 117 :: 108 :: 108 :: r) r
  | true {r : List UInt8} : ValueOf inner (116 :: 114 :: 117 :: 101 :: r) r
  | number {l r : List UInt8} : Number l r → ValueOf inner l r
  | string {content r : List UInt8} : Chars content → ValueOf inner (34 :: (content ++ 34 :: r)) r
  | emptyArray {l r : List UInt8} : Ws l (93 :: r) → ValueOf inner (91 :: l) r
  | array {l r : List UInt8} : Items inner 93 l r → ValueOf inner (91 :: l) r
  | emptyObject {l r : List UInt8} : Ws l (125 :: r) → ValueOf inner (123 :: l) r
  | object {l r : List UInt8} : Items (Member inner) 125 l r → ValueOf inner (123 :: l) r

def Value : Nat → List UInt8 → List UInt8 → Prop
  | 0 => ValueOf (fun _ _ => False)
  | n + 1 => ValueOf (Value n)

/-- `JSON-text = ws value ws`, nested at most `n` deep. -/
def JsonText (n : Nat) (text : List UInt8) : Prop :=
  ∃ m k, Ws text m ∧ Value n m k ∧ Ws k []

/-! ## Depth -/

theorem Items.mono {item item' : List UInt8 → List UInt8 → Prop} (h : ∀ l r, item l r → item' l r)
    {close : UInt8} (hitems : Items item close l r) : Items item' close l r := by
  induction hitems with
  | last hws hitem hclose => exact .last hws (h _ _ hitem) hclose
  | more hws hitem hcomma _ ih => exact .more hws (h _ _ hitem) hcomma ih

theorem Member.mono {value value' : List UInt8 → List UInt8 → Prop}
    (h : ∀ l r, value l r → value' l r) (l r : List UInt8) (hmem : Member value l r) :
    Member value' l r := by
  cases hmem with
  | mk hkey hcolon hws hval => exact .mk hkey hcolon hws (h _ _ hval)

theorem ValueOf.mono {inner' : List UInt8 → List UInt8 → Prop} (h : ∀ l r, inner l r → inner' l r)
    (l r : List UInt8) (hval : ValueOf inner l r) :
    ValueOf inner' l r := by
  cases hval with
  | false => exact .false
  | null => exact .null
  | true => exact .true
  | number hnum => exact .number hnum
  | string hcontent => exact .string hcontent
  | emptyArray hws => exact .emptyArray hws
  | array hitems => exact .array (hitems.mono h)
  | emptyObject hws => exact .emptyObject hws
  | object hitems => exact .object (hitems.mono (Member.mono h))

theorem Value.succ : ∀ l r : List UInt8, Value n l r → Value (n + 1) l r := by
  induction n with
  | zero => exact ValueOf.mono (fun _ _ h => h.elim)
  | succ n ih => exact ValueOf.mono ih

theorem Value.mono {n' : Nat} (hle : n ≤ n') (h : Value n l r) : Value n' l r := by
  induction hle with
  | refl => exact h
  | step _ ih => exact Value.succ _ _ ih

theorem JsonText.mono {n' : Nat} (hle : n ≤ n') {text : List UInt8} (h : JsonText n text) :
    JsonText n' text := by
  obtain ⟨m, k, hm, hval, hk⟩ := h
  exact ⟨m, k, hm, hval.mono hle, hk⟩

/-! ## What stands behind -/

theorem Ws.suffix (h : Ws l r) : r <:+ l := by
  induction h with
  | nil => exact suffix_refl _
  | cons _ _ ih => exact ih.trans (suffix_cons _ _)

theorem Digits.suffix (h : Digits l r) : r <:+ l := by
  induction h with
  | nil => exact suffix_refl _
  | cons _ _ ih => exact ih.trans (suffix_cons _ _)

theorem Integer.length_lt (h : Integer l m) : m.length < l.length := by
  cases h with
  | zero => exact Nat.lt_succ_self _
  | digits _ _ hdigs => exact Nat.lt_succ_of_le hdigs.suffix.length_le

theorem Integer.suffix (h : Integer l m) : m <:+ l := by
  cases h with
  | zero => exact suffix_cons _ _
  | digits _ _ hdigs => exact hdigs.suffix.trans (suffix_cons _ _)

theorem Frac.suffix {k : List UInt8} (h : Frac m k) : k <:+ m := by
  cases h with
  | absent => exact suffix_refl _
  | digits _ hdigs => exact hdigs.suffix.trans ((suffix_cons _ _).trans (suffix_cons _ _))

theorem Exp.suffix {k : List UInt8} (h : Exp k r) : r <:+ k := by
  cases h with
  | absent => exact suffix_refl _
  | digits _ _ hdigs => exact hdigs.suffix.trans ((suffix_cons _ _).trans (suffix_cons _ _))
  | signed _ _ _ hdigs =>
    exact hdigs.suffix.trans ((suffix_cons _ _).trans ((suffix_cons _ _).trans (suffix_cons _ _)))

theorem Number.suffix (h : Number l r) : r <:+ l := by
  cases h with
  | plain hint hfrac hexp => exact hexp.suffix.trans (hfrac.suffix.trans hint.suffix)
  | minus hint hfrac hexp =>
    exact hexp.suffix.trans (hfrac.suffix.trans (hint.suffix.trans (suffix_cons _ _)))

theorem Number.length_lt (h : Number l r) : r.length < l.length := by
  cases h with
  | plain hint hfrac hexp =>
    exact Nat.lt_of_le_of_lt (hexp.suffix.trans hfrac.suffix).length_le hint.length_lt
  | minus hint hfrac hexp =>
    exact Nat.lt_succ_of_lt
      (Nat.lt_of_le_of_lt (hexp.suffix.trans hfrac.suffix).length_le hint.length_lt)

theorem Items.suffix {item : List UInt8 → List UInt8 → Prop} (h : ∀ l r, item l r → r <:+ l)
    {close : UInt8} (hitems : Items item close l r) : r <:+ l := by
  induction hitems with
  | last hws hitem hclose =>
    exact (suffix_cons _ _).trans (hclose.suffix.trans ((h _ _ hitem).trans hws.suffix))
  | more hws hitem hcomma _ ih =>
    exact ih.trans ((suffix_cons _ _).trans (hcomma.suffix.trans ((h _ _ hitem).trans hws.suffix)))

theorem suffix_content (content r : List UInt8) : r <:+ 34 :: (content ++ 34 :: r) :=
  (suffix_cons _ _).trans ((suffix_append _ _).trans (suffix_cons _ _))

theorem Member.suffix {value : List UInt8 → List UInt8 → Prop} (h : ∀ l r, value l r → r <:+ l)
    (l r : List UInt8) (hmem : Member value l r) : r <:+ l := by
  cases hmem with
  | mk _ hcolon hws hval =>
    exact (h _ _ hval).trans (hws.suffix.trans ((suffix_cons _ _).trans
      (hcolon.suffix.trans (suffix_content _ _))))

theorem ValueOf.suffix (h : ∀ l r, inner l r → r <:+ l) (l r : List UInt8)
    (hval : ValueOf inner l r) : r <:+ l := by
  cases hval with
  | false => exact suffix_append [_, _, _, _, _] _
  | null => exact suffix_append [_, _, _, _] _
  | true => exact suffix_append [_, _, _, _] _
  | number hnum => exact hnum.suffix
  | string => exact suffix_content _ _
  | emptyArray hws => exact (suffix_cons _ _).trans (hws.suffix.trans (suffix_cons _ _))
  | array hitems => exact (hitems.suffix h).trans (suffix_cons _ _)
  | emptyObject hws => exact (suffix_cons _ _).trans (hws.suffix.trans (suffix_cons _ _))
  | object hitems => exact (hitems.suffix (Member.suffix h)).trans (suffix_cons _ _)

theorem Value.suffix (n : Nat) : ∀ l r : List UInt8, Value n l r → r <:+ l := by
  induction n with
  | zero => exact ValueOf.suffix (fun _ _ h => h.elim)
  | succ n ih => exact ValueOf.suffix ih

/-! ## The byte in front -/

theorem Number.head (h : Number l r) : ∃ b l', l = b :: l' ∧ (b = 45 ∨ IsDigit b) := by
  cases h with
  | minus => exact ⟨_, _, rfl, .inl rfl⟩
  | plain hint =>
    cases hint with
    | zero => exact ⟨_, _, rfl, .inr ⟨by decide, by decide⟩⟩
    | digits hlow hhigh =>
      exact ⟨_, _, rfl, .inr ⟨UInt8.le_trans (by decide : (48 : UInt8) ≤ 49) hlow, hhigh⟩⟩

/-- A value begins neither with whitespace nor with the end of an array. -/
theorem ValueOf.head (h : ValueOf inner l r) :
    ∃ b l', l = b :: l' ∧ b ∉ [32, 9, 10, 13] ∧ b ≠ 93 := by
  cases h with
  | number hnum =>
    obtain ⟨b, l', rfl, hb⟩ := hnum.head
    refine ⟨b, l', rfl, ?_, ?_⟩
    · rcases hb with rfl | ⟨hlow, _⟩
      · decide
      · simp only [mem_cons, not_mem_nil, or_false]
        rintro (rfl | rfl | rfl | rfl) <;> exact absurd hlow (by decide)
    · rcases hb with rfl | ⟨_, hhigh⟩
      · decide
      · rintro rfl
        exact absurd hhigh (by decide)
  | _ => exact ⟨_, _, rfl, by decide, by decide⟩

theorem Value.head (h : Value n l r) : ∃ b l', l = b :: l' ∧ b ∉ [32, 9, 10, 13] ∧ b ≠ 93 := by
  cases n with
  | zero => exact ValueOf.head h
  | succ n => exact ValueOf.head h

end Raz.Json.Grammar
