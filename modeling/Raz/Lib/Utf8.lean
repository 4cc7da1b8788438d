/-!
# UTF-8

The byte sequences that encode one character, by the ranges of their bytes, and the texts made of
them. `String.utf8EncodeChar` is the encoding.

Results:
1. `isUtf8_cons_iff`: an ASCII byte in a text is a character of its own.
2. `isUtf8_cons`: every other byte at the front of a text begins a character without ASCII bytes.
-/

namespace Unicode

open List

variable {n : Nat} {bytes rest : List UInt8} {a : UInt8}

/-- A continuation byte. -/
def IsTail (b : UInt8) : Prop := 128 ≤ b.toNat ∧ b.toNat ≤ 191

/-- The ranges of the bytes of one character. -/
inductive WellFormed : List UInt8 → Prop
  | one {a : UInt8} : a.toNat ≤ 127 → WellFormed [a]
  | two {a b : UInt8} : 194 ≤ a.toNat → a.toNat ≤ 223 → IsTail b → WellFormed [a, b]
  | three {a b c : UInt8} : 224 ≤ a.toNat → a.toNat ≤ 239 → IsTail b → IsTail c →
      (a.toNat = 224 → 160 ≤ b.toNat) → (a.toNat = 237 → b.toNat ≤ 159) → WellFormed [a, b, c]
  | four {a b c d : UInt8} : 240 ≤ a.toNat → a.toNat ≤ 244 → IsTail b → IsTail c → IsTail d →
      (a.toNat = 240 → 144 ≤ b.toNat) → (a.toNat = 244 → b.toNat ≤ 143) →
      WellFormed [a, b, c, d]

theorem val_ofNat (h : n.isValidChar) : (Char.ofNat n).val.toNat = n := by
  rw [Char.ofNat, dif_pos h]
  rfl

theorem ofNat_eq {b : UInt8} (h : n = b.toNat) : UInt8.ofNat n = b := by
  rw [h, UInt8.ofNat_toNat]

/-- The character a well-formed sequence encodes. -/
theorem WellFormed.exists_char (h : WellFormed bytes) :
    ∃ c : Char, String.utf8EncodeChar c = bytes := by
  cases h with
  | @one a ha =>
    refine ⟨Char.ofNat a.toNat, ?_⟩
    have hval := val_ofNat (show a.toNat.isValidChar by unfold Nat.isValidChar; omega)
    unfold String.utf8EncodeChar
    simp only [hval]
    rw [if_pos ha, ofNat_eq rfl]
  | @two a b ha ha' hb =>
    obtain ⟨hb, hb'⟩ := hb
    generalize hn : a.toNat % 32 * 64 + b.toNat % 64 = n
    refine ⟨Char.ofNat n, ?_⟩
    have hval := val_ofNat (show n.isValidChar by unfold Nat.isValidChar; omega)
    unfold String.utf8EncodeChar
    simp only [hval]
    rw [if_neg (by omega), if_pos (by omega), ofNat_eq (show _ = a.toNat by omega),
      ofNat_eq (show _ = b.toNat by omega)]
  | @three a b c ha ha' hb hc hlow hhigh =>
    obtain ⟨hb, hb'⟩ := hb
    obtain ⟨hc, hc'⟩ := hc
    generalize hn : a.toNat % 16 * 4096 + b.toNat % 64 * 64 + c.toNat % 64 = n
    refine ⟨Char.ofNat n, ?_⟩
    have hval := val_ofNat (show n.isValidChar by unfold Nat.isValidChar; omega)
    unfold String.utf8EncodeChar
    simp only [hval]
    rw [if_neg (by omega), if_neg (by omega), if_pos (by omega),
      ofNat_eq (show _ = a.toNat by omega), ofNat_eq (show _ = b.toNat by omega),
      ofNat_eq (show _ = c.toNat by omega)]
  | @four a b c d ha ha' hb hc hd hlow hhigh =>
    obtain ⟨hb, hb'⟩ := hb
    obtain ⟨hc, hc'⟩ := hc
    obtain ⟨hd, hd'⟩ := hd
    generalize hn : a.toNat % 8 * 262144 + b.toNat % 64 * 4096 + c.toNat % 64 * 64 +
      d.toNat % 64 = n
    refine ⟨Char.ofNat n, ?_⟩
    have hval := val_ofNat (show n.isValidChar by unfold Nat.isValidChar; omega)
    unfold String.utf8EncodeChar
    simp only [hval]
    rw [if_neg (by omega), if_neg (by omega), if_neg (by omega),
      ofNat_eq (show _ = a.toNat by omega), ofNat_eq (show _ = b.toNat by omega),
      ofNat_eq (show _ = c.toNat by omega), ofNat_eq (show _ = d.toNat by omega)]

theorem toNat_ofNat (h : n < 256) : (UInt8.ofNat n).toNat = n :=
  UInt8.toNat_ofNat_of_lt' h

theorem isTail_ofNat (h : 128 ≤ n) (h' : n ≤ 191) : IsTail (UInt8.ofNat n) := by
  unfold IsTail
  rw [toNat_ofNat (by omega)]
  exact ⟨h, h'⟩

theorem wellFormed_utf8EncodeChar (c : Char) : WellFormed (String.utf8EncodeChar c) := by
  have hvalid : c.val.toNat < 55296 ∨ 57343 < c.val.toNat ∧ c.val.toNat < 1114112 := c.valid
  unfold String.utf8EncodeChar
  generalize c.val.toNat = n at hvalid
  simp only
  split
  · exact .one (by rw [toNat_ofNat (by omega)]; omega)
  split
  · exact .two (by rw [toNat_ofNat (by omega)]; omega) (by rw [toNat_ofNat (by omega)]; omega)
      (isTail_ofNat (by omega) (by omega))
  split
  · refine .three ?_ ?_ (isTail_ofNat (by omega) (by omega)) (isTail_ofNat (by omega) (by omega))
      ?_ ?_ <;> rw [toNat_ofNat (by omega)]
    · omega
    · omega
    · rw [toNat_ofNat (by omega)]
      omega
    · rw [toNat_ofNat (by omega)]
      omega
  · refine .four ?_ ?_ (isTail_ofNat (by omega) (by omega)) (isTail_ofNat (by omega) (by omega))
      (isTail_ofNat (by omega) (by omega)) ?_ ?_ <;> rw [toNat_ofNat (by omega)]
    · omega
    · omega
    · rw [toNat_ofNat (by omega)]
      omega
    · rw [toNat_ofNat (by omega)]
      omega

/-- **The well-formed sequences are the encodings of the characters.** -/
theorem wellFormed_iff : WellFormed bytes ↔ ∃ c : Char, String.utf8EncodeChar c = bytes :=
  ⟨fun h => h.exists_char, fun ⟨c, h⟩ => h ▸ wellFormed_utf8EncodeChar c⟩

/-- The scalar of a sequence by its bytes. -/
def scalarOf : List UInt8 → Nat
  | [a] => a.toNat
  | [a, b] => a.toNat % 32 * 64 + b.toNat % 64
  | [a, b, c] => (a.toNat % 16 * 64 + b.toNat % 64) * 64 + c.toNat % 64
  | [a, b, c, d] => ((a.toNat % 8 * 64 + b.toNat % 64) * 64 + c.toNat % 64) * 64 + d.toNat % 64
  | _ => 0

theorem scalarOf_utf8EncodeChar (c : Char) :
    scalarOf (String.utf8EncodeChar c) = c.val.toNat := by
  have hvalid : c.val.toNat < 55296 ∨ 57343 < c.val.toNat ∧ c.val.toNat < 1114112 := c.valid
  unfold String.utf8EncodeChar
  generalize c.val.toNat = n at hvalid ⊢
  dsimp only
  split
  · exact toNat_ofNat (by omega)
  split
  · unfold scalarOf
    dsimp only
    rw [toNat_ofNat (by omega), toNat_ofNat (by omega)]
    omega
  split
  · unfold scalarOf
    dsimp only
    rw [toNat_ofNat (by omega), toNat_ofNat (by omega), toNat_ofNat (by omega)]
    omega
  · unfold scalarOf
    dsimp only
    rw [toNat_ofNat (by omega), toNat_ofNat (by omega), toNat_ofNat (by omega),
      toNat_ofNat (by omega)]
    omega

/-- A character that is encoded in one byte. -/
theorem toNat_of_singleton {c : Char} (h : String.utf8EncodeChar c = [a]) :
    c.val.toNat = a.toNat := by
  unfold String.utf8EncodeChar at h
  generalize c.val.toNat = n at h ⊢
  simp only at h
  split at h
  · cases h
    exact (toNat_ofNat (by omega)).symm
  split at h
  · cases h
  split at h
  · cases h
  · cases h

/-- The characters of one byte differ as their bytes do. -/
theorem eq_iff_of_singleton {c c' : Char} {a' : UInt8} (h : String.utf8EncodeChar c = [a])
    (h' : String.utf8EncodeChar c' = [a']) : c = c' ↔ a = a' := by
  refine ⟨fun heq => ?_, fun heq => ?_⟩
  · subst heq
    rw [h] at h'
    cases h'
    rfl
  · refine Char.ext (UInt32.toNat_inj.mp ?_)
    rw [toNat_of_singleton h, toNat_of_singleton h', heq]

/-! ## Texts -/

/-- The bytes are an encoded text. -/
def IsUtf8 (bytes : List UInt8) : Prop :=
  ∃ text : List Char, bytes = text.flatMap String.utf8EncodeChar

theorem isUtf8_nil : IsUtf8 [] := ⟨[], rfl⟩

theorem IsUtf8.append {first : List UInt8} (hfirst : WellFormed first) (hrest : IsUtf8 rest) :
    IsUtf8 (first ++ rest) := by
  obtain ⟨c, rfl⟩ := hfirst.exists_char
  obtain ⟨text, rfl⟩ := hrest
  exact ⟨c :: text, rfl⟩

theorem IsUtf8.cases (h : IsUtf8 bytes) :
    bytes = [] ∨ ∃ first rest, WellFormed first ∧ bytes = first ++ rest ∧ IsUtf8 rest := by
  obtain ⟨text, rfl⟩ := h
  cases text with
  | nil => exact .inl rfl
  | cons c text => exact .inr ⟨_, _, wellFormed_utf8EncodeChar c, rfl, text, rfl⟩

/-- A sequence of one byte, or of bytes that are not ASCII. -/
theorem WellFormed.cases (h : WellFormed bytes) :
    (∃ a : UInt8, a.toNat ≤ 127 ∧ bytes = [a]) ∨ (bytes ≠ [] ∧ ∀ b ∈ bytes, 128 ≤ b.toNat) := by
  cases h with
  | one ha => exact .inl ⟨_, ha, rfl⟩
  | two ha _ hb =>
    refine .inr ⟨cons_ne_nil _ _, ?_⟩
    simp only [forall_mem_cons]
    exact ⟨by omega, hb.1, forall_mem_nil _⟩
  | three ha _ hb hc =>
    refine .inr ⟨cons_ne_nil _ _, ?_⟩
    simp only [forall_mem_cons]
    exact ⟨by omega, hb.1, hc.1, forall_mem_nil _⟩
  | four ha _ hb hc hd =>
    refine .inr ⟨cons_ne_nil _ _, ?_⟩
    simp only [forall_mem_cons]
    exact ⟨by omega, hb.1, hc.1, hd.1, forall_mem_nil _⟩

/-- An ASCII byte is a character. -/
theorem isUtf8_cons_iff (ha : a.toNat ≤ 127) : IsUtf8 (a :: rest) ↔ IsUtf8 rest := by
  refine ⟨fun h => ?_, fun h => IsUtf8.append (.one ha) h⟩
  rcases h.cases with hnil | ⟨first, rest', hfirst, heq, hrest⟩
  · cases hnil
  rcases hfirst.cases with ⟨a', _, rfl⟩ | ⟨hne, hbytes⟩
  · cases heq
    exact hrest
  · obtain ⟨b, first, rfl⟩ := exists_cons_of_ne_nil hne
    cases heq
    exact absurd (hbytes a mem_cons_self) (by omega)

/-- Another byte begins a character of such bytes. -/
theorem isUtf8_cons (ha : 127 < a.toNat) (h : IsUtf8 (a :: rest)) :
    ∃ first rest', WellFormed (a :: first) ∧ (∀ b ∈ first, 128 ≤ b.toNat) ∧
      rest = first ++ rest' ∧ IsUtf8 rest' := by
  rcases h.cases with hnil | ⟨first, rest', hfirst, heq, hrest⟩
  · cases hnil
  rcases hfirst.cases with ⟨a', ha', rfl⟩ | ⟨hne, hbytes⟩
  · cases heq
    exact absurd ha' (by omega)
  · obtain ⟨b, first, rfl⟩ := exists_cons_of_ne_nil hne
    cases heq
    exact ⟨first, rest', hfirst, fun b hb => hbytes b (mem_cons_of_mem _ hb), rfl, hrest⟩

end Unicode
