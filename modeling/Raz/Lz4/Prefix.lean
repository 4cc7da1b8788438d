import Raz.Lz4.Buffer

/-!
# A block is read in one way only

No length, half of a sequence or sequence of the format is the beginning of another one, so that a
block is cut into sequences in one way, and a block that ends with a match is none that ends with
literals.

Result: `blockBytes_text_unique`: a block has one text.
-/

namespace Raz.Lz4

open List
open Lz77

variable {tail tail' : List UInt8}

/-- The bytes of a length behind its nibble. -/
def extensionBytes (length : Nat) : List UInt8 :=
  if length ≥ 15 then lengthBytes (length - 15) else []

theorem lengthBytes_ne_nil (remaining : Nat) : lengthBytes remaining ≠ [] := by
  simp [lengthBytes]

theorem lengthBytes_cons (remaining : Nat) : ∃ byte rest,
    lengthBytes remaining = byte :: rest ∧
      ((byte = 255 ∧ 255 ≤ remaining ∧ rest = lengthBytes (remaining - 255)) ∨
        (byte ≠ 255 ∧ byte.toNat = remaining ∧ rest = [])) := by
  rcases Nat.lt_or_ge remaining 255 with hlt | hge
  · have hval : (UInt8.ofNat remaining).toNat = remaining := by
      simp
      omega
    refine ⟨_, [], lengthBytes_of_lt hlt, .inr ⟨?_, hval, rfl⟩⟩
    intro heq
    rw [heq] at hval
    exact absurd hval (Nat.ne_of_gt hlt)
  · exact ⟨255, _, lengthBytes_of_ge hge, .inl ⟨rfl, hge, rfl⟩⟩

theorem lengthBytes_append_inj {left : Nat} : ∀ {right : Nat} {tail tail' : List UInt8},
    lengthBytes left ++ tail = lengthBytes right ++ tail' → left = right ∧ tail = tail' := by
  induction left using Nat.strongRecOn with
  | ind left ih =>
    intro right tail tail' h
    obtain ⟨byte, rest, hleft, hcases⟩ := lengthBytes_cons left
    obtain ⟨byte', rest', hright, hcases'⟩ := lengthBytes_cons right
    rw [hleft, hright] at h
    obtain ⟨rfl, hrest⟩ := List.cons.inj h
    obtain ⟨hbyte, hge, rfl⟩ | ⟨hbyte, hval, rfl⟩ := hcases
    · obtain ⟨-, hge', rfl⟩ | ⟨hbyte', -, -⟩ := hcases'
      · obtain ⟨heq, htail⟩ := ih (left - 255) (by omega) hrest
        exact ⟨by omega, htail⟩
      · exact absurd hbyte hbyte'
    · obtain ⟨hbyte', -, -⟩ | ⟨-, hval', rfl⟩ := hcases'
      · exact absurd hbyte' hbyte
      · exact ⟨hval.symm.trans hval', hrest⟩

theorem extensionBytes_append_inj {left right : Nat} (hnibble : nibble left = nibble right)
    (h : extensionBytes left ++ tail = extensionBytes right ++ tail') :
    left = right ∧ tail = tail' := by
  unfold extensionBytes at h
  by_cases hleft : 15 ≤ left
  · have hright := (nibble_eq_fifteen right).mp (hnibble ▸ (nibble_eq_fifteen left).mpr hleft)
    rw [if_pos hleft, if_pos hright] at h
    obtain ⟨heq, htail⟩ := lengthBytes_append_inj h
    exact ⟨by omega, htail⟩
  · have hright : ¬ 15 ≤ right := fun hge =>
      hleft ((nibble_eq_fifteen left).mp (hnibble ▸ (nibble_eq_fifteen right).mpr hge))
    rw [if_neg hleft, if_neg hright] at h
    rw [nibble_of_lt (Nat.not_le.mp hleft), nibble_of_lt (Nat.not_le.mp hright)] at hnibble
    exact ⟨hnibble, h⟩

/-! ## Halves of a sequence -/

theorem literalBytes_eq (literals : List UInt8) (matchToken : Nat) :
    literalBytes literals matchToken =
      UInt8.ofNat ((nibble literals.length <<< 4) ||| matchToken) ::
        (extensionBytes literals.length ++ literals) := rfl

theorem matchBytes_eq (distance matchLength : Nat) :
    matchBytes distance matchLength =
      UInt8.ofNat (distance &&& 255) :: UInt8.ofNat ((distance >>> 8) &&& 255) ::
        extensionBytes (matchLength - 4) := rfl

theorem literalBytes_append_inj {left right : List UInt8} {low low' : Nat} (hlow : low ≤ 15)
    (hlow' : low' ≤ 15) (h : literalBytes left low ++ tail = literalBytes right low' ++ tail') :
    left = right ∧ low = low' ∧ tail = tail' := by
  rw [literalBytes_eq, literalBytes_eq, cons_append, cons_append] at h
  obtain ⟨htoken, hrest⟩ := List.cons.inj h
  obtain ⟨hhigh, hlow⟩ := token_nibbles (nibble_le left.length) hlow
  obtain ⟨hhigh', hlow'⟩ := token_nibbles (nibble_le right.length) hlow'
  rw [htoken] at hhigh hlow
  rw [append_assoc, append_assoc] at hrest
  obtain ⟨hlen, happend⟩ := extensionBytes_append_inj (hhigh.symm.trans hhigh') hrest
  obtain ⟨hliterals, htail⟩ := append_inj happend hlen
  exact ⟨hliterals, hlow.symm.trans hlow', htail⟩

theorem matchBytes_append_inj {distance distance' matchLength matchLength' : Nat}
    (hnibble : nibble (matchLength - 4) = nibble (matchLength' - 4)) (hfar : distance ≤ 65535)
    (hfar' : distance' ≤ 65535) (hmin : 4 ≤ matchLength) (hmin' : 4 ≤ matchLength')
    (h : matchBytes distance matchLength ++ tail = matchBytes distance' matchLength' ++ tail') :
    distance = distance' ∧ matchLength = matchLength' ∧ tail = tail' := by
  rw [matchBytes_eq, matchBytes_eq] at h
  obtain ⟨hlow, hhigh, hrest⟩ : _ ∧ _ ∧ _ := by
    simpa only [cons_append, List.cons.injEq] using h
  obtain ⟨hlen, htail⟩ := extensionBytes_append_inj hnibble hrest
  refine ⟨?_, by omega, htail⟩
  rw [← distance_bytes hfar, hlow, hhigh, distance_bytes hfar']

theorem sequenceBytes_append_inj {out : List UInt8} {s other : Sequence UInt8}
    (h : ValidAfter out s) (hother : ValidAfter out other)
    (hbytes : sequenceBytes s ++ tail = sequenceBytes other ++ tail') :
    s = other ∧ tail = tail' := by
  rw [sequenceBytes, sequenceBytes, append_assoc, append_assoc] at hbytes
  obtain ⟨hliterals, hnibble, hmatch⟩ := literalBytes_append_inj (nibble_le _) (nibble_le _) hbytes
  obtain ⟨hdistance, hlen, htail⟩ := matchBytes_append_inj hnibble h.distance_le
    hother.distance_le h.minMatch hother.minMatch hmatch
  cases s
  cases other
  obtain rfl := hliterals
  obtain rfl := hdistance
  obtain rfl := hlen
  exact ⟨rfl, htail⟩

theorem literalBytes_ne_sequence {literals : List UInt8} {low : Nat} (hlow : low ≤ 15)
    (s : Sequence UInt8) : literalBytes literals low ≠ sequenceBytes s ++ tail := by
  intro h
  rw [← append_nil (literalBytes literals low), sequenceBytes, append_assoc] at h
  obtain ⟨-, -, hnil⟩ := literalBytes_append_inj hlow (nibble_le _) h
  rw [matchBytes_eq] at hnil
  cases hnil

theorem blockBytes_cons (s : Sequence UInt8) (rest : List (Sequence UInt8)) :
    blockBytes (s :: rest) = sequenceBytes s ++ blockBytes rest := List.flatMap_cons

/-- **A block that ends with a match does not end with literals.** -/
theorem blockBytes_ne {sequences : List (Sequence UInt8)} : ∀ {out : List UInt8}
    {others : List (Sequence UInt8)} {literals : List UInt8} {low : Nat},
    ValidFrom out sequences → ValidFrom out others → low ≤ 15 →
    blockBytes sequences ≠ blockBytes others ++ literalBytes literals low := by
  induction sequences with
  | nil =>
    rintro out others literals low - - - h
    have hlen := congrArg List.length h
    simp [blockBytes, literalBytes] at hlen
  | cons s rest ih =>
    rintro out others literals low ⟨hs, hrest⟩ hothers hlow h
    cases others with
    | nil => exact literalBytes_ne_sequence hlow s h.symm
    | cons other others =>
      rw [blockBytes_cons, blockBytes_cons, append_assoc] at h
      obtain ⟨rfl, htail⟩ := sequenceBytes_append_inj hs hothers.1 h
      exact ih hrest hothers.2 hlow htail

/-- **A block has one text.** -/
theorem blockBytes_text_unique {sequences : List (Sequence UInt8)} : ∀ {out : List UInt8}
    {others : List (Sequence UInt8)} {literals literals' : List UInt8} {low low' : Nat},
    ValidFrom out sequences → ValidFrom out others → low ≤ 15 → low' ≤ 15 →
    blockBytes sequences ++ literalBytes literals low =
      blockBytes others ++ literalBytes literals' low' →
    sequences.foldl (fun out s => s.apply out) out ++ literals =
      others.foldl (fun out s => s.apply out) out ++ literals' := by
  induction sequences with
  | nil =>
    rintro out others literals literals' low low' - hothers hlow hlow' h
    cases others with
    | nil =>
      have h' : literalBytes literals low ++ [] = literalBytes literals' low' ++ [] := by
        rw [append_nil, append_nil]
        exact h
      rw [(literalBytes_append_inj hlow hlow' h').1]
    | cons other others =>
      rw [blockBytes_cons, append_assoc] at h
      exact absurd h (literalBytes_ne_sequence hlow other)
  | cons s rest ih =>
    rintro out others literals literals' low low' ⟨hs, hrest⟩ hothers hlow hlow' h
    cases others with
    | nil =>
      rw [blockBytes_cons, append_assoc] at h
      exact absurd h.symm (literalBytes_ne_sequence hlow' s)
    | cons other others =>
      rw [blockBytes_cons, blockBytes_cons, append_assoc, append_assoc] at h
      obtain ⟨rfl, htail⟩ := sequenceBytes_append_inj hs hothers.1 h
      exact ih hrest hothers.2 hlow hlow' htail

end Raz.Lz4
