import Raz.Lib.Lz77
import Raz.Lz4.Model

/-!
# The LZ4 block format

The bytes of a block, sequence by sequence, independent of the encoder that finds the
matches and of the buffer the decoder writes to.

Result: `token_nibbles`, `distance_bytes`: the token and the offset are read back exactly.
-/

namespace Raz.Lz4

open Lz77

/-! ## Bytes of a block -/

/-- Extension bytes of a length: one 255 for every 255, then the rest. -/
def lengthBytes (remaining : Nat) : List UInt8 :=
  List.replicate (remaining / 255) 255 ++ [UInt8.ofNat (remaining % 255)]

/-- A length as it fits the four bits of a token. -/
def nibble (length : Nat) : Nat := if length > 15 then 15 else length

def literalBytes (literals : List UInt8) (matchToken : Nat) : List UInt8 :=
  UInt8.ofNat ((nibble literals.length <<< 4) ||| matchToken) ::
    ((if literals.length ≥ 15 then lengthBytes (literals.length - 15) else []) ++ literals)

def matchBytes (distance matchLength : Nat) : List UInt8 :=
  [UInt8.ofNat (distance &&& 255), UInt8.ofNat ((distance >>> 8) &&& 255)] ++
    if matchLength - 4 ≥ 15 then lengthBytes (matchLength - 4 - 15) else []

def sequenceBytes (s : Sequence UInt8) : List UInt8 :=
  literalBytes s.literals (nibble (s.matchLength - 4)) ++ matchBytes s.distance s.matchLength

def blockBytes (sequences : List (Sequence UInt8)) : List UInt8 :=
  sequences.flatMap sequenceBytes

/-- A sequence the format can express after `out`: the offset fits two bytes and stays
inside the text, the match has at least four bytes. -/
structure ValidAfter (out : List UInt8) (s : Sequence UInt8) : Prop where
  distance_pos : 0 < s.distance
  distance_le : s.distance ≤ 65535
  distance_back : s.distance ≤ out.length + s.literals.length
  minMatch : 4 ≤ s.matchLength

/-- Every sequence is valid after the text of those before it. -/
def ValidFrom : List UInt8 → List (Sequence UInt8) → Prop
  | _, [] => True
  | out, s :: rest => ValidAfter out s ∧ ValidFrom (s.apply out) rest

theorem validFrom_snoc (sequences : List (Sequence UInt8)) (s : Sequence UInt8) :
    ∀ out, ValidFrom out sequences →
      ValidAfter (sequences.foldl (fun out s => s.apply out) out) s →
      ValidFrom out (sequences ++ [s]) := by
  induction sequences with
  | nil => intro out _ h; exact ⟨h, trivial⟩
  | cons head rest ih =>
    rintro out ⟨hhead, hrest⟩ h
    exact ⟨hhead, ih _ hrest h⟩

theorem ValidAfter.length_apply {out : List UInt8} {s : Sequence UInt8} (h : ValidAfter out s) :
    (s.apply out).length = out.length + s.literals.length + s.matchLength := by
  have hback := h.distance_back
  unfold Sequence.apply
  rw [length_appendMatch h.distance_pos _ _ (by simpa using hback)]
  simp

theorem length_le_foldl : ∀ (sequences : List (Sequence UInt8)) {out : List UInt8},
    ValidFrom out sequences →
      out.length ≤ (sequences.foldl (fun out s => s.apply out) out).length := by
  intro sequences
  induction sequences with
  | nil => intro out _; exact Nat.le_refl _
  | cons s rest ih =>
    rintro out ⟨hs, hrest⟩
    have hlen := hs.length_apply
    have hrec := ih hrest
    rw [List.foldl_cons]
    omega

/-! ## Size -/

@[simp] theorem lengthBytes_length (remaining : Nat) :
    (lengthBytes remaining).length = remaining / 255 + 1 := by
  simp [lengthBytes]

theorem literalBytes_length_le (literals : List UInt8) (matchToken : Nat) :
    (literalBytes literals matchToken).length ≤ literals.length + literals.length / 255 + 2 := by
  unfold literalBytes
  split <;> simp <;> omega

theorem matchBytes_length_lt (distance : Nat) {matchLength : Nat} (h : 4 ≤ matchLength) :
    (matchBytes distance matchLength).length + 2 ≤ matchLength := by
  unfold matchBytes
  split <;> simp <;> omega

/-- The amortised cost of one sequence: the match pays for token and offset, the literals
for their own extension bytes. -/
theorem sequenceBytes_length_le {s : Sequence UInt8} (h : 4 ≤ s.matchLength) :
    (sequenceBytes s).length ≤ s.literals.length + s.literals.length / 255 + s.matchLength := by
  have hl := literalBytes_length_le s.literals (nibble (s.matchLength - 4))
  have hm := matchBytes_length_lt s.distance h
  simp only [sequenceBytes, List.length_append]
  omega

theorem blockBytes_snoc (sequences : List (Sequence UInt8)) (s : Sequence UInt8) :
    blockBytes (sequences ++ [s]) = blockBytes sequences ++ sequenceBytes s := by
  simp [blockBytes]

theorem blockBytes_length_le : ∀ (sequences : List (Sequence UInt8)) (out : List UInt8),
    ValidFrom out sequences →
      (blockBytes sequences).length + out.length + out.length / 255 ≤
        (sequences.foldl (fun out s => s.apply out) out).length +
        (sequences.foldl (fun out s => s.apply out) out).length / 255 := by
  intro sequences
  induction sequences with
  | nil => intro out _; simp [blockBytes]
  | cons s rest ih =>
    rintro out ⟨hs, hrest⟩
    have hcost := sequenceBytes_length_le hs.minMatch
    have hlen := hs.length_apply
    have hrec := ih _ hrest
    simp only [blockBytes, List.flatMap_cons, List.length_append, List.foldl_cons] at hrec ⊢
    omega

/-! ## Token and offset -/

theorem nibble_le (length : Nat) : nibble length ≤ 15 := by
  unfold nibble; split <;> omega

theorem token_nibbles {high low : Nat} (hh : high ≤ 15) (hl : low ≤ 15) :
    (UInt8.ofNat ((high <<< 4) ||| low)).toNat >>> 4 = high ∧
      (UInt8.ofNat ((high <<< 4) ||| low)).toNat &&& 15 = low := by
  have hall : ∀ high < 16, ∀ low < 16, (UInt8.ofNat ((high <<< 4) ||| low)).toNat >>> 4 = high ∧
        (UInt8.ofNat ((high <<< 4) ||| low)).toNat &&& 15 = low := by decide
  exact hall high (by omega) low (by omega)

theorem distance_bytes {distance : Nat} (h : distance ≤ 65535) :
    (UInt8.ofNat (distance &&& 255)).toNat |||
      ((UInt8.ofNat ((distance >>> 8) &&& 255)).toNat <<< 8) = distance := by
  have hlow : (UInt8.ofNat (distance &&& 255)).toNat = distance % 256 := by
    have : distance &&& 255 = distance % 256 := Nat.and_two_pow_sub_one_eq_mod distance 8
    simp [this]
  have hhigh : (UInt8.ofNat ((distance >>> 8) &&& 255)).toNat = distance / 256 := by
    have hmask : (distance >>> 8) &&& 255 = distance / 256 := by
      have hmod : (distance >>> 8) &&& 255 = (distance >>> 8) % 256 :=
        Nat.and_two_pow_sub_one_eq_mod _ 8
      rw [hmod, Nat.shiftRight_eq_div_pow]
      omega
    rw [hmask]
    simp
    omega
  have hor := Nat.shiftLeft_add_eq_or_of_lt (i := 8) (b := distance % 256)
    (Nat.mod_lt _ (by decide)) (distance / 256)
  rw [hlow, hhigh, Nat.or_comm, ← hor, Nat.shiftLeft_eq]
  omega

theorem nibble_eq_fifteen (length : Nat) : nibble length = 15 ↔ 15 ≤ length := by
  unfold nibble; split <;> omega

theorem nibble_of_lt {length : Nat} (h : length < 15) : nibble length = length := by
  unfold nibble; split <;> omega

end Raz.Lz4
