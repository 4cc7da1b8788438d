/-!
# Back references into the text already written

The decoder side of every LZ77 format: a sequence appends literal symbols and then copies
`length` symbols from `distance` back, one at a time, so that the copied range may overlap
its own result.

Results:
1. `appendMatch_take`: a match whose symbols were compared extends a prefix of the text to
   a longer prefix of it.
2. `expand_snoc`: a text grows sequence by sequence.
-/

namespace Lz77

variable {α : Type}

/-- Append `length` symbols, each copied from `distance` back. -/
def appendMatch (distance : Nat) : Nat → List α → List α
  | 0, out => out
  | length + 1, out =>
      match out[out.length - distance]? with
      | some symbol => appendMatch distance length (out ++ [symbol])
      | none => out

/-- Literals followed by one back reference. -/
structure Sequence (α : Type) where
  literals : List α
  distance : Nat
  matchLength : Nat

/-- What one sequence makes of the text before it. -/
def Sequence.apply (s : Sequence α) (out : List α) : List α :=
  appendMatch s.distance s.matchLength (out ++ s.literals)

/-- The text a list of sequences denotes. -/
def expand (sequences : List (Sequence α)) : List α :=
  sequences.foldl (fun out s => s.apply out) []

@[simp] theorem expand_nil : expand ([] : List (Sequence α)) = [] := rfl

theorem expand_snoc (sequences : List (Sequence α)) (s : Sequence α) :
    expand (sequences ++ [s]) = s.apply (expand sequences) := by
  simp [expand]

/-- The source of a valid back reference lies inside the text. -/
theorem source_lt {out : List α} {distance : Nat} (hpos : 0 < distance)
    (hle : distance ≤ out.length) : out.length - distance < out.length := by
  omega

theorem appendMatch_succ {out : List α} {distance length : Nat}
    (h : out.length - distance < out.length) :
    appendMatch distance (length + 1) out =
      appendMatch distance length (out ++ [out[out.length - distance]]) := by
  simp [appendMatch, List.getElem?_eq_getElem h]

theorem length_appendMatch {distance : Nat} (hpos : 0 < distance) :
    ∀ (length : Nat) (out : List α), distance ≤ out.length →
      (appendMatch distance length out).length = out.length + length := by
  intro length
  induction length with
  | zero => intro out _; simp [appendMatch]
  | succ length ih =>
    intro out hle
    rw [appendMatch_succ (source_lt hpos hle), ih _ (by simp; omega)]
    simp
    omega

/-- A match whose symbols have been compared extends a prefix of the text. -/
theorem appendMatch_take (text : List α) {distance : Nat} (hpos : 0 < distance) :
    ∀ (length position : Nat), distance ≤ position → position + length ≤ text.length →
      (∀ k, k < length → text[position - distance + k]? = text[position + k]?) →
      appendMatch distance length (text.take position) = text.take (position + length) := by
  intro length
  induction length with
  | zero => intro position _ _ _; simp [appendMatch]
  | succ length ih =>
    intro position hle hlen heq
    have hlt : position < text.length := by omega
    have htake : (text.take position).length = position := by
      rw [List.length_take]; omega
    have hsrc : (text.take position).length - distance < (text.take position).length := by
      omega
    have hcopied : (text.take position)[(text.take position).length - distance] =
        text[position] := by
      have h0 := heq 0 (by omega)
      simp only [Nat.add_zero] at h0
      rw [List.getElem?_eq_getElem (by omega), List.getElem?_eq_getElem hlt] at h0
      simpa [List.getElem_take, htake] using h0
    rw [appendMatch_succ hsrc, hcopied, ← List.take_succ_eq_append_getElem hlt,
      ih (position + 1) (by omega) (by omega)]
    · congr 1; omega
    intro k hk
    have h := heq (k + 1) (by omega)
    rw [show position + 1 - distance + k = position - distance + (k + 1) by omega,
      show position + 1 + k = position + (k + 1) by omega]
    exact h

end Lz77
