import Raz.Lz4.Buffer

/-!
# The decoder reads a block of the format

On the bytes of valid sequences followed by the last literals the decoder rebuilds the text
these denote, whatever its destination buffer held, and passes every check on the way.

Result: `decompressLoop_eq`: the main loop on a whole block, by induction on its sequences.
-/

namespace Raz.Lz4

open List
open Lz77

theorem length_le_of_drop_append {input front rest : List UInt8} {source : Nat}
    (h : input.drop source = front ++ rest) (hne : front ≠ []) :
    source + front.length + rest.length = input.length := by
  have hlen := congrArg List.length h
  have hpos := length_pos_iff.mpr hne
  simp at hlen
  omega

theorem literalBytes_ne_nil (literals : List UInt8) (matchToken : Nat) :
    literalBytes literals matchToken ≠ [] := by
  simp [literalBytes]

theorem matchBytes_ne_nil (distance matchLength : Nat) :
    matchBytes distance matchLength ≠ [] := by
  simp [matchBytes]

/-! ## The two halves of a sequence -/

theorem readLiterals_eq {input literals rest text : List UInt8} {matchToken capacity : Nat}
    {s : DecompressState} (hin : input.drop s.source = literalBytes literals matchToken ++ rest)
    (htoken : matchToken ≤ 15) (hp : text <+: s.output) (hd : s.destination = text.length)
    (hcap : s.output.length ≥ capacity) (hfit : s.destination + literals.length ≤ capacity)
    (hmax : literals.length ≤ 9223372036854775807) :
    ∃ token output', readLiterals input capacity s =
        .ok (token, { output := output'
                      source := s.source + (literalBytes literals matchToken).length
                      destination := s.destination + literals.length }) ∧
      token &&& 15 = matchToken ∧ Extends s.output text literals output' := by
  have hlen := length_le_of_drop_append hin (literalBytes_ne_nil _ _)
  obtain ⟨hhigh, hlow⟩ := token_nibbles (nibble_le literals.length) htoken
  simp only [literalBytes, length_cons, length_append] at hlen ⊢
  rw [literalBytes, cons_append] at hin
  have hload := loadU8_drop hin
  have hnext := drop_succ_of_drop_cons hin
  rw [append_assoc] at hnext
  have hread := readNibbleLength_eq s.output literals.length 0 hnext (by omega)
  have hrest := drop_add_of_drop_append hnext
  obtain ⟨output', hcopy, hext⟩ := copyBytes_extends input literals.length (s.source + 1 +
      (if literals.length ≥ 15 then lengthBytes (literals.length - 15) else []).length)
    s.destination hp hd (by omega) (by omega)
  rw [hrest, take_left] at hext
  refine ⟨_, output', ?_, hlow, hext⟩
  have hroom : ¬ (literals.length > input.length - (s.source + 1 +
      (if literals.length ≥ 15 then lengthBytes (literals.length - 15) else []).length) ∨
      literals.length > capacity - s.destination) := by omega
  rw [readLiterals, bind_of_ok hload, hhigh, bind_of_ok hread]
  have hsrc : s.source + 1 +
      (if literals.length ≥ 15 then lengthBytes (literals.length - 15) else []).length +
        literals.length = s.source +
      ((if literals.length ≥ 15 then lengthBytes (literals.length - 15) else []).length +
        literals.length + 1) := by omega
  simp [if_neg hroom, hcopy, bind, Except.bind, pure, Except.pure, hsrc]

theorem readMatch_eq {input rest text : List UInt8} {distance matchLength capacity token : Nat}
    {s : DecompressState} (hin : input.drop s.source = matchBytes distance matchLength ++ rest)
    (htoken : token &&& 15 = nibble (matchLength - 4)) (hp : text <+: s.output)
    (hd : s.destination = text.length) (hcap : s.output.length ≥ capacity)
    (hfit : s.destination + matchLength ≤ capacity) (hmax : matchLength ≤ 9223372036854775807)
    (hmin : 4 ≤ matchLength) (hpos : 0 < distance) (hfar : distance ≤ 65535)
    (hback : distance ≤ text.length) :
    ∃ output', readMatch input capacity token s =
        .ok { output := output'
              source := s.source + (matchBytes distance matchLength).length
              destination := s.destination + matchLength } ∧
      appendMatch distance matchLength text <+: output' ∧
      output'.length = s.output.length := by
  have hlen := length_le_of_drop_append hin (matchBytes_ne_nil _ _)
  simp only [matchBytes, cons_append, nil_append, length_cons] at hlen hin ⊢
  have hlow := loadU8_drop hin
  have hnext := drop_succ_of_drop_cons hin
  have hhigh := loadU8_drop hnext
  have hnext2 := drop_succ_of_drop_cons hnext
  have hroom : ¬ (s.source : Int) > (input.length : Int) - 2 := by omega
  have hdist := distance_bytes hfar
  have hvalid : ¬ (distance ≤ 0 ∨ distance > s.destination) := by omega
  have hread := readNibbleLength_eq s.output (matchLength - 4) 4 hnext2 (by omega)
  obtain ⟨output', hcopy, hpre, hlen'⟩ :=
    copyMatch_extends hpos matchLength s.destination hp hd (by omega) (by omega)
  refine ⟨output', ?_, hpre, hlen'⟩
  have hfits : ¬ matchLength > capacity - s.destination := by omega
  rw [readMatch, if_neg hroom]
  simp only [hlow, hhigh, hdist, if_neg hvalid, htoken, hread, Nat.sub_add_cancel hmin,
    if_neg hfits, hcopy, bind, Except.bind, pure, Except.pure]
  congr 2
  omega

/-! ## The main loop -/

/-- The induction is on the sequences still to be read; `text` is what those before them
denote. -/
theorem decompressLoop_eq {input literals : List UInt8} {capacity : Nat}
    (sequences : List (Sequence UInt8)) :
    ∀ (text : List UInt8) (s : DecompressState) (fuel : Nat),
      input.drop s.source = blockBytes sequences ++ literalBytes literals 0 →
      ValidFrom text sequences → text <+: s.output → s.destination = text.length →
      s.output.length ≥ capacity →
      (sequences.foldl (fun out s => s.apply out) text).length + literals.length ≤ capacity →
      (sequences.foldl (fun out s => s.apply out) text).length + literals.length ≤
        9223372036854775807 →
      input.length < s.source + fuel →
      ∃ output', decompressLoop input capacity fuel s = .ok (output',
          (sequences.foldl (fun out s => s.apply out) text ++ literals).length) ∧
        sequences.foldl (fun out s => s.apply out) text ++ literals <+: output' := by
  induction sequences with
  | nil =>
    intro text s fuel hin _ hp hd hcap hfit hmax hfuel
    simp only [foldl_nil] at hfit hmax ⊢
    have hin' : input.drop s.source = literalBytes literals 0 ++ [] := by
      simpa [blockBytes] using hin
    have hlen := length_le_of_drop_append hin' (literalBytes_ne_nil _ _)
    have hpos := length_pos_iff.mpr (literalBytes_ne_nil literals 0)
    simp only [length_nil, Nat.add_zero] at hlen
    obtain ⟨token, output', hread, _, hext⟩ :=
      readLiterals_eq hin' (by omega) hp hd hcap (by omega) (by omega)
    cases fuel with
    | zero => omega
    | succ fuel =>
      refine ⟨output', ?_, hext.isPrefix⟩
      rw [decompressLoop, if_pos (by omega), bind_of_ok hread]
      simp [if_pos hlen, pure, Except.pure, hd]
  | cons head rest ih =>
    rintro text s fuel hin ⟨hhead, hrest⟩ hp hd hcap hfit hmax hfuel
    simp only [foldl_cons] at hfit hmax ⊢
    have hin' : input.drop s.source =
        literalBytes head.literals (nibble (head.matchLength - 4)) ++
          (matchBytes head.distance head.matchLength ++
            (blockBytes rest ++ literalBytes literals 0)) := by
      simpa [blockBytes, sequenceBytes, append_assoc] using hin
    have hlen := length_le_of_drop_append hin' (literalBytes_ne_nil _ _)
    have hpos := length_pos_iff.mpr (literalBytes_ne_nil head.literals
      (nibble (head.matchLength - 4)))
    have hpos' := length_pos_iff.mpr (matchBytes_ne_nil head.distance head.matchLength)
    simp only [length_append] at hlen
    have hgrow := length_le_foldl rest hrest
    rw [hhead.length_apply] at hgrow
    obtain ⟨token, output1, hread, htoken, hext⟩ :=
      readLiterals_eq hin' (nibble_le _) hp hd hcap (by omega) (by omega)
    have hcap1 : output1.length ≥ capacity := by rw [hext.length_eq]; exact hcap
    obtain ⟨output2, hmatch, hpre, hlen2⟩ := readMatch_eq
      (s := { output := output1
              source := s.source +
                (literalBytes head.literals (nibble (head.matchLength - 4))).length
              destination := s.destination + head.literals.length })
      (drop_add_of_drop_append hin') htoken hext.isPrefix (by simp [hd]) hcap1
      (by simp only; omega) (by omega) hhead.minMatch hhead.distance_pos hhead.distance_le
      (by simpa using hhead.distance_back)
    cases fuel with
    | zero => omega
    | succ fuel =>
      obtain ⟨output3, hloop, hfinal⟩ := ih (head.apply text)
        { output := output2
          source := s.source +
            (literalBytes head.literals (nibble (head.matchLength - 4))).length +
            (matchBytes head.distance head.matchLength).length
          destination := s.destination + head.literals.length + head.matchLength }
        fuel
        (drop_add_of_drop_append (drop_add_of_drop_append hin')) hrest hpre
        (by rw [hhead.length_apply, hd]) (by rw [hlen2, hext.length_eq]; exact hcap)
        hfit hmax (by simp only; omega)
      refine ⟨output3, ?_, hfinal⟩
      rw [decompressLoop, if_pos (by omega), bind_of_ok hread]
      simp only
      rw [if_neg (by omega), bind_of_ok hmatch]
      exact hloop

end Raz.Lz4
