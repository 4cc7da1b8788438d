import Raz.Lz4.RoundTrip
import Raz.Lz4.Tracked

/-!
# What the decoder accepts

A block of the format ends with literals, of which there may be none. The decoder also accepts what
ends with a match, or the empty input, as it comes to the end of the input then.

Result: `Tracked.decompress_exact_iff`: when exactly the blocks of the format are accepted.
-/

namespace Raz.Lz4.Tracked

open List
open Lz77 Access

/-! ## Cutting the input into sequences -/

/-- The last literals with the low half of their token, none where the input ends with a match. -/
abbrev Ending := Option (List UInt8 × Nat)

def endingBytes : Ending → List UInt8
  | none => []
  | some (literals, low) => literalBytes literals low

def endingText : Ending → List UInt8
  | none => []
  | some (literals, _) => literals

/-- The text of sequences and an ending behind a text. -/
def decoded (text : List UInt8) (sequences : List (Sequence UInt8)) (ending : Ending) :
    List UInt8 :=
  sequences.foldl (fun out s => s.apply out) text ++ endingText ending

/-- What is left of the input behind a text, cut into sequences, with a text that fits. -/
structure Parse (input text : List UInt8) (capacity source : Nat)
    (sequences : List (Sequence UInt8)) (ending : Ending) : Prop where
  valid : ValidFrom text sequences
  low_le : ∀ literals low, ending = some (literals, low) → low ≤ 15
  bytes : input.drop source = blockBytes sequences ++ endingBytes ending
  fits : (decoded text sequences ending).length ≤ capacity

section

variable {input text : List UInt8} {capacity source : Nat} {sequences : List (Sequence UInt8)}
  {ending : Ending}

/-- A cut begins with its last literals, or with literals and a match. -/
theorem Parse.split (hsrc : source < input.length)
    (h : Parse input text capacity source sequences ending) :
    (∃ literals low, sequences = [] ∧ ending = some (literals, low) ∧
      LiteralsAt input text capacity source literals low []) ∨
    ∃ s rest behind, sequences = s :: rest ∧
      LiteralsAt input text capacity source s.literals (nibble (s.matchLength - 4)) behind ∧
      (∀ after, source + after ≤ input.length → input.drop (source + after) = behind →
        MatchAt input (text ++ s.literals) capacity (source + after) (nibble (s.matchLength - 4))
          s.distance s.matchLength (blockBytes rest ++ endingBytes ending)) ∧
      ∀ after, input.drop after = blockBytes rest ++ endingBytes ending →
        Parse input (s.apply text) capacity after rest ending := by
  cases sequences with
  | nil =>
    cases ending with
    | none =>
      have hbytes := congrArg List.length h.bytes
      rw [length_drop] at hbytes
      change input.length - source = 0 at hbytes
      omega
    | some last =>
      obtain ⟨literals, low⟩ := last
      refine .inl ⟨literals, low, rfl, rfl, h.low_le literals low rfl, ?_, ?_⟩
      · rw [append_nil]
        exact h.bytes
      · have hfits := h.fits
        unfold decoded at hfits
        rwa [length_append] at hfits
  | cons s rest =>
    obtain ⟨hs, hrest⟩ := h.valid
    have hbytes := h.bytes
    rw [blockBytes, flatMap_cons, sequenceBytes, append_assoc, append_assoc] at hbytes
    have hgrow := length_le_foldl rest hrest
    have hlen := hs.length_apply
    have hfits := h.fits
    unfold decoded at hfits
    rw [foldl_cons, length_append] at hfits
    refine .inr ⟨s, rest, _, rfl, ⟨nibble_le _, hbytes, by omega⟩, ?_, ?_⟩
    · intro after hafter hbehind
      refine ⟨rfl, hbehind, hs.distance_pos, hs.distance_le, ?_, hs.minMatch, ?_⟩
      · rw [length_append]
        exact hs.distance_back
      · rw [length_append]
        omega
    · intro after hafter
      refine ⟨hrest, h.low_le, hafter, ?_⟩
      have hwhole := h.fits
      unfold decoded at hwhole ⊢
      rwa [foldl_cons] at hwhole

/-- **The main loop accepts what can be cut into sequences.** -/
theorem decompressLoop_spec (hword : input.length ≤ 9223372036854775807)
    (hcap : capacity ≤ 9223372036854775807) {fuel : Nat} :
    ∀ {text : List UInt8} {source : Nat}, source ≤ input.length → input.length < source + fuel →
    text.length ≤ capacity →
    (∃ sequences ending, Parse input text capacity source sequences ending ∧
      decompressLoop input capacity fuel ⟨written text capacity, source, text.length⟩ =
        .ok (written (decoded text sequences ending) capacity,
          (decoded text sequences ending).length)) ∨
    (decompressLoop input capacity fuel ⟨written text capacity, source, text.length⟩ = minusOne ∧
      ∀ sequences ending, ¬ Parse input text capacity source sequences ending) := by
  induction fuel with
  | zero =>
    intro text source hle hfuel
    omega
  | succ fuel ih =>
    intro text source hle hfuel hroom
    rw [decompressLoop]
    by_cases hend : source < input.length
    · rw [if_pos hend]
      obtain ⟨token, literals, low, behind, hliterals, htoken, hread⟩ | ⟨hread, hnone⟩ :=
        readLiterals_spec hend hword hroom
      · rw [bind_ok hread]
        dsimp only
        have hbytes := hliterals.bytes
        have hlen := congrArg List.length hbytes
        have hbehind : input.drop (source + (literalBytes literals low).length) = behind := by
          rw [← drop_drop, hbytes, drop_left]
        rw [length_drop, length_append] at hlen
        by_cases hlast : source + (literalBytes literals low).length = input.length
        · rw [if_pos hlast]
          have hnil : behind = [] := length_eq_zero_iff.mp (by omega)
          refine .inl ⟨[], some (literals, low), ⟨trivial, ?_, ?_, ?_⟩, rfl⟩
          · rintro _ _ ⟨⟩
            exact hliterals.low_le
          · rw [hbytes, hnil, append_nil]
            rfl
          · change (text ++ literals).length ≤ capacity
            rw [length_append]
            exact hliterals.fits
        · rw [if_neg hlast]
          -- any cut begins with these literals, and there are bytes behind them
          have hcut {sequences : List (Sequence UInt8)} {ending : Ending}
              (h : Parse input text capacity source sequences ending) :
              ∃ s rest, sequences = s :: rest ∧ s.literals = literals ∧
                MatchAt input (text ++ literals) capacity
                  (source + (literalBytes literals low).length) (token &&& 15) s.distance
                  s.matchLength (blockBytes rest ++ endingBytes ending) ∧
                ∀ after, input.drop after = blockBytes rest ++ endingBytes ending →
                  Parse input (s.apply text) capacity after rest ending := by
            obtain ⟨other, low', -, -, hat⟩ | ⟨s, rest, others, hsame, hat, hmatch, hnext⟩ :=
              h.split hend
            · obtain ⟨-, -, hnil⟩ := hliterals.unique hat
              rw [hnil, length_nil] at hlen
              omega
            obtain ⟨hsameLiterals, hlow, rfl⟩ := hliterals.unique hat
            refine ⟨s, rest, hsame, hsameLiterals.symm, ?_, hnext⟩
            rw [htoken, hlow, hsameLiterals]
            refine hmatch _ ?_ ?_
            · rw [← hsameLiterals, ← hlow]
              omega
            · rw [← hsameLiterals, ← hlow]
              exact hbehind
          have hroom' : (text ++ literals).length ≤ capacity := by
            rw [length_append]
            exact hliterals.fits
          obtain ⟨distance, matchLength, rest, hmatch, hread'⟩ | ⟨hread', hnone⟩ :=
            @readMatch_spec input (text ++ literals) capacity
              (source + (literalBytes literals low).length) token (by omega)
              (htoken ▸ hliterals.low_le) hcap
          · rw [bind_ok hread']
            have hbytes' := hmatch.bytes
            have hlen' := congrArg List.length hbytes'
            rw [length_drop, length_append] at hlen'
            have hbehind' : input.drop (source + (literalBytes literals low).length +
                (matchBytes distance matchLength).length) = rest := by
              rw [← drop_drop, hbytes', drop_left]
            have hpos : 0 < (matchBytes distance matchLength).length :=
              length_pos_iff.mpr (matchBytes_ne_nil _ _)
            have hsame : appendMatch distance matchLength (text ++ literals) =
                (Sequence.mk literals distance matchLength).apply text := rfl
            have hvalid : ValidAfter text ⟨literals, distance, matchLength⟩ :=
              ⟨hmatch.pos, hmatch.far, by rw [← length_append]; exact hmatch.back, hmatch.minMatch⟩
            have hroom'' : (appendMatch distance matchLength (text ++ literals)).length ≤
                capacity := by
              rw [length_appendMatch hmatch.pos _ _ hmatch.back]
              exact hmatch.fits
            obtain ⟨sequences, ending, hparse, hloop⟩ | ⟨hloop, hnone⟩ :=
              @ih (appendMatch distance matchLength (text ++ literals))
                (source + (literalBytes literals low).length +
                  (matchBytes distance matchLength).length) (by omega) (by omega) hroom''
            · refine .inl ⟨⟨literals, distance, matchLength⟩ :: sequences, ending,
                ⟨⟨hvalid, hparse.valid⟩, hparse.low_le, ?_, hparse.fits⟩, hloop⟩
              rw [hbytes, ← hbehind, hbytes', ← hbehind', hparse.bytes, blockBytes, blockBytes,
                flatMap_cons, sequenceBytes, hmatch.nibble_eq, htoken]
              simp
            · refine .inr ⟨hloop, fun sequences ending h => ?_⟩
              obtain ⟨s, others, -, hliteralsSame, hat, hnext⟩ := hcut h
              obtain ⟨hdistance, hmatchLength, hrest⟩ := hmatch.unique hat
              refine hnone others ending ?_
              have hparse := hnext _ (hbehind'.trans hrest)
              unfold Sequence.apply at hparse
              rwa [hliteralsSame, ← hdistance, ← hmatchLength] at hparse
          · rw [hread']
            refine .inr ⟨rfl, fun sequences ending h => ?_⟩
            obtain ⟨s, others, -, -, hat, -⟩ := hcut h
            exact hnone _ _ _ hat
      · rw [hread]
        refine .inr ⟨rfl, fun sequences ending h => ?_⟩
        obtain ⟨literals, low, -, -, hat⟩ | ⟨s, rest, behind, -, hat, -⟩ := h.split hend
        · exact hnone _ _ _ hat
        · exact hnone _ _ _ hat
    · rw [if_neg hend]
      have htext : decoded text [] none = text := append_nil text
      refine .inl ⟨[], none,
        ⟨trivial, fun _ _ h => absurd h.symm (Option.some_ne_none _), ?_, ?_⟩, ?_⟩
      · exact drop_eq_nil_of_le (Nat.not_lt.mp hend)
      · rwa [htext]
      · rw [htext]

end

/-! ## The blocks of the format -/

/-- A block of the format and the text it stands for: sequences, each with a match that goes back
into the text before it, and last literals. -/
def IsBlock (input text : List UInt8) : Prop :=
  ∃ sequences literals low, low ≤ 15 ∧ ValidFrom [] sequences ∧
    input = blockBytes sequences ++ literalBytes literals low ∧ text = expand sequences ++ literals

/-- Sequences without last literals, of a text that fits: the empty input is one. -/
def EndsBehindMatch (input : List UInt8) (capacity : Nat) : Prop :=
  ∃ sequences, ValidFrom [] sequences ∧ input = blockBytes sequences ∧
    (expand sequences).length ≤ capacity

theorem IsBlock.unique {input text other : List UInt8} (h : IsBlock input text)
    (hother : IsBlock input other) : text = other := by
  obtain ⟨sequences, literals, low, hlow, hvalid, rfl, rfl⟩ := h
  obtain ⟨others, literals', low', hlow', hvalid', hin, rfl⟩ := hother
  exact blockBytes_text_unique hvalid hvalid' hlow hlow' hin

theorem EndsBehindMatch.not_isBlock {input text : List UInt8} {capacity : Nat}
    (h : EndsBehindMatch input capacity) : ¬ IsBlock input text := by
  obtain ⟨sequences, hvalid, rfl, -⟩ := h
  rintro ⟨others, literals, low, hlow, hvalid', hin, -⟩
  exact blockBytes_ne hvalid hvalid' hlow hin

/-- The decoder stays inside its memory, reads only what it has written, and accepts the blocks of
the format whose text fits, and no others. -/
structure Exact (input : List UInt8) (capacity : Nat) : Prop where
  safe : decompress input capacity ≠ .error .outside
  accepts : ∀ cells count, decompress input capacity = .ok (cells, count) ↔
    ∃ text, IsBlock input text ∧ text.length ≤ capacity ∧ cells = written text capacity ∧
      count = text.length
  rejects : (∀ text, IsBlock input text → capacity < text.length) →
    decompress input capacity = minusOne

section

variable {input : List UInt8} {capacity : Nat}

theorem decompress_spec (hin : input.length < 2 ^ 63) (hcap : capacity < 2 ^ 63) :
    (∃ sequences ending, Parse input [] capacity 0 sequences ending ∧
      decompress input capacity = .ok (written (decoded [] sequences ending) capacity,
        (decoded [] sequences ending).length)) ∨
    (decompress input capacity = minusOne ∧
      ∀ sequences ending, ¬ Parse input [] capacity 0 sequences ending) :=
  decompressLoop_spec (by omega) (by omega) (Nat.zero_le _) (by omega) (Nat.zero_le _)

/-- **Exactly the blocks of the format are accepted** if the input does not end behind a match. -/
theorem decompress_exact_iff (input : List UInt8) (capacity : Nat) (hinput : input.length < 2 ^ 63)
    (hcapacity : capacity < 2 ^ 63) :
    Exact input capacity ↔ ¬ EndsBehindMatch input capacity := by
  constructor
  · intro h hends
    have hrejected := h.rejects fun text hblock => absurd hblock hends.not_isBlock
    obtain ⟨sequences, hvalid, hbytes, hfits⟩ := hends
    obtain ⟨others, ending, -, hrun⟩ | ⟨-, hnone⟩ := decompress_spec hinput hcapacity
    · rw [hrun] at hrejected
      cases hrejected
    refine hnone sequences none ⟨hvalid, nofun, ?_, ?_⟩
    · exact hbytes.trans (append_nil _).symm
    · unfold decoded
      rwa [endingText, append_nil]
  · intro hnot
    obtain ⟨sequences, ending, hparse, hrun⟩ | ⟨hrun, hnone⟩ := decompress_spec hinput hcapacity
    · cases ending with
      | none =>
        refine absurd ⟨sequences, hparse.valid, ?_, ?_⟩ hnot
        · exact hparse.bytes.trans (append_nil _)
        · have hfits := hparse.fits
          unfold decoded at hfits
          rwa [endingText, append_nil] at hfits
      | some last =>
        obtain ⟨literals, low⟩ := last
        have hblock : IsBlock input (decoded [] sequences (some (literals, low))) :=
          ⟨sequences, literals, low, hparse.low_le literals low rfl, hparse.valid, hparse.bytes,
            rfl⟩
        refine ⟨by rw [hrun]; nofun, fun cells count => ?_, fun hlarge => ?_⟩
        · rw [hrun]
          constructor
          · intro h
            cases h
            exact ⟨_, hblock, hparse.fits, rfl, rfl⟩
          · rintro ⟨text, htext, -, rfl, rfl⟩
            rw [htext.unique hblock]
        · exact absurd (hlarge _ hblock) (Nat.not_lt.mpr hparse.fits)
    · refine ⟨by rw [hrun]; nofun, fun cells count => ?_, fun _ => hrun⟩
      rw [hrun]
      refine iff_of_false nofun ?_
      rintro ⟨text, ⟨sequences, literals, low, hlow, hvalid, hbytes, rfl⟩, hfits, -, -⟩
      refine hnone sequences (some (literals, low)) ⟨hvalid, ?_, hbytes, hfits⟩
      rintro _ _ ⟨⟩
      exact hlow

end

/-- One byte, a match of four and five last literals. -/
theorem matchBlock_exact : Exact [16, 97, 1, 0, 80, 98, 99, 100, 101, 102] 10 := by
  refine (decompress_exact_iff _ 10 (by decide) (by decide)).mpr fun hends => ?_
  exact hends.not_isBlock ⟨[⟨[97], 1, 4⟩], [98, 99, 100, 101, 102], 0, by decide,
    ⟨⟨by decide, by decide, by decide, by decide⟩, trivial⟩, rfl, rfl⟩

/-- One byte and a match of four, without last literals. -/
theorem matchEnd_accepted : ¬ Exact [16, 97, 1, 0] 5 := by
  intro h
  have hrun : decompress [16, 97, 1, 0] 5 = .ok (List.replicate 5 (some 97), 5) := rfl
  obtain ⟨text, hblock, -⟩ := (h.accepts _ _).mp hrun
  have hends : EndsBehindMatch [16, 97, 1, 0] 5 :=
    ⟨[⟨[97], 1, 4⟩], ⟨⟨by decide, by decide, by decide, by decide⟩, trivial⟩, rfl, by decide⟩
  exact hends.not_isBlock hblock

end Raz.Lz4.Tracked
