import Raz.Lib.Utf8

/-!
# `core::utf8`

Translation of `decode` and `validate`. The data are the list of their bytes, so that a read at an
offset is a read behind the first bytes of the list; the addresses are not null.

Result: `validate_iff`: what is accepted is an encoded text.
-/

namespace Raz.Core.Utf8

open Unicode List

variable {data bytes : List UInt8} {offset : Nat}

structure DecodeResult where
  scalar : Int
  width : Nat
  deriving DecidableEq, Repr

def invalid : DecodeResult := ⟨-1, 0⟩

def continuation (value : UInt8) : Bool := 128 ≤ value && value ≤ 191

/-- One scalar at the offset; width 0 is invalid input. -/
def decode (data : List UInt8) (offset : Nat) : DecodeResult :=
  match data.drop offset with
  | [] => invalid
  | b0 :: rest =>
      if b0 ≤ 127 then ⟨b0.toNat, 1⟩
      else if 194 ≤ b0 ∧ b0 ≤ 223 then
        match rest with
        | b1 :: _ =>
            if ¬ continuation b1 then invalid
            else ⟨((b0.toNat &&& 31) <<< 6 ||| (b1.toNat &&& 63) : Nat), 2⟩
        | _ => invalid
      else if 224 ≤ b0 ∧ b0 ≤ 239 then
        match rest with
        | b1 :: b2 :: _ =>
            if ¬ continuation b1 ∨ ¬ continuation b2 then invalid
            else if b0 = 224 ∧ b1 < 160 then invalid
            else if b0 = 237 ∧ b1 > 159 then invalid
            else ⟨((b0.toNat &&& 15) <<< 12 ||| (b1.toNat &&& 63) <<< 6 |||
              (b2.toNat &&& 63) : Nat), 3⟩
        | _ => invalid
      else if 240 ≤ b0 ∧ b0 ≤ 244 then
        match rest with
        | b1 :: b2 :: b3 :: _ =>
            if ¬ continuation b1 ∨ ¬ continuation b2 ∨ ¬ continuation b3 then invalid
            else if b0 = 240 ∧ b1 < 144 then invalid
            else if b0 = 244 ∧ b1 > 143 then invalid
            else ⟨((b0.toNat &&& 7) <<< 18 ||| (b1.toNat &&& 63) <<< 12 |||
              (b2.toNat &&& 63) <<< 6 ||| (b3.toNat &&& 63) : Nat), 4⟩
        | _ => invalid
      else invalid

/-- The loop of `validate`. Every round takes a byte at least, so that there are no more rounds
than bytes. -/
def validateLoop (data : List UInt8) : Nat → Nat → Bool
  | 0, offset => ¬ offset < data.length
  | rounds + 1, offset =>
      if offset < data.length then
        let result := decode data offset
        if result.width = 0 then false else validateLoop data rounds (offset + result.width)
      else true

def validate (data : List UInt8) : Bool := validateLoop data data.length 0

/-! ## One scalar -/

theorem continuation_iff {b : UInt8} : continuation b = true ↔ IsTail b := by
  simp [continuation, IsTail, UInt8.le_iff_toNat_le]

theorem and_tail (n : Nat) : n &&& 63 = n % 64 := Nat.and_two_pow_sub_one_eq_mod n 6

theorem tail_lt (n : Nat) : n % 64 < 64 := Nat.mod_lt n (by decide)

theorem shift_or {high low : Nat} (h : low < 64) : high <<< 6 ||| low = high * 64 + low := by
  have hadd : high <<< 6 + low = high <<< 6 ||| low :=
    Nat.shiftLeft_add_eq_or_of_lt (show low < 2 ^ 6 from h) high
  have hshift : high <<< 6 = high * 64 := Nat.shiftLeft_eq high 6
  rw [← hadd, hshift]

theorem shift_or_twelve {a b c : Nat} (hb : b < 64) (hc : c < 64) :
    a <<< 12 ||| b <<< 6 ||| c = (a * 64 + b) * 64 + c := by
  have hjoin : a <<< 12 ||| b <<< 6 = (a <<< 6 ||| b) <<< 6 := by
    rw [Nat.shiftLeft_or_distrib, ← Nat.shiftLeft_add]
  rw [hjoin, shift_or hc, shift_or hb]

theorem shift_or_eighteen {a b c d : Nat} (hb : b < 64) (hc : c < 64) (hd : d < 64) :
    a <<< 18 ||| b <<< 12 ||| c <<< 6 ||| d = ((a * 64 + b) * 64 + c) * 64 + d := by
  have hjoin : a <<< 18 ||| b <<< 12 ||| c <<< 6 = (a <<< 12 ||| b <<< 6 ||| c) <<< 6 := by
    rw [Nat.shiftLeft_or_distrib, Nat.shiftLeft_or_distrib, ← Nat.shiftLeft_add,
      ← Nat.shiftLeft_add]
  rw [hjoin, shift_or hd, shift_or_twelve hb hc]

/-- **A well-formed sequence is decoded** to its scalar, as a whole. -/
theorem decode_eq {rest : List UInt8} (hbytes : WellFormed bytes)
    (hdata : data.drop offset = bytes ++ rest) :
    decode data offset = ⟨scalarOf bytes, bytes.length⟩ := by
  unfold decode
  rw [hdata]
  cases hbytes with
  | one ha =>
    simp only [cons_append]
    rw [if_pos (UInt8.le_iff_toNat_le.mpr ha)]
    rfl
  | two ha ha' hb =>
    simp only [cons_append, UInt8.le_iff_toNat_le]
    rw [if_neg (by simp; omega), if_pos ⟨ha, ha'⟩, if_neg (by simp [continuation_iff.mpr hb]),
      Nat.and_two_pow_sub_one_eq_mod _ 5, and_tail, shift_or (tail_lt _)]
    rfl
  | three ha ha' hb hc hlow hhigh =>
    simp only [cons_append, UInt8.le_iff_toNat_le, UInt8.lt_iff_toNat_lt,
      ← UInt8.toNat_inj, gt_iff_lt]
    rw [if_neg (by simp; omega), if_neg (by simp; omega), if_pos ⟨ha, ha'⟩,
      if_neg (by simp [continuation_iff.mpr hb, continuation_iff.mpr hc]),
      if_neg (fun h => by have := hlow h.1; have := h.2; simp at this; omega),
      if_neg (fun h => by have := hhigh h.1; have := h.2; simp at this; omega),
      Nat.and_two_pow_sub_one_eq_mod _ 4, and_tail, and_tail,
      shift_or_twelve (tail_lt _) (tail_lt _)]
    rfl
  | four ha ha' hb hc hd hlow hhigh =>
    simp only [cons_append, UInt8.le_iff_toNat_le, UInt8.lt_iff_toNat_lt,
      ← UInt8.toNat_inj, gt_iff_lt]
    rw [if_neg (by simp; omega), if_neg (by simp; omega), if_neg (by simp; omega),
      if_pos ⟨ha, ha'⟩, if_neg (by simp [continuation_iff.mpr hb, continuation_iff.mpr hc,
        continuation_iff.mpr hd]),
      if_neg (fun h => by have := hlow h.1; have := h.2; simp at this; omega),
      if_neg (fun h => by have := hhigh h.1; have := h.2; simp at this; omega),
      Nat.and_two_pow_sub_one_eq_mod _ 3, and_tail, and_tail, and_tail,
      shift_or_eighteen (tail_lt _) (tail_lt _) (tail_lt _)]
    rfl

theorem decode_wellFormed {rest : List UInt8} (hbytes : WellFormed bytes)
    (hdata : data.drop offset = bytes ++ rest) :
    (decode data offset).width = bytes.length :=
  congrArg DecodeResult.width (decode_eq hbytes hdata)

theorem wellFormed_decode (h : (decode data offset).width ≠ 0) :
    ∃ bytes rest, WellFormed bytes ∧ data.drop offset = bytes ++ rest ∧
      (decode data offset).width = bytes.length := by
  suffices hbytes : ∃ bytes rest, WellFormed bytes ∧ data.drop offset = bytes ++ rest by
    obtain ⟨bytes, rest, hbytes, hdata⟩ := hbytes
    exact ⟨bytes, rest, hbytes, hdata, decode_wellFormed hbytes hdata⟩
  unfold decode at h
  split at h
  · exact absurd rfl h
  rename_i b0 rest hdata
  rw [hdata]
  simp only [UInt8.le_iff_toNat_le, UInt8.lt_iff_toNat_lt, ← UInt8.toNat_inj, gt_iff_lt] at h
  split at h
  · rename_i h0
    exact ⟨[b0], rest, .one h0, rfl⟩
  split at h
  · rename_i h0
    split at h
    · rename_i b1 rest
      split at h
      · exact absurd rfl h
      · rename_i h1
        exact ⟨[b0, b1], rest, .two h0.1 h0.2 (continuation_iff.mp (by simpa using h1)), rfl⟩
    · exact absurd rfl h
  split at h
  · rename_i h0
    split at h
    · rename_i b1 b2 rest
      split at h
      · exact absurd rfl h
      rename_i htails
      obtain ⟨h1, h2⟩ := not_or.mp htails
      split at h
      · exact absurd rfl h
      rename_i hlow
      split at h
      · exact absurd rfl h
      rename_i hhigh
      refine ⟨[b0, b1, b2], rest, .three h0.1 h0.2 (continuation_iff.mp (by simpa using h1))
        (continuation_iff.mp (by simpa using h2)) (fun heq => ?_) (fun heq => ?_), rfl⟩
      · exact Nat.not_lt.mp (fun hlt => hlow ⟨heq, hlt⟩)
      · exact Nat.not_lt.mp (fun hlt => hhigh ⟨heq, hlt⟩)
    · exact absurd rfl h
  split at h
  · rename_i h0
    split at h
    · rename_i b1 b2 b3 rest
      split at h
      · exact absurd rfl h
      rename_i htails
      obtain ⟨h1, htails⟩ := not_or.mp htails
      obtain ⟨h2, h3⟩ := not_or.mp htails
      split at h
      · exact absurd rfl h
      rename_i hlow
      split at h
      · exact absurd rfl h
      rename_i hhigh
      refine ⟨[b0, b1, b2, b3], rest, .four h0.1 h0.2 (continuation_iff.mp (by simpa using h1))
        (continuation_iff.mp (by simpa using h2)) (continuation_iff.mp (by simpa using h3))
        (fun heq => ?_) (fun heq => ?_), rfl⟩
      · exact Nat.not_lt.mp (fun hlt => hlow ⟨heq, hlt⟩)
      · exact Nat.not_lt.mp (fun hlt => hhigh ⟨heq, hlt⟩)
    · exact absurd rfl h
  · exact absurd rfl h

/-! ## Texts -/

theorem wellFormed_length_pos (h : WellFormed bytes) : 0 < bytes.length := by
  cases h <;> exact Nat.succ_pos _

theorem validateLoop_iff (rounds : Nat) :
    ∀ {offset : Nat}, offset ≤ data.length → data.length ≤ rounds + offset →
      (validateLoop data rounds offset = true ↔ IsUtf8 (data.drop offset)) := by
  induction rounds with
  | zero =>
    intro offset hle hrounds
    rw [drop_of_length_le (by omega)]
    simp only [validateLoop, decide_eq_true_eq]
    exact ⟨fun _ => isUtf8_nil, fun _ => by omega⟩
  | succ rounds ih =>
    intro offset hle hrounds
    rw [validateLoop]
    split
    · rename_i hlt
      refine ⟨fun h => ?_, fun h => ?_⟩
      · simp only at h
        split at h
        · cases h
        rename_i hwidth
        obtain ⟨bytes, rest, hbytes, hdata, hlen⟩ := wellFormed_decode hwidth
        have hcount := congrArg List.length hdata
        rw [length_drop, length_append] at hcount
        rw [hlen] at h
        have hrest := (ih (by omega) (by have := wellFormed_length_pos hbytes; omega)).mp h
        rw [← drop_drop, hdata, drop_left] at hrest
        rw [hdata]
        exact IsUtf8.append hbytes hrest
      · rcases h.cases with hnil | ⟨bytes, rest, hbytes, hdata, hrest⟩
        · have := congrArg List.length hnil
          rw [length_drop, length_nil] at this
          omega
        have hlen := decode_wellFormed hbytes hdata
        have hpos := wellFormed_length_pos hbytes
        have hcount := congrArg List.length hdata
        rw [length_drop, length_append] at hcount
        simp only
        rw [hlen, if_neg (by omega)]
        refine (ih (by omega) (by omega)).mpr ?_
        rw [← drop_drop, hdata, drop_left]
        exact hrest
    · rename_i hge
      rw [drop_of_length_le (by omega)]
      exact ⟨fun _ => isUtf8_nil, fun _ => rfl⟩

/-- **`validate` accepts the encoded texts.** -/
theorem validate_iff : validate data = true ↔ IsUtf8 data :=
  validateLoop_iff data.length (Nat.zero_le _) (Nat.le_refl _)

end Raz.Core.Utf8
