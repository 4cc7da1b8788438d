import Raz.Lib.Numerals
import Raz.Rxe.Reference

/-!
# The unsigned division of the executor

The long division works on signed words. Read as unsigned, the partial remainder is that of the
bits of the numerator that have been taken so far. It is less than two to their number, so that the
shift that makes room for the next bit loses nothing.

Result: `unsignedDivRem_exact`: quotient, remainder and every partial remainder.
-/

namespace Raz.Rxe

open List

/-! ## Words read as unsigned -/

def unsigned (value : Int) : Nat := (value % 2 ^ 64).toNat

theorem wrap_cases {value : Nat} (h : value < 2 ^ 64) :
    value < 2 ^ 63 ∧ Word.wrap value = value ∨
      2 ^ 63 ≤ value ∧ Word.wrap value = value - 2 ^ 64 := by
  unfold Word.wrap
  rw [Int.bmod_def]
  omega

theorem unsigned_natCast {value : Nat} (h : value < 2 ^ 64) : unsigned value = value := by
  unfold unsigned
  omega

theorem unsigned_lt (value : Int) : unsigned value < 2 ^ 64 := by
  unfold unsigned
  omega

theorem unsigned_wrap {value : Nat} (h : value < 2 ^ 64) : unsigned (Word.wrap value) = value := by
  unfold unsigned
  rcases wrap_cases h with ⟨-, heq⟩ | ⟨-, heq⟩ <;> omega

theorem unsignedLess_wrap {left right : Nat} (hleft : left < 2 ^ 64) (hright : right < 2 ^ 64) :
    unsignedLess (Word.wrap left) (Word.wrap right) = decide (left < right) := by
  have hl := wrap_cases hleft
  have hr := wrap_cases hright
  unfold unsignedLess
  split
  all_goals
    rename_i hsigns
    rw [ne_eq, decide_eq_decide] at hsigns
    rw [decide_eq_decide]
    omega

theorem lor_wrap {left : Nat} (h : left < 2 ^ 64) (right : Int) :
    Word.lor (Word.wrap left) right = Word.wrap (left ||| unsigned right : Nat) := by
  have hleft : (BitVec.ofInt 64 (Word.wrap left)).toNat = left := by
    rw [BitVec.toNat_ofInt]
    exact unsigned_wrap h
  unfold Word.lor
  rw [BitVec.toInt_eq_toNat_bmod, BitVec.toNat_or, hleft, BitVec.toNat_ofInt]
  rfl

/-! ## Shifts -/

theorem shiftOnce_eq (value : Int) : shiftOnce value = (unsigned value / 2 : Nat) := by
  have hmask := @Word.land_mask 63 (Nat.le_refl _) (value / 2)
  unfold shiftOnce unsigned
  rw [show (9223372036854775807 : Int) = 2 ^ 63 - 1 from rfl, hmask]
  omega

theorem shifts_eq (value : Int) : ∀ count : Nat,
    unsigned ((range count).foldl (fun out _ => shiftOnce out) value) = unsigned value / 2 ^ count
  | 0 => (Nat.div_one _).symm
  | count + 1 => by
    rw [range_succ, foldl_append, foldl_cons, foldl_nil, shiftOnce_eq, shifts_eq value count,
      Nat.div_div_eq_div_mul, Nat.pow_succ]
    exact unsigned_natCast (Nat.lt_of_le_of_lt (Nat.div_le_self _ _) (unsigned_lt value))

/-- **The bit that is taken.** -/
theorem logicalShr_bit {numerator bit : Nat} (h : numerator < 2 ^ 64) (hbit : bit < 64) :
    Word.land (logicalShr (Word.wrap numerator) bit) 1 = (numerator / 2 ^ bit % 2 : Nat) := by
  have hcount : Word.shiftCount bit = bit := by
    have hmask := @Word.land_mask 6 (by decide) bit
    unfold Word.shiftCount
    rw [show (63 : Int) = 2 ^ 6 - 1 from rfl, hmask]
    omega
  have hval := shifts_eq (Word.wrap numerator) bit
  rw [unsigned_wrap h] at hval
  have hmask := @Word.land_mask 1 (by decide) (logicalShr (Word.wrap numerator) bit)
  rw [show (1 : Int) = 2 ^ 1 - 1 from rfl, hmask, ← hval]
  unfold logicalShr unsigned
  rw [hcount]
  omega

/-! ## The long division -/

section

variable {numerator denominator : Nat}

theorem div_pow_succ (numerator bit : Nat) :
    numerator / 2 ^ bit = numerator / 2 ^ (bit + 1) * 2 + numerator / 2 ^ bit % 2 := by
  rw [Nat.pow_succ, ← Nat.div_div_eq_div_mul]
  omega

theorem unsigned_bitValue {bit : Nat} (h : bit < 64) : unsigned (bitValue bit) = 2 ^ bit := by
  unfold bitValue
  split
  · rename_i heq
    rw [heq]
    rfl
  · have hlt : 2 ^ bit < 2 ^ 64 := Nat.pow_lt_pow_right (by decide) h
    exact unsigned_natCast hlt

theorem div_mod_digit {high digit : Nat} (hpos : 0 < denominator) (hdigit : digit < 2) :
    let shifted := high % denominator * 2 + digit
    (high * 2 + digit) / denominator =
        high / denominator * 2 + (if shifted < denominator then 0 else 1) ∧
      (high * 2 + digit) % denominator =
        if shifted < denominator then shifted else shifted - denominator := by
  intro shifted
  have hless := Nat.mod_lt high hpos
  have hsplit := Nat.div_add_mod high denominator
  refine (Nat.div_mod_unique hpos).mpr ?_
  split
  · rename_i hlt
    refine ⟨?_, hlt⟩
    rw [Nat.add_zero, ← Nat.mul_assoc]
    omega
  · rename_i hge
    refine ⟨?_, ?_⟩
    · rw [Nat.mul_add, ← Nat.mul_assoc, Nat.mul_one]
      omega
    · omega

variable (hn : numerator < 2 ^ 64)

include hn

/-- The bits of the numerator that have been taken leave room for one more. -/
theorem taken_lt (bit : Nat) : numerator / 2 ^ (bit + 1) < 2 ^ 63 := by
  refine Nat.div_lt_of_lt_mul (Nat.lt_of_lt_of_le hn ?_)
  have hpow : 2 ≤ 2 ^ (bit + 1) := Nat.le_self_pow (Nat.succ_ne_zero _) _
  omega

variable (hpos : 0 < denominator) (hd : denominator < 2 ^ 64)

include hpos hd

/-- **One step**: the quotient and the remainder of the bits so far. -/
theorem divisionStep_spec {bit : Nat} (hbit : bit < 64) :
    divisionStep (Word.wrap numerator) (Word.wrap denominator)
      (Word.wrap (numerator / 2 ^ (bit + 1) / denominator * 2 ^ (bit + 1) : Nat),
        Word.wrap (numerator / 2 ^ (bit + 1) % denominator : Nat)) bit =
      (Word.wrap (numerator / 2 ^ bit / denominator * 2 ^ bit : Nat),
        Word.wrap (numerator / 2 ^ bit % denominator : Nat)) := by
  have hroom := Nat.lt_of_le_of_lt (Nat.mod_le _ denominator) (taken_lt hn bit)
  have hnext := div_pow_succ numerator bit
  have hdigit : numerator / 2 ^ bit % 2 < 2 := Nat.mod_lt _ (by decide)
  have hbefore : numerator / 2 ^ (bit + 1) / denominator * 2 ^ (bit + 1) < 2 ^ 64 := by
    refine Nat.lt_of_le_of_lt (Nat.le_trans ?_ (Nat.div_mul_le_self numerator (2 ^ (bit + 1)))) hn
    exact Nat.mul_le_mul_right _ (Nat.div_le_self _ _)
  rw [divisionStep, logicalShr_bit hn hbit]
  generalize numerator / 2 ^ bit % 2 = digit at *
  generalize numerator / 2 ^ (bit + 1) = high at *
  obtain ⟨hquotient, hremainder⟩ := @div_mod_digit denominator high digit hpos hdigit
  have hless := Nat.mod_lt high hpos
  rw [hnext, hquotient, hremainder]
  -- the digit goes to the place that the shift has made free
  have hshifted : Word.lor (Word.wrap (Word.wrap (high % denominator : Nat) * 2)) (digit : Int) =
      Word.wrap (high % denominator * 2 + digit : Nat) := by
    have hor := @Numerals.shiftLeft_or (high % denominator) digit 1 hdigit
    have hdouble : ((high % denominator : Nat) : Int) * 2 = (high % denominator * 2 : Nat) := by
      rw [Int.natCast_mul]
      rfl
    rw [Word.wrap_wrap_mul, hdouble, lor_wrap (by omega), unsigned_natCast (by omega)]
    rw [Nat.shiftLeft_eq, Nat.pow_one] at hor
    rw [hor]
  dsimp only
  rw [hshifted, unsignedLess_wrap (by omega) hd]
  rcases Nat.lt_or_ge (high % denominator * 2 + digit) denominator with hless' | hge
  · rw [decide_eq_true hless', if_pos rfl, if_pos hless', if_pos hless',
      Nat.add_zero (high / denominator * 2), Nat.pow_succ', ← Nat.mul_assoc]
  · have hnot := Nat.not_lt.mpr hge
    have hor := @Numerals.shiftLeft_or (high / denominator) (2 ^ bit) (bit + 1)
      (Nat.pow_lt_pow_right (by decide) (Nat.lt_succ_self bit))
    rw [Nat.shiftLeft_eq] at hor
    rw [decide_eq_false hnot, if_neg Bool.false_ne_true, if_neg hnot, if_neg hnot,
      lor_wrap hbefore, unsigned_bitValue hbit, Word.wrap_wrap_sub_wrap, hor, Int.ofNat_sub hge,
      Nat.add_mul, Nat.one_mul, Nat.pow_succ', ← Nat.mul_assoc]

/-- **The bits so far**, from the highest down. -/
theorem division_taken : ∀ count ≤ 64,
    ((range 64).reverse.take count).foldl
        (divisionStep (Word.wrap numerator) (Word.wrap denominator)) (0, 0) =
      (Word.wrap (numerator / 2 ^ (64 - count) / denominator * 2 ^ (64 - count) : Nat),
        Word.wrap (numerator / 2 ^ (64 - count) % denominator : Nat))
  | 0, _ => by
    rw [Nat.sub_zero, Nat.div_eq_of_lt hn, Nat.zero_div, Nat.zero_mod, Nat.zero_mul]
    rfl
  | count + 1, h => by
    have hlen : count < (range 64).reverse.length := by
      rw [length_reverse, length_range]
      exact h
    have hbit : 64 - count = 63 - count + 1 := by omega
    rw [← take_append_getElem hlen, foldl_append, division_taken count (Nat.le_of_succ_le h),
      getElem_reverse, getElem_range, length_range, foldl_cons, foldl_nil, hbit,
      divisionStep_spec hn hpos hd (by omega), show 64 - (count + 1) = 63 - count by omega]

end

/-- **Unsigned division** on the bit patterns: the quotient, the remainder, and a partial remainder
that keeps its top bit whenever it is shifted. -/
theorem unsignedDivRem_exact (numerator denominator : BitVec 64) (h : denominator ≠ 0) :
    unsignedDivRem numerator.toInt denominator.toInt false =
        some (numerator / denominator).toInt ∧
      unsignedDivRem numerator.toInt denominator.toInt true =
        some (numerator % denominator).toInt ∧
      ∀ count < 64, unsigned (((range 64).reverse.take count).foldl
        (divisionStep numerator.toInt denominator.toInt) (0, 0)).2 < 2 ^ 63 := by
  have hpos : 0 < denominator.toNat :=
    Nat.pos_of_ne_zero fun hzero => h (BitVec.eq_of_toNat_eq hzero)
  have hword : ∀ value : BitVec 64, value.toInt = Word.wrap value.toNat :=
    fun value => BitVec.toInt_eq_toNat_bmod value
  have hnonzero : denominator.toInt ≠ 0 := fun hzero => h (BitVec.eq_of_toInt_eq hzero)
  have hall := division_taken numerator.isLt hpos denominator.isLt
  have hlast := hall 64 (Nat.le_refl _)
  rw [show 64 - 64 = 0 from rfl, Nat.pow_zero, Nat.div_one, Nat.mul_one,
    @take_of_length_le _ 64 (range 64).reverse (by decide), ← hword, ← hword] at hlast
  refine ⟨?_, ?_, ?_⟩
  · rw [unsignedDivRem, if_neg hnonzero, hlast, hword (numerator / denominator), BitVec.toNat_udiv]
    exact congrArg some (if_neg Bool.false_ne_true)
  · rw [unsignedDivRem, if_neg hnonzero, hlast, hword (numerator % denominator), BitVec.toNat_umod]
    exact congrArg some (if_pos rfl)
  · intro count hcount
    have hroom := Nat.lt_of_le_of_lt (Nat.mod_le _ denominator.toNat)
      (taken_lt numerator.isLt (63 - count))
    have hbit : 64 - count = 63 - count + 1 := by omega
    rw [hword, hword, hall count (Nat.le_of_lt hcount), hbit, unsigned_wrap (by omega)]
    exact hroom

/-- A denominator with its top bit set. -/
theorem unsignedDivRem_exact_top :
    (9223372036854775808 : BitVec 64) ≠ 0 ∧
      unsignedDivRem (-1 : BitVec 64).toInt (9223372036854775808 : BitVec 64).toInt false = some 1 ∧
      unsignedDivRem (-1 : BitVec 64).toInt (9223372036854775808 : BitVec 64).toInt true =
        some 9223372036854775807 := by
  obtain ⟨hquotient, hremainder, -⟩ := unsignedDivRem_exact (-1) 9223372036854775808 (by decide)
  exact ⟨by decide, hquotient.trans (by decide), hremainder.trans (by decide)⟩

end Raz.Rxe
