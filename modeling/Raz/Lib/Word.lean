import Mathlib.Algebra.Order.Ring.Int

/-!
# 64-bit words as integers

Signed 64-bit values are integers; an operation that can leave the range wraps around, the
bitwise ones go through the two's complement bits.

Results:
1. `emod_wrap`: wrapping keeps the remainder by a power of two.
2. `forall_byte`: what is checked for each of the 256 bytes.
-/

namespace Word

/-- The signed word with the same low 64 bits. -/
def wrap (value : Int) : Int := Int.bmod value (2 ^ 64)

def ofBool (flag : Bool) : Int := if flag then 1 else 0

def land (left right : Int) : Int := (BitVec.ofInt 64 left &&& BitVec.ofInt 64 right).toInt

def lor (left right : Int) : Int := (BitVec.ofInt 64 left ||| BitVec.ofInt 64 right).toInt

def lxor (left right : Int) : Int := (BitVec.ofInt 64 left ^^^ BitVec.ofInt 64 right).toInt

/-- The low six bits of a shift count. -/
def shiftCount (count : Int) : Nat := (land count 63).toNat

def shl (value count : Int) : Int := wrap (value * 2 ^ shiftCount count)

def sar (value count : Int) : Int := value / 2 ^ shiftCount count

/-- Division towards zero. -/
def div (left right : Int) : Int := wrap (left.tdiv right)

def rem (left right : Int) : Int := left.tmod right

/-! ## Wrapping -/

theorem wrap_of_range {value : Int} (hge : -(2 ^ 63) ≤ value) (hlt : value < 2 ^ 63) :
    wrap value = value :=
  Int.bmod_eq_of_le (by omega) (by omega)

@[simp] theorem wrap_wrap_add (left right : Int) :
    wrap (wrap left + right) = wrap (left + right) := by
  unfold wrap
  exact Int.bmod_add_bmod

@[simp] theorem wrap_wrap_mul (left right : Int) :
    wrap (wrap left * right) = wrap (left * right) := by
  unfold wrap
  exact Int.bmod_mul_bmod

/-- A word that is not negative is the remainder. -/
theorem wrap_nonneg_iff (value : Nat) : 0 ≤ wrap value ↔ value % 2 ^ 64 < 2 ^ 63 := by
  unfold wrap
  rw [Int.bmod_def]
  split <;> omega

@[simp] theorem wrap_wrap_sub_wrap (left right : Int) :
    wrap (wrap left - wrap right) = wrap (left - right) := by
  unfold wrap
  rw [Int.bmod_sub_bmod, Int.sub_bmod_bmod]

/-! ## Powers of two -/

theorem two_pow_dvd {k : Nat} (hk : k ≤ 64) : (2 : Int) ^ k ∣ 2 ^ 64 :=
  ⟨2 ^ (64 - k), by rw [← Int.pow_add, Nat.add_sub_cancel' hk]⟩

theorem emod_wrap {k : Nat} (hk : k ≤ 64) (value : Int) :
    wrap value % 2 ^ k = value % 2 ^ k := by
  have hdvd := two_pow_dvd hk
  have hmod : wrap value % 2 ^ 64 = value % 2 ^ 64 := Int.bmod_emod
  rw [← Int.emod_emod_of_dvd value hdvd, ← hmod, Int.emod_emod_of_dvd _ hdvd]

theorem land_mask {k : Nat} (hk : k ≤ 63) (value : Int) :
    land value (2 ^ k - 1) = value % 2 ^ k := by
  have hpow : (2 : Nat) ^ k ≤ 2 ^ 63 := Nat.pow_le_pow_right (by decide) hk
  have hpos : 0 < (2 : Nat) ^ k := Nat.two_pow_pos k
  have hmask : (BitVec.ofInt 64 (2 ^ k - 1)).toNat = 2 ^ k - 1 := by
    rw [BitVec.toNat_ofInt]
    have hcast : ((2 : Int) ^ k - 1) = ((2 ^ k - 1 : Nat) : Int) := by
      rw [Int.natCast_sub hpos]
      simp
    rw [hcast]
    omega
  have hnat : (BitVec.ofInt 64 value &&& BitVec.ofInt 64 (2 ^ k - 1)).toNat =
      (BitVec.ofInt 64 value).toNat % 2 ^ k := by
    rw [BitVec.toNat_and, hmask, Nat.and_two_pow_sub_one_eq_mod]
  unfold land
  rw [BitVec.toInt_eq_toNat_of_lt (by omega), hnat, BitVec.toNat_ofInt]
  have hdvd := two_pow_dvd (show k ≤ 64 by omega)
  have hcast : (((value % ((2 ^ 64 : Nat) : Int)).toNat % 2 ^ k : Nat) : Int) =
      value % 2 ^ 64 % 2 ^ k := by
    rw [Int.natCast_emod, Int.toNat_of_nonneg (Int.emod_nonneg _ (by decide))]
    simp
  rw [hcast, Int.emod_emod_of_dvd value hdvd]

/-! ## Bytes -/

theorem forall_byte {p : UInt8 → Prop} (h : ∀ number : Fin 256, p (UInt8.ofNat number))
    (byte : UInt8) : p byte := by
  have hbyte := h ⟨byte.toNat, byte.toNat_lt⟩
  rwa [UInt8.ofNat_toNat] at hbyte

/-- A byte is made of its two halves. -/
theorem high_low : ∀ byte : UInt8, (byte >>> 4) * 16 + (byte &&& 15) = byte :=
  forall_byte (by decide +kernel)

end Word
