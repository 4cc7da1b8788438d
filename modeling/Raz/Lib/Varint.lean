import Mathlib.Algebra.Order.Ring.Int
import Mathlib.Data.Nat.Basic

/-!
# Numbers in groups of seven bits

A number is written in groups of seven bits, the lowest first; in each byte but the last the high
bit is set.

Result: `length_varint`: how many there are.
-/

namespace Varint

/-- The high bit is set in each byte but the last. -/
inductive IsVarint : List UInt8 → Prop
  | last {byte : UInt8} : byte.toNat < 128 → IsVarint [byte]
  | more {byte : UInt8} {bytes : List UInt8} : 128 ≤ byte.toNat → IsVarint bytes →
      IsVarint (byte :: bytes)

/-- The number that the bytes stand for. -/
def value : List UInt8 → Nat
  | [] => 0
  | byte :: bytes => byte.toNat % 128 + 128 * value bytes

/-- The shortest bytes of a number, `rounds` with the high bit at most. -/
def varint : Nat → Nat → List UInt8
  | 0, number => [UInt8.ofNat number]
  | rounds + 1, number =>
      if number < 128 then [UInt8.ofNat number]
      else UInt8.ofNat (number % 128 + 128) :: varint rounds (number / 128)

theorem IsVarint.length_pos {bytes : List UInt8} (h : IsVarint bytes) : 0 < bytes.length := by
  cases h with
  | last _ => exact Nat.zero_lt_one
  | more _ _ => exact Nat.succ_pos _

theorem toNat_byte {number : Nat} (h : number < 256) : (UInt8.ofNat number).toNat = number :=
  Nat.mod_eq_of_lt h

theorem number_div {rounds number : Nat} (h : number < 128 ^ (rounds + 1 + 1)) :
    number / 128 < 128 ^ (rounds + 1) := by
  rwa [Nat.div_lt_iff_lt_mul (by decide), ← Nat.pow_succ]

theorem isVarint_varint : ∀ {rounds number : Nat}, number < 128 ^ (rounds + 1) →
    IsVarint (varint rounds number)
  | 0, number, h => by
    have hlt : number < 128 := h
    exact .last (by rw [toNat_byte (by omega)]; exact hlt)
  | rounds + 1, number, h => by
    rw [varint]
    split
    · exact .last (by rw [toNat_byte (by omega)]; assumption)
    · exact .more (by rw [toNat_byte (by omega)]; omega) (isVarint_varint (number_div h))

theorem value_varint : ∀ {rounds number : Nat}, number < 128 ^ (rounds + 1) →
    value (varint rounds number) = number
  | 0, number, h => by
    rw [varint, value, value, toNat_byte (by omega)]
    omega
  | rounds + 1, number, h => by
    rw [varint]
    split
    · rw [value, value, toNat_byte (by omega)]
      omega
    · rw [value, value_varint (number_div h), toNat_byte (by omega)]
      omega

theorem length_varint : ∀ {rounds number : Nat}, (varint rounds number).length ≤ rounds + 1
  | 0, _ => le_rfl
  | rounds + 1, number => by
    rw [varint]
    split
    · exact Nat.succ_le_succ (Nat.zero_le _)
    · exact Nat.succ_le_succ length_varint

end Varint
