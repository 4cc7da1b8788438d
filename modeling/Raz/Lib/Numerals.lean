import Mathlib.Data.List.Induction
import Mathlib.Data.Nat.Digits.Defs

/-!
# Numerals

A number as its digits in a base, the highest digit first, which is how a number is written down and
how a reader takes it up digit by digit.

Result: `number_digitsOf`: digits that are written and read.
-/

namespace Numerals

variable {base : Nat} {digits : List Nat}

/-- The number that the digits stand for. -/
def number (base : Nat) (digits : List Nat) : Nat := Nat.ofDigits base digits.reverse

/-- The last `count` digits of a number. -/
def digitsOf (base : Nat) : Nat → Nat → List Nat
  | 0, _ => []
  | count + 1, value => digitsOf base count (value / base) ++ [value % base]

@[simp] theorem number_nil : number base [] = 0 := Nat.ofDigits_nil

@[simp] theorem number_singleton {digit : Nat} : number base [digit] = digit :=
  Nat.ofDigits_singleton

theorem number_append (digits last : List Nat) :
    number base (digits ++ last) = number base digits * base ^ last.length + number base last := by
  unfold number
  rw [List.reverse_append, Nat.ofDigits_append, List.length_reverse, Nat.add_comm, Nat.mul_comm]

theorem number_concat (digits : List Nat) (digit : Nat) :
    number base (digits ++ [digit]) = number base digits * base + digit := by
  rw [number_append, number_singleton, List.length_singleton, Nat.pow_one]

theorem number_cons (digit : Nat) (digits : List Nat) :
    number base (digit :: digits) = digit * base ^ digits.length + number base digits := by
  rw [← List.singleton_append, number_append, number_singleton]

theorem number_lt (hbase : 1 < base) (hdigs : ∀ digit ∈ digits, digit < base) :
    number base digits < base ^ digits.length := by
  rw [← List.length_reverse]
  exact Nat.ofDigits_lt_base_pow_length hbase fun digit h => hdigs digit (List.mem_reverse.mp h)

@[simp] theorem length_digitsOf (count : Nat) : ∀ value : Nat,
    (digitsOf base count value).length = count := by
  induction count with
  | zero => exact fun value => rfl
  | succ count ih =>
    intro value
    rw [digitsOf, List.length_append, ih]
    rfl

/-- The highest of the last digits comes first. -/
theorem digitsOf_succ (count : Nat) : ∀ value : Nat,
    digitsOf base (count + 1) value =
      value / base ^ count % base :: digitsOf base count value := by
  induction count with
  | zero =>
    intro value
    rw [Nat.pow_zero, Nat.div_one]
    rfl
  | succ count ih =>
    intro value
    rw [digitsOf, ih, Nat.div_div_eq_div_mul, Nat.mul_comm, ← Nat.pow_succ]
    rfl

theorem digitsOf_lt (hbase : 0 < base) (count : Nat) : ∀ value : Nat,
    ∀ digit ∈ digitsOf base count value, digit < base := by
  induction count with
  | zero => exact fun value => List.forall_mem_nil _
  | succ count ih =>
    intro value digit h
    obtain h | h := List.mem_append.mp h
    · exact ih _ digit h
    · rw [List.mem_singleton.mp h]
      exact Nat.mod_lt _ hbase

/-- **Writing and reading.** -/
theorem number_digitsOf (count : Nat) : ∀ value : Nat,
    number base (digitsOf base count value) = value % base ^ count := by
  induction count with
  | zero =>
    intro value
    rw [digitsOf, number_nil, Nat.pow_zero, Nat.mod_one]
  | succ count ih =>
    intro value
    rw [digitsOf, number_concat, ih, Nat.pow_succ, Nat.mul_comm (base ^ count), Nat.mod_mul,
      Nat.mul_comm base, Nat.add_comm]

/-- A digit that is shifted in. -/
theorem shiftLeft_or {value digit bits : Nat} (h : digit < 2 ^ bits) :
    (value <<< bits) ||| digit = value * 2 ^ bits + digit := by
  rw [← Nat.shiftLeft_add_eq_or_of_lt h, Nat.shiftLeft_eq]

end Numerals
