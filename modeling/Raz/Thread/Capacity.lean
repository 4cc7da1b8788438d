import Raz.Lib.Ring

/-!
# Capacities and deadlines

The queues of `std::thread` round a requested capacity up to a power of two by doubling. The
four copies of `normalized_capacity` differ in where they start and in the value above which
they refuse to double. The copies of `deadline_nanos` and `remaining_millis` are the same; both
read the clock, whose time is an argument here.

Result: `normalizedCapacity_spec`: the result is 0 or a power of two not below the request.
-/

namespace Raz.Thread

/-- The loop of `normalized_capacity`. -/
def doubleCapacity (limit requested : Int) : Nat → Int → Int
  | 0, capacity => capacity
  | rounds + 1, capacity =>
      if capacity < requested then
        if capacity > limit then 0
        else doubleCapacity limit requested rounds (Word.wrap (capacity * 2))
      else capacity

/-- `normalized_capacity`, from the smallest capacity and the largest one that is doubled. The
loop doubles at most 60 times. -/
def normalizedCapacity (smallest limit requested : Int) : Int :=
  if requested ≤ 0 then 0 else doubleCapacity limit requested 60 smallest

/-- `deadline_nanos` at the time `now`. -/
def deadlineNanos (now timeout : Int) : Int :=
  if timeout ≤ 0 then now
  else if timeout > 9223372036854 then 9223372036854775807
  else
    let delta := Word.wrap (timeout * 1000000)
    if now > 9223372036854775807 - delta then 9223372036854775807
    else Word.wrap (now + delta)

/-- `remaining_millis` at the time `now`. -/
def remainingMillis (now deadline : Int) : Int :=
  if now ≥ deadline then 0
  else
    let remaining := Word.wrap (deadline - now)
    let millis := remaining.tdiv 1000000
    if remaining.tmod 1000000 ≠ 0 then millis + 1 else millis

theorem doubleCapacity_spec {limit requested : Int} (hlimit : limit < 2 ^ 59) (rounds : Nat) :
    ∀ {k : Nat}, 60 ≤ k + rounds → k ≤ 59 →
      doubleCapacity limit requested rounds (2 ^ k) = 0 ∨
        ∃ j : Nat, k ≤ j ∧ j ≤ 59 ∧ doubleCapacity limit requested rounds (2 ^ k) = 2 ^ j ∧
          requested ≤ 2 ^ j := by
  induction rounds with
  | zero =>
    intro k hsum hk
    exact absurd hsum (by omega)
  | succ rounds ih =>
    intro k hsum hk
    unfold doubleCapacity
    split
    · split
      · exact .inl rfl
      rename_i hle
      have hlt : k < 59 := by
        by_cases hlt : k < 59
        · exact hlt
        · have heq : k = 59 := by omega
          subst heq
          omega
      have hpow : (2 : Nat) ^ (k + 1) ≤ 2 ^ 59 := Nat.pow_le_pow_right (by decide) hlt
      have hcast : ((2 : Int) ^ k * 2) = ((2 ^ (k + 1) : Nat) : Int) := by
        rw [Nat.pow_succ, Int.natCast_mul]
        simp
      have hwrap : Word.wrap ((2 ^ (k + 1) : Nat) : Int) = ((2 ^ (k + 1) : Nat) : Int) := by
        generalize (2 : Nat) ^ (k + 1) = capacity at hpow
        exact Word.wrap_of_range (by omega) (by omega)
      rw [hcast, hwrap]
      rcases @ih (k + 1) (by omega) (by omega) with h | ⟨j, hkj, hj, heq, hreq⟩
      · left
        rw [Int.natCast_pow]
        exact h
      · right
        rw [Int.natCast_pow]
        exact ⟨j, by omega, hj, heq, hreq⟩
    · exact .inr ⟨k, Nat.le_refl k, hk, rfl, by omega⟩

/-- The result is 0, or a power of two between the smallest capacity and `2 ^ 59` that is not
below the request. -/
theorem normalizedCapacity_spec {limit requested : Int} (hlimit : limit < 2 ^ 59) {k : Nat}
    (hk : k ≤ 59) :
    normalizedCapacity (2 ^ k) limit requested = 0 ∨
      ∃ j : Nat, k ≤ j ∧ j ≤ 59 ∧ normalizedCapacity (2 ^ k) limit requested = 2 ^ j ∧
        requested ≤ 2 ^ j := by
  unfold normalizedCapacity
  split
  · exact .inl rfl
  · exact doubleCapacity_spec hlimit 60 (by omega) hk

end Raz.Thread
