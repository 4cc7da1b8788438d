/-!
# Messages in a stream of pieces

A reader looks at the bytes it has. It asks for more while a message is incomplete, and then
settles it; what arrived behind the message stays for the next one. The stream comes in pieces of
any length, so that the reader may hold a part of a message or more than one.

Results:
1. `fetch_message`: a reader that settles a message only as a whole settles it then.
2. `fetch_large`: a reader with a limit on the bytes it holds.
-/

namespace Framing

open List

/-- What a reader makes of the bytes it has. -/
inductive Verdict (ε α : Type) where
  | more
  | fail (error : ε)
  | done (value : α)
  deriving DecidableEq, Repr

section
variable {β ε α : Type}

/-- Read on until there are as many bytes. -/
def arrive (need : Nat) : List β → List (List β) → List β × List (List β)
  | bytes, [] => (bytes, [])
  | bytes, piece :: pieces =>
      if need ≤ bytes.length then (bytes, piece :: pieces)
      else arrive need (bytes ++ piece) pieces

/-- Read on until the reader is content. -/
def fetch (decode : List β → Verdict ε α) :
    List β → List (List β) → Verdict ε α × List β × List (List β)
  | bytes, [] => (decode bytes, bytes, [])
  | bytes, piece :: pieces =>
      match decode bytes with
      | .more => fetch decode (bytes ++ piece) pieces
      | verdict => (verdict, bytes, piece :: pieces)

/-- What has come is a proper part of the message, or the message and a part of the rest. -/
theorem part_or_whole {bytes behind message rest : List β} (h : bytes ++ behind = message ++ rest) :
    (∃ missing, missing ≠ [] ∧ bytes ++ missing = message) ∨
      ∃ more, bytes = message ++ more ∧ more ++ behind = rest := by
  rcases append_eq_append_iff.mp h with ⟨missing, rfl, rfl⟩ | ⟨more, rfl, rfl⟩
  · cases missing with
    | nil => exact .inr ⟨[], by simp, rfl⟩
    | cons b missing => exact .inl ⟨_, cons_ne_nil _ _, rfl⟩
  · exact .inr ⟨more, rfl, rfl⟩

/-- The bytes that arrived and those still to come are the stream. -/
theorem arrive_flatten (need : Nat) (pieces : List (List β)) :
    ∀ bytes : List β, (arrive need bytes pieces).1 ++ (arrive need bytes pieces).2.flatten =
      bytes ++ pieces.flatten := by
  induction pieces with
  | nil => exact fun _ => rfl
  | cons piece pieces ih =>
    intro bytes
    unfold arrive
    split
    · rfl
    · rw [ih, append_assoc, flatten_cons]

/-- Enough bytes arrive if the stream has them. -/
theorem le_arrive {need : Nat} (pieces : List (List β)) :
    ∀ {bytes : List β}, need ≤ (bytes ++ pieces.flatten).length →
      need ≤ (arrive need bytes pieces).1.length := by
  induction pieces with
  | nil =>
    intro bytes h
    rw [flatten_nil, append_nil] at h
    exact h
  | cons piece pieces ih =>
    intro bytes h
    unfold arrive
    split
    · assumption
    · refine ih ?_
      rw [append_assoc]
      exact h

/-- What has arrived when a message is there: the message, and a part of what follows it. -/
theorem arrive_spec {bytes : List β} {pieces : List (List β)} {message rest : List β}
    (h : bytes ++ pieces.flatten = message ++ rest) :
    ∃ behind, (arrive message.length bytes pieces).1 = message ++ behind ∧
      behind ++ (arrive message.length bytes pieces).2.flatten = rest := by
  have hflatten := arrive_flatten message.length pieces bytes
  rw [h] at hflatten
  have hle : message.length ≤ (arrive message.length bytes pieces).1.length :=
    le_arrive pieces (by rw [h, length_append]; exact Nat.le_add_right _ _)
  obtain ⟨behind, hbehind⟩ := prefix_of_prefix_length_le
    (⟨rest, rfl⟩ : message <+: message ++ rest) ⟨_, hflatten⟩ hle
  refine ⟨behind, hbehind.symm, ?_⟩
  rw [← hbehind, append_assoc] at hflatten
  exact append_cancel_left hflatten

theorem length_le_arrive {need : Nat} (pieces : List (List β)) :
    ∀ {bytes : List β}, bytes.length ≤ (arrive need bytes pieces).1.length := by
  induction pieces with
  | nil => exact Nat.le_refl _
  | cons piece pieces ih =>
    intro bytes
    unfold arrive
    split
    · exact Nat.le_refl _
    · exact Nat.le_trans (length_append ▸ Nat.le_add_right _ _) ih

section
variable {decode : List β → Verdict ε α} {message : List β} {limit : Int}

section

variable (hmore : ∀ bytes behind, bytes ++ behind = message → behind ≠ [] → bytes.length ≤ limit →
  decode bytes = .more)

include hmore

/-- **A reader that asks for more until a message is complete stops when it has arrived**, if it
does not hold too many bytes then. -/
theorem fetch_message (hwhole : ∀ behind, ((message ++ behind).length : Int) ≤ limit →
      decode (message ++ behind) ≠ .more) (pieces : List (List β)) :
    ∀ {bytes rest : List β}, bytes ++ pieces.flatten = message ++ rest →
      ((arrive message.length bytes pieces).1.length : Int) ≤ limit →
      fetch decode bytes pieces =
        (decode (arrive message.length bytes pieces).1, arrive message.length bytes pieces) := by
  induction pieces with
  | nil => exact fun _ _ => rfl
  | cons piece pieces ih =>
    intro bytes rest h hlimit
    have hbytes : (bytes.length : Int) ≤ limit :=
      Int.le_trans (Int.ofNat_le.mpr (length_le_arrive (piece :: pieces))) hlimit
    unfold arrive at hlimit
    unfold fetch arrive
    rcases part_or_whole h with ⟨missing, hne, rfl⟩ | ⟨behind, rfl, _⟩
    · -- a proper part of the message
      have hpart : ¬ (bytes ++ missing).length ≤ bytes.length := by
        rw [length_append]
        exact Nat.not_le.mpr (Nat.lt_add_of_pos_right (length_pos_iff.mpr hne))
      rw [if_neg hpart] at hlimit
      rw [hmore bytes missing rfl hne hbytes, if_neg hpart]
      exact ih (by rw [append_assoc]; exact h) hlimit
    · rw [if_pos (by rw [length_append]; exact Nat.le_add_right _ _)]
      have hne := hwhole behind hbytes
      split <;> rename_i heq
      · exact absurd heq hne
      · rfl

/-- It fails if it holds too many bytes by then. -/
theorem fetch_large {error : ε}
    (hlarge : ∀ bytes : List β, limit < bytes.length → decode bytes = .fail error)
    (pieces : List (List β)) :
    ∀ {bytes rest : List β}, bytes ++ pieces.flatten = message ++ rest →
      limit < (arrive message.length bytes pieces).1.length →
      (fetch decode bytes pieces).1 = .fail error := by
  induction pieces with
  | nil => exact fun _ hlimit => hlarge _ hlimit
  | cons piece pieces ih =>
    intro bytes rest h hlimit
    unfold arrive at hlimit
    unfold fetch
    rcases Int.lt_or_le limit bytes.length with hbytes | hbytes
    · rw [hlarge bytes hbytes]
    split at hlimit
    · exact absurd hlimit (Int.not_lt.mpr hbytes)
    rename_i hpart
    obtain ⟨missing, hne, rfl⟩ | ⟨behind, rfl, _⟩ := part_or_whole h
    · rw [hmore bytes missing rfl hne hbytes]
      exact ih (by rw [append_assoc]; exact h) hlimit
    · exact absurd (length_append ▸ Nat.le_add_right _ _) hpart

end

end

end

end Framing
