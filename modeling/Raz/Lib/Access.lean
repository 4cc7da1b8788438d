import Raz.Lib.Outcome

/-!
# Checked accesses

A program that reads a sequence by offsets, with each access checked: it may report a failure of its
own, or run outside the sequence. A program that checks nothing is safe if the checked one does the
same whatever the sequence.

Result: `accesses_eq`: a range that the sequence has.
-/

namespace Access

variable {ε α β γ : Type}

inductive Fault (ε : Type)
  | reported (failure : ε)
  | outside
deriving DecidableEq, Repr

/-- A program that accesses nothing by itself. -/
def lift : Except ε α → Except (Fault ε) α
  | .ok value => .ok value
  | .error failure => .error (.reported failure)

def access (items : List β) (offset : Nat) : Except (Fault ε) β :=
  match items[offset]? with
  | some item => .ok item
  | none => .error .outside

/-- One access after the other. -/
def accesses (items : List β) (offset : Nat) : Nat → Except (Fault ε) (List β)
  | 0 => .ok []
  | count + 1 => do
    let item ← access items offset
    let rest ← accesses items (offset + 1) count
    return item :: rest

/-- **One step**: the rest of both programs is compared where the step has a value. -/
theorem bind_lift {x : Except ε α} {f : α → Except (Fault ε) γ} {g : α → Except ε γ}
    (h : ∀ value, x = .ok value → f value = lift (g value)) :
    (lift x >>= f) = lift (x >>= g) := by
  cases x with
  | ok value => exact h value rfl
  | error failure => rfl

theorem access_eq {items : List β} {offset : Nat} (h : offset < items.length) :
    (access items offset : Except (Fault ε) β) = .ok items[offset] := by
  unfold access
  rw [List.getElem?_eq_getElem h]

theorem accesses_eq {items : List β} : ∀ {count offset : Nat}, offset + count ≤ items.length →
    (accesses items offset count : Except (Fault ε) (List β)) = .ok ((items.drop offset).take count)
  | 0, _, _ => rfl
  | count + 1, offset, h => by
    have hlt : offset < items.length :=
      Nat.lt_of_lt_of_le (Nat.lt_add_of_pos_right (Nat.succ_pos count)) h
    have hrest : offset + 1 + count ≤ items.length := by rwa [Nat.add_assoc, Nat.add_comm 1]
    rw [accesses, access_eq hlt, accesses_eq hrest, List.drop_eq_getElem_cons hlt]
    rfl

theorem mapM_lift {f : β → Except (Fault ε) α} {g : β → Except ε α} {items : List β}
    (h : ∀ item ∈ items, f item = lift (g item)) : items.mapM f = lift (items.mapM g) := by
  induction items with
  | nil => rfl
  | cons item items ih =>
    obtain ⟨hitem, hrest⟩ := List.forall_mem_cons.mp h
    rw [List.mapM_cons, List.mapM_cons, hitem, ih hrest]
    exact bind_lift fun value _ => bind_lift fun values _ => rfl

end Access
