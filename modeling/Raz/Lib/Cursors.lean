import Raz.Lib.Memory

/-!
# Readers and writers with a position

A cursor is a place in a range of memory. A reader takes a value from the position on, a writer puts
items there, and both move the position; where one fails, the position stays where it was then.

Result: `run_bind`, `run_bind_error`: one step of a row.
-/

namespace Cursors

open Memory

/-- A position in a range. -/
structure Cursor where
  data : Nat
  limit : Nat
  position : Nat
deriving DecidableEq, Repr

variable {ε α β γ δ : Type}

def Cursor.advance (cursor : Cursor) (count : Nat) : Cursor :=
  { cursor with position := cursor.position + count }

/-- The address of the position. -/
def Cursor.address (cursor : Cursor) : Nat := cursor.data + cursor.position

abbrev Reader (ε α : Type) := ExceptT ε (StateM Cursor) α

/-- A writer also has the memory. -/
abbrev Writer (β ε α : Type) := ExceptT ε (StateM ((Nat → β) × Cursor)) α

theorem advance_add (cursor : Cursor) (count more : Nat) :
    (cursor.advance count).advance more = cursor.advance (count + more) := by
  unfold Cursor.advance
  rw [Nat.add_assoc]

theorem address_advance (cursor : Cursor) (count : Nat) :
    (cursor.advance count).address = cursor.address + count :=
  (Nat.add_assoc _ _ _).symm

/-- There is room for so many items. -/
def Cursor.Fits (cursor : Cursor) (count : Nat) : Prop := cursor.position + count ≤ cursor.limit

theorem Cursor.Fits.left {cursor : Cursor} {count more : Nat} (h : cursor.Fits (count + more)) :
    cursor.Fits count := Nat.le_trans (Nat.add_le_add_left (Nat.le_add_right _ _) _) h

theorem fits_advance {cursor : Cursor} {count more : Nat} :
    (cursor.advance count).Fits more ↔ cursor.Fits (count + more) := by
  unfold Cursor.Fits Cursor.advance
  rw [Nat.add_assoc]

/-! ## Readers -/

section

variable {memory : Nat → β} {read : Reader ε α} {next : α → Reader ε γ} {items more : List β}
  {value : α} {result : γ}

/-- Where the items stand, the reader takes them as this value. -/
def Takes (memory : Nat → β) (read : Reader ε α) (items : List β) (value : α) : Prop :=
  ∀ cursor : Cursor, Stands memory cursor.address items → cursor.Fits items.length →
    read cursor = (.ok value, cursor.advance items.length)

theorem run_bind {cursor cursor' : Cursor} (h : read cursor = (.ok value, cursor')) :
    (read >>= next) cursor = next value cursor' := by
  change (ExceptT.bindCont next (read cursor).1) (read cursor).2 = _
  rw [h]
  rfl

theorem run_bind_error {cursor cursor' : Cursor} {failure : ε}
    (h : read cursor = (.error failure, cursor')) :
    (read >>= next) cursor = (.error failure, cursor') := by
  change (ExceptT.bindCont next (read cursor).1) (read cursor).2 = _
  rw [h]
  rfl

theorem Takes.pure (value : α) : Takes memory (Pure.pure value : Reader ε α) ([] : List β) value :=
  fun _ _ _ => rfl

theorem Takes.bind (hread : Takes memory read items value)
    (hnext : Takes memory (next value) more result) :
    Takes memory (read >>= next) (items ++ more) result := by
  intro cursor hstands hfits
  obtain ⟨hitems, hmore⟩ := Stands.append_iff.mp hstands
  rw [List.length_append] at hfits ⊢
  rw [run_bind (hread cursor hitems hfits.left), hnext _ ?_ (fits_advance.mpr hfits), advance_add]
  rwa [address_advance]

/-- The last reader of a row. -/
theorem Takes.last {make : α → γ} (hread : Takes memory read items value) :
    Takes memory (read >>= fun field => Pure.pure (make field)) items (make value) := by
  have hmake : Takes memory (read >>= fun field => Pure.pure (make field)) (items ++ [])
      (make value) := hread.bind (Takes.pure (make value))
  rwa [List.append_nil] at hmake

/-- A reader leaves the range alone, and moves the position by no more than so many items. -/
def Keeps (read : Reader ε α) (count : Nat) : Prop :=
  ∀ cursor, ∃ moved ≤ count, (read cursor).2 = cursor.advance moved

end

/-! ## Writers -/

section

variable {write : Writer β ε α} {next : α → Writer β ε γ} {memory : Nat → β} {cursor : Cursor}
  {items more : List β} {value : α} {result : γ}

/-- From this state on, the writer puts the items. -/
def PutsAt (memory : Nat → β) (cursor : Cursor) (write : Writer β ε α) (items : List β)
    (value : α) : Prop :=
  write (memory, cursor) =
    (.ok value, storeAll memory cursor.address items, cursor.advance items.length)

/-- Where there is room, the writer puts the items. -/
def Puts (write : Writer β ε α) (items : List β) (value : α) : Prop :=
  ∀ memory cursor, cursor.Fits items.length → PutsAt memory cursor write items value

theorem PutsAt.bind (hwrite : PutsAt memory cursor write items value)
    (hnext : PutsAt (storeAll memory cursor.address items) (cursor.advance items.length)
      (next value) more result) :
    PutsAt memory cursor (write >>= next) (items ++ more) result := by
  unfold PutsAt at *
  rw [address_advance, advance_add] at hnext
  rw [storeAll_append, List.length_append, ← hnext]
  change (ExceptT.bindCont next (write (memory, cursor)).1) (write (memory, cursor)).2 = _
  rw [hwrite]
  rfl

theorem Puts.pure (value : α) : Puts (Pure.pure value : Writer β ε α) [] value :=
  fun _ _ _ => rfl

theorem Puts.bind (hwrite : Puts write items value) (hnext : Puts (next value) more result) :
    Puts (write >>= next) (items ++ more) result := by
  intro memory cursor hfits
  rw [List.length_append] at hfits
  exact (hwrite memory cursor hfits.left).bind (hnext _ _ (fits_advance.mpr hfits))

theorem Puts.last {make : α → γ} (hwrite : Puts write items value) :
    Puts (write >>= fun answer => Pure.pure (make answer)) items (make value) := by
  have hmake : Puts (write >>= fun answer => Pure.pure (make answer)) (items ++ [])
      (make value) := hwrite.bind (Puts.pure (make value))
  rwa [List.append_nil] at hmake

end

end Cursors
