import Mathlib.Logic.Function.Basic

/-!
# Memory and copies upward

A memory is a value for each address. A list stands in it from an address on, and a copy that goes
upward, one cell after the other, moves a list down whether or not the two places overlap. A copy
that is taken at once moves it anywhere.

Results:
1. `Stands.frame`: what is not written stays.
2. `stands_store`, `stands_storeAll`, `stands_copyUp`, `stands_move`: what is written.
-/

namespace Memory

variable {α : Type} {memory memory' : Nat → α} {address source count : Nat} {items last : List α}

def store (memory : Nat → α) (address : Nat) (value : α) : Nat → α :=
  Function.update memory address value

/-- The cells are copied upward, one after the other. -/
def copyUp (memory : Nat → α) (destination source : Nat) : Nat → Nat → α
  | 0 => memory
  | count + 1 =>
      copyUp (store memory destination (memory source)) (destination + 1) (source + 1) count

/-- Items are stored one behind the other. -/
def storeAll (memory : Nat → α) (address : Nat) : List α → Nat → α
  | [] => memory
  | item :: items => storeAll (store memory address item) (address + 1) items

/-- The items stand in memory from the address on. -/
def Stands (memory : Nat → α) (address : Nat) : List α → Prop
  | [] => True
  | item :: items => memory address = item ∧ Stands memory (address + 1) items

/-- The memories agree on the addresses outside a range. -/
def Frame (start count : Nat) (memory memory' : Nat → α) : Prop :=
  ∀ address, address < start ∨ start + count ≤ address → memory' address = memory address

theorem Stands.append_iff : ∀ {address : Nat}, Stands memory address (items ++ last) ↔
    Stands memory address items ∧ Stands memory (address + items.length) last := by
  induction items with
  | nil => exact fun {address} => ⟨fun h => ⟨trivial, h⟩, fun h => h.2⟩
  | cons item items ih =>
    intro address
    rw [List.cons_append, Stands, Stands, ih, List.length_cons, Nat.add_assoc, Nat.add_comm 1,
      and_assoc]

theorem Stands.at : ∀ {address index : Nat} {items : List α}, Stands memory address items →
    (h : index < items.length) → memory (address + index) = items[index]
  | _, 0, _ :: _, h, _ => h.1
  | address, index + 1, _ :: items, h, hlt => by
    have hnext := Stands.at h.2 (Nat.lt_of_succ_lt_succ hlt)
    rwa [Nat.add_assoc, Nat.add_comm 1] at hnext

/-- The item behind the first ones. -/
theorem Stands.at_append {item : α} (h : Stands memory address (items ++ item :: last)) :
    memory (address + items.length) = item := (Stands.append_iff.mp h).2.1

/-- The items are found again by their number. -/
theorem Stands.unique (h : Stands memory address items) (h' : Stands memory address last)
    (hlen : items.length = last.length) : items = last :=
  List.ext_getElem hlen fun _ hleft hright => (h.at hleft).symm.trans (h'.at hright)

/-- Whatever is in a range. -/
def readRange (memory : Nat → α) (address count : Nat) : List α :=
  (List.range count).map fun index => memory (address + index)

@[simp] theorem length_readRange (memory : Nat → α) (address count : Nat) :
    (readRange memory address count).length = count := by
  unfold readRange
  rw [List.length_map, List.length_range]

theorem stands_readRange (memory : Nat → α) (address : Nat) : ∀ count,
    Stands memory address (readRange memory address count)
  | 0 => trivial
  | count + 1 => by
    have hsplit : readRange memory address (count + 1) =
        readRange memory address count ++ [memory (address + count)] := by
      unfold readRange
      rw [List.range_succ, List.map_append]
      rfl
    rw [hsplit]
    refine Stands.append_iff.mpr ⟨stands_readRange memory address count, ?_⟩
    rw [length_readRange]
    exact ⟨rfl, trivial⟩

theorem exists_standing (memory : Nat → α) (address count : Nat) :
    ∃ items : List α, items.length = count ∧ Stands memory address items :=
  ⟨readRange memory address count, length_readRange _ _ _, stands_readRange _ _ _⟩

/-- Items that are found at another place. -/
theorem Stands.moved : ∀ {address address' : Nat} {items : List α}, Stands memory address items →
    (∀ index < items.length, memory' (address' + index) = memory (address + index)) →
      Stands memory' address' items
  | _, _, [], _, _ => trivial
  | address, address', item :: items, h, hsame => by
    refine ⟨(hsame 0 (Nat.succ_pos _)).trans h.1, Stands.moved h.2 fun index hidx => ?_⟩
    have hnext := hsame (index + 1) (Nat.succ_lt_succ hidx)
    rwa [← Nat.add_assoc, ← Nat.add_assoc, Nat.add_right_comm, Nat.add_right_comm address] at hnext

/-- **What is not written stays**: the addresses of the items are outside the range. -/
theorem Stands.frame {start count : Nat} (hframe : Frame start count memory memory') :
    ∀ {address : Nat} {items : List α}, Stands memory address items →
      address + items.length ≤ start ∨ start + count ≤ address → Stands memory' address items
  | _, [], _, _ => trivial
  | address, item :: items, h, houtside => by
    rw [List.length_cons] at houtside
    exact ⟨(hframe address (by omega)).trans h.1, Stands.frame hframe h.2 (by omega)⟩

theorem frame_refl (start count : Nat) (memory : Nat → α) : Frame start count memory memory :=
  fun _ _ => rfl

theorem Frame.trans {memory'' : Nat → α} {start count : Nat} (h : Frame start count memory memory')
    (h' : Frame start count memory' memory'') : Frame start count memory memory'' :=
  fun address houtside => (h' address houtside).trans (h address houtside)

theorem Frame.widen {start count start' count' : Nat} (h : Frame start count memory memory')
    (hstart : start' ≤ start) (hend : start + count ≤ start' + count') :
    Frame start' count' memory memory' := fun address houtside => h address (by omega)

theorem frame_store (address : Nat) (value : α) :
    Frame address 1 memory (store memory address value) := by
  intro other houtside
  have hne : other ≠ address := by omega
  unfold store
  rw [Function.update_of_ne hne]

theorem stands_store (address : Nat) (value : α) :
    Stands (store memory address value) address [value] := by
  refine ⟨?_, trivial⟩
  unfold store
  rw [Function.update_self]

theorem frame_storeAll : ∀ {items : List α} {memory : Nat → α} {address : Nat},
    Frame address items.length memory (storeAll memory address items)
  | [], _, _ => frame_refl _ _ _
  | item :: items, memory, address => by
    have hfirst : Frame address (items.length + 1) memory (store memory address item) :=
      (frame_store address item).widen (Nat.le_refl _) (by omega)
    exact hfirst.trans (frame_storeAll.widen (Nat.le_succ _) (by omega))

theorem stands_storeAll : ∀ {items : List α} {memory : Nat → α} {address : Nat},
    Stands (storeAll memory address items) address items
  | [], _, _ => trivial
  | item :: items, memory, address => by
    have hrest : Stands (storeAll (store memory address item) (address + 1) items) (address + 1)
      items := stands_storeAll
    have hfirst : Stands (storeAll (store memory address item) (address + 1) items) address
      [item] := (stands_store address item).frame frame_storeAll (.inl (Nat.le_refl _))
    exact ⟨hfirst.1, hrest⟩

theorem storeAll_append : ∀ {items : List α} {memory : Nat → α} {address : Nat},
    storeAll memory address (items ++ last) =
      storeAll (storeAll memory address items) (address + items.length) last
  | [], _, _ => rfl
  | item :: items, memory, address => by
    rw [List.cons_append, storeAll, storeAll, storeAll_append, List.length_cons, Nat.add_assoc,
      Nat.add_comm 1]

/-- Any items stand in some memory. -/
theorem exists_stands (value : α) : ∀ (address : Nat) (items : List α),
    ∃ memory, Stands memory address items
  | _, [] => ⟨fun _ => value, trivial⟩
  | address, item :: items => by
    obtain ⟨memory, h⟩ := exists_stands value (address + 1) items
    refine ⟨store memory address item, (stands_store address item).1, ?_⟩
    exact h.frame (frame_store address item) (.inr (Nat.le_refl _))

theorem frame_copyUp : ∀ {count : Nat} {memory : Nat → α} {destination source : Nat},
    Frame destination count memory (copyUp memory destination source count)
  | 0, _, _, _ => frame_refl _ _ _
  | count + 1, memory, destination, source => by
    have hfirst : Frame destination (count + 1) memory (store memory destination (memory source)) :=
      (frame_store destination _).widen (Nat.le_refl _) (by omega)
    exact hfirst.trans (frame_copyUp.widen (Nat.le_succ _) (by omega))

/-- **A copy upward moves items down**, or apart, as they were. -/
theorem stands_copyUp : ∀ {items : List α} {memory : Nat → α} {destination source : Nat},
    Stands memory source items → destination ≤ source ∨ source + items.length ≤ destination →
    Stands (copyUp memory destination source items.length) destination items
  | [], _, _, _, _, _ => trivial
  | item :: items, memory, destination, source, h, hapart => by
    rw [List.length_cons] at hapart
    have hrest : Stands (store memory destination (memory source)) (source + 1) items :=
      h.2.frame (frame_store destination _) (by omega)
    have hfirst : Stands (store memory destination (memory source)) destination [item] := by
      rw [h.1]
      exact stands_store destination item
    have hframe := @frame_copyUp α items.length (store memory destination (memory source))
      (destination + 1) (source + 1)
    have hkept := hfirst.frame hframe (.inl (Nat.le_refl _))
    exact ⟨hkept.1, stands_copyUp hrest (by omega)⟩

/-- A copy that does not write what it has still to read stores the items. -/
theorem copyUp_eq : ∀ {items : List α} {memory : Nat → α} {destination source : Nat},
    Stands memory source items → destination ≤ source ∨ source + items.length ≤ destination →
    copyUp memory destination source items.length = storeAll memory destination items
  | [], _, _, _, _, _ => rfl
  | item :: items, memory, destination, source, h, hapart => by
    rw [List.length_cons] at hapart
    have hrest : Stands (store memory destination item) (source + 1) items :=
      h.2.frame (frame_store destination _) (by omega)
    rw [List.length_cons, copyUp, h.1, storeAll]
    exact copyUp_eq hrest (by omega)

/-! ## What a copy does -/

/-- The items of a range have been copied to another, and the rest is left alone. -/
structure Copied (memory memory' : Nat → α) (destination source count : Nat) : Prop where
  frame : Frame destination count memory memory'
  copied : ∀ index < count, memory' (destination + index) = memory (source + index)

theorem Copied.stands {destination : Nat}
    (h : Copied memory memory' destination source items.length)
    (hstands : Stands memory source items) : Stands memory' destination items :=
  hstands.moved h.copied

/-! ## Copies at once -/

/-- All cells are read before one is written. -/
def move (memory : Nat → α) (destination source count : Nat) : Nat → α := fun address =>
  if destination ≤ address ∧ address < destination + count then
    memory (source + (address - destination))
  else memory address

theorem frame_move {destination : Nat} : Frame destination count memory
    (move memory destination source count) := by
  intro address houtside
  unfold move
  rw [if_neg (by omega)]

theorem copied_move (memory : Nat → α) (destination source count : Nat) :
    Copied memory (move memory destination source count) destination source count := by
  refine ⟨frame_move, fun index hidx => ?_⟩
  unfold move
  rw [if_pos (by omega), Nat.add_sub_cancel_left]

/-- The items stand at the destination, wherever it is. -/
theorem stands_move {destination : Nat} (h : Stands memory source items) :
    Stands (move memory destination source items.length) destination items :=
  (copied_move memory destination source items.length).stands h

end Memory
