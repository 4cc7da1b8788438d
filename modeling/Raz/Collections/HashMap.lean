import Raz.Lib.Probing

/-!
# Hash maps

Translation of `collections::hash_map`: `find_slot_hashed`, `rehash`, `reserve`, `shrink_to_fit`,
`ensure_insert_capacity`, `insert`, `contains_key`, `get_ptr`, `remove`, `try_remove`, `clear` and
the iterators. The three allocations of the map are one list of cells here: the state byte of a
slot is 0 for an empty cell, 1 for a tombstone and the control byte of the entry else, and what
lies in the slot of a cell without an entry is not read.
-/

namespace Raz.Collections

open Probing (Cell)

/-- An occupied slot. -/
structure Entry (K V : Type) where
  control : Nat
  key : K
  value : V
  deriving DecidableEq, Repr

structure HashMap (K V : Type) where
  cells : List (Cell (Entry K V))
  length : Nat
  tombstones : Nat
  deriving DecidableEq, Repr

/-- The sizes of a key and of a value. -/
structure Layout where
  keySize : Nat
  valueSize : Nat
  deriving DecidableEq, Repr

/-- What the allocations of `rehash` return. -/
structure Grants where
  keys : Bool
  values : Bool
  states : Bool
  deriving DecidableEq, Repr

def hashControl (hash : UInt64) : Nat := 2 + ((hash >>> 7) &&& 127).toNat

def growthThreshold (capacity : Nat) : Nat := capacity / 10 * 7 + capacity % 10 * 7 / 10

namespace HashMap

section
variable {K V : Type}

def capacity (map : HashMap K V) : Nat := map.cells.length

def new : HashMap K V := ⟨[], 0, 0⟩

def clear (map : HashMap K V) : HashMap K V :=
  ⟨List.replicate map.capacity .empty, 0, 0⟩

variable [BEq K]

/-- The loop of `find_slot_hashed`, with the scans that are left. -/
def findLoop (cells : List (Cell (Entry K V))) (key : K) (insertion : Bool) (control : Nat) :
    Nat → Nat → Option Nat → Option Nat
  | 0, _, firstTombstone => if insertion then firstTombstone else none
  | scans + 1, slot, firstTombstone =>
      let next := (slot + 1) &&& (cells.length - 1)
      match cells[slot]? with
      | none => none
      | some .empty =>
          if insertion && firstTombstone.isSome then firstTombstone
          else if insertion then some slot
          else none
      | some .tombstone =>
          findLoop cells key insertion control scans next
            (if insertion && firstTombstone.isNone then some slot else firstTombstone)
      | some (.full entry) =>
          if entry.control = control ∧ entry.key == key then some slot
          else findLoop cells key insertion control scans next firstTombstone

def findSlotHashed (cells : List (Cell (Entry K V))) (key : K) (insertion : Bool)
    (hash : UInt64) : Option Nat :=
  if cells.length = 0 then none
  else
    findLoop cells key insertion (hashControl hash) cells.length
      (hash.toNat &&& (cells.length - 1)) none

variable [Hashable K]

def findSlot (map : HashMap K V) (key : K) (insertion : Bool) : Option Nat :=
  findSlotHashed map.cells key insertion (hash key)

/-- A round of the loop of `rehash`. -/
def moveEntry (map : HashMap K V) : Cell (Entry K V) → HashMap K V
  | .full entry =>
      match findSlotHashed map.cells entry.key true (hash entry.key) with
      | none => map
      | some slot =>
          ⟨map.cells.set slot (.full ⟨hashControl (hash entry.key), entry.key, entry.value⟩),
            map.length + 1, map.tombstones⟩
  | _ => map

def rehash (layout : Layout) (grants : Grants) (map : HashMap K V) (requested : Nat) :
    Bool × HashMap K V :=
  let next := if requested < 8 then 8 else requested
  if layout.keySize = 0 ∨ layout.valueSize = 0 ∨
      next > 9223372036854775807 / layout.keySize ∨
      next > 9223372036854775807 / layout.valueSize then (false, map)
  else if grants.keys = false then (false, map)
  else if grants.values = false then (false, map)
  else if grants.states = false then (false, map)
  else (true, map.cells.foldl moveEntry ⟨List.replicate next .empty, 0, 0⟩)

/-- The loop that doubles the capacity, less than 64 times. -/
def growLoop (entries : Nat) : Nat → Nat → Option Nat
  | 0, _ => none
  | rounds + 1, next =>
      if growthThreshold next < entries then
        if next > 4611686018427387903 then none else growLoop entries rounds (next * 2)
      else some next

def reserve (layout : Layout) (grants : Grants) (map : HashMap K V) (entries : Int) :
    Bool × HashMap K V :=
  if entries < 0 then (false, map)
  else
    match growLoop entries.toNat 64 (if map.capacity > 8 then map.capacity else 8) with
    | none => (false, map)
    | some next =>
        if next = map.capacity ∧ map.tombstones = 0 then (true, map)
        else rehash layout grants map next

def shrinkToFit (layout : Layout) (grants : Grants) (map : HashMap K V) : Bool × HashMap K V :=
  match growLoop map.length 64 8 with
  | none => (false, map)
  | some next =>
      if map.capacity = 0 ∧ map.length = 0 then (true, map)
      else if next = map.capacity ∧ map.tombstones = 0 then (true, map)
      else rehash layout grants map next

def ensureInsertCapacity (layout : Layout) (grants : Grants) (map : HashMap K V) :
    Bool × HashMap K V :=
  if map.capacity = 0 then rehash layout grants map 8
  else
    let threshold := growthThreshold map.capacity
    if map.length + map.tombstones + 1 ≤ threshold then (true, map)
    else if map.length + 1 ≤ threshold then rehash layout grants map map.capacity
    else if map.capacity > 4611686018427387903 then (false, map)
    else rehash layout grants map (map.capacity * 2)

/-- The part of `insert` behind the search. -/
def insertAt (map : HashMap K V) (slot : Nat) (hash : UInt64) (key : K) (value : V) :
    HashMap K V :=
  match map.cells[slot]? with
  | some (.full entry) =>
      { map with cells := map.cells.set slot (.full { entry with value := value }) }
  | some .tombstone =>
      ⟨map.cells.set slot (.full ⟨hashControl hash, key, value⟩), map.length + 1,
        map.tombstones - 1⟩
  | _ =>
      ⟨map.cells.set slot (.full ⟨hashControl hash, key, value⟩), map.length + 1,
        map.tombstones⟩

def insert (layout : Layout) (grants : Grants) (map : HashMap K V) (key : K) (value : V) :
    Bool × HashMap K V :=
  match ensureInsertCapacity layout grants map with
  | (false, map) => (false, map)
  | (true, map) =>
      match findSlotHashed map.cells key true (hash key) with
      | none => (false, map)
      | some slot => (true, insertAt map slot (hash key) key value)

def containsKey (map : HashMap K V) (key : K) : Bool := (findSlot map key false).isSome

/-- The value in a slot. -/
def valueAt (map : HashMap K V) (slot : Nat) : Option V :=
  match map.cells[slot]? with
  | some (.full entry) => some entry.value
  | _ => none

/-- The value that `get_ptr` points to. -/
def get (map : HashMap K V) (key : K) : Option V := (findSlot map key false).bind map.valueAt

def removeAt (map : HashMap K V) (slot : Nat) : HashMap K V :=
  ⟨map.cells.set slot .tombstone, map.length - 1, map.tombstones + 1⟩

def remove (map : HashMap K V) (key : K) : Option V × HashMap K V :=
  match findSlot map key false with
  | none => (none, map)
  | some slot => (map.valueAt slot, map.removeAt slot)

/-- `try_remove`: what it returns, and the output then. -/
def tryRemove (map : HashMap K V) (key : K) (output : V) : Bool × V × HashMap K V :=
  match findSlot map key false with
  | none => (false, output, map)
  | some slot => (true, (map.valueAt slot).getD output, map.removeAt slot)

end

end HashMap

/-! ## Iterators -/

/-- An iterator over the occupied slots. -/
structure Iter (K V : Type) where
  cells : List (Cell (Entry K V))
  index : Nat
  currentSlot : Option Nat

namespace Iter

variable {K V : Type}

/-- The loop of `next`, with the slots that are left. -/
def nextLoop (iter : Iter K V) : Nat → Bool × Iter K V
  | 0 => (false, iter)
  | left + 1 =>
      let slot := iter.index
      let iter := { iter with index := slot + 1 }
      match iter.cells[slot]? with
      | some (Cell.full _) => (true, { iter with currentSlot := some slot })
      | _ => nextLoop iter left

def next (iter : Iter K V) : Bool × Iter K V := nextLoop iter (iter.cells.length - iter.index)

/-- The entry that `current` of an entry iterator points to. -/
def currentEntry (iter : Iter K V) : Option (K × V) := do
  let cell ← iter.cells[← iter.currentSlot]?
  let entry ← cell.contents
  return (entry.key, entry.value)

/-- The key that `current` of a key iterator points to. -/
def currentKey (iter : Iter K V) : Option K := iter.currentEntry.map Prod.fst

/-- The value that `current` of a value iterator points to. -/
def currentValue (iter : Iter K V) : Option V := iter.currentEntry.map Prod.snd

/-- The calls of `next` and `current` until the first one returns false. Every call takes a slot. -/
def collect {α : Type} (current : Iter K V → Option α) : Nat → Iter K V → List (Option α)
  | 0, _ => []
  | rounds + 1, iter =>
      match iter.next with
      | (false, _) => []
      | (true, iter) => current iter :: collect current rounds iter

end Iter

namespace HashMap

variable {K V : Type}

def keys (map : HashMap K V) : Iter K V := ⟨map.cells, 0, none⟩

def values (map : HashMap K V) : Iter K V := ⟨map.cells, 0, none⟩

def entries (map : HashMap K V) : Iter K V := ⟨map.cells, 0, none⟩

end HashMap

end Raz.Collections
