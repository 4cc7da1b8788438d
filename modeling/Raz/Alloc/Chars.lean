import Raz.Core.Utf8Scalars
import Raz.Path.Buf

/-!
# Characters of a string

Translation of the parts of `alloc::string` that work on characters: boundaries and slices of a
view, and what is pushed, taken back, inserted and removed. The string itself and its room are those
of path buffers.
-/

namespace Raz.Alloc

open Memory Core.Utf8 Raz.Path Raz.Path.Storage

/-- A view of the bytes of a string. -/
structure Str where
  data : Nat
  length : Nat
  deriving DecidableEq, Repr

def asStr (value : Storage) : Str := ⟨value.data, value.length⟩

/-- The first byte of a character. -/
def isLead (byte : UInt8) : Bool := byte < 128 || byte ≥ 192

def strIsCharBoundary (memory : Bytes) (value : Str) (index : Int) : Bool :=
  if index < 0 ∨ index > value.length then false
  else if index = 0 ∨ index = value.length then true
  else isLead (memory (value.data + index.toNat))

def isCharBoundary (memory : Bytes) (value : Storage) (index : Int) : Bool :=
  strIsCharBoundary memory (asStr value) index

def strSlice (memory : Bytes) (value : Str) (start length : Int) : Option Str :=
  if length < 0 ∨ start < 0 ∨ start > value.length ∨ length > value.length - start then none
  else if strIsCharBoundary memory value start = false ∨
      strIsCharBoundary memory value (start + length) = false then none
  else some ⟨value.data + start.toNat, length.toNat⟩

def strSplitAt (memory : Bytes) (value : Str) (index : Int) : Option (Str × Str) :=
  if strIsCharBoundary memory value index = false then none
  else
    some (⟨value.data, index.toNat⟩, ⟨value.data + index.toNat, value.length - index.toNat⟩)

/-- `core::utf8::decode` on the bytes of a string. -/
def decodeAt (memory : Bytes) (data length offset : Nat) : DecodeResult :=
  decode (bytes memory ⟨data, length⟩) offset

def strCharAt (memory : Bytes) (value : Str) (byteIndex : Int) : Option Int :=
  if strIsCharBoundary memory value byteIndex = false ∨ byteIndex = value.length then none
  else
    let decoded := decodeAt memory value.data value.length byteIndex.toNat
    if decoded.width = 0 then none else some decoded.scalar

/-- `shrink_to_fit`: whether it is done. A block of at least one byte is asked for. -/
def shrinkToFit (allocator : Allocator) (memory : Bytes) (value : Storage) :
    Bool × Bytes × Storage :=
  if value.length = value.capacity then (true, memory, value)
  else
    match allocationSize value.length with
    | none => (false, memory, value)
    | some size =>
        match allocator.realloc value.data (value.capacity + 1) size with
        | none => (false, memory, value)
        | some replacement =>
            let memory := copyUp memory replacement value.data value.length
            let value : Storage := ⟨replacement, value.length, value.length⟩
            (true, writeTerminator memory value, value)

def pushChar (allocator : Allocator) (memory : Bytes) (value : Storage) (scalar : Int) :
    Bool × Bytes × Storage :=
  let width := scalarWidth scalar
  if width = 0 ∨ value.length > 9223372036854775807 - width then (false, memory, value)
  else
    match reserve allocator memory value (value.length + width) with
    | none => (false, memory, value)
    | some (memory, value) =>
        let (written, memory) :=
          encode memory scalar (value.data + value.length) (value.capacity - value.length)
        if written ≠ width then (false, memory, value)
        else
          let value := { value with length := value.length + width }
          (true, writeTerminator memory value, value)

/-- The loop of `pop_char`, back to the first byte of the last character. -/
def scanBack (memory : Bytes) (data : Nat) : Nat → Nat
  | 0 => 0
  | start + 1 =>
      if isLead (memory (data + (start + 1))) then start + 1 else scanBack memory data start

def popChar (memory : Bytes) (value : Storage) : Option Int × Bytes × Storage :=
  if value.length = 0 then (none, memory, value)
  else
    let start := scanBack memory value.data (value.length - 1)
    let decoded := decodeAt memory value.data value.length start
    if decoded.width = 0 ∨ start + decoded.width ≠ value.length then (none, memory, value)
    else
      let value := { value with length := start }
      (some decoded.scalar, writeTerminator memory value, value)

def insertChar (allocator : Allocator) (memory : Bytes) (value : Storage) (index scalar : Int) :
    Bool × Bytes × Storage :=
  if isCharBoundary memory value index = false then (false, memory, value)
  else
    let width := scalarWidth scalar
    if width = 0 ∨ value.length > 9223372036854775807 - width then (false, memory, value)
    else
      match reserve allocator memory value (value.length + width) with
      | none => (false, memory, value)
      | some (memory, value) =>
          let tail := value.length - index.toNat
          let memory :=
            if tail > 0 then
              move memory (value.data + index.toNat + width) (value.data + index.toNat) tail
            else memory
          let (written, memory) := encode memory scalar (value.data + index.toNat) width
          if written ≠ width then (false, memory, value)
          else
            let value := { value with length := value.length + width }
            (true, writeTerminator memory value, value)

def removeChar (memory : Bytes) (value : Storage) (index : Int) : Option Int × Bytes × Storage :=
  if isCharBoundary memory value index = false ∨ index = value.length then (none, memory, value)
  else
    let decoded := decodeAt memory value.data value.length index.toNat
    if decoded.width = 0 then (none, memory, value)
    else
      let tail := value.length - index.toNat - decoded.width
      let memory :=
        if tail > 0 then
          move memory (value.data + index.toNat) (value.data + index.toNat + decoded.width) tail
        else memory
      let value := { value with length := value.length - decoded.width }
      (some decoded.scalar, writeTerminator memory value, value)

/-! ## Bytes of a string -/

/-- The string holds the bytes, with room for them and a zero behind them. -/
structure Kept (memory : Bytes) (value : Storage) (text : List UInt8) : Prop where
  stands : Stands memory value.data text
  length : value.length = text.length
  fits : value.length ≤ value.capacity
  limit : value.capacity ≤ 9223372036854775807
  null : value.data = 0 → value.length = 0
  zero : value.data ≠ 0 → memory (value.data + value.length) = 0

/-- The allocator gives blocks at the old place or apart from the old block, if there is one. -/
def Serves (allocator : Allocator) : Prop :=
  ∀ pointer old size, ∀ replacement ∈ allocator.realloc pointer old size, replacement ≠ 0 ∧
    (pointer ≠ 0 → replacement = pointer ∨ pointer + old ≤ replacement ∨
      replacement + size ≤ pointer)

/-- Room for so many bytes behind the text is there or granted. A null string with a capacity, which
is left by an allocation that failed, cannot be written. -/
def roomFor (allocator : Allocator) (value : Storage) (width : Nat) : Bool :=
  value.length ≤ 9223372036854775807 - width &&
    if value.length + width ≤ value.capacity then decide (value.data ≠ 0)
    else
      match allocationSize (growthCapacity value.capacity (value.length + width)) with
      | none => false
      | some size => (allocator.realloc value.data (value.capacity + 1) size).isSome

section

variable {allocator : Allocator} {memory : Bytes} {value : Storage} {text front back : List UInt8}

theorem kept_terminate (hstands : Stands memory value.data text)
    (hlen : value.length = text.length) (hfits : value.length ≤ value.capacity)
    (hlimit : value.capacity ≤ 9223372036854775807) (hnull : value.data = 0 → value.length = 0) :
    Kept (writeTerminator memory value) value text := by
  unfold writeTerminator
  split
  · refine ⟨hstands.frame (frame_store _ _) (.inl ?_), hlen, hfits, hlimit, hnull,
      fun _ => (stands_store _ _).1⟩
    rw [hlen]
  · rename_i hdata
    exact ⟨hstands, hlen, hfits, hlimit, hnull, fun hne => absurd hne hdata⟩

theorem Kept.moved (h : Kept memory value text) {replacement capacity : Nat} (hne : replacement ≠ 0)
    (hplace : value.data ≠ 0 → replacement = value.data ∨
      value.data + (value.capacity + 1) ≤ replacement ∨ replacement + (capacity + 1) ≤ value.data)
    (hfits : value.length ≤ capacity) (hlimit : capacity ≤ 9223372036854775807) :
    Kept (writeTerminator (copyUp memory replacement value.data value.length)
      ⟨replacement, value.length, capacity⟩) ⟨replacement, value.length, capacity⟩ text := by
  have hlen := h.length
  have hold := h.fits
  have hcopied : Stands (copyUp memory replacement value.data value.length) replacement text := by
    by_cases hdata : value.data = 0
    · have hempty := h.null hdata
      obtain rfl := List.eq_nil_of_length_eq_zero (hlen.symm.trans hempty)
      exact trivial
    · have hplace := hplace hdata
      rw [hlen]
      exact stands_copyUp h.stands (by omega)
  exact kept_terminate hcopied hlen hfits hlimit fun hzero => absurd hzero hne

theorem Kept.reserve (h : Kept memory value text) (halloc : Serves allocator) {width : Nat}
    (hroom : roomFor allocator value width = true) :
    ∃ memory' value', Storage.reserve allocator memory value (value.length + width) =
        some (memory', value') ∧ Kept memory' value' text ∧
      value.length + width ≤ value'.capacity ∧ value'.data ≠ 0 := by
  unfold roomFor at hroom
  obtain ⟨-, hroom⟩ := Bool.and_eq_true_iff.mp hroom
  unfold Storage.reserve reserveExact
  by_cases hthere : value.length + width ≤ value.capacity
  · have hsame : growthCapacity value.capacity (value.length + width) = value.capacity :=
      if_pos hthere
    rw [if_pos hthere] at hroom
    rw [hsame, if_pos le_rfl]
    exact ⟨_, _, rfl, h, hthere, of_decide_eq_true hroom⟩
  · have hle := (le_growthCapacity value.capacity (value.length + width)).1
    rw [if_neg hthere] at hroom
    rw [if_neg (by omega)]
    unfold allocationSize at hroom ⊢
    by_cases hlimit : growthCapacity value.capacity (value.length + width) < 9223372036854775807
    · rw [if_pos hlimit] at hroom ⊢
      dsimp only at hroom ⊢
      obtain ⟨replacement, hrealloc⟩ := Option.isSome_iff_exists.mp hroom
      obtain ⟨hne, hplace⟩ := halloc _ _ _ replacement hrealloc
      rw [hrealloc]
      exact ⟨_, _, rfl, h.moved hne hplace (by omega) (Nat.le_of_lt hlimit), hle, hne⟩
    · rw [if_neg hlimit] at hroom
      nomatch hroom

theorem reserve_refused {width : Nat} (hroom : roomFor allocator value width = false)
    (hlen : value.length ≤ 9223372036854775807 - width) :
    Storage.reserve allocator memory value (value.length + width) = none ∨
      value.data = 0 ∧
      Storage.reserve allocator memory value (value.length + width) = some (memory, value) := by
  unfold roomFor at hroom
  rw [decide_eq_true hlen, Bool.true_and] at hroom
  unfold Storage.reserve reserveExact
  by_cases hthere : value.length + width ≤ value.capacity
  · have hsame : growthCapacity value.capacity (value.length + width) = value.capacity :=
      if_pos hthere
    rw [if_pos hthere] at hroom
    rw [hsame, if_pos le_rfl]
    exact .inr ⟨Decidable.not_not.mp (of_decide_eq_false hroom), rfl⟩
  · have hle := (le_growthCapacity value.capacity (value.length + width)).1
    rw [if_neg hthere] at hroom
    rw [if_neg (by omega)]
    revert hroom
    cases allocationSize (growthCapacity value.capacity (value.length + width)) with
    | none => exact fun _ => .inl rfl
    | some size =>
      intro hroom
      dsimp only at hroom ⊢
      rw [Option.isSome_eq_false_iff.mp hroom |> Option.isNone_iff_eq_none.mp]
      exact .inl rfl

end

end Raz.Alloc
