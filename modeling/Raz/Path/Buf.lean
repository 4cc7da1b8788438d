import Raz.Io.Buffer
import Raz.Path.Normalizing

/-!
# Path buffers

Translation of the path buffer and of the string storage that it uses: room is asked from the
allocator, a terminator is kept behind the last byte, and a part is pushed and normalized in place.

Result: `Ready.normalize`: the storage holds the normal form.
-/

namespace Raz.Path

open Memory

/-- The string of a path buffer. -/
structure Storage where
  data : Nat
  length : Nat
  capacity : Nat
  deriving DecidableEq, Repr

/-- The answers of the allocator, none where it refuses: to a request of a size, and to a request to
give a block of a size another size. -/
structure Allocator where
  alloc : Nat → Option Nat
  realloc : Nat → Nat → Nat → Option Nat

namespace Storage

def asView (storage : Storage) : PathView := ⟨storage.data, storage.length⟩

def writeTerminator (memory : Bytes) (storage : Storage) : Bytes :=
  if storage.data ≠ 0 then store memory (storage.data + storage.length) 0 else memory

def allocationSize (capacity : Nat) : Option Nat :=
  if capacity < 9223372036854775807 then some (capacity + 1) else none

def growthCapacity (current required : Nat) : Nat :=
  if required ≤ current then current else Io.ByteBuffer.growLoop required 64 (max current 16)

/-- The bytes of the text move with the block. Here and below, none is the false of the source; the
storage is then as it was. -/
def reserveExact (allocator : Allocator) (memory : Bytes) (storage : Storage) (capacity : Nat) :
    Option (Bytes × Storage) :=
  if capacity ≤ storage.capacity then some (memory, storage)
  else
    match allocationSize capacity with
    | none => none
    | some size =>
        match allocator.realloc storage.data (storage.capacity + 1) size with
        | none => none
        | some replacement =>
            let memory := copyUp memory replacement storage.data storage.length
            let storage : Storage := ⟨replacement, storage.length, capacity⟩
            some (writeTerminator memory storage, storage)

def reserve (allocator : Allocator) (memory : Bytes) (storage : Storage) (capacity : Nat) :
    Option (Bytes × Storage) :=
  reserveExact allocator memory storage (growthCapacity storage.capacity capacity)

def clear (memory : Bytes) (storage : Storage) : Bytes × Storage :=
  let storage := { storage with length := 0 }
  (if storage.data ≠ 0 then store memory storage.data 0 else memory, storage)

def truncate (memory : Bytes) (storage : Storage) (length : Nat) : Option (Bytes × Storage) :=
  if length > storage.length then none
  else
    let storage := { storage with length := length }
    some (writeTerminator memory storage, storage)

def pushByte (allocator : Allocator) (memory : Bytes) (storage : Storage) (byte : UInt8) :
    Option (Bytes × Storage) :=
  if storage.length = 9223372036854775807 then none
  else
    match reserve allocator memory storage (storage.length + 1) with
    | none => none
    | some (memory, storage) =>
        let memory := store memory (storage.data + storage.length) byte
        let storage := { storage with length := storage.length + 1 }
        some (writeTerminator memory storage, storage)

/-- The end of `append_bytes`: room is made, and bytes are copied from where they are then. -/
def appendFrom (allocator : Allocator) (memory : Bytes) (storage : Storage) (length : Nat)
    (source : Storage → Nat) : Option (Bytes × Storage) :=
  match reserve allocator memory storage (storage.length + length) with
  | none => none
  | some (memory, storage) =>
      let memory := copyUp memory (storage.data + storage.length) (source storage) length
      let storage := { storage with length := storage.length + length }
      some (writeTerminator memory storage, storage)

/-- Bytes of the storage itself are found again by their offset, or put aside first. -/
def appendBytes (allocator : Allocator) (memory : Bytes) (storage : Storage)
    (source length : Nat) : Option (Bytes × Storage) :=
  if length = 0 then some (memory, storage)
  else if source = 0 ∨ storage.length + length > 9223372036854775807 then none
  else if storage.data ≠ 0 ∧ source ≥ storage.data ∧ source < storage.data + storage.length then
    if length ≤ storage.length ∧ source ≤ storage.data + storage.length - length then
      let offset := source - storage.data
      appendFrom allocator memory storage length fun storage => storage.data + offset
    else
      match allocator.alloc length with
      | none => none
      | some temporary =>
          appendFrom allocator (copyUp memory temporary source length) storage length
            fun _ => temporary
  else appendFrom allocator memory storage length fun _ => source

end Storage

open Storage

/-- `path_buf_normalize`: whether it is done. -/
def pathBufNormalize (memory : Bytes) (value : Storage) : Bool × Bytes × Storage :=
  match normalizeLexicalInto memory value.asView value.data value.capacity with
  | (none, memory) => (false, memory, value)
  | (some written, memory) =>
      match truncate memory value written with
      | none => (false, memory, value)
      | some (memory, value) => (true, memory, value)

/-- `path_buf_push`, and the method `push`, which has the same text: whether it is done. -/
def pathBufPush (allocator : Allocator) (memory : Bytes) (value : Storage) (part : PathView) :
    Bool × Bytes × Storage :=
  if valid part = false then (false, memory, value)
  else if part.length = 0 then (true, memory, value)
  else if isAbsolute (bytes memory part) then
    let (memory, value) := clear memory value
    match appendBytes allocator memory value part.data part.length with
    | none => (false, memory, value)
    | some (memory, value) => pathBufNormalize memory value
  else
    let leftLength := trimEnd memory value.data 0 value.length
    match truncate memory value leftLength with
    | none => (false, memory, value)
    | some (memory, value) =>
        let start := passOver isSeparator memory part part.length 0
        if start ≥ part.length then (true, memory, value)
        else
          match if leftLength > 0 then pushByte allocator memory value 47
            else some (memory, value) with
          | none => (false, memory, value)
          | some (memory, value) =>
              match appendBytes allocator memory value (part.data + start)
                (part.length - start) with
              | none => (false, memory, value)
              | some (memory, value) => pathBufNormalize memory value

/-! ## What the storage holds -/

/-- The storage holds a text, and a part stands apart from it. Storage whose block has been refused
(a null pointer with a capacity) is left out, and so is a part inside the storage. -/
structure Ready (memory : Bytes) (storage : Storage) (text : List UInt8) (source : Nat)
    (part : List UInt8) : Prop where
  holds : Stands memory storage.data text
  length : storage.length = text.length
  fits : text.length ≤ storage.capacity
  null : storage.data = 0 → storage.capacity = 0
  beside : Stands memory source part
  apart : source + part.length ≤ storage.data ∨ storage.data + storage.capacity + 1 ≤ source

/-- The allocator gives blocks of the sizes that it grants: at the old place, or apart from the old
block, and apart from the bytes of the part. -/
def Reallocates (allocator : Allocator) (grants : Nat → Bool) (source count : Nat) : Prop :=
  ∀ pointer old size, (allocator.realloc pointer old size).isSome = grants size ∧
    ∀ replacement ∈ allocator.realloc pointer old size, replacement ≠ 0 ∧
      (replacement = pointer ∨ pointer + old ≤ replacement ∨ replacement + size ≤ pointer) ∧
      (source + count ≤ replacement ∨ replacement + size ≤ source)

/-- There is room for so many bytes, or it is granted. -/
def grows (grants : Nat → Bool) (capacity required : Nat) : Bool :=
  required ≤ capacity ||
    (growthCapacity capacity required < 9223372036854775807 &&
      grants (growthCapacity capacity required + 1))

theorem le_growthCapacity (current required : Nat) :
    required ≤ growthCapacity current required ∧ current ≤ growthCapacity current required := by
  unfold growthCapacity
  split
  · exact ⟨‹_›, le_rfl⟩
  · have hle := Io.ByteBuffer.le_growLoop required 64 (max current 16)
    exact ⟨hle, by omega⟩

theorem growLoop_lt {required : Nat} (h : required < 9223372036854775807) (rounds : Nat) :
    ∀ {next : Nat}, next < 9223372036854775807 →
      Io.ByteBuffer.growLoop required rounds next < 9223372036854775807 := by
  induction rounds with
  | zero => exact fun _ => h
  | succ rounds ih =>
    intro next hnext
    unfold Io.ByteBuffer.growLoop
    split
    · split
      · exact h
      · exact ih (by omega)
    · exact hnext

/-- Room for less than the greatest length is granted with every block. -/
theorem grows_of_grants {grants : Nat → Bool} {capacity required : Nat}
    (hgrants : ∀ size, grants size = true) (h : required < 9223372036854775807) :
    grows grants capacity required = true := by
  unfold grows
  by_cases hroom : required ≤ capacity
  · rw [decide_eq_true hroom]
    rfl
  have hgrowth : growthCapacity capacity required < 9223372036854775807 := by
    unfold growthCapacity
    rw [if_neg hroom]
    exact growLoop_lt h 64 (by omega)
  rw [decide_eq_true hgrowth, hgrants, Bool.and_self, Bool.or_true]

theorem growthCapacity_le {grants : Nat → Bool} {capacity required : Nat}
    (hlimit : capacity ≤ 9223372036854775807) (h : grows grants capacity required = true) :
    growthCapacity capacity required ≤ 9223372036854775807 := by
  unfold grows at h
  by_cases hroom : required ≤ capacity
  · unfold growthCapacity
    rwa [if_pos hroom]
  · rw [decide_eq_false hroom, Bool.false_or, Bool.and_eq_true, decide_eq_true_iff] at h
    exact Nat.le_of_lt h.1

section

variable {allocator : Allocator} {grants : Nat → Bool} {memory memory' : Bytes} {storage : Storage}
  {text part : List UInt8} {source : Nat}

theorem Ready.frame (h : Ready memory storage text source part)
    (hframe : Frame (storage.data + text.length) (storage.capacity + 1 - text.length) memory
      memory') : Ready memory' storage text source part := by
  have hfits := h.fits
  have hapart := h.apart
  exact ⟨h.holds.frame hframe (.inl le_rfl), h.length, h.fits, h.null,
    h.beside.frame hframe (by omega), h.apart⟩

theorem Ready.terminate (h : Ready memory storage text source part) :
    Ready (writeTerminator memory storage) storage text source part := by
  have hfits := h.fits
  unfold writeTerminator
  split
  · rw [h.length]
    exact h.frame ((frame_store _ _).widen le_rfl (by omega))
  · exact h

theorem Ready.truncate {front back : List UInt8}
    (h : Ready memory storage (front ++ back) source part) :
    ∃ memory' storage', truncate memory storage front.length = some (memory', storage') ∧
      Ready memory' storage' front source part ∧ storage'.capacity = storage.capacity := by
  have hlen := h.length
  have hfits := h.fits
  rw [List.length_append] at hlen hfits
  have hfront : Ready memory { storage with length := front.length } front source part :=
    ⟨(Stands.append_iff.mp h.holds).1, rfl, Nat.le_trans (Nat.le_add_right _ _) hfits, h.null,
      h.beside, h.apart⟩
  unfold Storage.truncate
  rw [if_neg (by omega)]
  exact ⟨_, _, rfl, hfront.terminate, rfl⟩

theorem Ready.clear (h : Ready memory storage text source part) :
    Ready (clear memory storage).1 (clear memory storage).2 [] source part := by
  have hempty : Ready memory { storage with length := 0 } [] source part :=
    ⟨trivial, rfl, Nat.zero_le _, h.null, h.beside, h.apart⟩
  exact hempty.terminate

theorem Ready.reserve (h : Ready memory storage text source part)
    (halloc : Reallocates allocator grants source part.length) (required : Nat) :
    (grows grants storage.capacity required = false ∧
      reserve allocator memory storage required = none) ∨
    (grows grants storage.capacity required = true ∧ ∃ memory' storage',
      reserve allocator memory storage required = some (memory', storage') ∧
      Ready memory' storage' text source part ∧
      storage'.capacity = growthCapacity storage.capacity required) := by
  unfold grows Storage.reserve reserveExact
  by_cases hroom : required ≤ storage.capacity
  · have hsame : growthCapacity storage.capacity required = storage.capacity := if_pos hroom
    rw [decide_eq_true hroom, hsame, if_pos le_rfl]
    exact .inr ⟨rfl, _, _, rfl, h, rfl⟩
  have hle := (le_growthCapacity storage.capacity required).1
  rw [decide_eq_false hroom, Bool.false_or, if_neg (by omega)]
  unfold allocationSize
  by_cases hlimit : growthCapacity storage.capacity required < 9223372036854775807
  · rw [decide_eq_true hlimit, Bool.true_and, if_pos hlimit]
    dsimp only
    obtain ⟨hgrants, hanswer⟩ := halloc storage.data (storage.capacity + 1)
      (growthCapacity storage.capacity required + 1)
    rw [← hgrants]
    cases hrealloc : allocator.realloc storage.data (storage.capacity + 1)
      (growthCapacity storage.capacity required + 1) with
    | none => exact .inl ⟨rfl, rfl⟩
    | some replacement =>
      obtain ⟨hnull, hplace, hapart⟩ := hanswer replacement hrealloc
      have hfits := h.fits
      have hmoved := @stands_copyUp _ text memory replacement storage.data h.holds (by omega)
      have hframe := @frame_copyUp _ text.length memory replacement storage.data
      have hready : Ready (copyUp memory replacement storage.data storage.length)
          ⟨replacement, storage.length, growthCapacity storage.capacity required⟩ text source
          part := by
        rw [h.length]
        exact ⟨hmoved, rfl, Nat.le_trans hfits (le_growthCapacity _ _).2,
          fun hzero => absurd hzero hnull, h.beside.frame hframe (by omega), hapart⟩
      exact .inr ⟨rfl, _, _, rfl, hready.terminate, rfl⟩
  · rw [decide_eq_false hlimit, if_neg hlimit]
    exact .inl ⟨rfl, rfl⟩

theorem Ready.extend {last : List UInt8} (h : Ready memory storage text source part)
    (hroom : text.length + last.length ≤ storage.capacity)
    (hlast : Stands memory' (storage.data + text.length) last)
    (hframe : Frame (storage.data + text.length) last.length memory memory') :
    Ready (writeTerminator memory' { storage with length := storage.length + last.length })
      { storage with length := storage.length + last.length } (text ++ last) source part := by
  have hapart := h.apart
  have hkept := h.holds.frame hframe (.inl le_rfl)
  have hready : Ready memory' { storage with length := storage.length + last.length }
      (text ++ last) source part :=
    ⟨Stands.append_iff.mpr ⟨hkept, hlast⟩, by rw [h.length, List.length_append],
      by rwa [List.length_append], h.null, h.beside.frame hframe (by omega), h.apart⟩
  exact hready.terminate

theorem Ready.pushByte (h : Ready memory storage text source part)
    (halloc : Reallocates allocator grants source part.length)
    (hlimit : storage.capacity ≤ 9223372036854775807) (byte : UInt8) :
    (grows grants storage.capacity (text.length + 1) = false ∧
      pushByte allocator memory storage byte = none) ∨
    (grows grants storage.capacity (text.length + 1) = true ∧ ∃ memory' storage',
      pushByte allocator memory storage byte = some (memory', storage') ∧
      Ready memory' storage' (text ++ [byte]) source part ∧
      storage'.capacity = growthCapacity storage.capacity (text.length + 1)) := by
  have hlen := h.length
  unfold Storage.pushByte
  by_cases hfull : storage.length = 9223372036854775807
  · rw [if_pos hfull]
    refine .inl ⟨?_, rfl⟩
    have hle := (le_growthCapacity storage.capacity (text.length + 1)).1
    unfold grows
    rw [decide_eq_false (by omega), decide_eq_false (by omega)]
    rfl
  rw [if_neg hfull, hlen]
  obtain ⟨hgrows, hnone⟩ | ⟨hgrows, memory₁, storage₁, hsome, hready, hcap⟩ :=
    h.reserve halloc (text.length + 1)
  · rw [hnone]
    exact .inl ⟨hgrows, rfl⟩
  rw [hsome]
  have hroom := (le_growthCapacity storage.capacity (text.length + 1)).1
  rw [← hcap] at hroom
  have hextended := @Ready.extend _ _ _ _ _ _ [byte] hready hroom
    (stands_store (storage₁.data + text.length) byte) (frame_store _ byte)
  rw [← hready.length] at hextended
  exact .inr ⟨hgrows, _, _, rfl, hextended, hcap⟩

theorem Ready.appendPart {front middle back : List UInt8}
    (h : Ready memory storage text source (front ++ middle ++ back))
    (halloc : Reallocates allocator grants source (front ++ middle ++ back).length)
    (hlimit : storage.capacity ≤ 9223372036854775807) (hmiddle : middle ≠ [])
    (hsrc : source ≠ 0) :
    (grows grants storage.capacity (text.length + middle.length) = false ∧
      appendBytes allocator memory storage (source + front.length) middle.length = none) ∨
    (grows grants storage.capacity (text.length + middle.length) = true ∧ ∃ memory' storage',
      appendBytes allocator memory storage (source + front.length) middle.length =
        some (memory', storage') ∧
      Ready memory' storage' (text ++ middle) source (front ++ middle ++ back) ∧
      storage'.capacity = growthCapacity storage.capacity (text.length + middle.length)) := by
  have hlen := h.length
  have hfits := h.fits
  have hapart := h.apart
  have hpos := List.length_pos_iff.mpr hmiddle
  rw [List.length_append, List.length_append] at hapart
  unfold Storage.appendBytes
  rw [if_neg (Nat.ne_of_gt hpos)]
  by_cases hlong : source + front.length = 0 ∨ storage.length + middle.length > 9223372036854775807
  · rw [if_pos hlong]
    refine .inl ⟨?_, rfl⟩
    have hle := (le_growthCapacity storage.capacity (text.length + middle.length)).1
    unfold grows
    rw [decide_eq_false (by omega), decide_eq_false (by omega)]
    rfl
  rw [if_neg hlong, if_neg (by omega)]
  unfold appendFrom
  rw [hlen]
  obtain ⟨hgrows, hnone⟩ | ⟨hgrows, memory₁, storage₁, hsome, hready, hcap⟩ :=
    h.reserve halloc (text.length + middle.length)
  · rw [hnone]
    exact .inl ⟨hgrows, rfl⟩
  rw [hsome]
  have hroom := (le_growthCapacity storage.capacity (text.length + middle.length)).1
  rw [← hcap] at hroom
  have hapart₁ := hready.apart
  rw [List.length_append, List.length_append] at hapart₁
  have hstands := (Stands.append_iff.mp (Stands.append_iff.mp hready.beside).1).2
  have hcopied := @stands_copyUp _ middle memory₁ (storage₁.data + text.length)
    (source + front.length) hstands (by omega)
  have hextended := hready.extend hroom hcopied frame_copyUp
  rw [← hready.length] at hextended
  exact .inr ⟨hgrows, _, _, rfl, hextended, hcap⟩

theorem Ready.appendBytes (h : Ready memory storage text source part)
    (halloc : Reallocates allocator grants source part.length)
    (hlimit : storage.capacity ≤ 9223372036854775807) (hpart : part ≠ []) (hsrc : source ≠ 0) :
    (grows grants storage.capacity (text.length + part.length) = false ∧
      appendBytes allocator memory storage source part.length = none) ∨
    (grows grants storage.capacity (text.length + part.length) = true ∧ ∃ memory' storage',
      appendBytes allocator memory storage source part.length = some (memory', storage') ∧
      Ready memory' storage' (text ++ part) source part) := by
  have hwhole : [] ++ part ++ [] = part := List.append_nil part
  rw [← hwhole] at h halloc
  obtain hnone | ⟨hgrows, memory', storage', hsome, hready, -⟩ :=
    h.appendPart halloc hlimit hpart hsrc
  · exact .inl hnone
  · rw [hwhole] at hready
    exact .inr ⟨hgrows, memory', storage', hsome, hready⟩

/-- **The storage is normalized in place.** -/
theorem Ready.normalize (h : Ready memory storage text source part) :
    ∃ memory' storage', pathBufNormalize memory storage = (true, memory', storage') ∧
      Ready memory' storage' (normalForm text) source part := by
  have hlen := h.length
  have hfits := h.fits
  have hapart := h.apart
  have hnull : text = [] ∨ (storage.data ≠ 0 ∧ storage.data ≠ 0) := by
    by_cases hzero : storage.data = 0
    · have hempty := h.null hzero
      exact .inl (List.eq_nil_of_length_eq_zero (by omega))
    · exact .inr ⟨hzero, hzero⟩
  obtain ⟨memory₁, hwrote, hout, hle, hframe⟩ :=
    @normalizeLexicalInto_eq memory storage.data storage.data storage.capacity text (.inl rfl)
      hfits hnull h.holds
  unfold pathBufNormalize asView
  rw [hlen, hwrote]
  dsimp only
  unfold Storage.truncate
  rw [if_neg (by omega)]
  have hready : Ready memory₁ { storage with length := (normalForm text).length }
      (normalForm text) source part :=
    ⟨hout, rfl, Nat.le_trans hle hfits, h.null, h.beside.frame hframe (by omega), h.apart⟩
  exact ⟨_, _, rfl, hready.terminate⟩

end

end Raz.Path
