import Raz.Lib.Cursors
import Raz.Lib.Numerals

/-!
# Binary fields

Translation of `std::encoding::binary`: readers and writers of fixed-width numbers, of numbers of
variable length, and of bytes. A position is not negative at the start, and no call makes one so.

Result: `takes_u16Be`, …, `puts_u64Le`: numbers of a fixed width.
-/

namespace Raz.Encoding.Binary

open Memory Cursors

inductive CodecError
  | endOfInput
  | outputFull
  | invalidVarint
  | lengthOverflow
deriving DecidableEq, Repr

abbrev Bytes := Nat → UInt8

/-- The limit is the `length` of the source. -/
abbrev BinaryReader := Cursor

/-- The limit is the `capacity` of the source. -/
abbrev BinaryWriter := Cursor

structure BytesView where
  data : Nat
  length : Nat
deriving DecidableEq, Repr

abbrev Read (α : Type) := Reader CodecError α

abbrev Write := Writer UInt8 CodecError Bool

/-! ## Reading -/

section

variable (memory : Bytes)

def readU8 : Read UInt8 := fun value =>
  if value.position ≥ value.limit then (.error .endOfInput, value)
  else (.ok (memory value.address), value.advance 1)

def readU16Be : Read UInt16 := do
  let a ← readU8 memory
  let b ← readU8 memory
  return (a.toUInt16 <<< 8) ||| b.toUInt16

def readU16Le : Read UInt16 := do
  let a ← readU8 memory
  let b ← readU8 memory
  return a.toUInt16 ||| (b.toUInt16 <<< 8)

def readU32Be : Read UInt32 := do
  let a ← readU16Be memory
  let b ← readU16Be memory
  return (a.toUInt32 <<< 16) ||| b.toUInt32

def readU32Le : Read UInt32 := do
  let a ← readU16Le memory
  let b ← readU16Le memory
  return a.toUInt32 ||| (b.toUInt32 <<< 16)

def readU64Be : Read UInt64 := do
  let first ← readU32Be memory
  let second ← readU32Be memory
  return (first.toUInt64 <<< 32) ||| second.toUInt64

def readU64Le : Read UInt64 := do
  let first ← readU32Le memory
  let second ← readU32Le memory
  return first.toUInt64 ||| (second.toUInt64 <<< 32)

def readBytes (length : Int) : Read BytesView := fun value =>
  if length < 0 ∨ length > (value.limit : Int) - value.position then (.error .endOfInput, value)
  else (.ok ⟨value.address, length.toNat⟩, value.advance length.toNat)

/-- The loop of `read_var_u64`. -/
def readVarLoop : Nat → Nat → Nat → UInt64 → Read UInt64
  | 0, _, _, _ => throw .invalidVarint
  | rounds + 1, count, shift, output => do
      let rawByte ← readU8 memory
      let byte := rawByte.toUInt64
      if count = 9 ∧ byte &&& 254 ≠ 0 then throw .invalidVarint
      else
        let output := output ||| ((byte &&& 127) <<< UInt64.ofNat shift)
        if byte &&& 128 = 0 then return output
        else readVarLoop rounds (count + 1) (shift + 7) output

def readVarU64 : Read UInt64 := readVarLoop memory 10 0 0 0

def readVarI64 : Read Int64 := do
  let encoded ← readVarU64 memory
  let decoded := (encoded >>> 1).toInt64
  if encoded &&& 1 ≠ 0 then return -decoded - 1
  else return decoded

def readLengthPrefixed (maximum : Int) : Read BytesView := do
  let encoded ← readVarU64 memory
  if encoded > 9223372036854775807 ∨ (maximum ≥ 0 ∧ encoded.toNat > maximum) then
    throw .lengthOverflow
  else readBytes encoded.toNat

end

/-! ## Writing -/

def writeU8 (input : UInt8) : Write := fun (memory, value) =>
  if value.position ≥ value.limit then (.error .outputFull, memory, value)
  else (.ok true, store memory value.address input, value.advance 1)

def writeU16Be (input : UInt16) : Write := do
  let _ ← writeU8 (input >>> 8).toUInt8
  let _ ← writeU8 input.toUInt8
  return true

def writeU16Le (input : UInt16) : Write := do
  let _ ← writeU8 input.toUInt8
  let _ ← writeU8 (input >>> 8).toUInt8
  return true

def writeU32Be (input : UInt32) : Write := do
  let _ ← writeU16Be (input >>> 16).toUInt16
  let _ ← writeU16Be input.toUInt16
  return true

def writeU32Le (input : UInt32) : Write := do
  let _ ← writeU16Le input.toUInt16
  let _ ← writeU16Le (input >>> 16).toUInt16
  return true

def writeU64Be (input : UInt64) : Write := do
  let _ ← writeU32Be (input >>> 32).toUInt32
  let _ ← writeU32Be input.toUInt32
  return true

def writeU64Le (input : UInt64) : Write := do
  let _ ← writeU32Le input.toUInt32
  let _ ← writeU32Le (input >>> 32).toUInt32
  return true

/-- The answer of `copy_into`, which writes nothing where there is no room, is not used. -/
def writeBytes (data : Nat) (length : Int) : Write := fun (memory, value) =>
  if length < 0 ∨ length > (value.limit : Int) - value.position ∨ (length > 0 ∧ data = 0) then
    (.error .outputFull, memory, value)
  else
    let memory := if length > 0 then copyUp memory value.address data length.toNat else memory
    (.ok true, memory, value.advance length.toNat)

/-- The loop of `write_var_u64` with the last byte behind it. -/
def writeVarLoop : Nat → UInt64 → Write
  | 0, remaining => do
      let _ ← writeU8 remaining.toUInt8
      return true
  | rounds + 1, remaining =>
      if remaining ≥ 128 then do
        let _ ← writeU8 ((remaining &&& 127) ||| 128).toUInt8
        writeVarLoop rounds (remaining >>> 7)
      else do
        let _ ← writeU8 remaining.toUInt8
        return true

/-- After nine rounds one bit is left. -/
def writeVarU64 (input : UInt64) : Write := writeVarLoop 9 input

def zigzag (input : Int64) : UInt64 :=
  if input < 0 then ((-input - 1).toUInt64 <<< 1) ||| 1 else input.toUInt64 <<< 1

def writeVarI64 (input : Int64) : Write := writeVarU64 (zigzag input)

def writeLengthPrefixed (data : Nat) (length : Int) : Write :=
  if length < 0 then throw .lengthOverflow
  else do
    let _ ← writeVarU64 (UInt64.ofInt length)
    writeBytes data length

/-! ## Fixed widths -/

theorem halves {bits value : Nat} (h : value < 2 ^ (bits + bits)) :
    ((value >>> bits % 2 ^ bits) <<< bits % 2 ^ (bits + bits)) ||| value % 2 ^ bits = value := by
  have hpow : 2 ^ (bits + bits) = 2 ^ bits * 2 ^ bits := Nat.pow_add 2 bits bits
  have hpos : 0 < 2 ^ bits := Nat.two_pow_pos bits
  have hdiv : value / 2 ^ bits < 2 ^ bits := by
    rw [Nat.div_lt_iff_lt_mul hpos, ← hpow]
    exact h
  have hshift : (value / 2 ^ bits) <<< bits < 2 ^ (bits + bits) := by
    rw [Nat.shiftLeft_eq, hpow]
    exact Nat.mul_lt_mul_of_pos_right hdiv hpos
  rw [Nat.shiftRight_eq_div_pow, Nat.mod_eq_of_lt hdiv, Nat.mod_eq_of_lt hshift,
    Numerals.shiftLeft_or (Nat.mod_lt _ hpos), Nat.div_add_mod']

theorem halves_u16 (value : UInt16) :
    ((value >>> 8).toUInt8.toUInt16 <<< 8) ||| value.toUInt8.toUInt16 = value := by
  rw [← UInt16.toNat_inj]
  simp
  exact @halves 8 _ value.toNat_lt

theorem halves_u32 (value : UInt32) :
    ((value >>> 16).toUInt16.toUInt32 <<< 16) ||| value.toUInt16.toUInt32 = value := by
  rw [← UInt32.toNat_inj]
  simp
  exact @halves 16 _ value.toNat_lt

theorem halves_u64 (value : UInt64) :
    ((value >>> 32).toUInt32.toUInt64 <<< 32) ||| value.toUInt32.toUInt64 = value := by
  rw [← UInt64.toNat_inj]
  simp
  exact @halves 32 _ value.toNat_lt

def bytesU16Be (value : UInt16) : List UInt8 := [(value >>> 8).toUInt8, value.toUInt8]

def bytesU16Le (value : UInt16) : List UInt8 := [value.toUInt8, (value >>> 8).toUInt8]

def bytesU32Be (value : UInt32) : List UInt8 :=
  bytesU16Be (value >>> 16).toUInt16 ++ bytesU16Be value.toUInt16

def bytesU32Le (value : UInt32) : List UInt8 :=
  bytesU16Le value.toUInt16 ++ bytesU16Le (value >>> 16).toUInt16

def bytesU64Be (value : UInt64) : List UInt8 :=
  bytesU32Be (value >>> 32).toUInt32 ++ bytesU32Be value.toUInt32

def bytesU64Le (value : UInt64) : List UInt8 :=
  bytesU32Le value.toUInt32 ++ bytesU32Le (value >>> 32).toUInt32

section

variable {memory : Bytes}

theorem takes_u8 (value : UInt8) : Takes memory (readU8 memory) [value] value := by
  intro cursor hstands hfits
  have hroom : ¬ cursor.position ≥ cursor.limit := Nat.not_le.mpr hfits
  unfold readU8
  rw [if_neg hroom, hstands.1]
  rfl

theorem puts_u8 (value : UInt8) : Puts (writeU8 value) [value] true := by
  intro memory cursor hfits
  have hroom : ¬ cursor.position ≥ cursor.limit := Nat.not_le.mpr hfits
  exact if_neg hroom

theorem takes_pair {α γ : Type} {read : Read α} {items more : List UInt8} {first second : α}
    {result : γ} (make : α → α → γ) (hfirst : Takes memory read items first)
    (hsecond : Takes memory read more second) (hres : make first second = result) :
    Takes memory (read >>= fun a => read >>= fun b => pure (make a b)) (items ++ more) result := by
  rw [← hres]
  exact hfirst.bind hsecond.last

theorem puts_pair {first second : Write} {items more : List UInt8}
    (hfirst : Puts first items true) (hsecond : Puts second more true) :
    Puts (first >>= fun _ => second >>= fun _ => pure true) (items ++ more) true :=
  hfirst.bind hsecond.last

theorem takes_u16Be (value : UInt16) : Takes memory (readU16Be memory) (bytesU16Be value) value :=
  takes_pair (fun a b : UInt8 => (a.toUInt16 <<< 8) ||| b.toUInt16) (takes_u8 (value >>> 8).toUInt8)
    (takes_u8 value.toUInt8) (halves_u16 value)

theorem takes_u16Le (value : UInt16) : Takes memory (readU16Le memory) (bytesU16Le value) value :=
  takes_pair (fun a b : UInt8 => a.toUInt16 ||| (b.toUInt16 <<< 8)) (takes_u8 value.toUInt8)
    (takes_u8 (value >>> 8).toUInt8) ((UInt16.or_comm _ _).trans (halves_u16 value))

theorem takes_u32Be (value : UInt32) : Takes memory (readU32Be memory) (bytesU32Be value) value :=
  takes_pair (fun a b : UInt16 => (a.toUInt32 <<< 16) ||| b.toUInt32)
    (takes_u16Be (value >>> 16).toUInt16) (takes_u16Be value.toUInt16) (halves_u32 value)

theorem takes_u32Le (value : UInt32) : Takes memory (readU32Le memory) (bytesU32Le value) value :=
  takes_pair (fun a b : UInt16 => a.toUInt32 ||| (b.toUInt32 <<< 16)) (takes_u16Le value.toUInt16)
    (takes_u16Le (value >>> 16).toUInt16) ((UInt32.or_comm _ _).trans (halves_u32 value))

theorem takes_u64Be (value : UInt64) : Takes memory (readU64Be memory) (bytesU64Be value) value :=
  takes_pair (fun a b : UInt32 => (a.toUInt64 <<< 32) ||| b.toUInt64)
    (takes_u32Be (value >>> 32).toUInt32) (takes_u32Be value.toUInt32) (halves_u64 value)

theorem takes_u64Le (value : UInt64) : Takes memory (readU64Le memory) (bytesU64Le value) value :=
  takes_pair (fun a b : UInt32 => a.toUInt64 ||| (b.toUInt64 <<< 32)) (takes_u32Le value.toUInt32)
    (takes_u32Le (value >>> 32).toUInt32) ((UInt64.or_comm _ _).trans (halves_u64 value))

end

theorem puts_u16Be (value : UInt16) : Puts (writeU16Be value) (bytesU16Be value) true :=
  puts_pair (puts_u8 (value >>> 8).toUInt8) (puts_u8 value.toUInt8)

theorem puts_u16Le (value : UInt16) : Puts (writeU16Le value) (bytesU16Le value) true :=
  puts_pair (puts_u8 value.toUInt8) (puts_u8 (value >>> 8).toUInt8)

theorem puts_u32Be (value : UInt32) : Puts (writeU32Be value) (bytesU32Be value) true :=
  puts_pair (puts_u16Be (value >>> 16).toUInt16) (puts_u16Be value.toUInt16)

theorem puts_u32Le (value : UInt32) : Puts (writeU32Le value) (bytesU32Le value) true :=
  puts_pair (puts_u16Le value.toUInt16) (puts_u16Le (value >>> 16).toUInt16)

theorem puts_u64Be (value : UInt64) : Puts (writeU64Be value) (bytesU64Be value) true :=
  puts_pair (puts_u32Be (value >>> 32).toUInt32) (puts_u32Be value.toUInt32)

theorem puts_u64Le (value : UInt64) : Puts (writeU64Le value) (bytesU64Le value) true :=
  puts_pair (puts_u32Le value.toUInt32) (puts_u32Le (value >>> 32).toUInt32)

end Raz.Encoding.Binary
