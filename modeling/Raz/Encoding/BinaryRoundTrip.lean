import Raz.Encoding.Binary
import Raz.Lib.Varint

/-!
# Reading back what was written

Result: `roundTrip`: a row of fields that is written is read back.
-/

namespace Raz.Encoding.Binary

open Memory Cursors Varint List Nat

/-! ## Numbers of variable length -/

theorem byte_bits (byte : UInt8) :
    (byte.toUInt64 &&& 254 = 0 ↔ byte.toNat < 2) ∧ (byte.toUInt64 &&& 128 = 0 ↔ byte.toNat < 128) ∧
      (byte.toUInt64 &&& 127).toNat = byte.toNat % 128 := by
  have hall : ∀ byte : Fin 256, ((UInt8.ofNat byte).toUInt64 &&& 254 = 0 ↔ byte.val < 2) ∧
      ((UInt8.ofNat byte).toUInt64 &&& 128 = 0 ↔ byte.val < 128) ∧
      ((UInt8.ofNat byte).toUInt64 &&& 127).toNat = byte.val % 128 := by decide +kernel
  have hbyte := hall ⟨byte.toNat, byte.toNat_lt⟩
  rwa [UInt8.ofNat_toNat] at hbyte

theorem toNat_shifted {output : UInt64} {byte : UInt8} {shift : Nat} (hshift : shift < 64)
    (hout : output.toNat < 2 ^ shift) (hfits : byte.toNat % 128 * 2 ^ shift < 2 ^ 64) :
    (output ||| ((byte.toUInt64 &&& 127) <<< UInt64.ofNat shift)).toNat =
      output.toNat + byte.toNat % 128 * 2 ^ shift := by
  have hcount : (UInt64.ofNat shift).toNat = shift := by
    rw [UInt64.toNat_ofNat']
    exact mod_eq_of_lt (by omega)
  rw [UInt64.toNat_or, UInt64.toNat_shiftLeft, hcount, (byte_bits byte).2.2,
    Nat.mod_eq_of_lt hshift, Nat.shiftLeft_eq, Nat.mod_eq_of_lt hfits, Nat.or_comm,
    ← shiftLeft_eq, Numerals.shiftLeft_or hout, add_comm, shiftLeft_eq]

section

variable {memory : Bytes}

theorem shifted_lt {byte : UInt8} {count : Nat} (hcount : count ≤ 9)
    (hlast : count = 9 → byte.toNat < 2) : byte.toNat % 128 * 2 ^ (7 * count) < 2 ^ 64 := by
  by_cases h : count = 9
  · have hbyte := hlast h
    rw [h]
    omega
  · have hpow : (2 : Nat) ^ (7 * count) ≤ 2 ^ 56 := Nat.pow_le_pow_right (by decide) (by omega)
    calc byte.toNat % 128 * 2 ^ (7 * count) ≤ 127 * 2 ^ 56 := Nat.mul_le_mul (by omega) hpow
      _ < 2 ^ 64 := by decide

/-- What is taken up once a byte has been added. -/
def added (output : UInt64) (byte : UInt8) (shift : Nat) : UInt64 :=
  output ||| ((byte.toUInt64 &&& 127) <<< UInt64.ofNat shift)

theorem readVarLoop_byte {cursor : Cursor} {rounds count shift : Nat} {output : UInt64}
    (hfits : cursor.Fits 1) : readVarLoop memory (rounds + 1) count shift output cursor =
      if count = 9 ∧ 2 ≤ (memory cursor.address).toNat then
        (.error .invalidVarint, cursor.advance 1)
      else if (memory cursor.address).toNat < 128 then
        (.ok (added output (memory cursor.address) shift), cursor.advance 1)
      else
        readVarLoop memory rounds (count + 1) (shift + 7)
          (added output (memory cursor.address) shift) (cursor.advance 1) := by
  have hread : readU8 memory cursor = (.ok (memory cursor.address), cursor.advance 1) :=
    takes_u8 (memory cursor.address) cursor ⟨rfl, trivial⟩ hfits
  obtain ⟨htenth, hlast, -⟩ := byte_bits (memory cursor.address)
  rw [readVarLoop, run_bind hread]
  by_cases hnine : count = 9 ∧ 2 ≤ (memory cursor.address).toNat
  · rw [if_pos hnine, if_pos ⟨hnine.1, fun h => absurd (htenth.mp h) (not_lt.mpr hnine.2)⟩]
    rfl
  have hguard : ¬ (count = 9 ∧ (memory cursor.address).toUInt64 &&& 254 ≠ 0) := fun h =>
    hnine ⟨h.1, not_lt.mp fun hlt => h.2 (htenth.mpr hlt)⟩
  rw [if_neg hnine, if_neg hguard]
  by_cases hbyte : (memory cursor.address).toNat < 128
  · rw [if_pos hbyte, if_pos (hlast.mpr hbyte)]
    rfl
  · rw [if_neg hbyte, if_neg (fun h => hbyte (hlast.mp h))]
    rfl

theorem toNat_added {output : UInt64} {byte : UInt8} {count : Nat} (hcount : count ≤ 9)
    (hout : output.toNat < 2 ^ (7 * count)) (hlast : count = 9 → byte.toNat < 2) :
    (added output byte (7 * count)).toNat = output.toNat + byte.toNat % 128 * 2 ^ (7 * count) :=
  toNat_shifted (by omega) hout (shifted_lt hcount hlast)

theorem added_lt {output byte shift : Nat} (hout : output < 2 ^ shift) :
    output + byte % 128 * 2 ^ shift < 2 ^ (shift + 7) := by
  have hpow : (2 : Nat) ^ (shift + 7) = 128 * 2 ^ shift := by
    rw [Nat.pow_add, Nat.mul_comm]
  have hmul : byte % 128 * 2 ^ shift ≤ 127 * 2 ^ shift := Nat.mul_le_mul_right _ (by omega)
  omega

theorem value_shift (byte : UInt8) (bytes : List UInt8) (count : Nat) :
    value (byte :: bytes) * 2 ^ (7 * count) =
      byte.toNat % 128 * 2 ^ (7 * count) + value bytes * 2 ^ (7 * (count + 1)) := by
  have hpow : (2 : Nat) ^ (7 * (count + 1)) = 128 * 2 ^ (7 * count) := by
    rw [Nat.mul_add, Nat.pow_add, Nat.mul_comm]
  rw [value, hpow, Nat.add_mul, Nat.mul_comm 128, Nat.mul_assoc]

/-- The loop on the bytes of a number, behind `count` bytes that are `output`. -/
theorem readVarLoop_takes {bytes : List UInt8} (hbytes : IsVarint bytes) :
    ∀ {rounds count : Nat} {output result : UInt64}, rounds + count = 10 →
    bytes.length + count ≤ 10 → output.toNat < 2 ^ (7 * count) →
    output.toNat + value bytes * 2 ^ (7 * count) = result.toNat →
      Takes memory (readVarLoop memory rounds count (7 * count) output) bytes result := by
  induction hbytes with
  | @last byte hlast =>
    intro rounds count output result hrounds hlen hout hres cursor hstands hfits
    rw [length_singleton] at hlen hfits
    obtain ⟨rounds, rfl⟩ : ∃ n, rounds = n + 1 := ⟨rounds - 1, by omega⟩
    rw [value_shift, value, zero_mul, add_zero] at hres
    have htenth : count = 9 → byte.toNat < 2 := by
      rintro rfl
      have hlt := result.toNat_lt
      omega
    rw [readVarLoop_byte hfits, hstands.1, if_neg (fun h => not_lt.mpr h.2 (htenth h.1)),
      if_pos hlast]
    have hadded := toNat_added (by omega) hout htenth
    rw [UInt64.toNat_inj.mp (hadded.trans hres)]
    rfl
  | @more byte bytes hmore hbytes ih =>
    intro rounds count output result hrounds hlen hout hres cursor hstands hfits
    have hpos := hbytes.length_pos
    rw [length_cons] at hlen hfits
    obtain ⟨rounds, rfl⟩ : ∃ n, rounds = n + 1 := ⟨rounds - 1, by omega⟩
    have htenth : ¬ count = 9 := by omega
    have hadded := @toNat_added output byte count (by omega) hout fun h => absurd h htenth
    rw [add_comm] at hfits
    rw [readVarLoop_byte hfits.left, hstands.1, if_neg (fun h => htenth h.1),
      if_neg (not_lt.mpr hmore)]
    have hnext : (added output byte (7 * count)).toNat < 2 ^ (7 * (count + 1)) := by
      rw [hadded]
      exact added_lt hout
    rw [value_shift, ← add_assoc, ← hadded] at hres
    have hrest := @ih rounds (count + 1) _ result (by omega) (by omega) hnext hres
      (cursor.advance 1) hstands.2 (fits_advance.mpr hfits)
    rw [length_cons, add_comm bytes.length, ← advance_add]
    exact hrest

theorem readVarLoop_ok : ∀ {rounds count : Nat} {output result : UInt64} {cursor : Cursor},
    rounds + count = 10 → output.toNat < 2 ^ (7 * count) →
    (readVarLoop memory rounds count (7 * count) output cursor).1 = .ok result →
      ∃ bytes, Stands memory cursor.address bytes ∧ cursor.Fits bytes.length ∧ IsVarint bytes ∧
        bytes.length ≤ rounds ∧ output.toNat + value bytes * 2 ^ (7 * count) = result.toNat := by
  intro rounds
  induction rounds with
  | zero =>
    intro _ _ _ _ _ _ h
    cases h
  | succ rounds ih =>
    intro count output result cursor hrounds hout h
    by_cases hfits : cursor.Fits 1
    · rw [readVarLoop_byte hfits] at h
      split_ifs at h with hnine hbyte
      · have htenth : count = 9 → (memory cursor.address).toNat < 2 := fun hcount =>
          not_le.mp fun hle => hnine ⟨hcount, hle⟩
        refine ⟨[memory cursor.address], ⟨rfl, trivial⟩, hfits, .last hbyte, succ_pos _, ?_⟩
        rw [value_shift, value, zero_mul, add_zero, ← toNat_added (by omega) hout htenth]
        exact congrArg UInt64.toNat (Except.ok.inj h)
      · have htenth : count = 9 → (memory cursor.address).toNat < 2 := fun hcount =>
          not_le.mp fun hle => hnine ⟨hcount, hle⟩
        have hadded := toNat_added (by omega) hout htenth
        have hnext : (added output (memory cursor.address) (7 * count)).toNat <
            2 ^ (7 * (count + 1)) := by
          rw [hadded]
          exact added_lt hout
        obtain ⟨bytes, hstands, hroom, hbytes, hlen, hval⟩ := ih (by omega) hnext h
        refine ⟨memory cursor.address :: bytes, ⟨rfl, hstands⟩, ?_,
          .more (not_lt.mp hbyte) hbytes, succ_le_succ hlen, ?_⟩
        · rw [length_cons, add_comm]
          exact fits_advance.mp hroom
        · rw [value_shift, ← add_assoc, ← hadded]
          exact hval
    · have hread : readU8 memory cursor = (.error .endOfInput, cursor) :=
        if_pos (not_lt.mp hfits)
      rw [readVarLoop, run_bind_error hread] at h
      cases h

theorem keeps_readVarLoop : ∀ {rounds count shift : Nat} {output : UInt64},
    Keeps (readVarLoop memory rounds count shift output) rounds := by
  intro rounds
  induction rounds with
  | zero => exact fun cursor => ⟨0, le_rfl, rfl⟩
  | succ rounds ih =>
    intro count shift output cursor
    by_cases hfits : cursor.Fits 1
    · rw [readVarLoop_byte hfits]
      split_ifs
      · exact ⟨1, succ_pos _, rfl⟩
      · exact ⟨1, succ_pos _, rfl⟩
      obtain ⟨moved, hmoved, hcur⟩ := @ih (count + 1) (shift + 7)
        (added output (memory cursor.address) shift) (cursor.advance 1)
      rw [hcur, advance_add]
      exact ⟨1 + moved, by omega, rfl⟩
    · have hread : readU8 memory cursor = (.error .endOfInput, cursor) :=
        if_pos (not_lt.mp hfits)
      rw [readVarLoop, run_bind_error hread]
      exact ⟨0, zero_le _, rfl⟩

/-- **A number is read if and only if it stands there**, in ten bytes at most, and has 64 bits. -/
theorem readVarU64_ok_iff {cursor : Cursor} {result : UInt64} :
    (readVarU64 memory cursor).1 = .ok result ↔
      ∃ bytes, Stands memory cursor.address bytes ∧ cursor.Fits bytes.length ∧ IsVarint bytes ∧
        bytes.length ≤ 10 ∧ value bytes = result.toNat := by
  have hzero : (0 : UInt64).toNat < 2 ^ (7 * 0) := by decide
  constructor
  · intro h
    obtain ⟨bytes, hstands, hfits, hbytes, hlen, hval⟩ :=
      @readVarLoop_ok memory 10 0 0 result cursor rfl hzero h
    rw [mul_zero, pow_zero, mul_one] at hval
    exact ⟨bytes, hstands, hfits, hbytes, hlen, (zero_add _).symm.trans hval⟩
  · rintro ⟨bytes, hstands, hfits, hbytes, hlen, hval⟩
    have htakes : Takes memory (readVarU64 memory) bytes result :=
      @readVarLoop_takes memory bytes hbytes 10 0 0 result rfl hlen hzero (by
        rw [mul_zero, pow_zero, mul_one, ← hval]
        exact zero_add _)
    rw [htakes cursor hstands hfits]

end

/-! ## Numbers that are written -/

/-- The bytes of a number of variable length. -/
def varBytes (input : UInt64) : List UInt8 := varint 9 input.toNat

theorem varBytes_lt (input : UInt64) : input.toNat < 128 ^ (9 + 1) :=
  lt_of_lt_of_le input.toNat_lt (by decide)

theorem takes_varU64 {memory : Bytes} (input : UInt64) :
    Takes memory (readVarU64 memory) (varBytes input) input := by
  refine @readVarLoop_takes memory _ (isVarint_varint (varBytes_lt input)) 10 0 0 input rfl
    length_varint (by decide) ?_
  rw [value_varint (varBytes_lt input), mul_zero, pow_zero, mul_one]
  exact zero_add _

theorem puts_varLoop : ∀ {rounds : Nat} {remaining : UInt64},
    Puts (writeVarLoop rounds remaining) (varint rounds remaining.toNat) true := by
  intro rounds
  induction rounds with
  | zero => exact fun {remaining} => (puts_u8 remaining.toUInt8).last
  | succ rounds ih =>
    intro remaining
    have hlow : (remaining &&& 127).toNat = remaining.toNat % 128 := by
      rw [UInt64.toNat_and]
      exact and_two_pow_sub_one_eq_mod remaining.toNat 7
    rw [writeVarLoop, varint]
    by_cases hlarge : remaining ≥ 128
    · have hge : 128 ≤ remaining.toNat := UInt64.le_iff_toNat_le.mp hlarge
      have hbyte : ((remaining &&& 127) ||| 128).toUInt8 =
          UInt8.ofNat (remaining.toNat % 128 + 128) := by
        have hor : remaining.toNat % 128 ||| 128 = remaining.toNat % 128 + 128 := by
          rw [Nat.or_comm, Nat.add_comm]
          exact @Numerals.shiftLeft_or 1 (remaining.toNat % 128) 7 (mod_lt _ (by decide))
        have htoNat : ((remaining &&& 127) ||| 128).toNat = remaining.toNat % 128 + 128 := by
          rw [UInt64.toNat_or, hlow]
          exact hor
        rw [← UInt8.toNat_inj, UInt64.toNat_toUInt8, htoNat]
        rfl
      have hdiv : (remaining >>> 7).toNat = remaining.toNat / 128 := by
        rw [UInt64.toNat_shiftRight]
        exact shiftRight_eq_div_pow _ 7
      rw [if_pos hlarge, if_neg (not_lt.mpr hge), hbyte, ← hdiv]
      exact (puts_u8 _).bind ih
    · have hlt : remaining.toNat < 128 := not_le.mp fun hge =>
        hlarge (UInt64.le_iff_toNat_le.mpr hge)
      rw [if_neg hlarge, if_pos hlt]
      exact (puts_u8 remaining.toUInt8).last

theorem puts_varU64 (input : UInt64) : Puts (writeVarU64 input) (varBytes input) true :=
  puts_varLoop

/-! ## Signed numbers -/

theorem negative_iff (input : Int64) : input < 0 ↔ 2 ^ 63 ≤ input.toUInt64.toNat := by
  have htoNat : input.toBitVec.toNat = input.toUInt64.toNat := rfl
  rw [Int64.lt_iff_toInt_lt]
  refine (@BitVec.toInt_neg_iff 64 input.toBitVec).trans ?_
  rw [htoNat]
  omega

theorem complement_lt {input : Int64} (h : input < 0) : (-input - 1).toUInt64.toNat < 2 ^ 63 := by
  have hge := (negative_iff input).mp h
  have hlt := input.toUInt64.toNat_lt
  have hsize : UInt64.size = 2 ^ 64 := rfl
  have hone : (Int64.toUInt64 1).toNat = 1 := rfl
  rw [Int64.toUInt64_sub, Int64.toUInt64_neg, UInt64.toNat_sub, UInt64.toNat_neg, hone, hsize]
  omega

theorem shift_back {value : UInt64} (h : value.toNat < 2 ^ 63) :
    ((value <<< 1) >>> 1 = value ∧ (value <<< 1) &&& 1 = 0) ∧
      ((value <<< 1) ||| 1) >>> 1 = value ∧ ((value <<< 1) ||| 1) &&& 1 ≠ 0 := by
  have hone : (1 : UInt64).toNat % 64 = 1 := rfl
  have heven : (value <<< 1).toNat = value.toNat * 2 := by
    rw [UInt64.toNat_shiftLeft, hone, shiftLeft_eq]
    exact mod_eq_of_lt (by omega)
  have hodd : ((value <<< 1) ||| 1).toNat = value.toNat * 2 + 1 := by
    have hor := @Numerals.shiftLeft_or value.toNat 1 1 (by decide)
    rw [shiftLeft_eq] at hor
    rw [UInt64.toNat_or, heven]
    exact hor
  have hlow (input : UInt64) : (input &&& 1).toNat = input.toNat % 2 := by
    rw [UInt64.toNat_and]
    exact and_one_is_mod input.toNat
  have hshift (input : UInt64) : (input >>> 1).toNat = input.toNat / 2 := by
    rw [UInt64.toNat_shiftRight]
    exact shiftRight_eq_div_pow input.toNat 1
  have hzero : (0 : UInt64).toNat = 0 := rfl
  refine ⟨⟨?_, ?_⟩, ?_, fun heq => ?_⟩
  · rw [← UInt64.toNat_inj, hshift, heven]
    omega
  · rw [← UInt64.toNat_inj, hlow, heven, hzero]
    omega
  · rw [← UInt64.toNat_inj, hshift, hodd]
    omega
  · rw [← UInt64.toNat_inj, hlow, hodd, hzero] at heq
    omega

/-- What `read_var_i64` makes of a number. -/
def unzigzag (encoded : UInt64) : Int64 :=
  if encoded &&& 1 ≠ 0 then -(encoded >>> 1).toInt64 - 1 else (encoded >>> 1).toInt64

/-- **A signed number is found again**, the least one among them. -/
theorem zigzag_back (input : Int64) : unzigzag (zigzag input) = input := by
  unfold unzigzag zigzag
  by_cases hnegative : input < 0
  · obtain ⟨-, hback, hodd⟩ := shift_back (complement_lt hnegative)
    rw [if_pos hnegative, if_pos hodd, hback, Int64.toInt64_toUInt64]
    grind
  have hlt : input.toUInt64.toNat < 2 ^ 63 := not_le.mp fun hge =>
    hnegative ((negative_iff input).mpr hge)
  obtain ⟨⟨hback, heven⟩, -⟩ := shift_back hlt
  rw [if_neg hnegative, if_neg (fun hne => hne heven), hback, Int64.toInt64_toUInt64]

theorem readVarI64_eq (memory : Bytes) :
    readVarI64 memory = readVarU64 memory >>= fun encoded => pure (unzigzag encoded) := by
  unfold readVarI64
  congr 1
  funext encoded
  unfold unzigzag
  split <;> rfl

theorem takes_varI64 {memory : Bytes} (input : Int64) :
    Takes memory (readVarI64 memory) (varBytes (zigzag input)) input := by
  have htakes : Takes memory (readVarU64 memory >>= fun encoded => pure (unzigzag encoded))
      (varBytes (zigzag input)) (unzigzag (zigzag input)) := (takes_varU64 (zigzag input)).last
  rwa [zigzag_back, ← readVarI64_eq] at htakes

/-! ## Bytes -/

/-- The bytes of a view. -/
def contents (memory : Bytes) (view : BytesView) : List UInt8 :=
  (List.range view.length).map fun index => memory (view.data + index)

@[simp] theorem length_contents (memory : Bytes) (view : BytesView) :
    (contents memory view).length = view.length := length_readRange memory view.data view.length

theorem stands_contents (memory : Bytes) (data length : Nat) :
    Stands memory data (contents memory ⟨data, length⟩) := stands_readRange memory data length

theorem contents_eq {memory : Bytes} {data : Nat} {bytes : List UInt8}
    (h : Stands memory data bytes) : contents memory ⟨data, bytes.length⟩ = bytes :=
  (stands_contents memory data bytes.length).unique h (length_contents _ _)

section

variable {memory : Bytes} {bytes : List UInt8} {cursor : Cursor} {data length : Nat}

theorem takes_bytes {γ : Type} (make : List UInt8 → γ) : Takes memory
    (readBytes bytes.length >>= fun view => pure (make (contents memory view))) bytes
    (make bytes) := by
  intro cursor hstands hfits
  have hroom : ¬ ((bytes.length : Int) < 0 ∨
      (bytes.length : Int) > (cursor.limit : Int) - cursor.position) := by
    have hle : cursor.position + bytes.length ≤ cursor.limit := hfits
    omega
  have hread : readBytes bytes.length cursor =
      (.ok ⟨cursor.address, bytes.length⟩, cursor.advance bytes.length) := by
    unfold readBytes
    rw [if_neg hroom, Int.toNat_natCast]
  rw [run_bind hread, contents_eq hstands]
  rfl

theorem puts_bytes (hfits : cursor.Fits length) (hnull : length = 0 ∨ data ≠ 0)
    (hapart : data + length ≤ cursor.address ∨ cursor.address + length ≤ data) :
    PutsAt memory cursor (writeBytes data length) (contents memory ⟨data, length⟩) true := by
  have hle : cursor.position + length ≤ cursor.limit := hfits
  have hguard : ¬ ((length : Int) < 0 ∨ (length : Int) > (cursor.limit : Int) - cursor.position ∨
      ((length : Int) > 0 ∧ data = 0)) := by omega
  have hcopy := copyUp_eq (stands_contents memory data length) (by
    rw [length_contents]
    exact hapart.symm.imp (le_trans (le_add_right _ _)) id)
  unfold PutsAt writeBytes
  dsimp only
  rw [length_contents] at hcopy ⊢
  rw [if_neg hguard, Int.toNat_natCast]
  by_cases hzero : length = 0
  · subst hzero
    rfl
  · rw [if_pos (by omega), hcopy]

end

/-! ## Rows of fields -/

inductive Value
  | u8 (value : UInt8)
  | u16 (value : UInt16)
  | u32 (value : UInt32)
  | u64 (value : UInt64)
  | i64 (value : Int64)
  | bytes (value : List UInt8)
deriving DecidableEq

/-- A call of a writer. -/
inductive Request
  | u8 (value : UInt8)
  | u16Be (value : UInt16)
  | u16Le (value : UInt16)
  | u32Be (value : UInt32)
  | u32Le (value : UInt32)
  | u64Be (value : UInt64)
  | u64Le (value : UInt64)
  | varU64 (value : UInt64)
  | varI64 (value : Int64)
  | bytes (data length : Nat)
  | lengthPrefixed (data length : Nat)

/-- A call of a reader. -/
inductive Field
  | u8
  | u16Be
  | u16Le
  | u32Be
  | u32Le
  | u64Be
  | u64Le
  | varU64
  | varI64
  | bytes (length : Int)
  | lengthPrefixed (maximum : Int)

def writeRequest : Request → Write
  | .u8 value => writeU8 value
  | .u16Be value => writeU16Be value
  | .u16Le value => writeU16Le value
  | .u32Be value => writeU32Be value
  | .u32Le value => writeU32Le value
  | .u64Be value => writeU64Be value
  | .u64Le value => writeU64Le value
  | .varU64 value => writeVarU64 value
  | .varI64 value => writeVarI64 value
  | .bytes data length => writeBytes data length
  | .lengthPrefixed data length => writeLengthPrefixed data length

def readField (memory : Bytes) : Field → Read Value
  | .u8 => readU8 memory >>= fun value => pure (.u8 value)
  | .u16Be => readU16Be memory >>= fun value => pure (.u16 value)
  | .u16Le => readU16Le memory >>= fun value => pure (.u16 value)
  | .u32Be => readU32Be memory >>= fun value => pure (.u32 value)
  | .u32Le => readU32Le memory >>= fun value => pure (.u32 value)
  | .u64Be => readU64Be memory >>= fun value => pure (.u64 value)
  | .u64Le => readU64Le memory >>= fun value => pure (.u64 value)
  | .varU64 => readVarU64 memory >>= fun value => pure (.u64 value)
  | .varI64 => readVarI64 memory >>= fun value => pure (.i64 value)
  | .bytes length => readBytes length >>= fun view => pure (.bytes (contents memory view))
  | .lengthPrefixed maximum =>
      readLengthPrefixed memory maximum >>= fun view => pure (.bytes (contents memory view))

def writeAll : List Request → Write
  | [] => pure true
  | request :: requests => writeRequest request >>= fun _ => writeAll requests

def readAll (memory : Bytes) : List Field → Read (List Value)
  | [] => pure []
  | field :: fields =>
      readField memory field >>= fun value => readAll memory fields >>= fun values =>
        pure (value :: values)

/-- What a call is given: for bytes, those that stand at the address when it is made. -/
def Request.value (memory : Bytes) : Request → Value
  | .u8 value => .u8 value
  | .u16Be value => .u16 value
  | .u16Le value => .u16 value
  | .u32Be value => .u32 value
  | .u32Le value => .u32 value
  | .u64Be value => .u64 value
  | .u64Le value => .u64 value
  | .varU64 value => .u64 value
  | .varI64 value => .i64 value
  | .bytes data length => .bytes (contents memory ⟨data, length⟩)
  | .lengthPrefixed data length => .bytes (contents memory ⟨data, length⟩)

/-- What the calls of a run are given, each in the memory that it finds. -/
def values (memory : Bytes) (value : BinaryWriter) : List Request → List Value
  | [] => []
  | request :: requests =>
      let state := (writeRequest request (memory, value)).2
      request.value memory :: values state.1 state.2 requests

/-- The bytes of a call. -/
def Request.text (memory : Bytes) : Request → List UInt8
  | .u8 value => [value]
  | .u16Be value => bytesU16Be value
  | .u16Le value => bytesU16Le value
  | .u32Be value => bytesU32Be value
  | .u32Le value => bytesU32Le value
  | .u64Be value => bytesU64Be value
  | .u64Le value => bytesU64Le value
  | .varU64 value => varBytes value
  | .varI64 value => varBytes (zigzag value)
  | .bytes data length => contents memory ⟨data, length⟩
  | .lengthPrefixed data length =>
      varBytes (UInt64.ofInt length) ++ contents memory ⟨data, length⟩

/-- The number of bytes of a call. -/
def Request.size : Request → Nat
  | .u8 _ => 1
  | .u16Be _ => 2
  | .u16Le _ => 2
  | .u32Be _ => 4
  | .u32Le _ => 4
  | .u64Be _ => 8
  | .u64Le _ => 8
  | .varU64 value => (varBytes value).length
  | .varI64 value => (varBytes (zigzag value)).length
  | .bytes _ length => length
  | .lengthPrefixed _ length => (varBytes (UInt64.ofInt length)).length + length

/-- Bytes that are given are apart from the place where the call writes. -/
def Request.Apart (address : Nat) (request : Request) : Prop :=
  match request with
  | .bytes data length | .lengthPrefixed data length =>
      (length = 0 ∨ data ≠ 0) ∧ (data + length ≤ address ∨ address + request.size ≤ data)
  | _ => True

def Sources (address : Nat) : List Request → Prop
  | [] => True
  | request :: requests => request.Apart address ∧ Sources (address + request.size) requests

/-- The reader is called as the writer was. -/
inductive Matches : Field → Request → Prop
  | u8 (value : UInt8) : Matches .u8 (.u8 value)
  | u16Be (value : UInt16) : Matches .u16Be (.u16Be value)
  | u16Le (value : UInt16) : Matches .u16Le (.u16Le value)
  | u32Be (value : UInt32) : Matches .u32Be (.u32Be value)
  | u32Le (value : UInt32) : Matches .u32Le (.u32Le value)
  | u64Be (value : UInt64) : Matches .u64Be (.u64Be value)
  | u64Le (value : UInt64) : Matches .u64Le (.u64Le value)
  | varU64 (value : UInt64) : Matches .varU64 (.varU64 value)
  | varI64 (value : Int64) : Matches .varI64 (.varI64 value)
  | bytes (data length : Nat) : Matches (.bytes length) (.bytes data length)
  | lengthPrefixed (data length : Nat) {maximum : Int} : maximum < 0 ∨ (length : Int) ≤ maximum →
      Matches (.lengthPrefixed maximum) (.lengthPrefixed data length)

section

variable {memory memory' : Bytes} {cursor : Cursor}

theorem length_text (memory : Bytes) (request : Request) :
    (request.text memory).length = request.size := by
  cases request with
  | bytes data length => exact length_contents memory ⟨data, length⟩
  | lengthPrefixed data length =>
    rw [Request.text, length_append, length_contents]
    rfl
  | _ => rfl

theorem toNat_length {length : Nat} (h : length < 2 ^ 63) :
    (UInt64.ofInt length).toNat = length := by
  have hmod : ((length : Int) % 2 ^ 64).toNat = length := by omega
  unfold UInt64.ofInt
  rw [hmod, UInt64.toNat_ofNat']
  exact mod_eq_of_lt (by omega)

theorem takes_lengthPrefixed {γ : Type} (make : List UInt8 → γ) {bytes : List UInt8} {maximum : Int}
    (hlen : bytes.length < 2 ^ 63) (hmaximum : maximum < 0 ∨ (bytes.length : Int) ≤ maximum) :
    Takes memory
      (readLengthPrefixed memory maximum >>= fun view => pure (make (contents memory view)))
      (varBytes (UInt64.ofInt bytes.length) ++ bytes) (make bytes) := by
  have htoNat := toNat_length hlen
  have hguard : ¬ (UInt64.ofInt bytes.length > 9223372036854775807 ∨
      (maximum ≥ 0 ∧ ((UInt64.ofInt bytes.length).toNat : Int) > maximum)) := by
    rw [htoNat]
    rintro (hlarge | hlarge)
    · have hlt := UInt64.lt_iff_toNat_lt.mp hlarge
      rw [htoNat] at hlt
      exact absurd hlt (not_lt.mpr (le_of_lt_succ hlen))
    · omega
  intro cursor hstands hfits
  obtain ⟨hfront, hbytes⟩ := Stands.append_iff.mp hstands
  rw [length_append] at hfits ⊢
  have hstep := takes_varU64 (UInt64.ofInt bytes.length) cursor hfront hfits.left
  have hrest := @takes_bytes memory bytes γ make (cursor.advance (varBytes
    (UInt64.ofInt bytes.length)).length) (by rwa [address_advance]) (fits_advance.mpr hfits)
  unfold readLengthPrefixed
  rw [bind_assoc, run_bind hstep, if_neg hguard, htoNat, hrest, advance_add]

/-- Each reader takes what the writer of the same name puts down. -/
theorem takes_field {field : Field} {request : Request} (hmatch : Matches field request)
    (hsize : request.size < 2 ^ 63) :
    Takes memory' (readField memory' field) (request.text memory) (request.value memory) := by
  cases hmatch with
  | u8 value => exact (takes_u8 value).last
  | u16Be value => exact (takes_u16Be value).last
  | u16Le value => exact (takes_u16Le value).last
  | u32Be value => exact (takes_u32Be value).last
  | u32Le value => exact (takes_u32Le value).last
  | u64Be value => exact (takes_u64Be value).last
  | u64Le value => exact (takes_u64Le value).last
  | varU64 value => exact (takes_varU64 value).last
  | varI64 value => exact (takes_varI64 value).last
  | bytes data length =>
    have htakes := @takes_bytes memory' (contents memory ⟨data, length⟩) Value .bytes
    rw [length_contents] at htakes
    exact htakes
  | @lengthPrefixed data length maximum hmaximum =>
    have hlen : length < 2 ^ 63 := lt_of_le_of_lt (le_add_left _ _) hsize
    have htakes := @takes_lengthPrefixed memory' Value .bytes (contents memory ⟨data, length⟩)
      maximum (by rwa [length_contents]) (by rwa [length_contents])
    rw [length_contents] at htakes
    exact htakes

/-- Each call puts its bytes down, whatever has been written before. -/
theorem puts_request {request : Request} (hfits : cursor.Fits request.size)
    (hapart : request.Apart cursor.address) :
    PutsAt memory cursor (writeRequest request) (request.text memory) true := by
  have hroom : cursor.Fits (request.text memory).length := by rwa [length_text]
  cases request with
  | u8 value => exact puts_u8 value memory cursor hroom
  | u16Be value => exact puts_u16Be value memory cursor hroom
  | u16Le value => exact puts_u16Le value memory cursor hroom
  | u32Be value => exact puts_u32Be value memory cursor hroom
  | u32Le value => exact puts_u32Le value memory cursor hroom
  | u64Be value => exact puts_u64Be value memory cursor hroom
  | u64Le value => exact puts_u64Le value memory cursor hroom
  | varU64 value => exact puts_varU64 value memory cursor hroom
  | varI64 value => exact puts_varU64 (zigzag value) memory cursor hroom
  | bytes data length => exact puts_bytes hfits hapart.1 hapart.2
  | lengthPrefixed data length =>
    obtain ⟨hnull, hapart⟩ := hapart
    have hsize : (Request.lengthPrefixed data length).size =
        (varBytes (UInt64.ofInt length)).length + length := rfl
    rw [hsize] at hfits hapart
    have hsame : contents (storeAll memory cursor.address (varBytes (UInt64.ofInt length)))
        ⟨data, length⟩ = contents memory ⟨data, length⟩ := by
      have hkept := (stands_contents memory data length).frame
        (@frame_storeAll _ (varBytes (UInt64.ofInt length)) memory cursor.address)
        (by rw [length_contents]; dsimp only; omega)
      have hcontents := contents_eq hkept
      rwa [length_contents] at hcontents
    have hfront := puts_varU64 (UInt64.ofInt length) memory cursor hfits.left
    have hbytes := @puts_bytes (storeAll memory cursor.address (varBytes (UInt64.ofInt length)))
      (cursor.advance (varBytes (UInt64.ofInt length)).length) data length
      (fits_advance.mpr hfits) hnull (by rw [address_advance]; omega)
    rw [hsame] at hbytes
    have hwrite : writeLengthPrefixed data length =
        writeVarU64 (UInt64.ofInt length) >>= fun _ => writeBytes data length := by
      unfold writeLengthPrefixed
      rw [if_neg (Int.not_lt.mpr (Int.natCast_nonneg length))]
    rw [writeRequest, hwrite]
    exact hfront.bind hbytes

/-- The bytes of a run, each call with those that stand at the address when it is made. -/
def texts (memory : Bytes) (value : BinaryWriter) : List Request → List UInt8
  | [] => []
  | request :: requests =>
      let state := (writeRequest request (memory, value)).2
      request.text memory ++ texts state.1 state.2 requests

/-- A row of calls puts its bytes down, and they are read as the values that were given. -/
theorem puts_requests {requests : List Request} : ∀ {memory : Bytes} {cursor : Cursor},
    cursor.limit < 2 ^ 63 → cursor.Fits (requests.map Request.size).sum →
    Sources cursor.address requests →
      PutsAt memory cursor (writeAll requests) (texts memory cursor requests) true ∧
      (texts memory cursor requests).length = (requests.map Request.size).sum ∧
      ∀ {fields : List Field} {memory' : Bytes}, List.Forall₂ Matches fields requests →
        Takes memory' (readAll memory' fields) (texts memory cursor requests)
          (values memory cursor requests) := by
  induction requests with
  | nil =>
    refine fun _ _ _ => ⟨rfl, rfl, fun {fields memory'} hmatch => ?_⟩
    cases hmatch
    exact Takes.pure []
  | cons request requests ih =>
    intro memory cursor hlimit hfits ⟨hapart, hsources⟩
    rw [map_cons, sum_cons] at hfits ⊢
    have hrequest := @puts_request memory cursor request hfits.left hapart
    have hstate : (writeRequest request (memory, cursor)).2 =
        (storeAll memory cursor.address (request.text memory), cursor.advance request.size) := by
      rw [hrequest, length_text]
    have hlen := length_text memory request
    obtain ⟨hrest, hcount, htakes⟩ := @ih (storeAll memory cursor.address (request.text memory))
      (cursor.advance request.size) hlimit (fits_advance.mpr hfits) (by rwa [address_advance])
    rw [texts, values, hstate]
    refine ⟨?_, by rw [length_append, hlen, hcount], fun {fields memory'} hmatch => ?_⟩
    · rw [← hlen] at hrest ⊢
      exact hrequest.bind hrest
    cases hmatch with
    | cons hfield hfields =>
      have hsize : request.size < 2 ^ 63 := by
        have hroom : cursor.position + (request.size + (requests.map Request.size).sum) ≤
          cursor.limit := hfits
        omega
      exact (takes_field hfield hsize).bind (htakes hfields).last

end

/-- **What is written is read back**, and the reader ends where the writer has ended. A number of
variable length is read if and only if it stands there in ten bytes at most and has 64 bits. -/
theorem roundTrip :
    (∀ (memory : Bytes) (value : BinaryWriter) (requests : List Request) (fields : List Field),
      value.limit < 2 ^ 63 → value.Fits (requests.map Request.size).sum →
      Sources value.address requests → List.Forall₂ Matches fields requests →
        ∃ memory' value', writeAll requests (memory, value) = (.ok true, memory', value') ∧
          ∀ length, value'.position ≤ length →
            readAll memory' fields ⟨value.data, length, value.position⟩ =
              (.ok (values memory value requests), ⟨value.data, length, value'.position⟩)) ∧
    ∀ (memory : Bytes) (value : BinaryReader),
      (readVarU64 memory value).2.position ≤ value.position + 10 ∧
      ∀ result, (readVarU64 memory value).1 = .ok result ↔
        ∃ bytes, Stands memory value.address bytes ∧ value.Fits bytes.length ∧
          IsVarint bytes ∧ bytes.length ≤ 10 ∧ Varint.value bytes = result.toNat := by
  refine ⟨fun memory value requests fields hlimit hfits hsources hmatch => ?_,
    fun memory value => ⟨?_, fun _ => readVarU64_ok_iff⟩⟩
  · obtain ⟨hputs, hcount, htakes⟩ := @puts_requests requests memory value hlimit hfits hsources
    refine ⟨_, _, hputs, fun length hlen => ?_⟩
    exact htakes hmatch ⟨value.data, length, value.position⟩ stands_storeAll hlen
  · obtain ⟨moved, hmoved, hval⟩ := @keeps_readVarLoop memory 10 0 0 0 value
    rw [readVarU64, hval]
    exact Nat.add_le_add_left hmoved _

/-- The least number and one byte behind it. -/
theorem roundTrip_least : ∃ memory' value',
    writeAll [.varI64 Int64.minValue, .u8 7] ((fun _ => 0), ⟨8, 11, 0⟩) =
      (.ok true, memory', value') ∧
    ∀ length, value'.position ≤ length →
      readAll memory' [.varI64, .u8] ⟨8, length, 0⟩ =
        (.ok [.i64 Int64.minValue, .u8 7], ⟨8, length, value'.position⟩) :=
  roundTrip.1 (fun _ => 0) ⟨8, 11, 0⟩ [.varI64 Int64.minValue, .u8 7] [.varI64, .u8] (by decide)
    (by unfold Cursor.Fits; decide) ⟨trivial, trivial, trivial⟩
    (.cons (.varI64 _) (.cons (.u8 _) .nil))

end Raz.Encoding.Binary
