import Mathlib.Algebra.Order.Ring.Int
import Raz.Core.Utf8
import Raz.Lib.Access
import Raz.Lib.Memory

/-!
# Scalars in UTF-8

Translation of the rest of `core::utf8`: the validity and the width of a scalar, `count_scalars` and
`encode`, and `decode` again with each of its reads checked.

Result: `utf8_exact`: all of it for every byte string.
-/

namespace Raz.Core.Utf8

open Unicode Access Memory List

variable {offset : Nat} {scalar : Int} {scalars : List Int}

def scalarValid (scalar : Int) : Bool :=
  if scalar < 0 ∨ scalar > 1114111 then false else scalar < 55296 || scalar > 57343

def scalarWidth (scalar : Int) : Nat :=
  if scalarValid scalar = false then 0
  else if scalar ≤ 127 then 1
  else if scalar ≤ 2047 then 2
  else if scalar ≤ 65535 then 3
  else 4

/-- `decode` with its reads: a read outside the data is a fault. -/
def decodeRead (data : List UInt8) (offset : Nat) : Except (Fault Unit) DecodeResult :=
  if offset ≥ data.length then return invalid
  else do
    let b0 ← access data offset
    if b0 ≤ 127 then return ⟨b0.toNat, 1⟩
    else if 194 ≤ b0 ∧ b0 ≤ 223 then
      if offset + 1 ≥ data.length then return invalid
      else
        let b1 ← access data (offset + 1)
        if ¬ continuation b1 then return invalid
        else return ⟨((b0.toNat &&& 31) <<< 6 ||| (b1.toNat &&& 63) : Nat), 2⟩
    else if 224 ≤ b0 ∧ b0 ≤ 239 then
      if offset + 2 ≥ data.length then return invalid
      else
        let b1 ← access data (offset + 1)
        let b2 ← access data (offset + 2)
        if ¬ continuation b1 ∨ ¬ continuation b2 then return invalid
        else if b0 = 224 ∧ b1 < 160 then return invalid
        else if b0 = 237 ∧ b1 > 159 then return invalid
        else
          return ⟨((b0.toNat &&& 15) <<< 12 ||| (b1.toNat &&& 63) <<< 6 |||
            (b2.toNat &&& 63) : Nat), 3⟩
    else if 240 ≤ b0 ∧ b0 ≤ 244 then
      if offset + 3 ≥ data.length then return invalid
      else
        let b1 ← access data (offset + 1)
        let b2 ← access data (offset + 2)
        let b3 ← access data (offset + 3)
        if ¬ continuation b1 ∨ ¬ continuation b2 ∨ ¬ continuation b3 then return invalid
        else if b0 = 240 ∧ b1 < 144 then return invalid
        else if b0 = 244 ∧ b1 > 143 then return invalid
        else
          return ⟨((b0.toNat &&& 7) <<< 18 ||| (b1.toNat &&& 63) <<< 12 |||
            (b2.toNat &&& 63) <<< 6 ||| (b3.toNat &&& 63) : Nat), 4⟩
    else return invalid

/-- The loop of `count_scalars`. -/
def countLoop (data : List UInt8) : Nat → Nat → Int → Int
  | 0, offset, count => if offset < data.length then -1 else count
  | rounds + 1, offset, count =>
      if offset < data.length then
        let result := decode data offset
        if result.width = 0 then -1 else countLoop data rounds (offset + result.width) (count + 1)
      else count

def countScalars (data : List UInt8) : Int := countLoop data data.length 0 0

/-- The scalars that `decode` gives one after the other, up to the first invalid input. -/
def decodeLoop (data : List UInt8) : Nat → Nat → List Int
  | 0, _ => []
  | rounds + 1, offset =>
      let result := decode data offset
      if result.width = 0 then []
      else result.scalar :: decodeLoop data rounds (offset + result.width)

def decodeAll (data : List UInt8) : List Int := decodeLoop data data.length 0

/-- The number of bytes that are written; 0 for none. -/
def encode (memory : Nat → UInt8) (scalar : Int) (output capacity : Nat) :
    Nat × (Nat → UInt8) :=
  let width := scalarWidth scalar
  if width = 0 ∨ capacity < width ∨ output = 0 then (0, memory)
  else
    let n := scalar.toNat
    if width = 1 then (width, store memory output (UInt8.ofNat n))
    else if width = 2 then
      let memory := store memory output (UInt8.ofNat (192 ||| n >>> 6))
      (width, store memory (output + 1) (UInt8.ofNat (128 ||| n &&& 63)))
    else if width = 3 then
      let memory := store memory output (UInt8.ofNat (224 ||| n >>> 12))
      let memory := store memory (output + 1) (UInt8.ofNat (128 ||| n >>> 6 &&& 63))
      (width, store memory (output + 2) (UInt8.ofNat (128 ||| n &&& 63)))
    else
      let memory := store memory output (UInt8.ofNat (240 ||| n >>> 18))
      let memory := store memory (output + 1) (UInt8.ofNat (128 ||| n >>> 12 &&& 63))
      let memory := store memory (output + 2) (UInt8.ofNat (128 ||| n >>> 6 &&& 63))
      (width, store memory (output + 3) (UInt8.ofNat (128 ||| n &&& 63)))

/-! ## Reads -/

theorem access_drop {data rest : List UInt8} {offset index : Nat} {byte : UInt8}
    (h : data.drop offset = rest) (hbyte : rest[index]? = some byte) :
    (access data (offset + index) : Except (Fault Unit) UInt8) = .ok byte := by
  subst h
  rw [List.getElem?_drop] at hbyte
  unfold access
  rw [hbyte]

/-- **No byte at the length or behind it is read.** -/
theorem decodeRead_eq (data : List UInt8) (offset : Nat) :
    decodeRead data offset = .ok (decode data offset) := by
  have hlen : (data.drop offset).length = data.length - offset := length_drop
  unfold decodeRead decode
  match hdata : data.drop offset with
  | [] =>
    rw [hdata, length_nil] at hlen
    rw [if_pos (by omega)]
    rfl
  | b0 :: rest =>
    rw [hdata, length_cons] at hlen
    have h0 : (access data offset : Except (Fault Unit) UInt8) = .ok b0 :=
      @access_drop data (b0 :: rest) offset 0 b0 hdata rfl
    rw [if_neg (by omega), h0]
    dsimp only
    change (if b0 ≤ 127 then _ else _) = _
    by_cases hone : b0 ≤ 127
    · rw [if_pos hone, if_pos hone]
      rfl
    rw [if_neg hone, if_neg hone]
    by_cases htwo : 194 ≤ b0 ∧ b0 ≤ 223
    · rw [if_pos htwo, if_pos htwo]
      cases rest with
      | nil =>
        rw [if_pos (by rw [length_nil] at hlen; omega)]
        rfl
      | cons b1 rest =>
        have h1 : (access data (offset + 1) : Except (Fault Unit) UInt8) = .ok b1 :=
          access_drop hdata rfl
        rw [length_cons] at hlen
        rw [if_neg (by omega), h1]
        dsimp only
        change (if ¬ continuation b1 then _ else _) = _
        by_cases htail : ¬ continuation b1
        · rw [if_pos htail, if_pos htail]
          rfl
        · rw [if_neg htail, if_neg htail]
          rfl
    rw [if_neg htwo, if_neg htwo]
    by_cases hthree : 224 ≤ b0 ∧ b0 ≤ 239
    · rw [if_pos hthree, if_pos hthree]
      match rest with
      | [] =>
        rw [if_pos (by rw [length_nil] at hlen; omega)]
        rfl
      | [_] =>
        rw [if_pos (by rw [length_singleton] at hlen; omega)]
        rfl
      | b1 :: b2 :: rest =>
        have h1 : (access data (offset + 1) : Except (Fault Unit) UInt8) = .ok b1 :=
          access_drop hdata rfl
        have h2 : (access data (offset + 2) : Except (Fault Unit) UInt8) = .ok b2 :=
          access_drop hdata rfl
        rw [length_cons, length_cons] at hlen
        rw [if_neg (by omega), h1, h2]
        dsimp only
        change (if ¬ continuation b1 ∨ ¬ continuation b2 then _ else _) = _
        by_cases htails : ¬ continuation b1 ∨ ¬ continuation b2
        · rw [if_pos htails, if_pos htails]
          rfl
        rw [if_neg htails, if_neg htails]
        by_cases hlow : b0 = 224 ∧ b1 < 160
        · rw [if_pos hlow, if_pos hlow]
          rfl
        rw [if_neg hlow, if_neg hlow]
        by_cases hhigh : b0 = 237 ∧ b1 > 159
        · rw [if_pos hhigh, if_pos hhigh]
          rfl
        · rw [if_neg hhigh, if_neg hhigh]
          rfl
    rw [if_neg hthree, if_neg hthree]
    by_cases hfour : 240 ≤ b0 ∧ b0 ≤ 244
    · rw [if_pos hfour, if_pos hfour]
      match rest with
      | [] =>
        rw [if_pos (by rw [length_nil] at hlen; omega)]
        rfl
      | [_] =>
        rw [if_pos (by rw [length_singleton] at hlen; omega)]
        rfl
      | [_, _] =>
        rw [if_pos (by rw [length_cons, length_singleton] at hlen; omega)]
        rfl
      | b1 :: b2 :: b3 :: rest =>
        have h1 : (access data (offset + 1) : Except (Fault Unit) UInt8) = .ok b1 :=
          access_drop hdata rfl
        have h2 : (access data (offset + 2) : Except (Fault Unit) UInt8) = .ok b2 :=
          access_drop hdata rfl
        have h3 : (access data (offset + 3) : Except (Fault Unit) UInt8) = .ok b3 :=
          access_drop hdata rfl
        rw [length_cons, length_cons, length_cons] at hlen
        rw [if_neg (by omega), h1, h2, h3]
        dsimp only
        change (if ¬ continuation b1 ∨ ¬ continuation b2 ∨ ¬ continuation b3 then _ else _) = _
        by_cases htails : ¬ continuation b1 ∨ ¬ continuation b2 ∨ ¬ continuation b3
        · rw [if_pos htails, if_pos htails]
          rfl
        rw [if_neg htails, if_neg htails]
        by_cases hlow : b0 = 240 ∧ b1 < 144
        · rw [if_pos hlow, if_pos hlow]
          rfl
        rw [if_neg hlow, if_neg hlow]
        by_cases hhigh : b0 = 244 ∧ b1 > 143
        · rw [if_pos hhigh, if_pos hhigh]
          rfl
        · rw [if_neg hhigh, if_neg hhigh]
          rfl
    rw [if_neg hfour, if_neg hfour]
    rfl

/-! ## One scalar -/

/-- The bytes of a scalar. -/
def encoding (scalar : Int) : List UInt8 :=
  let n := scalar.toNat
  if scalarWidth scalar = 1 then [UInt8.ofNat n]
  else if scalarWidth scalar = 2 then
    [UInt8.ofNat (192 ||| n >>> 6), UInt8.ofNat (128 ||| n &&& 63)]
  else if scalarWidth scalar = 3 then
    [UInt8.ofNat (224 ||| n >>> 12), UInt8.ofNat (128 ||| n >>> 6 &&& 63),
      UInt8.ofNat (128 ||| n &&& 63)]
  else
    [UInt8.ofNat (240 ||| n >>> 18), UInt8.ofNat (128 ||| n >>> 12 &&& 63),
      UInt8.ofNat (128 ||| n >>> 6 &&& 63), UInt8.ofNat (128 ||| n &&& 63)]

theorem scalarValid_iff : scalarValid scalar = true ↔ ∃ c : Char, scalar = c.val.toNat := by
  unfold scalarValid
  constructor
  · intro h
    split at h
    · nomatch h
    rename_i hrange
    rw [Bool.or_eq_true, decide_eq_true_iff, decide_eq_true_iff] at h
    have hvalid : scalar.toNat.isValidChar := by
      unfold Nat.isValidChar
      omega
    refine ⟨Char.ofNat scalar.toNat, ?_⟩
    rw [val_ofNat hvalid]
    omega
  · rintro ⟨c, rfl⟩
    have hvalid : c.val.toNat < 55296 ∨ 57343 < c.val.toNat ∧ c.val.toNat < 1114112 := c.valid
    rw [if_neg (by omega), Bool.or_eq_true, decide_eq_true_iff, decide_eq_true_iff]
    omega

theorem or_tail (n : Nat) : 128 ||| n &&& 63 = 128 + n % 64 := by
  have hmod : n &&& 63 = n % 64 := Nat.and_two_pow_sub_one_eq_mod n 6
  rw [hmod]
  exact (Nat.shiftLeft_add_eq_or_of_lt (i := 6) (show n % 64 < 2 ^ 6 by omega) 2).symm

theorem or_lead {n : Nat} (i lead : Nat) (h : n < 2 ^ i) : lead <<< i ||| n = lead <<< i + n :=
  (Nat.shiftLeft_add_eq_or_of_lt h lead).symm

theorem encoding_char (c : Char) : encoding c.val.toNat = String.utf8EncodeChar c ∧
    scalarWidth c.val.toNat = (String.utf8EncodeChar c).length := by
  have hscalar : ¬ scalarValid c.val.toNat = false := by
    rw [scalarValid_iff.mpr ⟨c, rfl⟩]
    nofun
  have hvalid : c.val.toNat < 55296 ∨ 57343 < c.val.toNat ∧ c.val.toNat < 1114112 := c.valid
  unfold encoding String.utf8EncodeChar
  generalize c.val.toNat = n at hvalid hscalar ⊢
  by_cases hone : n ≤ 127
  · have hwidth : scalarWidth n = 1 := by
      unfold scalarWidth
      rw [if_neg hscalar, if_pos (by omega)]
    rw [if_pos hwidth, if_pos hone, hwidth]
    exact ⟨rfl, rfl⟩
  by_cases htwo : n ≤ 2047
  · have hwidth : scalarWidth n = 2 := by
      unfold scalarWidth
      rw [if_neg hscalar, if_neg (by omega), if_pos (by omega)]
    have hlead : 192 ||| n >>> 6 = n / 64 % 32 + 192 := by
      rw [Nat.shiftRight_eq_div_pow]
      refine (or_lead 5 6 (by omega)).trans ?_
      omega
    rw [hwidth, if_neg (by decide), if_pos rfl, if_neg hone, if_pos htwo, Int.toNat_natCast, hlead,
      or_tail, Nat.add_comm 128]
    exact ⟨rfl, rfl⟩
  have htail : 128 ||| n >>> 6 &&& 63 = n / 64 % 64 + 128 := by
    rw [or_tail, Nat.shiftRight_eq_div_pow, Nat.add_comm]
  by_cases hthree : n ≤ 65535
  · have hwidth : scalarWidth n = 3 := by
      unfold scalarWidth
      rw [if_neg hscalar, if_neg (by omega), if_neg (by omega), if_pos (by omega)]
    have hlead : 224 ||| n >>> 12 = n / 4096 % 16 + 224 := by
      rw [Nat.shiftRight_eq_div_pow]
      refine (or_lead 4 14 (by omega)).trans ?_
      omega
    rw [hwidth, if_neg (by decide), if_neg (by decide), if_pos rfl, if_neg hone, if_neg htwo,
      if_pos hthree, Int.toNat_natCast, hlead, htail, or_tail, Nat.add_comm 128]
    exact ⟨rfl, rfl⟩
  · have hwidth : scalarWidth n = 4 := by
      unfold scalarWidth
      rw [if_neg hscalar, if_neg (by omega), if_neg (by omega), if_neg (by omega)]
    have hlead : 240 ||| n >>> 18 = n / 262144 % 8 + 240 := by
      rw [Nat.shiftRight_eq_div_pow]
      refine (or_lead 3 30 (by omega)).trans ?_
      omega
    have htail' : 128 ||| n >>> 12 &&& 63 = n / 4096 % 64 + 128 := by
      rw [or_tail, Nat.shiftRight_eq_div_pow, Nat.add_comm]
    rw [hwidth, if_neg (by decide), if_neg (by decide), if_neg (by decide), if_neg hone,
      if_neg htwo, if_neg hthree, Int.toNat_natCast, hlead, htail', htail, or_tail,
      Nat.add_comm 128]
    exact ⟨rfl, rfl⟩

/-- The well-formed sequences are the encodings of the valid scalars. -/
theorem wellFormed_encoding {bytes : List UInt8} :
    WellFormed bytes ↔ ∃ scalar, scalarValid scalar = true ∧ encoding scalar = bytes := by
  rw [wellFormed_iff]
  constructor
  · rintro ⟨c, rfl⟩
    exact ⟨c.val.toNat, scalarValid_iff.mpr ⟨c, rfl⟩, (encoding_char c).1⟩
  · rintro ⟨scalar, hscalar, rfl⟩
    obtain ⟨c, rfl⟩ := scalarValid_iff.mp hscalar
    exact ⟨c, (encoding_char c).1.symm⟩

theorem length_encoding (h : scalarValid scalar = true) :
    (encoding scalar).length = scalarWidth scalar := by
  obtain ⟨c, rfl⟩ := scalarValid_iff.mp h
  rw [(encoding_char c).1, (encoding_char c).2]

/-- **What is encoded is decoded again.** -/
theorem decode_encoding {data rest : List UInt8} {offset : Nat} {scalar : Int}
    (h : scalarValid scalar = true) (hdata : data.drop offset = encoding scalar ++ rest) :
    decode data offset = ⟨scalar, scalarWidth scalar⟩ := by
  obtain ⟨c, rfl⟩ := scalarValid_iff.mp h
  obtain ⟨hencoding, hwidth⟩ := encoding_char c
  rw [hencoding] at hdata
  rw [decode_eq (wellFormed_utf8EncodeChar c) hdata, scalarOf_utf8EncodeChar, hwidth]

theorem scalarWidth_pos (h : scalarValid scalar = true) : 0 < scalarWidth scalar := by
  rw [← length_encoding h]
  exact wellFormed_length_pos (wellFormed_encoding.mpr ⟨scalar, h, rfl⟩)

theorem scalarWidth_le (scalar : Int) : scalarWidth scalar ≤ 4 := by
  unfold scalarWidth
  split
  · decide
  split
  · decide
  split
  · decide
  split <;> decide

theorem stands_cons_store {memory : Nat → UInt8} {output : Nat} {byte : UInt8} {bytes : List UInt8}
    {memory' : Nat → UInt8} (h : Stands memory' (output + 1) bytes)
    (hframe : Frame (output + 1) bytes.length (store memory output byte) memory') :
    Stands memory' output (byte :: bytes) ∧
      Frame output (byte :: bytes).length memory memory' := by
  have hbyte := (@stands_store _ memory output byte).frame hframe (.inl (Nat.le_refl _))
  rw [length_cons]
  exact ⟨⟨hbyte.1, h⟩, ((frame_store output byte).widen (Nat.le_refl _) (by omega)).trans
    (hframe.widen (Nat.le_succ _) (by omega))⟩

/-- **The bytes of a scalar are written**, and no others. -/
theorem encode_eq {memory : Nat → UInt8} {scalar : Int} {output capacity : Nat}
    (h : scalarValid scalar = true) (hout : output ≠ 0)
    (hcap : scalarWidth scalar ≤ capacity) :
    ∃ memory', encode memory scalar output capacity = (scalarWidth scalar, memory') ∧
      Stands memory' output (encoding scalar) ∧
      Frame output (scalarWidth scalar) memory memory' := by
  have hpos := scalarWidth_pos h
  have hguard : ¬ (scalarWidth scalar = 0 ∨ capacity < scalarWidth scalar ∨ output = 0) := by omega
  have hlast (memory : Nat → UInt8) (output : Nat) (byte : UInt8) :
      Stands (store memory output byte) output [byte] ∧
        Frame output [byte].length memory (store memory output byte) :=
    ⟨stands_store output byte, frame_store output byte⟩
  rw [← length_encoding h]
  unfold encode encoding
  rw [if_neg hguard]
  by_cases hone : scalarWidth scalar = 1
  · rw [if_pos hone, if_pos hone]
    exact ⟨_, by rw [hone]; rfl, hlast _ _ _⟩
  rw [if_neg hone, if_neg hone]
  by_cases htwo : scalarWidth scalar = 2
  · rw [if_pos htwo, if_pos htwo]
    have hsecond := hlast (store memory output (UInt8.ofNat (192 ||| scalar.toNat >>> 6)))
      (output + 1) (UInt8.ofNat (128 ||| scalar.toNat &&& 63))
    exact ⟨_, by rw [htwo]; rfl, stands_cons_store hsecond.1 hsecond.2⟩
  rw [if_neg htwo, if_neg htwo]
  by_cases hthree : scalarWidth scalar = 3
  · rw [if_pos hthree, if_pos hthree]
    have hthird := hlast (store (store memory output (UInt8.ofNat (224 ||| scalar.toNat >>> 12)))
      (output + 1) (UInt8.ofNat (128 ||| scalar.toNat >>> 6 &&& 63))) (output + 2)
      (UInt8.ofNat (128 ||| scalar.toNat &&& 63))
    have hsecond := stands_cons_store hthird.1 hthird.2
    exact ⟨_, by rw [hthree]; rfl, stands_cons_store hsecond.1 hsecond.2⟩
  · rw [if_neg hthree, if_neg hthree]
    have hfour : scalarWidth scalar = 4 := by
      have hle := scalarWidth_le scalar
      omega
    have hfourth := hlast (store (store (store memory output
      (UInt8.ofNat (240 ||| scalar.toNat >>> 18))) (output + 1)
      (UInt8.ofNat (128 ||| scalar.toNat >>> 12 &&& 63))) (output + 2)
      (UInt8.ofNat (128 ||| scalar.toNat >>> 6 &&& 63))) (output + 3)
      (UInt8.ofNat (128 ||| scalar.toNat &&& 63))
    have hthird := stands_cons_store hfourth.1 hfourth.2
    have hsecond := stands_cons_store hthird.1 hthird.2
    exact ⟨_, by rw [hfour]; rfl, stands_cons_store hsecond.1 hsecond.2⟩

/-! ## Texts -/

/-- The data are the scalars, one encoded behind the other. -/
def IsText (scalars : List Int) (data : List UInt8) : Prop :=
  (∀ scalar ∈ scalars, scalarValid scalar = true) ∧ data = scalars.flatMap encoding

theorem isUtf8_iff {data : List UInt8} : IsUtf8 data ↔ ∃ scalars, IsText scalars data := by
  constructor
  · rintro ⟨text, rfl⟩
    refine ⟨text.map fun c => (c.val.toNat : Int), fun scalar hscalar => ?_, ?_⟩
    · obtain ⟨c, -, rfl⟩ := mem_map.mp hscalar
      exact scalarValid_iff.mpr ⟨c, rfl⟩
    rw [flatMap_map]
    congr 1
    funext c
    exact (encoding_char c).1.symm
  · rintro ⟨scalars, hscalars, rfl⟩
    induction scalars with
    | nil => exact isUtf8_nil
    | cons scalar scalars ih =>
      obtain ⟨hscalar, hrest⟩ := forall_mem_cons.mp hscalars
      exact IsUtf8.append (wellFormed_encoding.mpr ⟨scalar, hscalar, rfl⟩) (ih hrest)

theorem drop_encoding {data rest : List UInt8} (h : scalarValid scalar = true)
    (hdata : data.drop offset = encoding scalar ++ rest) :
    data.drop (offset + scalarWidth scalar) = rest := by
  rw [← drop_drop, hdata, ← length_encoding h, drop_left]

theorem decode_end {data : List UInt8} (h : data.drop offset = []) :
    decode data offset = invalid := by
  unfold decode
  rw [h]

theorem lt_of_drop {data first rest : List UInt8} (hne : first ≠ [])
    (hdata : data.drop offset = first ++ rest) : offset < data.length := by
  refine Nat.lt_of_not_le fun hle => hne ?_
  rw [drop_of_length_le hle] at hdata
  exact (append_eq_nil_iff.mp hdata.symm).1

section

variable {data : List UInt8}

theorem decodeLoop_eq (scalars : List Int) : ∀ {rounds offset : Nat},
    (∀ scalar ∈ scalars, scalarValid scalar = true) → data.drop offset = scalars.flatMap encoding →
    scalars.length ≤ rounds → decodeLoop data rounds offset = scalars := by
  induction scalars with
  | nil =>
    intro rounds offset _ hdata _
    cases rounds with
    | zero => rfl
    | succ rounds =>
      rw [decodeLoop, decode_end hdata]
      rfl
  | cons scalar scalars ih =>
    intro rounds offset hscalars hdata hrounds
    obtain ⟨hscalar, hrest⟩ := forall_mem_cons.mp hscalars
    rw [flatMap_cons] at hdata
    obtain ⟨rounds, rfl⟩ := Nat.exists_eq_add_one.mpr (Nat.lt_of_lt_of_le (Nat.succ_pos _) hrounds)
    rw [decodeLoop, decode_encoding hscalar hdata]
    rw [if_neg (Nat.ne_of_gt (scalarWidth_pos hscalar)),
      ih hrest (drop_encoding hscalar hdata) (Nat.le_of_succ_le_succ hrounds)]

theorem countLoop_eq (scalars : List Int) : ∀ {rounds offset : Nat} {count : Int},
    (∀ scalar ∈ scalars, scalarValid scalar = true) → data.drop offset = scalars.flatMap encoding →
    scalars.length ≤ rounds → countLoop data rounds offset count = count + scalars.length := by
  induction scalars with
  | nil =>
    intro rounds offset count _ hdata _
    have hend : ¬ offset < data.length := Nat.not_lt.mpr (drop_eq_nil_iff.mp hdata)
    have hcount : count + ([] : List Int).length = count := Int.add_zero count
    cases rounds with
    | zero => rw [countLoop, if_neg hend, hcount]
    | succ rounds => rw [countLoop, if_neg hend, hcount]
  | cons scalar scalars ih =>
    intro rounds offset count hscalars hdata hrounds
    obtain ⟨hscalar, hrest⟩ := forall_mem_cons.mp hscalars
    rw [flatMap_cons] at hdata
    obtain ⟨rounds, rfl⟩ := Nat.exists_eq_add_one.mpr (Nat.lt_of_lt_of_le (Nat.succ_pos _) hrounds)
    have hpos := scalarWidth_pos hscalar
    have hne : encoding scalar ≠ [] := ne_nil_of_length_pos ((length_encoding hscalar).symm ▸ hpos)
    rw [countLoop, if_pos (lt_of_drop hne hdata), decode_encoding hscalar hdata]
    rw [if_neg (Nat.ne_of_gt hpos),
      ih hrest (drop_encoding hscalar hdata) (Nat.le_of_succ_le_succ hrounds), length_cons]
    omega

theorem countLoop_rejected (rounds : Nat) : ∀ {offset : Nat} {count : Int},
    validateLoop data rounds offset = false → countLoop data rounds offset count = -1 := by
  induction rounds with
  | zero =>
    intro offset count h
    have hlt : offset < data.length := by
      rw [validateLoop, decide_eq_false_iff_not, Decidable.not_not] at h
      exact h
    rw [countLoop, if_pos hlt]
  | succ rounds ih =>
    intro offset count h
    rw [validateLoop] at h
    rw [countLoop]
    by_cases hlt : offset < data.length
    · rw [if_pos hlt] at h ⊢
      by_cases hwidth : (decode data offset).width = 0
      · rw [if_pos hwidth]
      · rw [if_neg hwidth] at h ⊢
        exact ih h
    · rw [if_neg hlt] at h
      cases h

theorem length_scalars (h : ∀ scalar ∈ scalars, scalarValid scalar = true) :
    scalars.length ≤ (scalars.flatMap encoding).length := by
  induction scalars with
  | nil => exact Nat.le_refl 0
  | cons scalar scalars ih =>
    obtain ⟨hscalar, hrest⟩ := forall_mem_cons.mp h
    have hpos := scalarWidth_pos hscalar
    have hle := ih hrest
    rw [flatMap_cons, length_append, length_encoding hscalar, length_cons]
    omega

theorem IsText.decoded (h : IsText scalars data) :
    decodeAll data = scalars ∧ countScalars data = scalars.length := by
  obtain ⟨hscalars, rfl⟩ := h
  have hlen := length_scalars hscalars
  refine ⟨decodeLoop_eq scalars hscalars rfl hlen, ?_⟩
  exact (countLoop_eq scalars hscalars rfl hlen).trans (Int.zero_add _)

theorem isText_unique {scalars' : List Int} (h : IsText scalars data) (h' : IsText scalars' data) :
    scalars = scalars' := h.decoded.1.symm.trans h'.decoded.1

end

/-- What `validate`, `count_scalars` and repeated decoding say of the data. -/
structure Exact (data : List UInt8) : Prop where
  accepts : validate data = true ↔ ∃ scalars, IsText scalars data
  unique : ∀ scalars scalars', IsText scalars data → IsText scalars' data → scalars = scalars'
  decoded : ∀ scalars, IsText scalars data →
    decodeAll data = scalars ∧ countScalars data = scalars.length
  rejected : validate data = false → countScalars data = -1
  inside : ∀ offset, decodeRead data offset = .ok (decode data offset)

/-- Wherever a scalar is encoded with room for it, its bytes are written, and they are decoded to
it with its width. -/
def EncodesBack (scalar : Int) : Prop :=
  ∀ (memory : Nat → UInt8) (output capacity : Nat), output ≠ 0 → scalarWidth scalar ≤ capacity →
    ∃ memory' bytes, encode memory scalar output capacity = (scalarWidth scalar, memory') ∧
      bytes.length = scalarWidth scalar ∧ Stands memory' output bytes ∧ bytes = encoding scalar ∧
      ∀ rest, decode (bytes ++ rest) 0 = ⟨scalar, scalarWidth scalar⟩

/-- **UTF-8 is exact**: the accepted data are the encoded sequences of valid scalars, each of one
sequence, which is decoded and counted without a read outside. -/
theorem utf8_exact (data : List UInt8) :
    Exact data ∧ ∀ scalar, scalarValid scalar = true → EncodesBack scalar := by
  refine ⟨⟨validate_iff.trans isUtf8_iff, fun _ _ => isText_unique, fun _ => IsText.decoded,
    countLoop_rejected _, decodeRead_eq data⟩, ?_⟩
  intro scalar h memory output capacity hout hcap
  obtain ⟨memory', hencode, hstands, -⟩ := encode_eq h hout hcap
  exact ⟨memory', encoding scalar, hencode, length_encoding h, hstands, rfl,
    fun rest => decode_encoding h rfl⟩

end Raz.Core.Utf8
