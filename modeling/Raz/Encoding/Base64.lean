import Raz.Lib.Memory
import Raz.Lib.Numerals

/-!
# Base64

Translation of `std::encoding::base64`: three bytes are four characters of one of two alphabets, and
an equals sign stands for each byte that is missing in the last group.

Result: `decode_exact`: what is decoded.
-/

namespace Raz.Encoding.Base64

open Memory List

inductive Base64Error
  | invalidLength
  | invalidByte
  | invalidPadding
  | outputFull
deriving DecidableEq, Repr

/-- None for the -1 of the source. -/
def encodedLength (inputLength : Int) : Option Int :=
  if inputLength < 0 ∨ inputLength > 6917529027641081853 then none
  else
    let groups := (inputLength + 2) / 3
    if groups > 2305843009213693951 then none else some (groups * 4)

def alphabetByte (value : Nat) (urlSafe : Bool) : UInt8 :=
  if value < 26 then UInt8.ofNat (65 + value)
  else if value < 52 then UInt8.ofNat (97 + value - 26)
  else if value < 62 then UInt8.ofNat (48 + value - 52)
  else if value = 62 then if urlSafe then 45 else 43
  else if urlSafe then 95 else 47

/-- None for the -1 of the source. -/
def decodeValue (byte : UInt8) (urlSafe : Bool) : Option Nat :=
  if byte ≥ 65 ∧ byte ≤ 90 then some (byte.toNat - 65)
  else if byte ≥ 97 ∧ byte ≤ 122 then some (byte.toNat - 97 + 26)
  else if byte ≥ 48 ∧ byte ≤ 57 then some (byte.toNat - 48 + 52)
  else if (urlSafe = false ∧ byte = 43) ∨ (urlSafe = true ∧ byte = 45) then some 62
  else if (urlSafe = false ∧ byte = 47) ∨ (urlSafe = true ∧ byte = 95) then some 63
  else none

/-- The characters for up to three bytes, of which `remaining` are there. -/
def encodeGroup (urlSafe : Bool) (remaining a b c : Nat) : List UInt8 :=
  [alphabetByte ((a >>> 2) &&& 63) urlSafe,
    alphabetByte (((a &&& 3) <<< 4) ||| ((b >>> 4) &&& 15)) urlSafe,
    if remaining > 1 then alphabetByte (((b &&& 15) <<< 2) ||| ((c >>> 6) &&& 3)) urlSafe else 61,
    if remaining > 2 then alphabetByte (c &&& 63) urlSafe else 61]

/-- The loop of `encode_impl`. -/
def encodeLoop (urlSafe : Bool) (input inputLength output : Nat) :
    Nat → Nat → Nat → (Nat → UInt8) → Nat → UInt8
  | 0, _, _, memory => memory
  | rounds + 1, source, destination, memory =>
      if source < inputLength then
        let remaining := inputLength - source
        let a := (memory (input + source)).toNat
        let b := if remaining > 1 then (memory (input + source + 1)).toNat else 0
        let c := if remaining > 2 then (memory (input + source + 2)).toNat else 0
        let memory := storeAll memory (output + destination) (encodeGroup urlSafe remaining a b c)
        encodeLoop urlSafe input inputLength output rounds (source + 3) (destination + 4) memory
      else memory

def encodeImpl (memory : Nat → UInt8) (input : Nat) (inputLength : Int) (output : Nat)
    (outputCapacity : Int) (urlSafe : Bool) : Except Base64Error Int × (Nat → UInt8) :=
  match encodedLength inputLength with
  | none => (.error .invalidLength, memory)
  | some required =>
      if (inputLength > 0 ∧ input = 0) ∨ outputCapacity < required ∨
          (required > 0 ∧ output = 0) then
        (.error .outputFull, memory)
      else
        let length := inputLength.toNat
        (.ok required, encodeLoop urlSafe input length output length 0 0 memory)

def encode (memory : Nat → UInt8) (input : Nat) (inputLength : Int) (output : Nat)
    (outputCapacity : Int) : Except Base64Error Int × (Nat → UInt8) :=
  encodeImpl memory input inputLength output outputCapacity false

def encodeUrl (memory : Nat → UInt8) (input : Nat) (inputLength : Int) (output : Nat)
    (outputCapacity : Int) : Except Base64Error Int × (Nat → UInt8) :=
  encodeImpl memory input inputLength output outputCapacity true

/-- Each of the last two bytes is counted if it is an equals sign. -/
def decodedSize (memory : Nat → UInt8) (input : Nat) (inputLength : Int) :
    Except Base64Error Int :=
  if inputLength < 0 ∨ inputLength % 4 ≠ 0 ∨ (inputLength > 0 ∧ input = 0) then
    .error .invalidLength
  else if inputLength = 0 then .ok 0
  else
    let last := if memory (input + inputLength.toNat - 1) = 61 then 1 else 0
    let second :=
      if inputLength ≥ 2 ∧ memory (input + inputLength.toNat - 2) = 61 then 1 else 0
    .ok (inputLength / 4 * 3 - (last + second))

/-- The checks of `decode_impl` on one group, and the bytes that it stands for. -/
def decodeGroup (urlSafe finalGroup : Bool) (aRaw bRaw cRaw dRaw : UInt8) :
    Except Base64Error (List UInt8) :=
  match decodeValue aRaw urlSafe, decodeValue bRaw urlSafe with
  | some a, some b =>
      let cPadding := cRaw = 61
      let dPadding := dRaw = 61
      if (cPadding ∨ dPadding) ∧ finalGroup = false then .error .invalidPadding
      else if cPadding ∧ ¬ dPadding then .error .invalidPadding
      else
        match if cPadding then some 0 else decodeValue cRaw urlSafe,
          if dPadding then some 0 else decodeValue dRaw urlSafe with
        | some c, some d =>
            if cPadding ∧ b &&& 15 ≠ 0 then .error .invalidPadding
            else if dPadding ∧ ¬ cPadding ∧ c &&& 3 ≠ 0 then .error .invalidPadding
            else
              .ok (UInt8.ofNat ((a <<< 2) ||| (b >>> 4)) ::
                ((if cPadding then [] else [UInt8.ofNat (((b &&& 15) <<< 4) ||| (c >>> 2))]) ++
                  if dPadding then [] else [UInt8.ofNat (((c &&& 3) <<< 6) ||| d)]))
        | _, _ => .error .invalidByte
  | _, _ => .error .invalidByte

/-- The bytes of a group are stored while there is room. -/
def storeGroup (memory : Nat → UInt8) (output required : Nat) :
    Nat → List UInt8 → (Nat → UInt8) × Nat
  | destination, [] => (memory, destination)
  | destination, byte :: bytes =>
      if destination < required then
        storeGroup (store memory (output + destination) byte) output required (destination + 1)
          bytes
      else storeGroup memory output required destination bytes

/-- The loop of `decode_impl`. -/
def decodeLoop (urlSafe : Bool) (input inputLength output required : Nat) :
    Nat → Nat → Nat → (Nat → UInt8) → Except Base64Error Int × (Nat → UInt8)
  | 0, _, destination, memory => (.ok destination, memory)
  | rounds + 1, source, destination, memory =>
      if source < inputLength then
        let finalGroup := source + 4 = inputLength
        match decodeGroup urlSafe finalGroup (memory (input + source))
          (memory (input + source + 1)) (memory (input + source + 2))
          (memory (input + source + 3)) with
        | .error failure => (.error failure, memory)
        | .ok bytes =>
            let (memory, destination) := storeGroup memory output required destination bytes
            decodeLoop urlSafe input inputLength output required rounds (source + 4) destination
              memory
      else (.ok destination, memory)

def decodeImpl (memory : Nat → UInt8) (input : Nat) (inputLength : Int) (output : Nat)
    (outputCapacity : Int) (urlSafe : Bool) : Except Base64Error Int × (Nat → UInt8) :=
  match decodedSize memory input inputLength with
  | .error failure => (.error failure, memory)
  | .ok required =>
      if outputCapacity < required ∨ (required > 0 ∧ output = 0) then (.error .outputFull, memory)
      else
        let length := inputLength.toNat
        decodeLoop urlSafe input length output required.toNat length 0 0 memory

def decode (memory : Nat → UInt8) (input : Nat) (inputLength : Int) (output : Nat)
    (outputCapacity : Int) : Except Base64Error Int × (Nat → UInt8) :=
  decodeImpl memory input inputLength output outputCapacity false

def decodeUrl (memory : Nat → UInt8) (input : Nat) (inputLength : Int) (output : Nat)
    (outputCapacity : Int) : Except Base64Error Int × (Nat → UInt8) :=
  decodeImpl memory input inputLength output outputCapacity true

/-! ## Alphabets -/

theorem decodeValue_alphabetByte {value : Nat} (h : value < 64) (urlSafe : Bool) :
    decodeValue (alphabetByte value urlSafe) urlSafe = some value := by
  have hall : ∀ value : Fin 64, ∀ urlSafe, decodeValue (alphabetByte value urlSafe) urlSafe =
    some value.val := by decide
  exact hall ⟨value, h⟩ urlSafe

theorem alphabetByte_ne {value : Nat} (h : value < 64) (urlSafe : Bool) :
    alphabetByte value urlSafe ≠ 61 := by
  intro heq
  have hval := decodeValue_alphabetByte h urlSafe
  rw [heq] at hval
  cases urlSafe <;> nomatch hval

theorem of_decodeValue {byte : UInt8} {urlSafe : Bool} {value : Nat}
    (h : decodeValue byte urlSafe = some value) :
    value < 64 ∧ alphabetByte value urlSafe = byte := by
  have hall : ∀ byte : Fin 256, ∀ urlSafe, ∀ value ∈ decodeValue (UInt8.ofNat byte) urlSafe,
    value < 64 ∧ alphabetByte value urlSafe = UInt8.ofNat byte := by decide +kernel
  have hbyte := hall ⟨byte.toNat, byte.toNat_lt⟩ urlSafe value
  rw [UInt8.ofNat_toNat] at hbyte
  exact hbyte h

/-! ## Bits -/

theorem land_3 (value : Nat) : value &&& 3 = value % 4 := Nat.and_two_pow_sub_one_eq_mod value 2

theorem land_15 (value : Nat) : value &&& 15 = value % 16 := Nat.and_two_pow_sub_one_eq_mod value 4

theorem land_63 (value : Nat) : value &&& 63 = value % 64 := Nat.and_two_pow_sub_one_eq_mod value 6

theorem encodeGroup_eq (urlSafe : Bool) (remaining a b c : Nat) :
    encodeGroup urlSafe remaining a b c = [alphabetByte (a / 4 % 64) urlSafe,
      alphabetByte (a % 4 * 16 + b / 16 % 16) urlSafe,
      if remaining > 1 then alphabetByte (b % 16 * 4 + c / 64 % 4) urlSafe else 61,
      if remaining > 2 then alphabetByte (c % 64) urlSafe else 61] := by
  have hsecond : ((a &&& 3) <<< 4) ||| ((b >>> 4) &&& 15) = a % 4 * 16 + b / 16 % 16 := by
    rw [land_3, land_15, Nat.shiftRight_eq_div_pow]
    exact @Numerals.shiftLeft_or (a % 4) (b / 16 % 16) 4 (Nat.mod_lt _ (by decide))
  have hthird : ((b &&& 15) <<< 2) ||| ((c >>> 6) &&& 3) = b % 16 * 4 + c / 64 % 4 := by
    rw [land_3, land_15, Nat.shiftRight_eq_div_pow]
    exact @Numerals.shiftLeft_or (b % 16) (c / 64 % 4) 2 (Nat.mod_lt _ (by decide))
  unfold encodeGroup
  rw [hsecond, hthird, land_63, land_63, Nat.shiftRight_eq_div_pow]

theorem groupBytes_eq {a b c d : Nat} (hb : b < 64) (hc : c < 64) (hd : d < 64) :
    ((a <<< 2) ||| (b >>> 4) = a * 4 + b / 16) ∧
      (((b &&& 15) <<< 4) ||| (c >>> 2) = b % 16 * 16 + c / 4) ∧
      (((c &&& 3) <<< 6) ||| d = c % 4 * 64 + d) := by
  refine ⟨?_, ?_, ?_⟩
  · rw [Nat.shiftRight_eq_div_pow]
    exact @Numerals.shiftLeft_or a (b / 16) 2 (by omega)
  · rw [Nat.shiftRight_eq_div_pow, land_15]
    exact @Numerals.shiftLeft_or (b % 16) (c / 4) 4 (by omega)
  · rw [land_3]
    exact @Numerals.shiftLeft_or (c % 4) d 6 hd

/-! ## One group -/

/-- The bytes of one group: three of them but in the last one. -/
def Fills (finalGroup : Bool) (bytes : List UInt8) : Prop :=
  bytes.length = 3 ∨ finalGroup = true ∧ (bytes.length = 1 ∨ bytes.length = 2)

/-- The characters of one, two or three bytes. -/
def quantum (urlSafe : Bool) : List UInt8 → List UInt8
  | [a] => encodeGroup urlSafe 1 a.toNat 0 0
  | [a, b] => encodeGroup urlSafe 2 a.toNat b.toNat 0
  | [a, b, c] => encodeGroup urlSafe 3 a.toNat b.toNat c.toNat
  | _ => []

section

variable {urlSafe finalGroup : Bool} {aRaw bRaw cRaw dRaw : UInt8} {a b c d : Nat}

theorem decodeGroup_three (ha : a < 64) (hb : b < 64) (hc : c < 64) (hd : d < 64) :
    decodeGroup urlSafe finalGroup (alphabetByte a urlSafe) (alphabetByte b urlSafe)
      (alphabetByte c urlSafe) (alphabetByte d urlSafe) =
      .ok [UInt8.ofNat (a * 4 + b / 16), UInt8.ofNat (b % 16 * 16 + c / 4),
        UInt8.ofNat (c % 4 * 64 + d)] := by
  obtain ⟨hfirst, hsecond, hthird⟩ := @groupBytes_eq a b c d hb hc hd
  simp [decodeGroup, decodeValue_alphabetByte, alphabetByte_ne, ha, hb, hc, hd, hfirst, hsecond,
    hthird]

theorem decodeGroup_two (ha : a < 64) (hb : b < 64) (hc : c < 64) (hcanon : c % 4 = 0) :
    decodeGroup urlSafe true (alphabetByte a urlSafe) (alphabetByte b urlSafe)
      (alphabetByte c urlSafe) 61 =
      .ok [UInt8.ofNat (a * 4 + b / 16), UInt8.ofNat (b % 16 * 16 + c / 4)] := by
  obtain ⟨hfirst, hsecond, -⟩ := @groupBytes_eq a b c 0 hb hc (by decide)
  simp [decodeGroup, decodeValue_alphabetByte, alphabetByte_ne, ha, hb, hc, hfirst, hsecond,
    land_3, hcanon]

theorem decodeGroup_one (ha : a < 64) (hb : b < 64) (hcanon : b % 16 = 0) :
    decodeGroup urlSafe true (alphabetByte a urlSafe) (alphabetByte b urlSafe) 61 61 =
      .ok [UInt8.ofNat (a * 4 + b / 16)] := by
  obtain ⟨hfirst, -, -⟩ := @groupBytes_eq a b 0 0 hb (by decide) (by decide)
  simp [decodeGroup, decodeValue_alphabetByte, ha, hb, hfirst, land_15, hcanon]

theorem decodeGroup_quantum {bytes : List UInt8} (hfills : Fills finalGroup bytes)
    (h : quantum urlSafe bytes = [aRaw, bRaw, cRaw, dRaw]) :
    decodeGroup urlSafe finalGroup aRaw bRaw cRaw dRaw = .ok bytes := by
  have hbyte {value : Nat} {byte : UInt8} (heq : value = byte.toNat) :
      UInt8.ofNat value = byte := by
    rw [heq, UInt8.ofNat_toNat]
  match bytes, hfills with
  | [x], hfills =>
    obtain ⟨rfl, -⟩ := hfills.resolve_left (by simp)
    obtain ⟨rfl, rfl, rfl, rfl⟩ : _ ∧ _ ∧ _ ∧ _ := by
      simpa [quantum, encodeGroup_eq] using h
    have hx := x.toNat_lt
    rw [decodeGroup_one (by omega) (by omega) (by omega), @hbyte _ x (by omega)]
  | [x, y], hfills =>
    obtain ⟨rfl, -⟩ := hfills.resolve_left (by simp)
    obtain ⟨rfl, rfl, rfl, rfl⟩ : _ ∧ _ ∧ _ ∧ _ := by
      simpa [quantum, encodeGroup_eq] using h
    have hx := x.toNat_lt
    have hy := y.toNat_lt
    rw [decodeGroup_two (by omega) (by omega) (by omega) (by omega), @hbyte _ x (by omega),
      @hbyte _ y (by omega)]
  | [x, y, z], _ =>
    obtain ⟨rfl, rfl, rfl, rfl⟩ : _ ∧ _ ∧ _ ∧ _ := by
      simpa [quantum, encodeGroup_eq] using h
    have hx := x.toNat_lt
    have hy := y.toNat_lt
    have hz := z.toNat_lt
    rw [decodeGroup_three (by omega) (by omega) (by omega) (by omega),
      @hbyte _ x (by omega), @hbyte _ y (by omega), @hbyte _ z (by omega)]
  | [], _ => nomatch h
  | _ :: _ :: _ :: _ :: _, _ => nomatch h

/-- The groups that pass the checks: both padded characters, the last one, or none. -/
theorem decodeGroup_cases {bytes : List UInt8}
    (h : decodeGroup urlSafe finalGroup aRaw bRaw cRaw dRaw = .ok bytes) :
    ∃ a b, (a < 64 ∧ alphabetByte a urlSafe = aRaw) ∧ (b < 64 ∧ alphabetByte b urlSafe = bRaw) ∧
      ((finalGroup = true ∧ b % 16 = 0 ∧ cRaw = 61 ∧ dRaw = 61) ∨
        ∃ c, (c < 64 ∧ alphabetByte c urlSafe = cRaw) ∧
          ((finalGroup = true ∧ c % 4 = 0 ∧ dRaw = 61) ∨
            ∃ d, d < 64 ∧ alphabetByte d urlSafe = dRaw)) := by
  unfold decodeGroup at h
  cases haRaw : decodeValue aRaw urlSafe with
  | none => simp [haRaw] at h
  | some a =>
    cases hbRaw : decodeValue bRaw urlSafe with
    | none => simp [haRaw, hbRaw] at h
    | some b =>
      refine ⟨a, b, of_decodeValue haRaw, of_decodeValue hbRaw, ?_⟩
      by_cases hc : cRaw = 61
      · by_cases hd : dRaw = 61
        · cases finalGroup with
          | false => simp [haRaw, hbRaw, hc, hd] at h
          | true =>
            by_cases hcanon : b % 16 = 0
            · exact .inl ⟨rfl, hcanon, hc, hd⟩
            · simp [haRaw, hbRaw, hc, hd, land_15, hcanon] at h
        · simp [haRaw, hbRaw, hc, hd] at h
      · cases hcRaw : decodeValue cRaw urlSafe with
        | none =>
          simp [haRaw, hbRaw, hc, hcRaw] at h
          split at h <;> nomatch h
        | some c =>
          refine .inr ⟨c, of_decodeValue hcRaw, ?_⟩
          by_cases hd : dRaw = 61
          · cases finalGroup with
            | false => simp [haRaw, hbRaw, hc, hd] at h
            | true =>
              by_cases hcanon : c % 4 = 0
              · exact .inl ⟨rfl, hcanon, hd⟩
              · simp [haRaw, hbRaw, hc, hd, hcRaw, land_3, hcanon] at h
          · cases hdRaw : decodeValue dRaw urlSafe with
            | none => simp [haRaw, hbRaw, hc, hd, hcRaw, hdRaw] at h
            | some d => exact .inr ⟨d, of_decodeValue hdRaw⟩

theorem decodeGroup_ok {bytes : List UInt8}
    (h : decodeGroup urlSafe finalGroup aRaw bRaw cRaw dRaw = .ok bytes) :
    Fills finalGroup bytes ∧ quantum urlSafe bytes = [aRaw, bRaw, cRaw, dRaw] := by
  have hbyte {value : Nat} (hlt : value < 256) : (UInt8.ofNat value).toNat = value :=
    UInt8.toNat_ofNat_of_lt' hlt
  obtain ⟨a, b, ⟨ha, rfl⟩, ⟨hb, rfl⟩, htail⟩ := decodeGroup_cases h
  rcases htail with ⟨rfl, hcanon, rfl, rfl⟩ |
    ⟨c, ⟨hc, rfl⟩, ⟨rfl, hcanon, rfl⟩ | ⟨d, hd, rfl⟩⟩
  · rw [decodeGroup_one ha hb hcanon] at h
    cases h
    have hfirst : a * 4 + b / 16 < 256 := by omega
    refine ⟨.inr ⟨rfl, .inl rfl⟩, ?_⟩
    rw [quantum, encodeGroup_eq, hbyte hfirst, show (a * 4 + b / 16) / 4 % 64 = a by omega,
      show (a * 4 + b / 16) % 4 * 16 + 0 / 16 % 16 = b by omega]
    rfl
  · rw [decodeGroup_two ha hb hc hcanon] at h
    cases h
    have hfirst : a * 4 + b / 16 < 256 := by omega
    have hsecond : b % 16 * 16 + c / 4 < 256 := by omega
    refine ⟨.inr ⟨rfl, .inr rfl⟩, ?_⟩
    rw [quantum, encodeGroup_eq, hbyte hfirst, hbyte hsecond,
      show (a * 4 + b / 16) / 4 % 64 = a by omega,
      show (a * 4 + b / 16) % 4 * 16 + (b % 16 * 16 + c / 4) / 16 % 16 = b by omega,
      show (b % 16 * 16 + c / 4) % 16 * 4 + 0 / 64 % 4 = c by omega]
    rfl
  · rw [decodeGroup_three ha hb hc hd] at h
    cases h
    have hfirst : a * 4 + b / 16 < 256 := by omega
    have hsecond : b % 16 * 16 + c / 4 < 256 := by omega
    have hthird : c % 4 * 64 + d < 256 := by omega
    refine ⟨.inl rfl, ?_⟩
    rw [quantum, encodeGroup_eq, hbyte hfirst, hbyte hsecond, hbyte hthird,
      show (a * 4 + b / 16) / 4 % 64 = a by omega,
      show (a * 4 + b / 16) % 4 * 16 + (b % 16 * 16 + c / 4) / 16 % 16 = b by omega,
      show (b % 16 * 16 + c / 4) % 16 * 4 + (c % 4 * 64 + d) / 64 % 4 = c by omega,
      show (c % 4 * 64 + d) % 64 = d by omega]
    rfl

end

theorem length_quantum {urlSafe finalGroup : Bool} {bytes : List UInt8}
    (h : Fills finalGroup bytes) : (quantum urlSafe bytes).length = 4 := by
  match bytes, h with
  | [_], _ => rfl
  | [_, _], _ => rfl
  | [_, _, _], _ => rfl
  | [], h => simp [Fills] at h
  | _ :: _ :: _ :: _ :: _, h => simp [Fills] at h

theorem quantum_padding {urlSafe finalGroup : Bool} {bytes : List UInt8} {a b c d : UInt8}
    (hfills : Fills finalGroup bytes) (h : quantum urlSafe bytes = [a, b, c, d]) :
    bytes.length + ((if d = 61 then 1 else 0) + if c = 61 then 1 else 0) = 3 := by
  match bytes, hfills with
  | [_], _ =>
    obtain ⟨-, -, rfl, rfl⟩ : _ ∧ _ ∧ _ ∧ _ := by
      simpa [quantum, encodeGroup_eq] using h
    rfl
  | [_, y], _ =>
    obtain ⟨-, -, hc, rfl⟩ : _ ∧ _ ∧ _ ∧ _ := by
      simpa [quantum, encodeGroup_eq] using h
    rw [if_pos rfl, ← hc, if_neg (alphabetByte_ne (by omega) urlSafe)]
    rfl
  | [_, y, z], _ =>
    obtain ⟨-, -, hc, hd⟩ : _ ∧ _ ∧ _ ∧ _ := by
      simpa [quantum, encodeGroup_eq] using h
    rw [← hd, ← hc, if_neg (alphabetByte_ne (by omega) urlSafe),
      if_neg (alphabetByte_ne (by omega) urlSafe)]
    rfl
  | [], hfills => simp [Fills] at hfills
  | _ :: _ :: _ :: _ :: _, hfills => simp [Fills] at hfills

/-! ## Texts -/

/-- The text of some bytes. -/
def encoded (urlSafe : Bool) : List UInt8 → List UInt8
  | a :: b :: c :: rest => quantum urlSafe [a, b, c] ++ encoded urlSafe rest
  | bytes => quantum urlSafe bytes

/-- The groups of a text, one after the other. -/
def groups (urlSafe : Bool) : List UInt8 → Except Base64Error (List UInt8)
  | [] => .ok []
  | a :: b :: c :: d :: rest => do
      let bytes ← decodeGroup urlSafe rest.isEmpty a b c d
      let more ← groups urlSafe rest
      return bytes ++ more
  | _ => .error .invalidLength

section

variable {urlSafe : Bool} {text bytes : List UInt8}

theorem encoded_append {finalGroup : Bool} {more : List UInt8} (h : Fills finalGroup bytes)
    (hmore : finalGroup = true → more = []) :
    encoded urlSafe (bytes ++ more) = quantum urlSafe bytes ++ encoded urlSafe more := by
  match bytes, h with
  | [_], h =>
    obtain ⟨hfinal, -⟩ := h.resolve_left (by simp)
    rw [hmore hfinal]
    rfl
  | [_, _], h =>
    obtain ⟨hfinal, -⟩ := h.resolve_left (by simp)
    rw [hmore hfinal]
    rfl
  | [_, _, _], _ => rfl
  | [], h => simp [Fills] at h
  | _ :: _ :: _ :: _ :: _, h => simp [Fills] at h

theorem Fills.length_pos {finalGroup : Bool} (h : Fills finalGroup bytes) : 0 < bytes.length := by
  rcases h with h | ⟨-, h | h⟩ <;> rw [h] <;> decide

theorem byGroups {motive : List UInt8 → Prop} (nil : motive [])
    (group : ∀ front more, Fills more.isEmpty front → motive more → motive (front ++ more)) :
    ∀ bytes, motive bytes
  | [] => nil
  | [a] => group [a] [] (.inr ⟨rfl, .inl rfl⟩) nil
  | [a, b] => group [a, b] [] (.inr ⟨rfl, .inr rfl⟩) nil
  | a :: b :: c :: more => group [a, b, c] more (.inl rfl) (byGroups nil group more)

/-- A text is the characters of a group and the text of the others. -/
theorem encoded_group {front more : List UInt8} (h : Fills more.isEmpty front) :
    ∃ a b c d, quantum urlSafe front = [a, b, c, d] ∧
      encoded urlSafe (front ++ more) = a :: b :: c :: d :: encoded urlSafe more := by
  have hlen := @length_quantum urlSafe _ _ h
  obtain ⟨a, b, c, d, hquantum⟩ : ∃ a b c d, quantum urlSafe front = [a, b, c, d] := by
    match quantum urlSafe front, hlen with
    | [a, b, c, d], _ => exact ⟨a, b, c, d, rfl⟩
  refine ⟨a, b, c, d, hquantum, ?_⟩
  rw [encoded_append h List.isEmpty_iff.mp, hquantum]
  rfl

theorem encoded_eq_nil : encoded urlSafe bytes = [] ↔ bytes = [] := by
  refine ⟨fun h => ?_, fun h => by rw [h]; rfl⟩
  cases bytes using byGroups with
  | nil => rfl
  | group front more hfills =>
    obtain ⟨a, b, c, d, -, hencoded⟩ := @encoded_group urlSafe _ _ hfills
    rw [hencoded] at h
    nomatch h

/-- **The groups of a text pass their checks if and only if it is the text of their bytes.** -/
theorem groups_ok_iff : groups urlSafe text = .ok bytes ↔ encoded urlSafe bytes = text := by
  constructor
  · intro h
    induction text using groups.induct generalizing bytes with
    | case1 =>
      cases h
      rfl
    | case2 a b c d rest ih =>
      rw [groups] at h
      cases hgroup : decodeGroup urlSafe rest.isEmpty a b c d with
      | error failure =>
        rw [hgroup] at h
        nomatch h
      | ok front =>
        rw [hgroup] at h
        cases hrest : groups urlSafe rest with
        | error failure =>
          rw [hrest] at h
          nomatch h
        | ok more =>
          rw [hrest] at h
          cases h
          obtain ⟨hfills, hquantum⟩ := decodeGroup_ok hgroup
          have hmore := ih hrest
          rw [encoded_append hfills, hquantum, hmore]
          · rfl
          · intro hempty
            rw [List.isEmpty_iff.mp hempty] at hmore
            exact encoded_eq_nil.mp hmore
    | case3 text hne hfour =>
      rw [groups] at h
      · nomatch h
      · exact hne
      · exact hfour
  · rintro rfl
    induction bytes using byGroups with
    | nil => rfl
    | group front more hfills ih =>
      obtain ⟨a, b, c, d, hquantum, hencoded⟩ := @encoded_group urlSafe _ _ hfills
      have hempty : (encoded urlSafe more).isEmpty = more.isEmpty := by
        rw [Bool.eq_iff_iff, List.isEmpty_iff, List.isEmpty_iff]
        exact encoded_eq_nil
      rw [hencoded, groups, hempty, decodeGroup_quantum hfills hquantum, ih]
      rfl

theorem Fills.length_add {front more : List UInt8} (h : Fills more.isEmpty front) :
    (front ++ more).length + 2 = more.length + 2 + 3 ∨
      more = [] ∧ (front.length = 1 ∨ front.length = 2) := by
  rcases h with h | ⟨hmore, h⟩
  · exact .inl (by rw [length_append, h]; omega)
  · exact .inr ⟨List.isEmpty_iff.mp hmore, h⟩

theorem length_encoded (bytes : List UInt8) :
    (encoded urlSafe bytes).length = (bytes.length + 2) / 3 * 4 := by
  induction bytes using byGroups with
  | nil => rfl
  | group front more hfills ih =>
    obtain ⟨a, b, c, d, -, hencoded⟩ := @encoded_group urlSafe _ _ hfills
    rw [hencoded]
    simp only [length_cons, ih]
    rcases hfills.length_add with h | ⟨rfl, h⟩
    · omega
    · rw [append_nil, length_nil]
      omega

/-- The equals signs at the end are the bytes that are missing in the last group. -/
theorem encoded_end (hne : bytes ≠ []) : ∃ front c d, encoded urlSafe bytes = front ++ [c, d] ∧
    bytes.length + ((if d = 61 then 1 else 0) + if c = 61 then 1 else 0) =
      (bytes.length + 2) / 3 * 3 := by
  induction bytes using byGroups with
  | nil => exact absurd rfl hne
  | group head more hfills ih =>
    obtain ⟨a, b, c, d, hquantum, hencoded⟩ := @encoded_group urlSafe _ _ hfills
    by_cases hmore : more = []
    · subst hmore
      refine ⟨[a, b], c, d, by rw [hencoded]; rfl, ?_⟩
      have hpadding := quantum_padding hfills hquantum
      rw [append_nil]
      rcases hfills with h | ⟨-, h | h⟩ <;> omega
    · obtain ⟨front, c', d', hend, hpadding⟩ := ih hmore
      refine ⟨a :: b :: c :: d :: front, c', d', by rw [hencoded, hend]; rfl, ?_⟩
      have hthree := hfills.length_add.resolve_right fun h => hmore h.1
      omega

end

/-! ## In memory -/

section

variable {urlSafe : Bool} {text bytes : List UInt8} {memory : Nat → UInt8}
  {input length output required : Nat}

theorem decodedSize_encoded (hstands : Stands memory input (encoded urlSafe bytes))
    (hnull : encoded urlSafe bytes ≠ [] → input ≠ 0) :
    decodedSize memory input (encoded urlSafe bytes).length = .ok bytes.length := by
  have hlen := @length_encoded urlSafe bytes
  unfold decodedSize
  by_cases hne : bytes = []
  · subst hne
    rfl
  obtain ⟨front, c, d, hend, hpadding⟩ := @encoded_end urlSafe bytes hne
  have hin : input ≠ 0 := hnull fun hempty => hne (encoded_eq_nil.mp hempty)
  have htotal : (encoded urlSafe bytes).length = front.length + 2 := by
    rw [hend, length_append]
    rfl
  rw [hend] at hstands
  have hc : memory (input + front.length) = c := hstands.at_append
  have hd : memory (input + front.length + 1) = d := (Stands.append_iff.mp hstands).2.2.1
  rw [if_neg (by omega), if_neg (by omega), Int.toNat_natCast, htotal,
    show input + (front.length + 2) - 1 = input + front.length + 1 by omega, hd,
    show input + (front.length + 2) - 2 = input + front.length by omega, hc]
  have hlong : ((front.length + 2 : Nat) : Int) ≥ 2 := by omega
  simp only [hlong, true_and]
  congr 1
  split_ifs at hpadding ⊢ <;> omega

/-- All bytes of a group are stored where there is room for them. -/
theorem storeGroup_eq : ∀ {bytes : List UInt8} {memory : Nat → UInt8} {destination : Nat},
    destination + bytes.length ≤ required →
      storeGroup memory output required destination bytes =
        (storeAll memory (output + destination) bytes, destination + bytes.length)
  | [], _, _, _ => rfl
  | byte :: bytes, memory, destination, h => by
    rw [length_cons] at h
    rw [storeGroup, if_pos (by omega), storeGroup_eq (by omega), storeAll, length_cons]
    rw [Nat.add_assoc, Nat.add_assoc, Nat.add_comm 1]

/-- Nothing is stored behind the room, and no more than the bytes. -/
theorem storeGroup_frame : ∀ {bytes : List UInt8} {memory : Nat → UInt8} {destination : Nat},
    destination ≤ required →
      destination ≤ (storeGroup memory output required destination bytes).2 ∧
      (storeGroup memory output required destination bytes).2 ≤ destination + bytes.length ∧
      (storeGroup memory output required destination bytes).2 ≤ required ∧
      Frame (output + destination)
        ((storeGroup memory output required destination bytes).2 - destination) memory
        (storeGroup memory output required destination bytes).1
  | [], memory, destination, h => ⟨le_rfl, le_rfl, h, frame_refl _ _ memory⟩
  | byte :: bytes, memory, destination, h => by
    rw [storeGroup]
    split
    · obtain ⟨hge, hle, hroom, hframe⟩ := @storeGroup_frame bytes
        (store memory (output + destination) byte) (destination + 1) ‹_›
      rw [length_cons]
      refine ⟨by omega, by omega, hroom, ?_⟩
      have hfirst := @frame_store _ memory (output + destination) byte
      exact (hfirst.widen le_rfl (by omega)).trans (hframe.widen (by omega) (by omega))
    · obtain ⟨hge, hle, hroom, hframe⟩ := @storeGroup_frame bytes memory destination h
      rw [length_cons]
      exact ⟨hge, by omega, hroom, hframe⟩

theorem decodeLoop_group {rounds source destination : Nat} {a b c d : UInt8} {rest : List UInt8}
    (hstands : Stands memory (input + source) (a :: b :: c :: d :: rest))
    (hlen : source + (rest.length + 4) = length) :
    decodeLoop urlSafe input length output required (rounds + 1) source destination memory =
      match decodeGroup urlSafe rest.isEmpty a b c d with
      | .error failure => (.error failure, memory)
      | .ok bytes =>
          decodeLoop urlSafe input length output required rounds (source + 4)
            (storeGroup memory output required destination bytes).2
            (storeGroup memory output required destination bytes).1 := by
  obtain ⟨ha, hb, hc, hd, -⟩ := hstands
  have hfinal : decide (source + 4 = length) = rest.isEmpty := by
    rw [Bool.eq_iff_iff, decide_eq_true_iff, List.isEmpty_iff]
    refine ⟨fun h => eq_nil_of_length_eq_zero (by omega), fun h => ?_⟩
    rw [h] at hlen
    exact hlen
  rw [decodeLoop, if_pos (by omega)]
  dsimp only
  rw [ha, show memory (input + source + 1) = b from hb,
    show memory (input + source + 2) = c from hc,
    show memory (input + source + 3) = d from hd, hfinal]

theorem decodeLoop_spec : ∀ {rounds source destination : Nat} {memory : Nat → UInt8},
    Stands memory (input + source) text → source + text.length = length →
    text.length ≤ rounds → text.length % 4 = 0 → destination ≤ required →
    output + destination ≤ input + source ∨ input + length ≤ output + destination →
      (∀ failure, groups urlSafe text = .error failure →
        (decodeLoop urlSafe input length output required rounds source destination memory).1 =
          .error failure) ∧
      (∀ bytes, groups urlSafe text = .ok bytes → destination + bytes.length ≤ required →
        ∃ memory', decodeLoop urlSafe input length output required rounds source destination
            memory = (.ok ((destination + bytes.length : Nat) : Int), memory') ∧
          Stands memory' (output + destination) bytes ∧
          Frame (output + destination) bytes.length memory memory') ∧
      Frame (output + destination) (required - destination) memory
        (decodeLoop urlSafe input length output required rounds source destination memory).2 := by
  induction text using groups.induct with
  | case1 =>
    intro rounds source destination memory _ hlen _ _ _ _
    have hloop : decodeLoop urlSafe input length output required rounds source destination memory =
        (.ok destination, memory) := by
      cases rounds with
      | zero => rfl
      | succ rounds =>
        rw [length_nil] at hlen
        rw [decodeLoop, if_neg (by omega)]
    rw [hloop]
    refine ⟨nofun, fun bytes hbytes _ => ?_, frame_refl _ _ _⟩
    cases hbytes
    exact ⟨memory, rfl, trivial, frame_refl _ _ _⟩
  | case2 a b c d rest ih =>
    intro rounds source destination memory hstands hlen hrounds hfour hroom hapart
    simp only [length_cons] at hlen hrounds hfour
    obtain ⟨rounds, rfl⟩ : ∃ n, rounds = n + 1 := ⟨rounds - 1, by omega⟩
    rw [decodeLoop_group hstands hlen, groups]
    cases hgroup : decodeGroup urlSafe rest.isEmpty a b c d with
    | error failure =>
      refine ⟨fun other hother => ?_, nofun, frame_refl _ _ _⟩
      cases hother
      rfl
    | ok front =>
      have hthree : front.length ≤ 3 := by
        rcases (decodeGroup_ok hgroup).1 with h | ⟨-, h | h⟩ <;> omega
      obtain ⟨hge, hle, hbelow, hframe⟩ := @storeGroup_frame output required front memory
        destination hroom
      have hrest : Stands (storeGroup memory output required destination front).1
          (input + (source + 4)) rest := by
        have htail : Stands memory (input + (source + 4)) rest := hstands.2.2.2.2
        exact htail.frame hframe (by omega)
      obtain ⟨herr, hok, hkept⟩ := @ih rounds (source + 4) _ _ hrest (by omega) (by omega)
        (by omega) hbelow (by omega)
      dsimp only
      refine ⟨fun failure h => herr failure ?_, fun bytes h hfits => ?_, ?_⟩
      · cases hgroups : groups urlSafe rest with
        | error other => rw [hgroups] at h; exact h
        | ok more => rw [hgroups] at h; nomatch h
      · cases hgroups : groups urlSafe rest with
        | error other => rw [hgroups] at h; nomatch h
        | ok more =>
          rw [hgroups] at h
          cases h
          rw [length_append] at hfits ⊢
          have hstore := @storeGroup_eq output required front memory destination (by omega)
          obtain ⟨memory', hloop, hmore, hframe'⟩ := hok more hgroups (by rw [hstore]; omega)
          rw [hstore] at hloop hmore hframe' ⊢
          refine ⟨memory', ?_, ?_, ?_⟩
          · rw [hloop, Nat.add_assoc]
          · have hfront : Stands (storeAll memory (output + destination) front)
                (output + destination) front := stands_storeAll
            refine Stands.append_iff.mpr ⟨hfront.frame hframe' (.inl ?_), ?_⟩
            · exact Nat.le_of_eq (Nat.add_assoc _ _ _)
            · rwa [Nat.add_assoc]
          · have hfirst := @frame_storeAll _ front memory (output + destination)
            exact (hfirst.widen le_rfl (by omega)).trans
              (hframe'.widen (by omega) (by omega))
      · exact (hframe.widen le_rfl (by omega)).trans (hkept.widen (by omega) (by omega))
  | case3 text hne hfour =>
    intro rounds source destination memory _ _ _ hmod _ _
    match text with
    | [] => exact absurd rfl hne
    | [_] => simp at hmod
    | [_, _] => simp at hmod
    | [_, _, _] => simp at hmod
    | a :: b :: c :: d :: rest => exact absurd rfl (hfour a b c d rest)

theorem encodeLoop_group {rounds source destination : Nat} {front more : List UInt8}
    (hfills : Fills more.isEmpty front) (hstands : Stands memory (input + source) (front ++ more))
    (hlen : source + (front ++ more).length = length) :
    encodeLoop urlSafe input length output (rounds + 1) source destination memory =
      encodeLoop urlSafe input length output rounds (source + 3) (destination + 4)
        (storeAll memory (output + destination) (quantum urlSafe front)) := by
  have hpos := hfills.length_pos
  have hremaining : length - source = front.length + more.length := by
    rw [length_append] at hlen
    omega
  rw [length_append] at hlen
  rw [encodeLoop, if_pos (by omega)]
  dsimp only
  rw [hremaining]
  match front, hfills with
  | [a], hfills =>
    obtain ⟨hmore, -⟩ := hfills.resolve_left (by simp)
    obtain rfl := List.isEmpty_iff.mp hmore
    obtain ⟨ha, -⟩ := hstands
    rw [ha]
    rfl
  | [a, b], hfills =>
    obtain ⟨hmore, -⟩ := hfills.resolve_left (by simp)
    obtain rfl := List.isEmpty_iff.mp hmore
    obtain ⟨ha, hb, -⟩ := hstands
    rw [ha, show memory (input + source + 1) = b from hb]
    rfl
  | [a, b, c], _ =>
    obtain ⟨ha, hb, hc, -⟩ := hstands
    have hthree : [a, b, c].length + more.length > 2 := by
      rw [length_cons, length_cons, length_singleton]
      omega
    rw [ha, show memory (input + source + 1) = b from hb,
      show memory (input + source + 2) = c from hc, if_pos (by omega), if_pos hthree]
    unfold quantum encodeGroup
    rw [if_pos (by omega), if_pos hthree]
    rfl
  | [], hfills => simp [Fills] at hfills
  | _ :: _ :: _ :: _ :: _, hfills => simp [Fills] at hfills

/-- The loop on the bytes that are left; it may have gone past the end. -/
theorem encodeLoop_spec : ∀ {rounds source destination : Nat} {memory : Nat → UInt8},
    Stands memory (input + source) bytes →
    source + bytes.length = length ∨ bytes = [] ∧ length ≤ source → bytes.length ≤ rounds →
    output + destination + (encoded urlSafe bytes).length ≤ input + source ∨
      input + length ≤ output + destination →
      Stands (encodeLoop urlSafe input length output rounds source destination memory)
          (output + destination) (encoded urlSafe bytes) ∧
        Frame (output + destination) (encoded urlSafe bytes).length memory
          (encodeLoop urlSafe input length output rounds source destination memory) := by
  induction bytes using byGroups with
  | nil =>
    intro rounds source destination memory _ hlen _ _
    have hloop : encodeLoop urlSafe input length output rounds source destination memory =
        memory := by
      cases rounds with
      | zero => rfl
      | succ rounds =>
        rw [length_nil] at hlen
        rw [encodeLoop, if_neg (by omega)]
    rw [hloop]
    exact ⟨trivial, frame_refl _ _ _⟩
  | group front more hfills ih =>
    intro rounds source destination memory hstands hlen hrounds hapart
    have hpos := hfills.length_pos
    have hfour := @length_quantum urlSafe _ _ hfills
    have hadd := hfills.length_add
    have hne : front ++ more ≠ [] := fun h => by
      rw [append_eq_nil_iff.mp h |>.1] at hpos
      nomatch hpos
    have hlen := hlen.resolve_right fun h => hne h.1
    have hencoded := @encoded_append urlSafe front _ more hfills List.isEmpty_iff.mp
    rw [hencoded, length_append, hfour] at hapart ⊢
    obtain ⟨rounds, rfl⟩ : ∃ n, rounds = n + 1 := ⟨rounds - 1, by
      rw [length_append] at hrounds
      omega⟩
    rw [encodeLoop_group hfills hstands hlen]
    have hframe := @frame_storeAll _ (quantum urlSafe front) memory (output + destination)
    have hstored := @stands_storeAll _ (quantum urlSafe front) memory (output + destination)
    rw [hfour] at hframe
    have hmore : Stands (storeAll memory (output + destination) (quantum urlSafe front))
        (input + (source + 3)) more := by
      rcases hadd with h | ⟨rfl, -⟩
      · have htail := (Stands.append_iff.mp hstands).2
        rw [length_append] at h hlen
        rw [show front.length = 3 by omega] at htail
        exact htail.frame hframe (by omega)
      · trivial
    have hnext : source + 3 + more.length = length ∨ more = [] ∧ length ≤ source + 3 := by
      rcases hadd with h | ⟨rfl, h⟩
      · exact .inl (by omega)
      · rw [append_nil] at hlen
        exact .inr ⟨rfl, by omega⟩
    obtain ⟨hlast, hkept⟩ := @ih rounds (source + 3) (destination + 4) _ hmore hnext
      (by rw [length_append] at hrounds; omega) (by omega)
    refine ⟨Stands.append_iff.mpr ⟨hstored.frame hkept (.inl ?_), ?_⟩, ?_⟩
    · rw [hfour, Nat.add_assoc]
    · rwa [hfour, Nat.add_assoc]
    · exact (hframe.widen le_rfl (by omega)).trans (hkept.widen (by omega) (by omega))

/-- **The encoder writes the text.** -/
theorem encodeImpl_ok {capacity : Int} (hstands : Stands memory input bytes)
    (hlimit : bytes.length ≤ 6917529027641081853)
    (hnull : bytes ≠ [] → input ≠ 0 ∧ output ≠ 0)
    (hroom : (encoded urlSafe bytes).length ≤ capacity)
    (hapart : input + bytes.length ≤ output ∨
      output + (encoded urlSafe bytes).length ≤ input) :
    ∃ memory', encodeImpl memory input bytes.length output capacity urlSafe =
        (.ok ((encoded urlSafe bytes).length : Int), memory') ∧
      Stands memory' output (encoded urlSafe bytes) ∧
      Frame output (encoded urlSafe bytes).length memory memory' := by
  have hlen := @length_encoded urlSafe bytes
  have hrequired : encodedLength bytes.length = some ((encoded urlSafe bytes).length : Int) := by
    unfold encodedLength
    rw [if_neg (by omega)]
    rw [if_neg (by omega), hlen]
    exact congrArg some (by omega)
  have hguard : ¬ (((bytes.length : Int) > 0 ∧ input = 0) ∨
      capacity < ((encoded urlSafe bytes).length : Int) ∨
      (((encoded urlSafe bytes).length : Int) > 0 ∧ output = 0)) := by
    by_cases hne : bytes = []
    · subst hne
      have hempty : (encoded urlSafe ([] : List UInt8)).length = 0 := rfl
      rw [hempty] at hroom ⊢
      rw [length_nil]
      omega
    · obtain ⟨hin, hout⟩ := hnull hne
      omega
  obtain ⟨hwrote, hframe⟩ := @encodeLoop_spec urlSafe bytes input bytes.length output
    bytes.length 0 0 memory hstands (.inl (Nat.zero_add _)) le_rfl (by omega)
  unfold encodeImpl
  rw [hrequired]
  dsimp only
  rw [if_neg hguard, Int.toNat_natCast]
  exact ⟨_, rfl, hwrote, hframe⟩

/-- The encoder turns bytes into a text, wherever there is room for it. -/
def Encodes (urlSafe : Bool) (bytes text : List UInt8) : Prop :=
  ∀ memory input output, ∀ capacity : Int, Stands memory input bytes →
    (bytes ≠ [] → input ≠ 0 ∧ output ≠ 0) → text.length ≤ capacity →
    input + bytes.length ≤ output ∨ output + text.length ≤ input →
      ∃ memory', encodeImpl memory input bytes.length output capacity urlSafe =
        (.ok (text.length : Int), memory') ∧ Stands memory' output text

theorem encodes_iff : Encodes urlSafe bytes text ↔
    bytes.length ≤ 6917529027641081853 ∧ encoded urlSafe bytes = text := by
  constructor
  · intro h
    obtain ⟨memory, hstands⟩ := exists_stands (0 : UInt8) 1 bytes
    have hleft : (text.length : Int) ≤
        max (text.length : Int) ((encoded urlSafe bytes).length : Int) := le_max_left _ _
    have hright : ((encoded urlSafe bytes).length : Int) ≤
        max (text.length : Int) ((encoded urlSafe bytes).length : Int) := le_max_right _ _
    have hnull : bytes ≠ [] → (1 : Nat) ≠ 0 ∧ 1 + bytes.length ≠ 0 := fun _ => by omega
    obtain ⟨memory', hrun, htext⟩ := h memory 1 (1 + bytes.length) _ hstands hnull hleft
      (.inl le_rfl)
    have hlimit : bytes.length ≤ 6917529027641081853 := by
      by_contra hlong
      have hnone : encodedLength bytes.length = none := if_pos (by omega)
      unfold encodeImpl at hrun
      rw [hnone] at hrun
      nomatch hrun
    obtain ⟨memory'', hrun', hencoded, -⟩ := @encodeImpl_ok urlSafe bytes memory 1
      (1 + bytes.length) _ hstands hlimit hnull hright (.inl le_rfl)
    rw [hrun] at hrun'
    obtain ⟨hlen, rfl⟩ := Prod.mk.inj hrun'
    have hsame := Except.ok.inj hlen
    exact ⟨hlimit, hencoded.unique htext (by omega)⟩
  · rintro ⟨hlimit, rfl⟩ memory input output capacity hstands hnull hroom hapart
    obtain ⟨memory', hrun, hwrote, -⟩ := encodeImpl_ok hstands hlimit hnull hroom hapart
    exact ⟨memory', hrun, hwrote⟩

/-- The room that is announced for a text: none where it is refused at once. -/
def announced (memory : Nat → UInt8) (input : Nat) (length : Int) : Nat :=
  match decodedSize memory input length with
  | .ok required => required.toNat
  | .error _ => 0

/-- **Decoding is exact.** -/
theorem decode_exact {capacity : Int} (hstands : Stands memory input text)
    (hlimit : text.length < 2 ^ 63) (hnull : text ≠ [] → input ≠ 0)
    (hroom : ∀ required, decodedSize memory input text.length = .ok required →
      required ≤ capacity ∧ (required > 0 → output ≠ 0))
    (hapart : output ≤ input ∨ input + text.length ≤ output) :
    ((∃ count, (decodeImpl memory input text.length output capacity urlSafe).1 = .ok count) ↔
      ∃ bytes, Encodes urlSafe bytes text) ∧
    (∀ bytes, Encodes urlSafe bytes text →
      decodedSize memory input text.length = .ok (bytes.length : Int) ∧
      ∃ memory', decodeImpl memory input text.length output capacity urlSafe =
        (.ok (bytes.length : Int), memory') ∧ Stands memory' output bytes) ∧
    Frame output (announced memory input text.length) memory
      (decodeImpl memory input text.length output capacity urlSafe).2 := by
  have hencodes : ∀ bytes, Encodes urlSafe bytes text ↔ groups urlSafe text = .ok bytes := by
    intro bytes
    rw [encodes_iff, groups_ok_iff]
    refine ⟨And.right, fun h => ⟨?_, h⟩⟩
    have hlen := @length_encoded urlSafe bytes
    rw [h] at hlen
    omega
  unfold announced
  cases hsize : decodedSize memory input text.length with
  | error failure =>
    have hrun : decodeImpl memory input text.length output capacity urlSafe =
        (.error failure, memory) := by
      unfold decodeImpl
      rw [hsize]
    have hno : ∀ bytes, ¬ Encodes urlSafe bytes text := by
      intro bytes h
      obtain ⟨-, rfl⟩ := encodes_iff.mp h
      rw [decodedSize_encoded hstands hnull] at hsize
      nomatch hsize
    rw [hrun]
    exact ⟨⟨(fun ⟨_, h⟩ => nomatch h), fun ⟨bytes, h⟩ => absurd h (hno bytes)⟩,
      fun bytes h => absurd h (hno bytes), frame_refl _ _ _⟩
  | ok required =>
    obtain ⟨hcap, hout⟩ := hroom required hsize
    have hfour : text.length % 4 = 0 := by
      by_contra hodd
      unfold decodedSize at hsize
      rw [if_pos (.inr (.inl (by omega)))] at hsize
      nomatch hsize
    have hrun : decodeImpl memory input text.length output capacity urlSafe =
        decodeLoop urlSafe input text.length output required.toNat text.length 0 0 memory := by
      unfold decodeImpl
      rw [hsize]
      dsimp only
      rw [if_neg (by omega), Int.toNat_natCast]
    obtain ⟨herr, hok, hframe⟩ := @decodeLoop_spec urlSafe text input text.length output
      required.toNat text.length 0 0 memory hstands (Nat.zero_add _) le_rfl hfour
      (Nat.zero_le _) hapart
    have hdecoded : ∀ bytes, groups urlSafe text = .ok bytes →
        (bytes.length : Int) = required ∧ ∃ memory',
          decodeLoop urlSafe input text.length output required.toNat text.length 0 0 memory =
            (.ok (bytes.length : Int), memory') ∧ Stands memory' output bytes := by
      intro bytes h
      obtain rfl := groups_ok_iff.mp h
      rw [decodedSize_encoded hstands hnull] at hsize
      have hlen := Except.ok.inj hsize
      obtain ⟨memory', hloop, hwrote, -⟩ := hok bytes h (by omega)
      rw [Nat.zero_add] at hloop
      exact ⟨hlen, memory', hloop, hwrote⟩
    rw [hrun]
    refine ⟨⟨fun ⟨count, hcount⟩ => ?_, fun ⟨bytes, h⟩ => ?_⟩, fun bytes h => ?_, hframe⟩
    · cases hgroups : groups urlSafe text with
      | error failure =>
        rw [herr failure hgroups] at hcount
        nomatch hcount
      | ok bytes => exact ⟨bytes, (hencodes bytes).mpr hgroups⟩
    · obtain ⟨-, memory', hloop, -⟩ := hdecoded bytes ((hencodes bytes).mp h)
      exact ⟨_, by rw [hloop]⟩
    · obtain ⟨hlen, memory', hloop, hwrote⟩ := hdecoded bytes ((hencodes bytes).mp h)
      exact ⟨by rw [hlen], memory', hloop, hwrote⟩

end

/-- Four characters at the address 1. -/
def paddedText (address : Nat) : UInt8 := ([0, 81, 81, 61, 61][address]?).getD 0

theorem decode_exact_padded : ∃ memory', decodeImpl paddedText 1 4 8 1 false = (.ok 1, memory') ∧
    Stands memory' 8 [65] :=
  ((@decode_exact false [81, 81, 61, 61] paddedText 1 8 1 ⟨rfl, rfl, rfl, rfl, trivial⟩ (by decide)
    (fun _ => by decide)
    (fun required h => by
      obtain rfl : 1 = required := Except.ok.inj (Eq.trans (by rfl) h)
      decide)
    (.inr (by decide))).2.1 [65] (encodes_iff.mpr ⟨by decide, by decide⟩)).2

end Raz.Encoding.Base64
