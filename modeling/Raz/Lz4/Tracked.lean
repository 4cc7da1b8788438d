import Raz.Lib.Access
import Raz.Lz4.Prefix

/-!
# The decoder on memory that nothing was written to

The decoder again, on a destination whose bytes are missing until they are written: it must not read
outside its input, nor a byte of the destination that it has not written. A result of -1 is a
failure that it reports.

Result: `readLiterals_spec`, `readMatch_spec`: what the two parts of a sequence are read to.
-/

namespace Raz.Lz4.Tracked

open List
open Lz77 Access

abbrev Run := Except (Fault Unit)

def minusOne {α : Type} : Run α := .error (.reported ())

/-- A byte of the destination, none before it is written. -/
abbrev Cell := Option UInt8

/-! ## Memory -/

def loadInput (input : List UInt8) (address : Nat) : Run Nat := do
  return (← access input address).toNat

def load (cells : List Cell) (address : Nat) : Run Nat :=
  match cells[address]? with
  | some (some byte) => .ok byte.toNat
  | _ => .error .outside

def store (cells : List Cell) (address value : Nat) : Run (List Cell) :=
  if address < cells.length then .ok (cells.set address (some (UInt8.ofNat value)))
  else .error .outside

def copyBytes (input : List UInt8) (source : Nat) : List Cell → Nat → Nat → Run (List Cell)
  | cells, _, 0 => .ok cells
  | cells, destination, length + 1 => do
      let byte ← loadInput input source
      let cells ← store cells destination byte
      copyBytes input (source + 1) cells (destination + 1) length

def copyMatch (distance : Nat) : List Cell → Nat → Nat → Run (List Cell)
  | cells, _, 0 => .ok cells
  | cells, destination, length + 1 => do
      let byte ← load cells (destination - distance)
      let cells ← store cells destination byte
      copyMatch distance cells (destination + 1) length

/-! ## Decompression -/

/-- The extension bytes of a length whose nibble was 15. -/
def readLength (input : List UInt8) : Nat → Nat → Nat → Run (Nat × Nat)
  | 0, _, _ => .error .outside
  | fuel + 1, source, length =>
      if source ≥ input.length then minusOne
      else do
        let extra ← loadInput input source
        if length > 9223372036854775807 - extra then minusOne
        else if extra ≠ 255 then .ok (length + extra, source + 1)
        else readLength input fuel (source + 1) (length + extra)

def readNibbleLength (input : List UInt8) (nibble base source : Nat) : Run (Nat × Nat) :=
  if nibble = 15 then readLength input (input.length + 1) source (nibble + base)
  else .ok (nibble + base, source)

structure State where
  cells : List Cell
  source : Nat
  destination : Nat

/-- Token and literals. -/
def readLiterals (input : List UInt8) (capacity : Nat) (s : State) : Run (Nat × State) := do
  let token ← loadInput input s.source
  let (literalLength, source) ← readNibbleLength input (token >>> 4) 0 (s.source + 1)
  if literalLength > input.length - source ∨ literalLength > capacity - s.destination then minusOne
  else do
    let cells ← copyBytes input source s.cells s.destination literalLength
    .ok (token, ⟨cells, source + literalLength, s.destination + literalLength⟩)

/-- Offset, match length and match copy. -/
def readMatch (input : List UInt8) (capacity token : Nat) (s : State) : Run State :=
  if (s.source : Int) > (input.length : Int) - 2 then minusOne
  else do
    let low ← loadInput input s.source
    let high ← loadInput input (s.source + 1)
    let distance := low ||| (high <<< 8)
    if distance ≤ 0 ∨ distance > s.destination then minusOne
    else do
      let (matchLength, source) ← readNibbleLength input (token &&& 15) 4 (s.source + 2)
      if matchLength > capacity - s.destination then minusOne
      else do
        let cells ← copyMatch distance s.cells s.destination matchLength
        .ok ⟨cells, source, s.destination + matchLength⟩

/-- The main loop. Out of fuel it would go on for ever. -/
def decompressLoop (input : List UInt8) (capacity : Nat) : Nat → State → Run (List Cell × Nat)
  | 0, _ => .error .outside
  | fuel + 1, s =>
      if s.source < input.length then do
        let (token, s) ← readLiterals input capacity s
        if s.source = input.length then .ok (s.cells, s.destination)
        else do
          let s ← readMatch input capacity token s
          decompressLoop input capacity fuel s
      else .ok (s.cells, s.destination)

/-- `decompress` behind its checks of the arguments, into a fresh destination. -/
def decompress (input : List UInt8) (capacity : Nat) : Run (List Cell × Nat) :=
  decompressLoop input capacity (input.length + 1) ⟨List.replicate capacity none, 0, 0⟩

/-! ## What has been written -/

/-- The destination once a text has been written from its start. -/
def written (text : List UInt8) (capacity : Nat) : List Cell :=
  text.map some ++ List.replicate (capacity - text.length) none

section

variable {input text : List UInt8} {capacity : Nat}

theorem bind_ok {α β : Type} {step : Run α} {result : α} (h : step = .ok result)
    (next : α → Run β) : (step >>= next) = next result := by
  rw [h]
  rfl

theorem loadInput_eq {address : Nat} (h : address < input.length) :
    loadInput input address = .ok input[address].toNat := by
  unfold loadInput
  rw [access_eq h]
  rfl

theorem load_written {address : Nat} (h : address < text.length) :
    load (written text capacity) address = .ok text[address].toNat := by
  have hlt : address < (text.map (some : UInt8 → Cell)).length := by rwa [length_map]
  have hcell : (written text capacity)[address]? = some (some text[address]) := by
    unfold written
    rw [List.getElem?_append_left hlt, List.getElem?_map, List.getElem?_eq_getElem h]
    rfl
  unfold load
  rw [hcell]

theorem store_written {value : Nat} (h : text.length < capacity) :
    store (written text capacity) text.length value =
      .ok (written (text ++ [UInt8.ofNat value]) capacity) := by
  have hlen : (written text capacity).length = capacity := by
    simp [written]
    omega
  unfold store
  rw [if_pos (by rwa [hlen])]
  congr 1
  unfold written
  have hrest : capacity - text.length = (capacity - (text ++ [UInt8.ofNat value]).length) + 1 := by
    simp
    omega
  rw [hrest, replicate_succ, set_append_right _ _ (by simp)]
  simp

theorem copyBytes_written {length : Nat} : ∀ {source : Nat} {text : List UInt8},
    source + length ≤ input.length → text.length + length ≤ capacity →
    copyBytes input source (written text capacity) text.length length =
      .ok (written (text ++ (input.drop source).take length) capacity) := by
  induction length with
  | zero =>
    intro source text _ _
    rw [copyBytes, take_zero, append_nil]
  | succ length ih =>
    intro source text hsrc hfit
    have hlt : source < input.length := by omega
    have hbyte : UInt8.ofNat input[source].toNat = input[source] := UInt8.ofNat_toNat
    rw [copyBytes, bind_ok (loadInput_eq hlt), bind_ok (store_written (by omega)), hbyte]
    have hnext := @ih (source + 1) (text ++ [input[source]]) (by omega)
      (by rw [length_append, length_singleton]; omega)
    rw [length_append, length_singleton] at hnext
    rw [hnext, drop_eq_getElem_cons hlt, take_succ_cons, append_assoc]
    rfl

/-- The match is added to the text, and is read from the text alone. -/
theorem copyMatch_written {distance length : Nat} (hpos : 0 < distance) :
    ∀ {text : List UInt8}, distance ≤ text.length → text.length + length ≤ capacity →
    copyMatch distance (written text capacity) text.length length =
      .ok (written (appendMatch distance length text) capacity) := by
  induction length with
  | zero =>
    intro text _ _
    rw [copyMatch]
    rfl
  | succ length ih =>
    intro text hback hfit
    have hsrc := source_lt hpos hback
    have hbyte : UInt8.ofNat text[text.length - distance].toNat = text[text.length - distance] :=
      UInt8.ofNat_toNat
    rw [copyMatch, bind_ok (load_written hsrc), bind_ok (store_written (by omega)), hbyte,
      appendMatch_succ hsrc]
    have hlen : (text ++ [text[text.length - distance]]).length = text.length + 1 := by simp
    have hnext := @ih (text ++ [text[text.length - distance]]) (by omega) (by omega)
    rwa [hlen] at hnext

/-! ## Lengths -/

/-- **A length is read if it stands there**, and is a word. -/
theorem readLength_spec {fuel : Nat} : ∀ {source length : Nat}, source ≤ input.length →
    input.length < source + fuel →
    (∃ remaining rest, input.drop source = lengthBytes remaining ++ rest ∧
      readLength input fuel source length =
        .ok (length + remaining, source + (lengthBytes remaining).length)) ∨
    (readLength input fuel source length = minusOne ∧ ∀ remaining rest,
      input.drop source = lengthBytes remaining ++ rest →
        9223372036854775807 < length + remaining) := by
  induction fuel with
  | zero =>
    intro source length hle hfuel
    omega
  | succ fuel ih =>
    intro source length hle hfuel
    rw [readLength]
    by_cases hend : source ≥ input.length
    · rw [if_pos hend]
      refine .inr ⟨rfl, fun remaining rest h => ?_⟩
      rw [drop_eq_nil_of_le hend] at h
      exact absurd (append_eq_nil_iff.mp h.symm).1 (lengthBytes_ne_nil remaining)
    have hlt := Nat.not_le.mp hend
    rw [if_neg hend, bind_ok (loadInput_eq hlt), drop_eq_getElem_cons hlt]
    have hbyte := input[source].toNat_lt
    -- the first byte of any length that stands there
    have hfirst {remaining : Nat} {rest : List UInt8}
        (h : input[source] :: input.drop (source + 1) = lengthBytes remaining ++ rest) :
        input[source] = 255 ∧ 255 ≤ remaining ∧
          input.drop (source + 1) = lengthBytes (remaining - 255) ++ rest ∨
        input[source] ≠ 255 ∧ input[source].toNat = remaining := by
      obtain ⟨byte, others, hbytes, hcases⟩ := lengthBytes_cons remaining
      rw [hbytes] at h
      obtain ⟨rfl, hrest⟩ := List.cons.inj h
      obtain ⟨heq, hge, rfl⟩ | ⟨hne, hval, rfl⟩ := hcases
      · exact .inl ⟨heq, hge, hrest⟩
      · exact .inr ⟨hne, hval⟩
    by_cases hlarge : length > 9223372036854775807 - input[source].toNat
    · rw [if_pos hlarge]
      refine .inr ⟨rfl, fun remaining rest h => ?_⟩
      obtain ⟨heq, hge, -⟩ | ⟨-, hval⟩ := hfirst h
      · rw [heq] at hlarge
        change length > 9223372036854775807 - 255 at hlarge
        omega
      · omega
    rw [if_neg hlarge]
    by_cases hlast : input[source] = 255
    · have hval : input[source].toNat = 255 := congrArg UInt8.toNat hlast
      rw [if_neg (not_not_intro hval), hval]
      obtain ⟨remaining, rest, hdrop, hread⟩ | ⟨hread, hnone⟩ :=
        @ih (source + 1) (length + 255) (by omega) (by omega)
      · refine .inl ⟨255 + remaining, rest, ?_, ?_⟩
        · rw [hdrop, hlast, lengthBytes_of_ge (Nat.le_add_right 255 remaining),
            Nat.add_sub_cancel_left]
          rfl
        · rw [hread, lengthBytes_of_ge (Nat.le_add_right 255 remaining), Nat.add_sub_cancel_left,
            length_cons, Nat.add_assoc, Nat.add_assoc source, Nat.add_comm 1]
      · refine .inr ⟨hread, fun remaining rest h => ?_⟩
        obtain ⟨-, hge, hrest⟩ | ⟨hne, -⟩ := hfirst h
        · have := hnone _ _ hrest
          omega
        · exact absurd hlast hne
    · have hne : input[source].toNat ≠ 255 := fun heq => hlast (UInt8.toNat_inj.mp heq)
      have hshort : lengthBytes input[source].toNat = [input[source]] := by
        rw [lengthBytes_of_lt (by omega), UInt8.ofNat_toNat]
      rw [if_pos hne]
      refine .inl ⟨input[source].toNat, input.drop (source + 1), ?_, ?_⟩
      · rw [hshort]
        rfl
      · rw [hshort]
        rfl

theorem readNibbleLength_spec {base source high : Nat} (hhigh : high ≤ 15)
    (hle : source ≤ input.length) :
    (∃ length rest, nibble length = high ∧ input.drop source = extensionBytes length ++ rest ∧
      readNibbleLength input high base source =
        .ok (length + base, source + (extensionBytes length).length)) ∨
    (readNibbleLength input high base source = minusOne ∧ ∀ length rest, nibble length = high →
      input.drop source = extensionBytes length ++ rest →
        9223372036854775807 < length + base) := by
  unfold readNibbleLength
  by_cases h15 : high = 15
  · subst h15
    rw [if_pos rfl]
    obtain ⟨remaining, rest, hdrop, hread⟩ | ⟨hread, hnone⟩ :=
      @readLength_spec input (input.length + 1) source (15 + base) hle (by omega)
    · have hge : 15 + remaining ≥ 15 := Nat.le_add_right _ _
      have hbytes : extensionBytes (15 + remaining) = lengthBytes remaining := by
        unfold extensionBytes
        rw [if_pos hge, Nat.add_sub_cancel_left]
      refine .inl ⟨15 + remaining, rest, (nibble_eq_fifteen _).mpr hge, ?_, ?_⟩
      · rw [hbytes, hdrop]
      · rw [hbytes, hread, Nat.add_right_comm]
    · refine .inr ⟨hread, fun length rest hnibble hdrop => ?_⟩
      have hge := (nibble_eq_fifteen length).mp hnibble
      unfold extensionBytes at hdrop
      rw [if_pos hge] at hdrop
      have := hnone _ _ hdrop
      omega
  · have hbytes : extensionBytes high = [] := if_neg (by omega)
    rw [if_neg h15]
    refine .inl ⟨high, input.drop source, nibble_of_lt (by omega), ?_, ?_⟩
    · rw [hbytes, nil_append]
    · rw [hbytes]
      rfl

/-! ## The two halves of a sequence -/

theorem token_eq (token : UInt8) :
    UInt8.ofNat (((token.toNat >>> 4) <<< 4) ||| (token.toNat &&& 15)) = token ∧
      token.toNat >>> 4 ≤ 15 ∧ token.toNat &&& 15 ≤ 15 := by
  have hall : ∀ value < 256, UInt8.ofNat (((value >>> 4) <<< 4) ||| (value &&& 15)) =
      UInt8.ofNat value ∧ value >>> 4 ≤ 15 ∧ value &&& 15 ≤ 15 := by decide +kernel
  have h := hall token.toNat token.toNat_lt
  rwa [UInt8.ofNat_toNat] at h

theorem distance_eq (low high : UInt8) :
    UInt8.ofNat ((low.toNat ||| (high.toNat <<< 8)) &&& 255) = low ∧
      UInt8.ofNat (((low.toNat ||| (high.toNat <<< 8)) >>> 8) &&& 255) = high ∧
      low.toNat ||| (high.toNat <<< 8) ≤ 65535 := by
  have hlow := low.toNat_lt
  have hhigh := high.toNat_lt
  rw [or_shiftLeft high.toNat (show low.toNat < 2 ^ 8 from hlow)]
  have hmask (value : Nat) : value &&& 255 = value % 256 := Nat.and_two_pow_sub_one_eq_mod value 8
  rw [hmask, hmask, Nat.shiftRight_eq_div_pow]
  refine ⟨UInt8.toNat_inj.mp ?_, UInt8.toNat_inj.mp ?_, by omega⟩
  · rw [UInt8.toNat_ofNat']
    omega
  · rw [UInt8.toNat_ofNat']
    omega

/-- Literals that stand at a place of the input, and whose text fits the destination. -/
structure LiteralsAt (input text : List UInt8) (capacity source : Nat) (literals : List UInt8)
    (low : Nat) (rest : List UInt8) : Prop where
  low_le : low ≤ 15
  bytes : input.drop source = literalBytes literals low ++ rest
  fits : text.length + literals.length ≤ capacity

theorem LiteralsAt.unique {source low low' : Nat} {literals literals' rest rest' : List UInt8}
    (h : LiteralsAt input text capacity source literals low rest)
    (h' : LiteralsAt input text capacity source literals' low' rest') :
    literals = literals' ∧ low = low' ∧ rest = rest' :=
  literalBytes_append_inj h.low_le h'.low_le (h.bytes.symm.trans h'.bytes)

/-- **Literals are read if they stand there and fit.** -/
theorem readLiterals_spec {source : Nat} (hsrc : source < input.length)
    (hword : input.length ≤ 9223372036854775807) (hroom : text.length ≤ capacity) :
    (∃ token literals low rest, LiteralsAt input text capacity source literals low rest ∧
      token &&& 15 = low ∧
      readLiterals input capacity ⟨written text capacity, source, text.length⟩ =
        .ok (token, ⟨written (text ++ literals) capacity,
          source + (literalBytes literals low).length, (text ++ literals).length⟩)) ∨
    (readLiterals input capacity ⟨written text capacity, source, text.length⟩ = minusOne ∧
      ∀ literals low rest, ¬ LiteralsAt input text capacity source literals low rest) := by
  obtain ⟨htoken, hhigh, hlow⟩ := token_eq input[source]
  have hdrop := drop_eq_getElem_cons hsrc
  unfold readLiterals
  rw [bind_ok (loadInput_eq hsrc)]
  -- what stands behind the token of any literals there
  have hbehind {literals : List UInt8} {low : Nat} {rest : List UInt8}
      (h : LiteralsAt input text capacity source literals low rest) :
      nibble literals.length = input[source].toNat >>> 4 ∧
        input.drop (source + 1) = extensionBytes literals.length ++ (literals ++ rest) := by
    have hbytes := h.bytes
    rw [hdrop, literalBytes_eq, cons_append, append_assoc] at hbytes
    obtain ⟨hfirst, hrest⟩ := List.cons.inj hbytes
    refine ⟨?_, hrest⟩
    rw [hfirst]
    exact (token_nibbles (nibble_le _) h.low_le).1.symm
  obtain ⟨length, rest, hnibble, hrest, hread⟩ | ⟨hread, hnone⟩ :=
    @readNibbleLength_spec input 0 (source + 1) _ hhigh hsrc
  · have hlen := congrArg List.length hrest
    rw [length_drop, length_append] at hlen
    rw [bind_ok hread]
    dsimp only
    rw [Nat.add_zero]
    by_cases hshort : length > input.length - (source + 1 + (extensionBytes length).length) ∨
        length > capacity - text.length
    · rw [if_pos hshort]
      refine .inr ⟨rfl, fun literals low rest' h => ?_⟩
      obtain ⟨hnibble', hrest'⟩ := hbehind h
      obtain ⟨hsame, htail⟩ :=
        extensionBytes_append_inj (hnibble.trans hnibble'.symm) (hrest.symm.trans hrest')
      have hfits := h.fits
      have hlonger := congrArg List.length htail
      rw [length_append] at hlonger
      omega
    · rw [if_neg hshort]
      have hcopy := copyBytes_written
        (show source + 1 + (extensionBytes length).length + length ≤ input.length by omega)
        (show text.length + length ≤ capacity by omega)
      have hbehind' : input.drop (source + 1 + (extensionBytes length).length) = rest := by
        rw [← drop_drop, hrest, drop_left]
      rw [hbehind'] at hcopy
      have htake : (rest.take length).length = length := by
        rw [length_take]
        omega
      refine .inl ⟨_, rest.take length, input[source].toNat &&& 15, rest.drop length,
        ⟨hlow, ?_, by omega⟩, rfl, ?_⟩
      · rw [hdrop, literalBytes_eq, htake, hnibble, htoken, cons_append, append_assoc,
          take_append_drop, hrest]
      rw [bind_ok hcopy]
      rw [literalBytes_eq, length_cons, length_append, length_append, htake]
      congr 3
      omega
  · rw [hread]
    refine .inr ⟨rfl, fun literals low rest h => ?_⟩
    obtain ⟨hnibble, hrest⟩ := hbehind h
    have hlarge := hnone _ _ hnibble hrest
    have hlen := congrArg List.length hrest
    rw [length_drop, length_append, length_append] at hlen
    omega

/-- A match that stands at a place of the input, goes back into the text, and fits. -/
structure MatchAt (input text : List UInt8) (capacity source low distance matchLength : Nat)
    (rest : List UInt8) : Prop where
  nibble_eq : nibble (matchLength - 4) = low
  bytes : input.drop source = matchBytes distance matchLength ++ rest
  pos : 0 < distance
  far : distance ≤ 65535
  back : distance ≤ text.length
  minMatch : 4 ≤ matchLength
  fits : text.length + matchLength ≤ capacity

theorem MatchAt.unique {source low distance distance' matchLength matchLength' : Nat}
    {rest rest' : List UInt8} (h : MatchAt input text capacity source low distance matchLength rest)
    (h' : MatchAt input text capacity source low distance' matchLength' rest') :
    distance = distance' ∧ matchLength = matchLength' ∧ rest = rest' :=
  matchBytes_append_inj (h.nibble_eq.trans h'.nibble_eq.symm) h.far h'.far h.minMatch h'.minMatch
    (h.bytes.symm.trans h'.bytes)

/-- **A match is read if it stands there, goes back into the text and fits.** -/
theorem readMatch_spec {source token : Nat} (hsrc : source ≤ input.length)
    (htoken : token &&& 15 ≤ 15) (hword : capacity ≤ 9223372036854775807) :
    (∃ distance matchLength rest,
      MatchAt input text capacity source (token &&& 15) distance matchLength rest ∧
      readMatch input capacity token ⟨written text capacity, source, text.length⟩ =
        .ok ⟨written (appendMatch distance matchLength text) capacity,
          source + (matchBytes distance matchLength).length,
          (appendMatch distance matchLength text).length⟩) ∨
    (readMatch input capacity token ⟨written text capacity, source, text.length⟩ = minusOne ∧
      ∀ distance matchLength rest,
        ¬ MatchAt input text capacity source (token &&& 15) distance matchLength rest) := by
  unfold readMatch
  by_cases hshort : (source : Int) > (input.length : Int) - 2
  · rw [if_pos hshort]
    refine .inr ⟨rfl, fun distance matchLength rest h => ?_⟩
    have hlen := congrArg List.length h.bytes
    rw [matchBytes_eq, length_drop, length_append, length_cons, length_cons] at hlen
    omega
  have hlt : source < input.length := by omega
  have hnext : source + 1 < input.length := by omega
  obtain ⟨hlow, hhigh, hfar⟩ := distance_eq input[source] input[source + 1]
  have hdrop : input.drop source =
      input[source] :: input[source + 1] :: input.drop (source + 2) := by
    rw [drop_eq_getElem_cons hlt, drop_eq_getElem_cons hnext]
  rw [if_neg hshort, bind_ok (loadInput_eq hlt), bind_ok (loadInput_eq hnext)]
  generalize hval : input[source].toNat ||| (input[source + 1].toNat <<< 8) = distance
  rw [hval] at hlow hhigh hfar
  -- what stands behind the distance of any match there
  have hbehind {other matchLength : Nat} {rest : List UInt8}
      (h : MatchAt input text capacity source (token &&& 15) other matchLength rest) :
      other = distance ∧
        input.drop (source + 2) = extensionBytes (matchLength - 4) ++ rest := by
    have hbytes := h.bytes
    rw [hdrop, matchBytes_eq, cons_append, cons_append] at hbytes
    obtain ⟨hfirst, hbytes⟩ := List.cons.inj hbytes
    obtain ⟨hsecond, hrest⟩ := List.cons.inj hbytes
    refine ⟨?_, hrest⟩
    rw [← distance_bytes h.far, ← hfirst, ← hsecond, hval]
  by_cases hvalid : distance ≤ 0 ∨ distance > text.length
  · rw [if_pos hvalid]
    refine .inr ⟨rfl, fun other matchLength rest h => ?_⟩
    obtain ⟨rfl, -⟩ := hbehind h
    have hpos := h.pos
    have hback := h.back
    omega
  rw [if_neg hvalid]
  obtain ⟨length, rest, hnibble, hrest, hread⟩ | ⟨hread, hnone⟩ :=
    @readNibbleLength_spec input 4 (source + 2) _ htoken hnext
  · rw [bind_ok hread]
    dsimp only
    by_cases hfits : length + 4 > capacity - text.length
    · rw [if_pos hfits]
      refine .inr ⟨rfl, fun other matchLength rest' h => ?_⟩
      obtain ⟨-, hrest'⟩ := hbehind h
      obtain ⟨hsame, -⟩ := extensionBytes_append_inj (hnibble.trans h.nibble_eq.symm)
        (hrest.symm.trans hrest')
      have hfits' := h.fits
      have hmin := h.minMatch
      omega
    · rw [if_neg hfits]
      have hback : distance ≤ text.length := by omega
      have hpos : 0 < distance := by omega
      have hcopy := copyMatch_written hpos hback
        (show text.length + (length + 4) ≤ capacity by omega)
      refine .inl ⟨distance, length + 4, rest,
        ⟨by rwa [Nat.add_sub_cancel], ?_, hpos, hfar, hback, by omega, by omega⟩, ?_⟩
      · rw [hdrop, matchBytes_eq, hlow, hhigh, Nat.add_sub_cancel, hrest]
        rfl
      rw [bind_ok hcopy, matchBytes_eq, Nat.add_sub_cancel, length_cons, length_cons,
        length_appendMatch hpos _ _ hback]
      congr 2
      omega
  · rw [hread]
    refine .inr ⟨rfl, fun other matchLength rest h => ?_⟩
    obtain ⟨-, hrest⟩ := hbehind h
    have hlarge := hnone _ _ h.nibble_eq hrest
    have hfits := h.fits
    omega

end

end Raz.Lz4.Tracked
