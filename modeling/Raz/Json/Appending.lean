import Raz.Core.Utf8Scalars
import Raz.Json.Model
import Raz.Path.Buf

/-!
# Strings that are written

Translation of what `std::encoding::json` appends to a string: the digits of an escape, an escaped
string, and a code point. A call answers whether it is done; where it is not, what it has appended
so far stays.

Result: `appends_escaped`: an escaped string is written.
-/

namespace Raz.Json

open Memory Raz.Path Raz.Path.Storage List

/-- The answer of a call, the memory and the string. -/
abbrev Outcome := Bool × Bytes × Storage

/-- A call that leaves the string as it was where the answer is false. -/
def answer (memory : Bytes) (output : Storage) : Option (Bytes × Storage) → Outcome
  | none => (false, memory, output)
  | some (memory, output) => (true, memory, output)

/-- The `&&` of two calls. -/
def andThen (first : Outcome) (second : Bytes → Storage → Outcome) : Outcome :=
  if first.1 then second first.2.1 first.2.2 else first

def pushBytes (allocator : Allocator) : List UInt8 → Bytes → Storage → Outcome
  | [], memory, output => (true, memory, output)
  | byte :: bytes, memory, output =>
      andThen (answer memory output (pushByte allocator memory output byte))
        (pushBytes allocator bytes)

/-- The bytes at `data` from `run` to the index, if there are any. -/
def appendRun (allocator : Allocator) (data run index : Nat) (memory : Bytes) (output : Storage) :
    Outcome :=
  if index > run then
    answer memory output (appendBytes allocator memory output (data + run) (index - run))
  else (true, memory, output)

def hexDigit (nibble : Nat) : UInt8 :=
  if nibble ≥ 10 then UInt8.ofNat (97 + nibble - 10) else UInt8.ofNat (48 + nibble)

def hex4 (value : Nat) : List UInt8 :=
  [hexDigit (value >>> 12 &&& 15), hexDigit (value >>> 8 &&& 15), hexDigit (value >>> 4 &&& 15),
    hexDigit (value &&& 15)]

def appendHex4 (allocator : Allocator) (value : Nat) : Bytes → Storage → Outcome :=
  pushBytes allocator (hex4 value)

/-- The branches of the loop of `append_escaped_string` for a byte at `source` that is escaped. -/
def appendEscape (allocator : Allocator) (source : Nat) (byte : UInt8) (memory : Bytes)
    (output : Storage) : Outcome :=
  if byte = 34 ∨ byte = 92 then pushBytes allocator [92, byte] memory output
  else if byte = 8 then
    andThen (answer memory output (appendBytes allocator memory output source 0))
      (pushBytes allocator [92, 98])
  else if byte = 9 then pushBytes allocator [92, 116] memory output
  else if byte = 10 then pushBytes allocator [92, 110] memory output
  else if byte = 12 then pushBytes allocator [92, 102] memory output
  else if byte = 13 then pushBytes allocator [92, 114] memory output
  else
    andThen (pushBytes allocator [92, 117] memory output) (appendHex4 allocator byte.toNat)

/-- A byte that is escaped. -/
def isEscaped (byte : UInt8) : Bool := byte = 34 || byte = 92 || byte < 32

/-- The loop of `append_escaped_string` with the last run behind it. -/
def escapeLoop (allocator : Allocator) (data length : Nat) :
    Nat → Nat → Nat → Bytes → Storage → Outcome
  | 0, index, run, memory, output => appendRun allocator data run index memory output
  | rounds + 1, index, run, memory, output =>
      if index ≥ length then appendRun allocator data run index memory output
      else
        let byte := memory (data + index)
        if isEscaped byte = false then
          escapeLoop allocator data length rounds (index + 1) run memory output
        else
          andThen (appendRun allocator data run index memory output) fun memory output =>
            andThen (appendEscape allocator (data + index) byte memory output)
              (escapeLoop allocator data length rounds (index + 1) (index + 1))

def appendEscapedString (allocator : Allocator) (memory : Bytes) (output : Storage)
    (data length : Nat) : Outcome :=
  if length > 0 ∧ data = 0 then (false, memory, output)
  else
    andThen (answer memory output (pushByte allocator memory output 34)) fun memory output =>
      andThen (escapeLoop allocator data length length 0 0 memory output)
        (pushBytes allocator [34])

def appendUtf8Codepoint (allocator : Allocator) (codepoint : Nat) (memory : Bytes)
    (output : Storage) : Outcome :=
  if codepoint > 1114111 ∨ codepoint ≥ 55296 ∧ codepoint ≤ 57343 then (false, memory, output)
  else if codepoint ≤ 127 then pushBytes allocator [UInt8.ofNat codepoint] memory output
  else if codepoint ≤ 2047 then
    pushBytes allocator
      [UInt8.ofNat (192 ||| codepoint >>> 6), UInt8.ofNat (128 ||| codepoint &&& 63)] memory output
  else if codepoint ≤ 65535 then
    pushBytes allocator
      [UInt8.ofNat (224 ||| codepoint >>> 12), UInt8.ofNat (128 ||| codepoint >>> 6 &&& 63),
        UInt8.ofNat (128 ||| codepoint &&& 63)] memory output
  else
    pushBytes allocator
      [UInt8.ofNat (240 ||| codepoint >>> 18), UInt8.ofNat (128 ||| codepoint >>> 12 &&& 63),
        UInt8.ofNat (128 ||| codepoint >>> 6 &&& 63), UInt8.ofNat (128 ||| codepoint &&& 63)]
      memory output

/-! ## What a call does -/

/-- There is room for a length, or every block is granted. -/
def HasRoom (grants : Nat → Bool) (capacity length : Nat) : Prop :=
  length ≤ capacity ∨ (∀ size, grants size = true) ∧ length < 9223372036854775807

/-- Whatever the answer is, the text is still there with bytes behind it, and no room is lost. -/
structure Grown (output : Storage) (text : List UInt8) (source : Nat) (part : List UInt8)
    (outcome : Outcome) : Prop where
  ready : ∃ written, Ready outcome.2.1 outcome.2.2 (text ++ written) source part
  limit : outcome.2.2.capacity ≤ 9223372036854775807
  room : output.capacity ≤ outcome.2.2.capacity

/-- The bytes are appended where the answer is true, and it is true where there is room. -/
structure Appends (grants : Nat → Bool) (output : Storage) (text : List UInt8) (source : Nat)
    (part bytes : List UInt8) (outcome : Outcome) : Prop where
  grown : Grown output text source part outcome
  written : outcome.1 = true → Ready outcome.2.1 outcome.2.2 (text ++ bytes) source part
  done : HasRoom grants output.capacity (text.length + bytes.length) → outcome.1 = true

section

variable {allocator : Allocator} {grants : Nat → Bool} {memory : Bytes} {output : Storage}
  {text part bytes bytes' : List UInt8} {source : Nat} {outcome : Outcome}

theorem HasRoom.le {capacity capacity' length length' : Nat} (h : HasRoom grants capacity length)
    (hcap : capacity ≤ capacity') (hlen : length' ≤ length) :
    HasRoom grants capacity' length' := by
  obtain hroom | ⟨hgrants, hlimit⟩ := h
  · exact .inl (Nat.le_trans hlen (Nat.le_trans hroom hcap))
  · exact .inr ⟨hgrants, Nat.lt_of_le_of_lt hlen hlimit⟩

theorem HasRoom.grows {capacity length : Nat} (h : HasRoom grants capacity length) :
    Path.grows grants capacity length = true := by
  obtain hroom | ⟨hgrants, hlimit⟩ := h
  · unfold Path.grows
    rw [decide_eq_true hroom]
    rfl
  · exact grows_of_grants hgrants hlimit

theorem Grown.refl (h : Ready memory output text source part)
    (hlimit : output.capacity ≤ 9223372036854775807) (done : Bool) :
    Grown output text source part (done, memory, output) :=
  ⟨⟨[], by rwa [append_nil]⟩, hlimit, le_rfl⟩

theorem Appends.refl (h : Ready memory output text source part)
    (hlimit : output.capacity ≤ 9223372036854775807) :
    Appends grants output text source part [] (true, memory, output) :=
  ⟨Grown.refl h hlimit true, fun _ => by rwa [append_nil], fun _ => rfl⟩

section

variable (h : Appends grants output text source part bytes outcome)

include h

theorem Appends.grown_andThen {second : Bytes → Storage → Outcome}
    (hsecond : outcome.1 = true →
      Grown outcome.2.2 (text ++ bytes) source part (second outcome.2.1 outcome.2.2)) :
    Grown output text source part (andThen outcome second) := by
  unfold andThen
  split
  · rename_i hdone
    obtain ⟨⟨written, hready⟩, hlimit, hroom⟩ := hsecond hdone
    refine ⟨⟨bytes ++ written, ?_⟩, hlimit, Nat.le_trans h.grown.room hroom⟩
    rwa [← append_assoc]
  · exact h.grown

/-- **One call behind the other.** -/
theorem Appends.andThen {second : Bytes → Storage → Outcome}
    (hsecond : outcome.1 = true → Appends grants outcome.2.2 (text ++ bytes) source part bytes'
      (second outcome.2.1 outcome.2.2)) :
    Appends grants output text source part (bytes ++ bytes') (Json.andThen outcome second) := by
  refine ⟨h.grown_andThen fun hdone => (hsecond hdone).grown, fun hdone => ?_, fun hroom => ?_⟩
  · unfold Json.andThen at hdone ⊢
    split at hdone <;> rename_i hfirst
    · rw [if_pos hfirst, ← append_assoc]
      exact (hsecond hfirst).written hdone
    · exact absurd hdone hfirst
  · rw [length_append, ← Nat.add_assoc] at hroom
    have hfirst := h.done (hroom.le le_rfl (Nat.le_add_right _ _))
    unfold Json.andThen
    rw [if_pos hfirst]
    refine (hsecond hfirst).done (hroom.le h.grown.room ?_)
    rw [length_append]

end

theorem appends_pushByte (h : Ready memory output text source part)
    (hallocator : Reallocates allocator grants source part.length)
    (hlimit : output.capacity ≤ 9223372036854775807) (byte : UInt8) :
    Appends grants output text source part [byte]
      (answer memory output (pushByte allocator memory output byte)) := by
  obtain ⟨hgrows, hnone⟩ | ⟨hgrows, memory', output', hsome, hready, hcap⟩ :=
    h.pushByte hallocator hlimit byte
  · rw [hnone]
    exact ⟨Grown.refl h hlimit false, nofun,
      fun hroom => absurd (hgrows.symm.trans hroom.grows) nofun⟩
  rw [hsome]
  refine ⟨⟨⟨[byte], hready⟩, ?_, ?_⟩, fun _ => hready, fun _ => rfl⟩
  · exact hcap ▸ growthCapacity_le hlimit hgrows
  · exact hcap ▸ (le_growthCapacity _ _).2

theorem appends_pushBytes (hallocator : Reallocates allocator grants source part.length)
    (bytes : List UInt8) : ∀ {memory : Bytes} {output : Storage} {text : List UInt8},
      Ready memory output text source part → output.capacity ≤ 9223372036854775807 →
      Appends grants output text source part bytes (pushBytes allocator bytes memory output) := by
  induction bytes with
  | nil => exact fun h hlimit => Appends.refl h hlimit
  | cons byte bytes ih =>
    intro memory output text h hlimit
    have hfirst := appends_pushByte h hallocator hlimit byte
    exact hfirst.andThen fun hdone => ih (hfirst.written hdone) hfirst.grown.limit

/-- A run between the bytes in front of it and those behind it. -/
theorem appends_run {front middle back : List UInt8}
    (h : Ready memory output text source (front ++ middle ++ back))
    (hallocator : Reallocates allocator grants source (front ++ middle ++ back).length)
    (hlimit : output.capacity ≤ 9223372036854775807) (hsrc : source ≠ 0) {data run index : Nat}
    (hrun : data + run = source + front.length) (hidx : index = run + middle.length) :
    Appends grants output text source (front ++ middle ++ back) middle
      (appendRun allocator data run index memory output) := by
  subst hidx
  unfold appendRun
  rw [Nat.add_sub_cancel_left, hrun]
  by_cases hempty : middle = []
  · subst hempty
    rw [if_neg (show ¬ run + ([] : List UInt8).length > run from Nat.lt_irrefl _)]
    exact Appends.refl h hlimit
  rw [if_pos (Nat.lt_add_of_pos_right (length_pos_iff.mpr hempty))]
  obtain ⟨hgrows, hnone⟩ | ⟨hgrows, memory', output', hsome, hready, hcap⟩ :=
    h.appendPart hallocator hlimit hempty hsrc
  · rw [hnone]
    exact ⟨Grown.refl h hlimit false, nofun,
      fun hroom => absurd (hgrows.symm.trans hroom.grows) nofun⟩
  rw [hsome]
  refine ⟨⟨⟨middle, hready⟩, ?_, ?_⟩, fun _ => hready, fun _ => rfl⟩
  · exact hcap ▸ growthCapacity_le hlimit hgrows
  · exact hcap ▸ (le_growthCapacity _ _).2

/-! ## Escapes -/

/-- The escape of a byte. -/
def escapeOf (byte : UInt8) : List UInt8 :=
  if byte = 34 ∨ byte = 92 then [92, byte]
  else if byte = 8 then [92, 98]
  else if byte = 9 then [92, 116]
  else if byte = 10 then [92, 110]
  else if byte = 12 then [92, 102]
  else if byte = 13 then [92, 114]
  else [92, 117] ++ hex4 byte.toNat

/-- Every byte that is escaped by its escape. -/
def escaped (bytes : List UInt8) : List UInt8 :=
  bytes.flatMap fun byte => if isEscaped byte then escapeOf byte else [byte]

/-- The text of an escaped string, with its quotes. -/
def quoted (bytes : List UInt8) : List UInt8 := [34] ++ (escaped bytes ++ [34])

theorem appends_escape (h : Ready memory output text source part)
    (hallocator : Reallocates allocator grants source part.length)
    (hlimit : output.capacity ≤ 9223372036854775807) (data : Nat) (byte : UInt8) :
    Appends grants output text source part (escapeOf byte)
      (appendEscape allocator data byte memory output) := by
  have hpush (bytes : List UInt8) := appends_pushBytes hallocator bytes h hlimit
  unfold appendEscape escapeOf
  split
  · exact hpush _
  split
  · exact hpush _
  split
  · exact hpush _
  split
  · exact hpush _
  split
  · exact hpush _
  split
  · exact hpush _
  · have hfirst := hpush [92, 117]
    exact hfirst.andThen fun hdone =>
      appends_pushBytes hallocator _ (hfirst.written hdone) hfirst.grown.limit

/-- The loop from an index on: the run in front of it, and what the rest is escaped to. -/
theorem appends_escapeLoop (hsrc : source ≠ 0) (rounds : Nat) :
    ∀ {front plain rest : List UInt8} {memory : Bytes} {output : Storage} {text : List UInt8},
      Ready memory output text source (front ++ plain ++ rest) →
      Reallocates allocator grants source (front ++ plain ++ rest).length →
      output.capacity ≤ 9223372036854775807 → rest.length ≤ rounds →
      Appends grants output text source (front ++ plain ++ rest) (plain ++ escaped rest)
        (escapeLoop allocator source (front ++ plain ++ rest).length rounds
          (front.length + plain.length) front.length memory output) := by
  induction rounds with
  | zero =>
    intro front plain rest memory output text h hallocator hlimit hrounds
    obtain rfl := eq_nil_of_length_eq_zero (Nat.le_zero.mp hrounds)
    have hbytes : plain ++ escaped [] = plain := append_nil plain
    rw [hbytes]
    exact appends_run h hallocator hlimit hsrc rfl rfl
  | succ rounds ih =>
    intro front plain rest memory output text h hallocator hlimit hrounds
    rw [escapeLoop]
    cases rest with
    | nil =>
      rw [if_pos (by simp)]
      have hbytes : plain ++ escaped [] = plain := append_nil plain
      rw [hbytes]
      exact appends_run h hallocator hlimit hsrc rfl rfl
    | cons byte rest =>
      have hbyte : memory (source + (front.length + plain.length)) = byte := by
        rw [← length_append]
        exact h.beside.at_append
      rw [if_neg (by simp), hbyte]
      have hrest : rest.length ≤ rounds := Nat.le_of_succ_le_succ hrounds
      by_cases hescaped : isEscaped byte = false
      · -- the run goes on
        have hsplit : front ++ plain ++ byte :: rest = front ++ (plain ++ [byte]) ++ rest := by
          simp
        have hbytes : plain ++ escaped (byte :: rest) = plain ++ [byte] ++ escaped rest := by
          unfold escaped
          rw [flatMap_cons, hescaped, append_assoc]
          rfl
        have hidx : front.length + plain.length + 1 =
            front.length + (plain ++ [byte]).length := by
          rw [length_append, Nat.add_assoc]
          rfl
        rw [if_pos hescaped, hbytes, hidx]
        rw [hsplit] at h hallocator ⊢
        exact ih h hallocator hlimit hrest
      · have hsplit : front ++ plain ++ byte :: rest = front ++ plain ++ [byte] ++ [] ++ rest := by
          simp
        have hbytes : escaped (byte :: rest) = escapeOf byte ++ ([] ++ escaped rest) := by
          unfold escaped
          rw [flatMap_cons, Bool.of_not_eq_false hescaped]
          rfl
        have hidx : front.length + plain.length + 1 = (front ++ plain ++ [byte]).length := by
          rw [length_append, length_append]
          rfl
        rw [if_neg hescaped, hbytes]
        have hrun := appends_run h hallocator hlimit hsrc
          (@rfl _ (source + front.length)) (@rfl _ (front.length + plain.length))
        refine hrun.andThen fun hdone => ?_
        have hescape := appends_escape (hrun.written hdone) hallocator hrun.grown.limit
          (source + (front.length + plain.length)) byte
        refine hescape.andThen fun hdone' => ?_
        have hready := hescape.written hdone'
        rw [hidx]
        rw [hsplit] at hready hallocator ⊢
        exact ih hready hallocator hescape.grown.limit hrest

section

variable (h : Ready memory output text source part)
  (hallocator : Reallocates allocator grants source part.length)
  (hlimit : output.capacity ≤ 9223372036854775807)

include h hallocator hlimit

/-- **An escaped string is written.** -/
theorem appends_escaped (hsrc : part = [] ∨ source ≠ 0) :
    Appends grants output text source part (quoted part)
      (appendEscapedString allocator memory output source part.length) := by
  have hopen := appends_pushByte h hallocator hlimit 34
  have hclose {memory : Bytes} {output : Storage} {text : List UInt8}
      (h : Ready memory output text source part) (hlimit : output.capacity ≤ 9223372036854775807) :
      Appends grants output text source part [34] (pushBytes allocator [34] memory output) :=
    appends_pushBytes hallocator [34] h hlimit
  unfold appendEscapedString
  rw [if_neg]
  · refine hopen.andThen fun hdone => ?_
    have hready := hopen.written hdone
    have hlimit' := hopen.grown.limit
    obtain rfl | hsrc := hsrc
    · have hnothing : Appends grants _ (text ++ [34]) source [] [] _ := Appends.refl hready hlimit'
      exact hnothing.andThen fun _ => hclose (hnothing.written rfl) hlimit'
    · have hloop := @appends_escapeLoop allocator grants source hsrc part.length [] [] part _ _ _
        hready hallocator hlimit' le_rfl
      exact hloop.andThen fun hdone' => hclose (hloop.written hdone') hloop.grown.limit
  · rintro ⟨hpos, hzero⟩
    obtain rfl | hne := hsrc
    · exact Nat.lt_irrefl _ hpos
    · exact hne hzero

theorem appends_codepoint {codepoint : Nat} (hvalid : Core.Utf8.scalarValid codepoint = true) :
    Appends grants output text source part (Core.Utf8.encoding codepoint)
      (appendUtf8Codepoint allocator codepoint memory output) := by
  have hpush (bytes : List UInt8) := appends_pushBytes hallocator bytes h hlimit
  obtain ⟨c, hc⟩ := Core.Utf8.scalarValid_iff.mp hvalid
  have hrange : c.val.toNat < 55296 ∨ 57343 < c.val.toNat ∧ c.val.toNat < 1114112 := c.valid
  have hcodepoint : ¬ (codepoint > 1114111 ∨ codepoint ≥ 55296 ∧ codepoint ≤ 57343) := by omega
  have hscalar : ¬ Core.Utf8.scalarValid codepoint = false := by
    rw [hvalid]
    nofun
  unfold appendUtf8Codepoint Core.Utf8.encoding Core.Utf8.scalarWidth
  rw [if_neg hcodepoint, if_neg hscalar, Int.toNat_natCast]
  by_cases hone : codepoint ≤ 127
  · rw [if_pos hone, if_pos (show (codepoint : Int) ≤ 127 by omega), if_pos rfl]
    exact hpush _
  rw [if_neg hone, if_neg (show ¬ (codepoint : Int) ≤ 127 by omega)]
  by_cases htwo : codepoint ≤ 2047
  · rw [if_pos htwo, if_pos (show (codepoint : Int) ≤ 2047 by omega), if_neg (by decide),
      if_pos rfl]
    exact hpush _
  rw [if_neg htwo, if_neg (show ¬ (codepoint : Int) ≤ 2047 by omega)]
  by_cases hthree : codepoint ≤ 65535
  · rw [if_pos hthree, if_pos (show (codepoint : Int) ≤ 65535 by omega), if_neg (by decide),
      if_neg (by decide), if_pos rfl]
    exact hpush _
  · rw [if_neg hthree, if_neg (show ¬ (codepoint : Int) ≤ 65535 by omega), if_neg (by decide),
      if_neg (by decide), if_neg (by decide)]
    exact hpush _

end

end

end Raz.Json
