import Raz.Net.Resolve

/-!
# The textual forms of IPv6 addresses

Eight groups of one to four hexadecimal digits between colons, or fewer with two colons for the
groups of zeros that are left out; a dotted address may stand in place of the last two groups, and a
scope behind a percent sign.

Result: `Body.length`, `Body.lt`: a form denotes eight groups of 16 bits.
-/

namespace Raz.Net

open Numerals List

/-- One to four hexadecimal digits. -/
structure IsHexGroup (text : List UInt8) : Prop where
  nonempty : 1 ≤ text.length
  short : text.length ≤ 4
  digits : ∀ byte ∈ text, (hexValue byte).isSome

def hexadecimal (text : List UInt8) : Nat :=
  number 16 (text.map fun byte => (hexValue byte).getD 0)

/-- Groups between single colons; a dotted address may be the last of them if `dots` says so. -/
inductive Spells (dots : Bool) : List UInt8 → List Nat → Prop
  | last {text : List UInt8} : IsHexGroup text → Spells dots text [hexadecimal text]
  | dotted {text : List UInt8} {value : Nat} : dots = true → Dotted text value →
      Spells dots text (digitsOf 65536 2 value)
  | next {text rest : List UInt8} {groups : List Nat} : IsHexGroup text → Spells dots rest groups →
      Spells dots (text ++ 58 :: rest) (hexadecimal text :: groups)

/-- What stands on one side of the two colons. -/
def Side (dots : Bool) (text : List UInt8) (groups : List Nat) : Prop :=
  (text = [] ∧ groups = []) ∨ Spells dots text groups

/-- A text without a scope, and the eight groups that it denotes. -/
inductive Body : List UInt8 → List Nat → Prop
  | full {text : List UInt8} {groups : List Nat} : Spells true text groups → groups.length = 8 →
      Body text groups
  | compressed {left right : List UInt8} {before after : List Nat} : Side false left before →
      Side true right after → before.length + after.length < 8 →
      Body (left ++ 58 :: 58 :: right)
        (before ++ List.replicate (8 - (before.length + after.length)) 0 ++ after)

/-- The text before a scope, and the scope. -/
inductive Scoped : List UInt8 → List UInt8 → Nat → Prop
  | without {text : List UInt8} : Scoped text text 0
  | behind {body digits : List UInt8} : digits ≠ [] → (∀ byte ∈ digits, asciiDigit byte) →
      Scoped (body ++ 37 :: digits) body (decimal digits)

/-- The text is a form of the address. -/
def Denotes (text : List UInt8) (address : IpAddress) : Prop :=
  ∃ body scope groups, Scoped text body scope ∧ Body body groups ∧ address.family = 6 ∧
    address.scopeId = scope ∧
    address.high.toNat * 2 ^ 64 + address.low.toNat = number 65536 groups

/-- A colon behind a group stands before a dot. -/
def GroupBeforeDots (text : List UInt8) : Prop :=
  ∃ front digit back, digit ≠ 58 ∧ text = front ++ digit :: 58 :: back ∧ 46 ∈ back

/-! ## Bytes -/

theorem hexValue_lt {byte : UInt8} {digit : Nat} (h : hexValue byte = some digit) : digit < 16 := by
  have hall : ∀ byte < 256, (hexValue (UInt8.ofNat byte)).getD 0 < 16 := by decide +kernel
  have hbyte := hall byte.toNat byte.toNat_lt
  rwa [UInt8.ofNat_toNat, h] at hbyte

section

variable {text : List UInt8} (h : IsHexGroup text)

include h

theorem hexadecimal_lt : hexadecimal text < 65536 := by
  have hdigs : ∀ digit ∈ text.map fun byte => (hexValue byte).getD 0, digit < 16 := by
    intro digit hdigit
    obtain ⟨byte, hbyte, rfl⟩ := mem_map.mp hdigit
    obtain ⟨value, hval⟩ := Option.isSome_iff_exists.mp (h.digits byte hbyte)
    rw [hval]
    exact hexValue_lt hval
  refine Nat.lt_of_lt_of_le (number_lt (by decide) hdigs) ?_
  rw [length_map]
  exact Nat.pow_le_pow_right (by decide) h.short

theorem IsHexGroup.no_colon : 58 ∉ text := fun hcolon =>
  absurd (h.digits 58 hcolon) (by decide)

theorem IsHexGroup.no_dot : 46 ∉ text := fun hdot =>
  absurd (h.digits 46 hdot) (by decide)

theorem IsHexGroup.no_percent : 37 ∉ text :=
  fun hpercent => absurd (h.digits 37 hpercent) (by decide)

end

section

variable {text : List UInt8} {value : Nat} (h : Dotted text value)

include h

theorem Dotted.bytes : ∀ byte ∈ text, asciiDigit byte ∨ byte = 46 := by
  obtain ⟨octets, -, hoctets, rfl, -⟩ := h
  intro byte hbyte
  induction octets with
  | nil => nomatch hbyte
  | cons octet octets ih =>
    obtain ⟨hoctet, hrest⟩ := forall_mem_cons.mp hoctets
    cases octets with
    | nil =>
      rw [intercalate_singleton] at hbyte
      exact .inl (hoctet.digits byte hbyte)
    | cons next octets =>
      rw [intercalate_cons_cons] at hbyte
      obtain hbyte | hbyte := mem_append.mp hbyte
      · obtain hbyte | hbyte := mem_append.mp hbyte
        · exact .inl (hoctet.digits byte hbyte)
        · exact .inr (mem_singleton.mp hbyte)
      · exact ih hrest hbyte

theorem Dotted.no_colon : 58 ∉ text :=
  fun hcolon => absurd (h.bytes 58 hcolon) (by decide)

theorem Dotted.dot_mem : 46 ∈ text := by
  obtain ⟨octets, hcount, -, rfl, -⟩ := h
  match octets, hcount with
  | [first, second, third, fourth], _ =>
    rw [intercalate_cons_cons]
    exact mem_append_left _ (mem_append_right _ (mem_singleton_self _))

theorem Dotted.no_percent :
    37 ∉ text := fun hpercent => absurd (h.bytes 37 hpercent) (by decide)

end

/-! ## Groups between colons -/

section

variable {dots : Bool} {text : List UInt8} {groups : List Nat}

theorem Spells.head (h : Spells dots text groups) :
    ∃ byte rest, text = byte :: rest ∧ byte ≠ 58 := by
  have hgroup {text : List UInt8} (h : IsHexGroup text) (rest : List UInt8) :
      ∃ byte others, text ++ rest = byte :: others ∧ byte ≠ 58 := by
    obtain ⟨byte, others, rfl⟩ := exists_cons_of_length_pos h.nonempty
    exact ⟨byte, others ++ rest, rfl, fun hbyte => h.no_colon (hbyte ▸ mem_cons_self)⟩
  cases h with
  | last h =>
    obtain ⟨byte, others, heq, hne⟩ := hgroup h []
    exact ⟨byte, others, by rw [← heq, append_nil], hne⟩
  | dotted _ h =>
    obtain ⟨byte, others, rfl⟩ := exists_cons_of_ne_nil (ne_nil_of_mem h.dot_mem)
    exact ⟨byte, others, rfl, fun hbyte => h.no_colon (hbyte ▸ mem_cons_self)⟩
  | next h _ => exact hgroup h _

theorem Spells.last_byte (h : Spells false text groups) :
    ∃ front byte, text = front ++ [byte] ∧ byte ≠ 58 := by
  induction h with
  | @last text h =>
    have hne := ne_nil_of_length_pos h.nonempty
    refine ⟨text.dropLast, text.getLast hne, (dropLast_concat_getLast hne).symm, ?_⟩
    exact fun heq => h.no_colon (heq ▸ getLast_mem hne)
  | dotted hdots _ => nomatch hdots
  | @next text rest groups _ _ ih =>
    obtain ⟨front, byte, rfl, hbyte⟩ := ih
    exact ⟨text ++ 58 :: front, byte, by rw [append_assoc]; rfl, hbyte⟩

theorem Spells.lt (h : Spells dots text groups) : ∀ group ∈ groups, group < 65536 := by
  induction h with
  | last h => exact forall_mem_singleton.mpr (hexadecimal_lt h)
  | dotted _ _ => exact digitsOf_lt (by decide) 2 _
  | next h _ ih => exact forall_mem_cons.mpr ⟨hexadecimal_lt h, ih⟩

theorem Spells.no_percent (h : Spells dots text groups) : 37 ∉ text := by
  induction h with
  | last h => exact h.no_percent
  | dotted _ h => exact h.no_percent
  | next h _ ih =>
    intro hmem
    obtain hmem | hmem := mem_append.mp hmem
    · exact h.no_percent hmem
    · exact ih (mem_of_ne_of_mem (by decide) hmem)

theorem Spells.no_dot (h : Spells false text groups) : 46 ∉ text := by
  induction h with
  | last h => exact h.no_dot
  | dotted hdots _ => nomatch hdots
  | next h _ ih =>
    intro hmem
    obtain hmem | hmem := mem_append.mp hmem
    · exact h.no_dot hmem
    · exact ih (mem_of_ne_of_mem (by decide) hmem)

theorem GroupBeforeDots.append_left (front : List UInt8) (h : GroupBeforeDots text) :
    GroupBeforeDots (front ++ text) := by
  obtain ⟨before, digit, back, hdigit, rfl, hdot⟩ := h
  exact ⟨front ++ before, digit, back, hdigit, (append_assoc _ _ _).symm, hdot⟩

theorem GroupBeforeDots.append_right (h : GroupBeforeDots text) (back : List UInt8) :
    GroupBeforeDots (text ++ back) := by
  obtain ⟨front, digit, rest, hdigit, rfl, hdot⟩ := h
  exact ⟨front, digit, rest ++ back, hdigit, append_assoc _ _ _, mem_append_left _ hdot⟩

theorem Spells.groupBeforeDots {rest : List UInt8} (h : Spells false text groups)
    (hdot : 46 ∈ rest) : GroupBeforeDots (text ++ 58 :: rest) := by
  obtain ⟨front, byte, rfl, hbyte⟩ := h.last_byte
  exact ⟨front, byte, rest, hbyte, append_assoc _ _ _, hdot⟩

/-- **Where a dotted address stands**: nowhere, alone, or behind a group. -/
theorem Spells.cases (h : Spells dots text groups) : Spells false text groups ∨
    (∃ value, Dotted text value ∧ groups = digitsOf 65536 2 value) ∨ GroupBeforeDots text := by
  induction h with
  | last h => exact .inl (.last h)
  | dotted _ h => exact .inr (.inl ⟨_, h, rfl⟩)
  | @next text rest groups h _ ih =>
    obtain hrest | ⟨value, hrest, -⟩ | hrest := ih
    · exact .inl (.next h hrest)
    · exact .inr (.inr (Spells.groupBeforeDots (.last h) hrest.dot_mem))
    · exact .inr (.inr ((hrest.append_left [58]).append_left text))

/-! ## Forms -/

theorem Side.lt (h : Side dots text groups) : ∀ group ∈ groups, group < 65536 := by
  obtain ⟨-, rfl⟩ | h := h
  · exact forall_mem_nil _
  · exact h.lt

theorem Side.no_percent (h : Side dots text groups) : 37 ∉ text := by
  obtain ⟨rfl, -⟩ | h := h
  · exact not_mem_nil
  · exact h.no_percent

theorem Body.length (h : Body text groups) : groups.length = 8 := by
  cases h with
  | full _ hlen => exact hlen
  | compressed _ _ hlt =>
    rw [length_append, length_append, length_replicate]
    omega

theorem Body.lt (h : Body text groups) : ∀ group ∈ groups, group < 65536 := by
  cases h with
  | full h _ => exact h.lt
  | compressed hleft hright _ =>
    refine forall_mem_append.mpr ⟨forall_mem_append.mpr ⟨hleft.lt, ?_⟩, hright.lt⟩
    exact fun group hgroup => by rw [eq_of_mem_replicate hgroup]; decide

theorem Body.no_percent (h : Body text groups) : 37 ∉ text := by
  cases h with
  | full h _ => exact h.no_percent
  | compressed hleft hright _ =>
    intro hmem
    obtain hmem | hmem := mem_append.mp hmem
    · exact hleft.no_percent hmem
    · have hback := mem_of_ne_of_mem (by decide) hmem
      exact hright.no_percent (mem_of_ne_of_mem (by decide) hback)

end

end Raz.Net
