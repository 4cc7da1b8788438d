import Raz.Net.Ipv6Accepted
import Raz.Net.Ipv6Writing

/-!
# The round trip of addresses

The text that is written for an address is one of its forms, and is read back as the address, unless
its first longest run of zeros comes first.

Result: `roundTrips_iff`: when the round trip is right.
-/

namespace Raz.Net

open Access Numerals LongestRun List

variable {scope length : Nat} {suffix text back : List UInt8} {byte : UInt8} {groups : List Nat}

/-! ## Scopes -/

/-- What stands behind the groups. -/
inductive Suffix : Nat → List UInt8 → Prop
  | none : Suffix 0 []
  | scope {digits : List UInt8} : digits ≠ [] → (∀ byte ∈ digits, asciiDigit byte) →
      digits.length ≤ 10 → Suffix (decimal digits) (37 :: digits)

section

variable (h : Suffix scope suffix)

include h

theorem Suffix.scoped (body : List UInt8) :
    Scoped (body ++ suffix) body scope := by
  cases h with
  | none =>
    rw [append_nil]
    exact .without
  | scope hne hdigs _ => exact .behind hne hdigs

theorem Suffix.free (hdigit : ¬ asciiDigit byte) (hpercent : byte ≠ 37) :
    byte ∉ suffix := by
  cases h with
  | none => exact not_mem_nil
  | scope _ hdigs _ => exact fun hmem => hdigit (hdigs byte (mem_of_ne_of_mem hpercent hmem))

theorem Suffix.length_le : suffix.length ≤ 11 := by
  cases h with
  | none => exact Nat.zero_le _
  | scope _ _ hle => exact Nat.succ_le_succ hle

end

theorem toString_eq {address : IpAddress} (hfamily : address.family = 6)
    (hlow : 0 ≤ address.scopeId) (hhigh : address.scopeId ≤ 2147483647) :
    ∃ suffix, toString address = bodyText address ++ suffix ∧
      Suffix address.scopeId.toNat suffix := by
  have hsix : ¬ address.family = 4 := by
    rw [hfamily]
    decide
  have htext : toString address = if address.scopeId > 0 then
      appendDecimal (bodyText address ++ [37]) address.scopeId.toNat else bodyText address := by
    unfold toString
    rw [if_neg hsix, if_pos hfamily]
    rfl
  by_cases hscope : address.scopeId > 0
  · rw [if_pos hscope] at htext
    have hpos : 0 < address.scopeId.toNat := by omega
    obtain ⟨digits, happend, hne, hdigs, hval, hlen⟩ :=
      appendDecimal_eq hpos (bodyText address ++ [37])
    refine ⟨37 :: digits, ?_, ?_⟩
    · rw [htext, happend, append_assoc]
      rfl
    · rw [← hval]
      have hten : address.scopeId.toNat < 10 ^ 10 := by omega
      exact .scope hne hdigs (hlen 10 hten)
  · have hzero : address.scopeId.toNat = 0 := by omega
    rw [if_neg hscope] at htext
    refine ⟨[], by rw [htext, append_nil], ?_⟩
    rw [hzero]
    exact .none

/-! ## The groups that are written -/

theorem joined_spells (hne : groups ≠ []) (hgroups : ∀ group ∈ groups, group < 65536) :
    Spells false (joined groups) groups := by
  induction groups with
  | nil => exact absurd rfl hne
  | cons group groups ih =>
    obtain ⟨hgroup, hrest⟩ := forall_mem_cons.mp hgroups
    have hval := hexadecimal_hexText hgroup
    unfold joined at ih ⊢
    cases groups with
    | nil =>
      rw [map_singleton, intercalate_singleton]
      have hlast := @Spells.last false _ (hexText_isHexGroup group)
      rwa [hval] at hlast
    | cons next groups =>
      have hnext := Spells.next (hexText_isHexGroup group) (ih (cons_ne_nil _ _) hrest)
      rw [map_cons] at hnext
      rw [map_cons, map_cons, intercalate_cons_cons, append_assoc]
      rwa [hval] at hnext

theorem Spells.weaken (h : Spells false text groups) : Spells true text groups := by
  induction h with
  | last h => exact .last h
  | dotted hdots _ => nomatch hdots
  | next h _ ih => exact .next h ih

theorem joined_side (hgroups : ∀ group ∈ groups, group < 65536) :
    Side false (joined groups) groups := by
  by_cases hempty : groups = []
  · subst hempty
    exact .inl ⟨rfl, rfl⟩
  · exact .inr (joined_spells hempty hgroups)

theorem Side.weaken (h : Side false text groups) :
    Side true text groups := h.imp_right Spells.weaken

theorem Side.no_dot (h : Side false text groups) : 46 ∉ text := by
  obtain ⟨rfl, -⟩ | h := h
  · exact not_mem_nil
  · exact h.no_dot

/-- Groups between colons, with two colons for the first longest run of at least two zeros. -/
inductive Compressed (groups : List Nat) : List UInt8 → Prop
  | whole : (∀ start length, ¬ FirstZeros groups start length) → Compressed groups (joined groups)
  | leftOut {left right : List Nat} {length : Nat} : FirstZeros groups left.length length →
      groups = left ++ List.replicate length 0 ++ right →
      Compressed groups (joined left ++ 58 :: 58 :: joined right)

theorem zeros_split {start : Nat} (h : FirstZeros groups start length) :
    ∃ left right, left.length = start ∧ groups = left ++ List.replicate length 0 ++ right := by
  obtain ⟨left, middle, right, hgroups, hleft, hmiddle, hzeros⟩ :=
    h.run.parts (Nat.lt_of_lt_of_le Nat.zero_lt_two h.least_le)
  refine ⟨left, right, hleft, ?_⟩
  rw [hgroups, eq_replicate_of_mem hzeros, hmiddle]

theorem leftOut_iff {address : IpAddress} {start : Nat} :
    FirstZeros (segments address) start length ↔ leftOut address = ⟨some start, length⟩ := by
  have hfound := leftOut_found address
  generalize leftOut address = best at hfound ⊢
  obtain ⟨place, size⟩ := best
  constructor
  · intro h
    cases place with
    | none => exact absurd (hfound.2 h.run) (Nat.not_lt.mpr h.least_le)
    | some place =>
      obtain ⟨rfl, rfl⟩ := h.unique hfound
      rfl
  · rintro ⟨⟩
    exact hfound

theorem leftOut_none {address : IpAddress} (h : (leftOut address).start = none) :
    ∀ start length, ¬ FirstZeros (segments address) start length := by
  intro start length hfirst
  rw [leftOut_iff.mp hfirst] at h
  nomatch h

theorem bodyText_run {address : IpAddress} {left right : List Nat}
    (h : FirstZeros (segments address) left.length length)
    (hsegments : segments address = left ++ List.replicate length 0 ++ right) :
    bodyText address =
      if left = [] then 58 :: joined right else joined left ++ 58 :: 58 :: joined right := by
  have hne : List.replicate length 0 ≠ [] := by
    refine ne_nil_of_length_pos ?_
    rw [length_replicate]
    exact Nat.lt_of_lt_of_le Nat.zero_lt_two h.least_le
  refine bodyText_some hsegments hne ?_
  rw [length_replicate]
  exact leftOut_iff.mp h

/-- **The text is compressed** if no run comes first. -/
theorem bodyText_compressed {address : IpAddress}
    (h : ∀ length, ¬ FirstZeros (segments address) 0 length) :
    Compressed (segments address) (bodyText address) := by
  cases hplace : (leftOut address).start with
  | none =>
    rw [bodyText_none hplace]
    exact .whole (leftOut_none hplace)
  | some start =>
    have hfirst : FirstZeros (segments address) start (leftOut address).length := by
      rw [leftOut_iff, ← hplace]
    obtain ⟨left, right, rfl, hsegments⟩ := zeros_split hfirst
    have hne : left ≠ [] := by
      rintro rfl
      exact h _ hfirst
    rw [bodyText_run hfirst hsegments, if_neg hne]
    exact .leftOut hfirst hsegments

theorem Compressed.body {address : IpAddress} (h : Compressed (segments address) text) :
    Body text (segments address) := by
  have hlt := segments_lt address
  have hlen := length_segments address
  cases h with
  | whole _ => exact .full (joined_spells (cons_ne_nil _ _) hlt).weaken hlen
  | @leftOut left right length hfirst hsegments =>
    have hpos := hfirst.least_le
    rw [hsegments] at hlt hlen ⊢
    obtain ⟨hfront, hright⟩ := forall_mem_append.mp hlt
    obtain ⟨hleft, -⟩ := forall_mem_append.mp hfront
    rw [length_append, length_append, length_replicate] at hlen
    have hzeros : length = 8 - (left.length + right.length) := by omega
    rw [hzeros]
    exact .compressed (joined_side hleft) (joined_side hright).weaken (by omega)

theorem Compressed.no_dot {address : IpAddress} (h : Compressed (segments address) text) :
    46 ∉ text := by
  have hlt := segments_lt address
  cases h with
  | whole _ => exact (joined_side hlt).no_dot
  | @leftOut left right length hfirst hsegments =>
    rw [hsegments] at hlt
    obtain ⟨hfront, hright⟩ := forall_mem_append.mp hlt
    obtain ⟨hleft, -⟩ := forall_mem_append.mp hfront
    intro hmem
    obtain hmem | hmem := mem_append.mp hmem
    · exact (joined_side hleft).no_dot hmem
    · exact (joined_side hright).no_dot
        (mem_of_ne_of_mem (by decide) (mem_of_ne_of_mem (by decide) hmem))

/-! ## Two colons -/

/-- Two colons stand at the position. -/
def ColonsAt (text : List UInt8) (position : Nat) : Prop :=
  text[position]? = some 58 ∧ text[position + 1]? = some 58

/-- There are no two colons. -/
def Single (text : List UInt8) : Prop := ∀ position, ¬ ColonsAt text position

theorem single_cons (hbyte : byte ≠ 58) (h : Single text) : Single (byte :: text) := by
  rintro position ⟨hfirst, hsecond⟩
  cases position with
  | zero => exact hbyte (Option.some.inj hfirst)
  | succ position => exact h position ⟨hfirst, hsecond⟩

theorem single_colon (hhead : text.head? ≠ some 58) (h : Single text) : Single (58 :: text) := by
  rintro position ⟨hfirst, hsecond⟩
  cases position with
  | zero =>
    rw [List.getElem?_cons_succ, ← List.head?_eq_getElem?] at hsecond
    exact hhead hsecond
  | succ position => exact h position ⟨hfirst, hsecond⟩

theorem single_append (hfree : 58 ∉ text) (h : Single back) : Single (text ++ back) := by
  induction text with
  | nil => exact h
  | cons byte text ih =>
    obtain ⟨hbyte, htext⟩ := not_or.mp (mem_cons.not.mp hfree)
    exact single_cons (Ne.symm hbyte) (ih htext)

theorem Single.tail (h : Single (byte :: text)) : Single text :=
  fun position hcolons => h (position + 1) hcolons

theorem Spells.single {dots : Bool} (h : Spells dots text groups) (hback : Single back) :
    Single (58 :: (text ++ back)) := by
  have hhead {text : List UInt8} (h : Spells dots text groups) :
      (text ++ back).head? ≠ some 58 := by
    obtain ⟨byte, rest, rfl, hbyte⟩ := h.head
    exact fun heq => hbyte (Option.some.inj heq)
  refine single_colon (hhead h) ?_
  clear hhead
  induction h with
  | last h => exact single_append h.no_colon hback
  | dotted _ h => exact single_append h.no_colon hback
  | @next text rest groups h hrest ih =>
    rw [append_assoc]
    refine single_append h.no_colon (single_colon ?_ ih)
    obtain ⟨byte, others, rfl, hbyte⟩ := hrest.head
    exact fun heq => hbyte (Option.some.inj heq)

theorem Side.single {dots : Bool} (h : Side dots text groups) (hback : Single (58 :: back)) :
    Single (58 :: (text ++ back)) := by
  obtain ⟨rfl, -⟩ | h := h
  · exact hback
  · exact h.single hback.tail

theorem colons_unique {left right : List UInt8} {position : Nat} (hleft : Single (left ++ [58]))
    (hright : Single (58 :: right)) (h : ColonsAt (left ++ 58 :: 58 :: right) position) :
    position = left.length := by
  have htext : left ++ 58 :: 58 :: right = left ++ [58] ++ 58 :: right := by
    rw [append_assoc]
    rfl
  have hlen : (left ++ [58]).length = left.length + 1 := length_append
  rw [htext] at h
  obtain hlt | heq | hgt := Nat.lt_trichotomy position left.length
  · refine absurd ?_ (hleft position)
    obtain ⟨hfirst, hsecond⟩ := h
    rw [List.getElem?_append_left (by omega)] at hfirst hsecond
    exact ⟨hfirst, hsecond⟩
  · exact heq
  · refine absurd ?_ (hright (position - (left ++ [58]).length))
    obtain ⟨hfirst, hsecond⟩ := h
    rw [List.getElem?_append_right (by omega)] at hfirst hsecond
    rw [Nat.sub_add_comm (by omega)] at hsecond
    exact ⟨hfirst, hsecond⟩

theorem Suffix.single (h : Suffix scope suffix) : Single (58 :: suffix) := by
  have hfree : 58 ∉ suffix := h.free (by decide) (by decide)
  have hempty : Single ([] : List UInt8) := fun _ hcolons => nomatch hcolons.1
  refine single_colon (fun hhead => hfree (mem_of_head? hhead)) ?_
  have hsuf := single_append hfree hempty
  rwa [append_nil] at hsuf

/-- **Two colons stand at most once** in a text that is compressed. -/
theorem Compressed.once {address : IpAddress} (h : Compressed (segments address) text)
    (hsuf : Suffix scope suffix) {first second : Nat} (hfirst : ColonsAt (text ++ suffix) first)
    (hsecond : ColonsAt (text ++ suffix) second) :
    first = second := by
  have hlt := segments_lt address
  cases h with
  | whole _ => exact absurd hfirst (((joined_side hlt).single hsuf.single).tail first)
  | @leftOut left right length _ hsegments =>
    rw [hsegments] at hlt
    obtain ⟨hfront, hright⟩ := forall_mem_append.mp hlt
    obtain ⟨hleft, -⟩ := forall_mem_append.mp hfront
    have hone : Single [58] := by
      rintro position ⟨-, hnext⟩
      nomatch hnext
    have hbefore : Single (joined left ++ [58]) := by
      by_cases hempty : left = []
      · subst hempty
        exact hone
      · exact ((joined_spells hempty hleft).single hone).tail
    have hbehind := (joined_side hright).single hsuf.single
    rw [append_assoc] at hfirst hsecond
    rw [colons_unique hbefore hbehind hfirst, colons_unique hbefore hbehind hsecond]

/-! ## Lengths -/

theorem Spells.length_bounds (h : Spells false text groups) :
    groups.length ≤ text.length ∧ text.length ≤ 5 * groups.length := by
  induction h with
  | @last text h => exact ⟨h.nonempty, Nat.le_succ_of_le h.short⟩
  | dotted hdots _ => nomatch hdots
  | @next text rest groups h _ ih =>
    have hshort := h.short
    rw [length_append, length_cons, length_cons]
    omega

theorem Side.length_le (h : Side false text groups) : text.length ≤ 5 * groups.length := by
  obtain ⟨rfl, rfl⟩ | h := h
  · exact Nat.zero_le _
  · exact h.length_bounds.2

theorem Compressed.length_bounds {address : IpAddress} (h : Compressed (segments address) text) :
    2 ≤ text.length ∧ text.length ≤ 42 := by
  have hlt := segments_lt address
  have hlen := length_segments address
  cases h with
  | whole _ =>
    have hne : segments address ≠ [] := cons_ne_nil _ _
    have hbounds := (joined_spells hne hlt).length_bounds
    rw [hlen] at hbounds
    omega
  | @leftOut left right length _ hsegments =>
    rw [hsegments] at hlt hlen
    obtain ⟨hfront, hright⟩ := forall_mem_append.mp hlt
    obtain ⟨hleft, -⟩ := forall_mem_append.mp hfront
    have hbefore := (joined_side hleft).length_le
    have hbehind := (joined_side hright).length_le
    rw [length_append, length_append, length_replicate] at hlen
    rw [length_append, length_cons, length_cons]
    omega

/-! ## The round trip -/

/-- The text is read back as the address, and has two colons at most once, for the first longest run
of at least two zeros. -/
structure RoundTrips (address : IpAddress) : Prop where
  parsed : parseIpv6 (toString address) = .ok address
  compressed : ∃ body, Scoped (toString address) body address.scopeId.toNat ∧
    Compressed (segments address) body
  once : ∀ {first second : Nat}, ColonsAt (toString address) first →
    ColonsAt (toString address) second → first = second

section

variable {address : IpAddress}

theorem roundTrips_of_compressed (hfamily : address.family = 6) (hlow : 0 ≤ address.scopeId)
    (hhigh : address.scopeId ≤ 2147483647)
    (h : Compressed (segments address) (bodyText address)) : RoundTrips address := by
  obtain ⟨suffix, htext, hsuf⟩ := toString_eq hfamily hlow hhigh
  have hscoped := hsuf.scoped (bodyText address)
  obtain ⟨hshort, hlong⟩ := h.length_bounds
  have hbound := hsuf.length_le
  rw [← htext] at hscoped
  refine ⟨?_, ⟨_, hscoped, h⟩, fun {first second} hfirst hsecond => ?_⟩
  · have hdenotes : Denotes (toString address) address :=
      ⟨_, _, _, hscoped, h.body, hfamily, (Int.toNat_of_nonneg hlow).symm,
        (number_segments address).symm⟩
    have hdots : ¬ GroupBeforeDots (toString address) :=
      hscoped.groupBeforeDots.not.mpr (not_groupBeforeDots h.no_dot)
    have hlen : (toString address).length = (bodyText address).length + suffix.length := by
      rw [htext, length_append]
    exact parseIpv6_complete (by omega) (by omega) hdenotes (by omega) hdots
  · rw [htext] at hfirst hsecond
    exact h.once hsuf hfirst hsecond

theorem Denotes.colons (h : Denotes text address) (hhead : text[0]? = some 58) :
    ColonsAt text 0 := by
  obtain ⟨body, scope, groups, hscoped, hbody, -⟩ := h
  obtain ⟨suffix, rfl⟩ : ∃ suffix, text = body ++ suffix := by
    cases hscoped with
    | without => exact ⟨[], (append_nil _).symm⟩
    | behind _ _ => exact ⟨_, rfl⟩
  have hfirst {text : List UInt8} {dots : Bool} {groups : List Nat} (h : Spells dots text groups)
      (rest : List UInt8) : (text ++ rest)[0]? ≠ some 58 := by
    obtain ⟨byte, others, rfl, hbyte⟩ := h.head
    exact fun heq => hbyte (Option.some.inj heq)
  cases hbody with
  | full h _ => exact absurd hhead (hfirst h suffix)
  | compressed hleft _ _ =>
    obtain ⟨rfl, -⟩ | hleft := hleft
    · exact ⟨rfl, rfl⟩
    · rw [append_assoc] at hhead
      exact absurd hhead (hfirst hleft _)

/-- **The round trip is right** if and only if the first longest run of zeros does not come first:
there one colon is written in place of two. -/
theorem roundTrips_iff (hfamily : address.family = 6) (hlow : 0 ≤ address.scopeId)
    (hhigh : address.scopeId ≤ 2147483647) :
    RoundTrips address ↔ ∀ length, ¬ FirstZeros (segments address) 0 length := by
  constructor
  · intro h length hfirst
    obtain ⟨suffix, htext, hsuf⟩ := toString_eq hfamily hlow hhigh
    obtain ⟨left, right, hleft, hsegments⟩ := zeros_split hfirst
    obtain rfl := length_eq_zero_iff.mp hleft
    have hright : ∀ group ∈ right, group < 65536 := fun group hgroup =>
      segments_lt address group (by rw [hsegments]; exact mem_append_right _ hgroup)
    have hbody := bodyText_run (hleft ▸ hfirst) hsegments
    rw [if_pos rfl] at hbody
    rw [hbody, cons_append] at htext
    have hsingle := (joined_side hright).single hsuf.single
    obtain ⟨hdenotes, -⟩ := (parseIpv6_sound _).value h.parsed
    have hcolons := hdenotes.colons (by rw [htext]; rfl)
    rw [htext] at hcolons
    exact hsingle 0 hcolons
  · intro h
    exact roundTrips_of_compressed hfamily hlow hhigh (bodyText_compressed h)

end

/-- `2001:db8::1%3`. -/
theorem roundTrips_documentation : RoundTrips ⟨6, 2306139568115548160, 1, 3⟩ := by
  refine (roundTrips_iff rfl (by decide) (by decide)).mpr fun length h => ?_
  obtain ⟨group, hgroup, rfl⟩ := h.run 0 le_rfl
    (Nat.lt_of_lt_of_le (by decide) (Nat.add_le_add_left h.least_le 0))
  revert hgroup
  decide

/-- The loopback address is written `:1`, which is rejected. -/
theorem loopback_broken : toString ⟨6, 0, 1, 0⟩ = [58, 49] ∧ ¬ RoundTrips ⟨6, 0, 1, 0⟩ := by
  have htext : toString ⟨6, 0, 1, 0⟩ = [58, 49] := by decide
  refine ⟨htext, fun h => ?_⟩
  have hparsed := h.parsed
  rw [htext] at hparsed
  nomatch hparsed

end Raz.Net
