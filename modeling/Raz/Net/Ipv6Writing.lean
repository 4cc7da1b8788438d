import Mathlib.Data.List.TakeWhile
import Raz.Lib.LongestRun
import Raz.Net.Ipv6Grammar

/-!
# The texts that are written

A group is written in its hexadecimal digits without leading zeros, a scope in its decimal digits,
and the first longest run of at least two groups of zero is left out. Two colons stand for it behind
a group, but one colon alone where it comes first.

Result: `bodyText_none`, `bodyText_some`: the text without its scope.
-/

namespace Raz.Net

open Numerals LongestRun List Nat

/-! ## Digits of a group -/

theorem hexValue_hexDigit {digit : Nat} (h : digit < 16) :
    hexValue (hexDigit digit) = some digit := by
  have hall : ∀ digit < 16, hexValue (hexDigit digit) = some digit := by decide
  exact hall digit h

theorem hexadecimal_digits {digits : List Nat} (h : ∀ digit ∈ digits, digit < 16) :
    hexadecimal (digits.map hexDigit) = number 16 digits := by
  unfold hexadecimal
  rw [map_map]
  congr 1
  refine (map_congr_left fun digit hdigit => ?_).trans (map_id digits)
  change (hexValue (hexDigit digit)).getD 0 = digit
  rw [hexValue_hexDigit (h digit hdigit)]
  rfl

theorem hexLoop_eq (value : Nat) : ∀ (count : Nat) (started : Bool) (output : List UInt8),
    ∃ digits : List Nat, hexLoop value count started output = output ++ digits.map hexDigit ∧
      (∀ digit ∈ digits, digit < 16) ∧ digits.length ≤ count ∧ (0 < count → digits ≠ []) ∧
      (started = true → digits.length = count) ∧ number 16 digits = value % 16 ^ count := by
  intro count
  induction count with
  | zero =>
    intro started output
    refine ⟨[], (append_nil output).symm, forall_mem_nil _, le_rfl,
      fun h => absurd h (lt_irrefl 0), fun _ => rfl, ?_⟩
    rw [pow_zero, mod_one, number_nil]
  | succ count ih =>
    intro started output
    have hpow : 2 ^ (4 * count) = 16 ^ count := by rw [Nat.pow_mul]
    have hdigit : (value >>> (4 * count)) &&& 15 = value / 16 ^ count % 16 := by
      rw [shiftRight_eq_div_pow, hpow]
      exact and_two_pow_sub_one_eq_mod _ 4
    have hlt : value / 16 ^ count % 16 < 16 := mod_lt _ (by decide)
    have hsplit : value % 16 ^ (count + 1) =
        value / 16 ^ count % 16 * 16 ^ count + value % 16 ^ count := by
      rw [pow_succ, mod_mul, add_comm, mul_comm]
    rw [hexLoop, hdigit]
    by_cases hwrite : value / 16 ^ count % 16 ≠ 0 ∨ started = true ∨ count = 0
    · rw [if_pos hwrite]
      obtain ⟨digits, htext, hdigs, -, -, hstarted, hnum⟩ :=
        ih true (output ++ [hexDigit (value / 16 ^ count % 16)])
      have hlen := hstarted rfl
      refine ⟨value / 16 ^ count % 16 :: digits, ?_, forall_mem_cons.mpr ⟨hlt, hdigs⟩, ?_,
        fun _ => cons_ne_nil _ _, fun _ => ?_, ?_⟩
      · rw [htext, append_assoc]
        rfl
      · rw [length_cons, hlen]
      · rw [length_cons, hlen]
      · rw [number_cons, hlen, hnum, hsplit]
    · rw [if_neg hwrite]
      rw [not_or, not_not, not_or] at hwrite
      obtain ⟨hzero, hstarted, hcount⟩ := hwrite
      obtain ⟨digits, htext, hdigs, hle, hne, -, hnum⟩ := ih started output
      refine ⟨digits, htext, hdigs, le_succ_of_le hle,
        fun _ => hne (pos_of_ne_zero hcount), fun h => absurd h hstarted, ?_⟩
      rw [hnum, hsplit, hzero, zero_mul, zero_add]

/-- The digits of a group. -/
def hexText (group : Nat) : List UInt8 := appendHexGroup [] group

theorem appendHexGroup_eq (output : List UInt8) {group : Nat} :
    appendHexGroup output group = output ++ hexText group := by
  have happend (count : Nat) : ∀ (started : Bool) (output : List UInt8),
      hexLoop group count started output = output ++ hexLoop group count started [] := by
    induction count with
    | zero => exact fun _ output => (append_nil output).symm
    | succ count ih =>
      intro started output
      rw [hexLoop, hexLoop]
      split
      · rw [ih, nil_append, ih true [_], append_assoc]
      · exact ih started output
  exact happend 4 false output

theorem hexText_isHexGroup (group : Nat) : IsHexGroup (hexText group) := by
  obtain ⟨digits, htext, hdigs, hle, hne, -, -⟩ := hexLoop_eq group 4 false []
  have hcount := length_pos_iff.mpr (hne (by decide))
  have heq : hexText group = digits.map hexDigit := htext
  rw [heq]
  refine ⟨by rwa [length_map], by rwa [length_map], fun byte hbyte => ?_⟩
  obtain ⟨digit, hdigit, rfl⟩ := mem_map.mp hbyte
  rw [hexValue_hexDigit (hdigs digit hdigit)]
  rfl

theorem hexadecimal_hexText {group : Nat} (h : group < 65536) :
    hexadecimal (hexText group) = group := by
  obtain ⟨digits, htext, hdigs, -, -, -, hnum⟩ := hexLoop_eq group 4 false []
  have heq : hexText group = digits.map hexDigit := htext
  rw [heq, hexadecimal_digits hdigs, hnum]
  exact mod_eq_of_lt h

/-! ## Digits of a scope -/

/-- The greatest power of ten that is not above the value is found. -/
theorem divisorLoop_eq {value : Nat} : ∀ {fuel power : Nat}, 10 ^ power ≤ value →
    value < fuel + power → ∃ power', divisorLoop value fuel (10 ^ power) = 10 ^ power' ∧
      10 ^ power' ≤ value ∧ value < 10 ^ (power' + 1) := by
  intro fuel
  induction fuel with
  | zero =>
    intro power hle hlt
    have := @Nat.lt_pow_self power 10 (by decide)
    omega
  | succ fuel ih =>
    intro power hle hlt
    have hpos : 0 < 10 ^ power := Nat.pow_pos (by decide)
    rw [divisorLoop]
    by_cases hmore : value / 10 ^ power ≥ 10
    · rw [if_pos hmore, ← pow_succ]
      refine ih ?_ (by omega)
      rw [pow_succ, mul_comm]
      exact (le_div_iff_mul_le hpos).mp hmore
    · rw [if_neg hmore]
      refine ⟨power, rfl, hle, ?_⟩
      rw [pow_succ, mul_comm]
      exact (div_lt_iff_lt_mul hpos).mp (not_le.mp hmore)

theorem decimalLoop_eq {value power : Nat} : ∀ {fuel : Nat} {output : List UInt8},
    power + 1 < fuel → decimalLoop value fuel (10 ^ power) output =
      output ++ (digitsOf 10 (power + 1) value).map fun digit => UInt8.ofNat (48 + digit) := by
  induction power with
  | zero =>
    intro fuel output hfuel
    obtain ⟨fuel, rfl⟩ : ∃ rest, fuel = rest + 2 := ⟨fuel - 2, by omega⟩
    rw [pow_zero, decimalLoop, if_pos one_pos, decimalLoop, if_neg (by decide),
      digitsOf_succ, pow_zero]
    rfl
  | succ power ih =>
    intro fuel output hfuel
    obtain ⟨fuel, rfl⟩ : ∃ rest, fuel = rest + 1 := ⟨fuel - 1, by omega⟩
    have hpos : 0 < 10 ^ (power + 1) := Nat.pow_pos (by decide)
    have hdiv : 10 ^ (power + 1) / 10 = 10 ^ power := by
      rw [Nat.pow_succ, Nat.mul_div_cancel _ (by decide)]
    rw [decimalLoop, if_pos hpos, hdiv, ih (by omega), digitsOf_succ (power + 1), map_cons,
      append_assoc]
    rfl

theorem appendDecimal_eq {value : Nat} (hpos : 0 < value) (output : List UInt8) :
    ∃ digits, appendDecimal output value = output ++ digits ∧ digits ≠ [] ∧
      (∀ byte ∈ digits, asciiDigit byte) ∧ decimal digits = value ∧
      ∀ bound, value < 10 ^ bound → digits.length ≤ bound := by
  obtain ⟨power, hdivisor, hle, hlt⟩ := @divisorLoop_eq value (value + 1) 0 hpos
    (lt_succ_self _)
  have hpower : power < value := Nat.lt_of_lt_of_le (Nat.lt_pow_self (by decide)) hle
  have hdigs : ∀ digit ∈ digitsOf 10 (power + 1) value, digit < 10 := digitsOf_lt (by decide) _ _
  have hbyte {digit : Nat} (h : digit < 10) : (UInt8.ofNat (48 + digit)).toNat = 48 + digit :=
    UInt8.toNat_ofNat_of_lt' (Nat.lt_of_lt_of_le (Nat.add_lt_add_left h 48) (by decide))
  refine ⟨(digitsOf 10 (power + 1) value).map fun digit => UInt8.ofNat (48 + digit), ?_, ?_, ?_, ?_,
    ?_⟩
  · unfold appendDecimal
    rw [pow_zero] at hdivisor
    rw [hdivisor, decimalLoop_eq (by omega)]
  · refine ne_nil_of_length_pos ?_
    rw [length_map, length_digitsOf]
    exact succ_pos _
  · intro byte hmem
    obtain ⟨digit, hdigit, rfl⟩ := mem_map.mp hmem
    have hlt := hdigs digit hdigit
    exact asciiDigit_iff.mpr ⟨by rw [hbyte hlt]; omega, by rw [hbyte hlt]; omega⟩
  · have hmap : ((digitsOf 10 (power + 1) value).map fun digit => UInt8.ofNat (48 + digit)).map
        (fun byte => byte.toNat - 48) = digitsOf 10 (power + 1) value := by
      rw [map_map]
      refine (map_congr_left fun digit hdigit => ?_).trans (map_id _)
      change (UInt8.ofNat (48 + digit)).toNat - 48 = digit
      rw [hbyte (hdigs digit hdigit), Nat.add_sub_cancel_left]
    unfold decimal
    rw [hmap, number_digitsOf, mod_eq_of_lt hlt]
  · intro bound hbound
    rw [length_map, length_digitsOf]
    exact (Nat.pow_lt_pow_iff_right (by decide)).mp (Nat.lt_of_le_of_lt hle hbound)

/-! ## The groups of an address -/

theorem segment_eq {word : UInt64} {count : Nat} (h : count < 4) :
    ((word >>> UInt64.ofNat (count * 16)) &&& 65535).toNat =
      word.toNat / 65536 ^ count % 65536 := by
  have hmask : (65535 : UInt64).toNat = 2 ^ 16 - 1 := rfl
  have hshift : (UInt64.ofNat (count * 16)).toNat % 64 = count * 16 := by
    rw [UInt64.toNat_ofNat_of_lt' (lt_trans (by omega : count * 16 < 64) (by decide))]
    exact mod_eq_of_lt (by omega)
  have hpow : 2 ^ (count * 16) = 65536 ^ count := by rw [Nat.mul_comm, Nat.pow_mul]
  rw [UInt64.toNat_and, UInt64.toNat_shiftRight, hshift, hmask, and_two_pow_sub_one_eq_mod,
    shiftRight_eq_div_pow, hpow]

theorem segments_eq (address : IpAddress) : segments address =
    digitsOf 65536 4 address.high.toNat ++ digitsOf 65536 4 address.low.toNat := by
  have hword (word : UInt64) : digitsOf 65536 4 word.toNat =
      [((word >>> UInt64.ofNat (3 * 16)) &&& 65535).toNat,
        ((word >>> UInt64.ofNat (2 * 16)) &&& 65535).toNat,
        ((word >>> UInt64.ofNat (1 * 16)) &&& 65535).toNat,
        ((word >>> UInt64.ofNat (0 * 16)) &&& 65535).toNat] := by
    rw [segment_eq (by decide), segment_eq (by decide), segment_eq (by decide),
      segment_eq (by decide), digitsOf_succ, digitsOf_succ, digitsOf_succ, digitsOf_succ]
    rfl
  rw [hword, hword]
  rfl

theorem length_segments (address : IpAddress) : (segments address).length = 8 := rfl

theorem segments_lt (address : IpAddress) : ∀ group ∈ segments address, group < 65536 := by
  rw [segments_eq]
  exact forall_mem_append.mpr ⟨digitsOf_lt (by decide) 4 _, digitsOf_lt (by decide) 4 _⟩

theorem number_segments (address : IpAddress) : number 65536 (segments address) =
    address.high.toNat * 2 ^ 64 + address.low.toNat := by
  have hword (word : UInt64) : word.toNat % 65536 ^ 4 = word.toNat := mod_eq_of_lt word.toNat_lt
  rw [segments_eq, number_append, number_digitsOf, number_digitsOf, length_digitsOf, hword, hword]
  rfl

/-! ## The run that is left out -/

/-- The first longest run of at least two groups of zero. -/
abbrev FirstZeros (groups : List Nat) (start length : Nat) : Prop :=
  FirstLongest (· = 0) groups 2 start length

/-- The loop keeps the best run; at a zero the run before it has ended. -/
theorem bestLoop_found {fuel : Nat} : ∀ {rest front : List Nat} {best : Best}, rest.length ≤ fuel →
    (rest.head? = some 0 → Closed (· = 0) front) → Found (· = 0) front 2 best.start best.length →
    Found (· = 0) (front ++ rest) 2 (bestLoop fuel front.length rest best).start
      (bestLoop fuel front.length rest best).length := by
  induction fuel with
  | zero =>
    intro rest front best hfuel _ hfound
    obtain rfl := length_eq_zero_iff.mp (le_zero.mp hfuel)
    rwa [append_nil]
  | succ fuel ih =>
    intro rest front best hfuel hclosed hfound
    cases rest with
    | nil => rwa [append_nil]
    | cons segment rest =>
      rw [length_cons] at hfuel
      rw [bestLoop]
      by_cases hsegment : segment ≠ 0
      · rw [if_pos hsegment]
        have hnext := @ih rest (front ++ [segment]) best (le_of_succ_le_succ hfuel)
          (fun _ => closed_concat hsegment) (hfound.skip (by decide) hsegment)
        rw [length_append, append_assoc] at hnext
        exact hnext
      rw [if_neg hsegment]
      obtain rfl := not_not.mp hsegment
      have hfront := hclosed rfl
      -- the run, and what stands behind it
      have hparts : (0 :: rest).takeWhile (· = 0) ++ (0 :: rest).dropWhile (· = 0) = 0 :: rest :=
        takeWhile_append_dropWhile
      have hzeros : ∀ segment ∈ (0 :: rest).takeWhile (· = 0), segment = 0 := by
        intro segment hsegment
        have hzero := mem_takeWhile_imp hsegment
        exact of_decide_eq_true hzero
      have hpos : 0 < ((0 :: rest).takeWhile (· = 0)).length := succ_pos _
      have hbehind : ((0 :: rest).dropWhile (· = 0)).head? ≠ some 0 := by
        intro hhead
        have hnot := List.head?_dropWhile_not (· = 0) (0 :: rest)
        rw [hhead] at hnot
        exact absurd hnot (by decide)
      generalize (0 :: rest).takeWhile (· = 0) = run at hparts hzeros hpos ⊢
      generalize (0 :: rest).dropWhile (· = 0) = back at hparts hbehind
      have hlen : run.length + back.length = rest.length + 1 := by
        rw [← length_append, hparts, length_cons]
      have hdrop : (0 :: rest).drop run.length = back := by
        rw [← hparts, drop_left]
      have hnext {best' : Best} (h : Found (· = 0) (front ++ run) 2 best'.start best'.length) :=
        @ih back (front ++ run) best' (by omega) (fun hhead => absurd hhead hbehind) h
      rw [append_assoc, hparts, length_append] at hnext
      dsimp only
      rw [hdrop]
      by_cases hbest : run.length ≥ 2 ∧ run.length > best.length
      · rw [if_pos hbest]
        exact hnext (hfound.better hfront hzeros hbest.1 hbest.2)
      · rw [if_neg hbest]
        exact hnext (hfound.keep (by decide) hfront hbest)

/-- The run of the groups of an address that is left out. -/
def leftOut (address : IpAddress) : Best := bestLoop 8 0 (segments address) ⟨none, 0⟩

theorem leftOut_found (address : IpAddress) :
    Found (· = 0) (segments address) 2 (leftOut address).start (leftOut address).length := by
  have hstart : Found (· = 0) ([] : List Nat) 2 none 0 := by
    refine ⟨rfl, fun {other size} hrun => ?_⟩
    obtain rfl | hpos := Nat.eq_zero_or_pos size
    · decide
    · have hend := hrun.end_le hpos
      rw [length_nil] at hend
      omega
  exact @bestLoop_found 8 (segments address) [] ⟨none, 0⟩ le_rfl
    (fun _ last hlast => nomatch hlast) hstart

/-! ## The text -/

/-- Groups between single colons. -/
def joined (groups : List Nat) : List UInt8 := [58].intercalate (groups.map hexText)

/-- Groups, each behind a colon. -/
def behindColons (groups : List Nat) : List UInt8 :=
  (groups.map fun group => 58 :: hexText group).flatten

theorem joined_cons (group : Nat) (groups : List Nat) :
    joined (group :: groups) = hexText group ++ behindColons groups := by
  induction groups generalizing group with
  | nil =>
    unfold joined behindColons
    rw [map_singleton, intercalate_singleton, map_nil, flatten_nil, append_nil]
  | cons next groups ih =>
    have hnext := ih next
    unfold joined at hnext ⊢
    rw [map_cons] at hnext ⊢
    rw [map_cons, intercalate_cons_cons, hnext, append_assoc]
    rfl

section

variable {best : Best} {fuel : Nat} {output : List UInt8}

theorem segmentLoop_groups {rest groups : List Nat} : ∀ {index : Nat} {output : List UInt8},
    (∀ start ∈ best.start, index + groups.length ≤ start ∨ start < index) →
    segmentLoop best (groups.length + fuel) index (groups ++ rest) false false output =
      segmentLoop best fuel (index + groups.length) rest false false
        (output ++ behindColons groups) := by
  induction groups with
  | nil =>
    intro index output _
    rw [length_nil, zero_add, add_zero]
    unfold behindColons
    rw [map_nil, flatten_nil, append_nil]
    rfl
  | cons group groups ih =>
    intro index output houtside
    rw [length_cons] at houtside
    have hgroup : some index ≠ best.start := by
      intro heq
      have := houtside index heq.symm
      omega
    have hnext := @ih (index + 1) (output ++ [58] ++ hexText group) fun start hstart => by
      have := houtside start hstart
      omega
    rw [length_cons, add_right_comm, cons_append, segmentLoop, if_neg hgroup, if_pos ⟨rfl, rfl⟩]
    dsimp only
    rw [appendHexGroup_eq, hnext, add_assoc, add_comm 1]
    congr 1
    unfold behindColons
    rw [map_cons, flatten_cons, append_assoc, append_assoc]
    rfl

/-- Groups that are not left out, with no colon before the first. -/
theorem segmentLoop_joined {rest groups : List Nat} {index : Nat} {first after : Bool}
    (hopen : first = true ∨ after = true) (hne : groups ≠ [])
    (houtside : ∀ start ∈ best.start, index + groups.length ≤ start ∨ start < index) :
    segmentLoop best (groups.length + fuel) index (groups ++ rest) first after output =
      segmentLoop best fuel (index + groups.length) rest false false
        (output ++ joined groups) := by
  obtain ⟨group, groups, rfl⟩ := exists_cons_of_ne_nil hne
  rw [length_cons] at houtside
  have hgroup : some index ≠ best.start := by
    intro heq
    have := houtside index heq.symm
    omega
  have hcolon : ¬ (first = false ∧ after = false) := by
    rintro ⟨rfl, rfl⟩
    exact hopen.elim nofun nofun
  have hnext := @segmentLoop_groups best fuel rest groups (index + 1) (output ++ hexText group)
    fun start hstart => by
      have := houtside start hstart
      omega
  rw [length_cons, add_right_comm, cons_append, segmentLoop, if_neg hgroup, if_neg hcolon]
  dsimp only
  rw [appendHexGroup_eq, hnext, add_assoc, add_comm 1, joined_cons, append_assoc]

theorem segmentLoop_nil {index : Nat} {first after : Bool} :
    segmentLoop best fuel index [] first after output = output := by
  cases fuel with
  | zero => rfl
  | succ fuel => rfl

theorem segmentLoop_after {groups : List Nat} {index : Nat}
    (houtside : ∀ start ∈ best.start, start < index) (hfuel : groups.length ≤ fuel) :
    segmentLoop best fuel index groups false true output = output ++ joined groups := by
  by_cases hempty : groups = []
  · subst hempty
    rw [segmentLoop_nil]
    exact (append_nil output).symm
  obtain ⟨rest, rfl⟩ := Nat.exists_eq_add_of_le hfuel
  have hgroups := @segmentLoop_joined best rest output [] groups index false true (.inr rfl)
    hempty fun start hstart => .inr (houtside start hstart)
  rw [append_nil] at hgroups
  rw [hgroups, segmentLoop_nil]

theorem segmentLoop_run {left middle right : List Nat} {first after : Bool}
    (hbest : best = ⟨some left.length, middle.length⟩) (hmiddle : middle ≠ [])
    (hfuel : middle.length + right.length ≤ fuel) :
    segmentLoop best fuel left.length (middle ++ right) first after output =
      (if first = false then output ++ [58] else output) ++ 58 :: joined right := by
  subst hbest
  obtain ⟨segment, others, rfl⟩ := exists_cons_of_ne_nil hmiddle
  rw [length_cons] at hfuel
  obtain ⟨fuel, rfl⟩ : ∃ rest, fuel = rest + 1 := ⟨fuel - 1, by omega⟩
  have hdrop : (segment :: others ++ right).drop (segment :: others).length = right := drop_left
  rw [cons_append] at hdrop ⊢
  rw [segmentLoop, if_pos rfl, hdrop, segmentLoop_after _ (by omega), append_assoc]
  · rfl
  · rintro start hstart
    cases hstart
    exact Nat.lt_add_of_pos_right (Nat.succ_pos _)

end

/-! ### The three kinds of text -/

/-- The text without its scope. -/
def bodyText (address : IpAddress) : List UInt8 :=
  segmentLoop (leftOut address) 8 0 (segments address) true false []

theorem bodyText_none {address : IpAddress} (h : (leftOut address).start = none) :
    bodyText address = joined (segments address) := by
  have hne : segments address ≠ [] := cons_ne_nil _ _
  have hgroups := @segmentLoop_joined (leftOut address) 0 [] [] (segments address) 0 true false
    (.inl rfl) hne fun start hstart => by rw [h] at hstart; nomatch hstart
  rw [append_nil, segmentLoop_nil] at hgroups
  exact hgroups

/-- **The text with a run left out** has one colon for it at the start, and two behind a group. -/
theorem bodyText_some {address : IpAddress} {left middle right : List Nat}
    (hsegments : segments address = left ++ middle ++ right) (hmiddle : middle ≠ [])
    (h : leftOut address = ⟨some left.length, middle.length⟩) :
    bodyText address =
      if left = [] then 58 :: joined right else joined left ++ 58 :: 58 :: joined right := by
  have hlen : left.length + middle.length + right.length = 8 := by
    rw [← length_append, ← length_append, ← hsegments]
    rfl
  unfold bodyText
  rw [hsegments, append_assoc]
  by_cases hleft : left = []
  · subst hleft
    rw [if_pos rfl]
    rw [length_nil, zero_add] at hlen
    exact segmentLoop_run h hmiddle (le_of_eq hlen)
  · rw [if_neg hleft]
    have hgroups := @segmentLoop_joined (leftOut address) (middle.length + right.length) []
      (middle ++ right) left 0 true false (.inl rfl) hleft fun start hstart => by
        rw [h] at hstart
        cases hstart
        exact .inl (le_of_eq (zero_add _))
    rw [← add_assoc, hlen, zero_add] at hgroups
    rw [hgroups, segmentLoop_run h hmiddle le_rfl, if_pos rfl, nil_append, append_assoc]
    rfl

end Raz.Net
