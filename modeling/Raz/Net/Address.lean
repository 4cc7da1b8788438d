import Raz.Lib.Numerals
import Raz.Lib.Outcome

/-!
# Dotted addresses

Translation of `parse_ipv4` and of what it calls. A text is the list of its bytes, a text that is
being cut at its dots the bytes since the last dot and those that are left.

Result: `parseIpv4_iff`: four octets between dots, and the value that they denote.
-/

namespace Raz.Net

open Numerals List Nat

inductive AddressError
  | invalidSyntax
  | invalidOctet
  | invalidPort
  deriving DecidableEq, Repr

/-- Packed, with the first octet in the highest of the low 32 bits. -/
structure Ipv4Address where
  value : Nat
  deriving DecidableEq, Repr

def asciiDigit (byte : UInt8) : Bool := 48 ≤ byte && byte ≤ 57

/-- The loop of `parse_octet`. -/
def octetLoop : Nat → List UInt8 → Except AddressError Nat
  | value, [] => .ok value
  | value, byte :: rest =>
      if asciiDigit byte = false then .error .invalidSyntax
      else
        let value := value * 10 + byte.toNat - 48
        if value > 255 then .error .invalidOctet else octetLoop value rest

def parseOctet (octet : List UInt8) : Except AddressError Nat :=
  if octet.length ≤ 0 ∨ octet.length > 3 then .error .invalidSyntax else octetLoop 0 octet

def ipv4 (first second third fourth : Nat) : Except AddressError Ipv4Address :=
  if first > 255 ∨ second > 255 ∨ third > 255 ∨ fourth > 255 then .error .invalidOctet
  else .ok ⟨(first <<< 24) ||| (second <<< 16) ||| (third <<< 8) ||| fourth⟩

def ipv4First (address : Ipv4Address) : Nat := (address.value >>> 24) &&& 255

def ipv4Second (address : Ipv4Address) : Nat := (address.value >>> 16) &&& 255

def ipv4Third (address : Ipv4Address) : Nat := (address.value >>> 8) &&& 255

def ipv4Fourth (address : Ipv4Address) : Nat := address.value &&& 255

/-- What is done at a dot and at the end. -/
def boundary (parts : List Nat) (octet : List UInt8) : Except AddressError (List Nat) :=
  if parts.length ≥ 4 then .error .invalidSyntax
  else
    match parseOctet octet with
    | .ok value => .ok (parts ++ [value])
    | .error error => .error error

/-- The loop of `parse_ipv4`, with the bytes since the last dot. -/
def ipv4Loop : List Nat → List UInt8 → List UInt8 → Except AddressError (List Nat)
  | parts, octet, [] => boundary parts octet
  | parts, octet, byte :: rest =>
      if byte = 46 then
        match boundary parts octet with
        | .ok parts => ipv4Loop parts [] rest
        | .error error => .error error
      else ipv4Loop parts (octet ++ [byte]) rest

def parseIpv4 (text : List UInt8) : Except AddressError Ipv4Address :=
  if text.length < 7 ∨ text.length > 15 then .error .invalidSyntax
  else
    match ipv4Loop [] [] text with
    | .ok [first, second, third, fourth] => ipv4 first second third fourth
    | .ok _ => .error .invalidSyntax
    | .error error => .error error

/-! ## Octets -/

/-- The number that the bytes are a decimal of. -/
def decimal (text : List UInt8) : Nat := number 10 (text.map fun byte => byte.toNat - 48)

/-- One to three digits below 256. -/
structure IsOctet (text : List UInt8) : Prop where
  nonempty : 1 ≤ text.length
  short : text.length ≤ 3
  digits : ∀ byte ∈ text, asciiDigit byte
  value : decimal text ≤ 255

theorem decimal_cons (byte : UInt8) (text : List UInt8) :
    decimal (byte :: text) = (byte.toNat - 48) * 10 ^ text.length + decimal text := by
  unfold decimal
  rw [map_cons, number_cons, length_map]

theorem asciiDigit_iff {byte : UInt8} :
    asciiDigit byte ↔ 48 ≤ byte.toNat ∧ byte.toNat ≤ 57 := by
  unfold asciiDigit
  rw [Bool.and_eq_true, decide_eq_true_iff, decide_eq_true_iff]
  rfl

theorem octetLoop_iff {octet : List UInt8} : ∀ {value result : Nat}, value ≤ 255 →
    (octetLoop value octet = .ok result ↔ (∀ byte ∈ octet, asciiDigit byte) ∧
      value * 10 ^ octet.length + decimal octet ≤ 255 ∧
      result = value * 10 ^ octet.length + decimal octet) := by
  induction octet with
  | nil =>
    intro value result hval
    have hnil : value * 10 ^ ([] : List UInt8).length + decimal [] = value := by
      rw [length_nil, pow_zero, mul_one]
      rfl
    rw [hnil, octetLoop]
    constructor
    · intro h
      exact ⟨forall_mem_nil _, hval, (Except.ok.inj h).symm⟩
    · rintro ⟨-, -, rfl⟩
      rfl
  | cons byte octet ih =>
    intro value result hval
    rw [octetLoop, forall_mem_cons]
    by_cases hdigit : asciiDigit byte
    · obtain ⟨hlow, hhigh⟩ := asciiDigit_iff.mp hdigit
      have hstep : value * 10 + byte.toNat - 48 = value * 10 + (byte.toNat - 48) := by omega
      have htotal : value * 10 ^ (byte :: octet).length + decimal (byte :: octet) =
          (value * 10 + (byte.toNat - 48)) * 10 ^ octet.length + decimal octet := by
        rw [decimal_cons, length_cons, pow_succ]
        ring
      rw [if_neg (by rw [hdigit]; decide), hstep, htotal]
      by_cases hlarge : value * 10 + (byte.toNat - 48) > 255
      · rw [if_pos hlarge]
        have hpow : 1 ≤ 10 ^ octet.length := one_le_pow _ _ (by decide)
        have hle := Nat.le_mul_of_pos_right (value * 10 + (byte.toNat - 48)) hpow
        constructor
        · nofun
        · rintro ⟨-, hle', -⟩
          omega
      · rw [if_neg hlarge, ih (not_lt.mp hlarge)]
        exact ⟨fun h => ⟨⟨hdigit, h.1⟩, h.2⟩, fun h => ⟨h.1.2, h.2⟩⟩
    · rw [if_pos (Bool.eq_false_of_not_eq_true hdigit)]
      exact ⟨nofun, fun h => absurd h.1.1 hdigit⟩

theorem parseOctet_iff {octet : List UInt8} {value : Nat} :
    parseOctet octet = .ok value ↔ IsOctet octet ∧ value = decimal octet := by
  unfold parseOctet
  by_cases hlen : octet.length ≤ 0 ∨ octet.length > 3
  · rw [if_pos hlen]
    refine ⟨nofun, fun ⟨hoctet, _⟩ => ?_⟩
    have := hoctet.nonempty
    have := hoctet.short
    omega
  rw [if_neg hlen, octetLoop_iff (zero_le 255), zero_mul, zero_add]
  constructor
  · rintro ⟨hdigs, hle, rfl⟩
    exact ⟨⟨by omega, by omega, hdigs, hle⟩, rfl⟩
  · rintro ⟨hoctet, rfl⟩
    exact ⟨hoctet.digits, hoctet.value, rfl⟩

/-! ## Cutting at dots -/

theorem boundary_iff {parts result : List Nat} {octet : List UInt8} :
    boundary parts octet = .ok result ↔
      parts.length < 4 ∧ IsOctet octet ∧ result = parts ++ [decimal octet] := by
  unfold boundary
  by_cases hfull : parts.length ≥ 4
  · rw [if_pos hfull]
    exact ⟨nofun, fun h => absurd h.1 (not_lt.mpr hfull)⟩
  rw [if_neg hfull]
  cases hparsed : parseOctet octet with
  | error error =>
    refine ⟨nofun, fun ⟨_, hoctet, _⟩ => ?_⟩
    rw [parseOctet_iff.mpr ⟨hoctet, rfl⟩] at hparsed
    cases hparsed
  | ok value =>
    obtain ⟨hoctet, rfl⟩ := parseOctet_iff.mp hparsed
    constructor
    · intro h
      exact ⟨not_le.mp hfull, hoctet, (Except.ok.inj h).symm⟩
    · rintro ⟨-, -, rfl⟩
      rfl

theorem ipv4Loop_sound {text : List UInt8} : ∀ {parts result : List Nat} {octet : List UInt8},
    ipv4Loop parts octet text = .ok result → ∃ first others,
      octet ++ text = [46].intercalate (first :: others) ∧
        (∀ piece ∈ first :: others, IsOctet piece) ∧
        result = parts ++ (first :: others).map decimal := by
  induction text with
  | nil =>
    intro parts result octet h
    obtain ⟨-, hoctet, rfl⟩ := boundary_iff.mp h
    refine ⟨octet, [], ?_, forall_mem_singleton.mpr hoctet, rfl⟩
    rw [append_nil, intercalate_singleton]
  | cons byte text ih =>
    intro parts result octet h
    rw [ipv4Loop] at h
    by_cases hdot : byte = 46
    · subst hdot
      rw [if_pos rfl] at h
      cases hparts : boundary parts octet with
      | error error =>
        rw [hparts] at h
        cases h
      | ok parts' =>
        rw [hparts] at h
        obtain ⟨-, hoctet, rfl⟩ := boundary_iff.mp hparts
        obtain ⟨first, others, htext, hothers, rfl⟩ := ih h
        refine ⟨octet, first :: others, ?_, forall_mem_cons.mpr ⟨hoctet, hothers⟩, ?_⟩
        · rw [intercalate_cons_cons, ← htext, append_assoc]
          rfl
        · rw [append_assoc]
          rfl
    · rw [if_neg hdot] at h
      obtain ⟨first, others, htext, hrest⟩ := ih h
      exact ⟨first, others, by rw [← htext, append_assoc]; rfl, hrest⟩

theorem ipv4Loop_piece {piece rest : List UInt8} : ∀ {parts : List Nat} {octet : List UInt8},
    46 ∉ piece → ipv4Loop parts octet (piece ++ rest) = ipv4Loop parts (octet ++ piece) rest := by
  induction piece with
  | nil =>
    intro parts octet _
    rw [append_nil]
    rfl
  | cons byte piece ih =>
    intro parts octet hfree
    obtain ⟨hbyte, hpiece⟩ := not_or.mp (mem_cons.not.mp hfree)
    rw [cons_append, ipv4Loop, if_neg (Ne.symm hbyte), ih hpiece, append_assoc]
    rfl

theorem IsOctet.no_dot {octet : List UInt8} (h : IsOctet octet) : 46 ∉ octet := fun hdot =>
  absurd (h.digits 46 hdot) (by decide)

theorem ipv4Loop_complete {others : List (List UInt8)} : ∀ {first : List UInt8} {parts : List Nat},
    (∀ piece ∈ first :: others, IsOctet piece) → parts.length + others.length < 4 →
    ipv4Loop parts [] ([46].intercalate (first :: others)) =
      .ok (parts ++ (first :: others).map decimal) := by
  induction others with
  | nil =>
    intro first parts hpieces hcount
    have hfirst := hpieces first mem_cons_self
    have hpiece := @ipv4Loop_piece first [] parts [] hfirst.no_dot
    rw [append_nil, nil_append] at hpiece
    rw [intercalate_singleton, hpiece]
    exact boundary_iff.mpr ⟨hcount, hfirst, rfl⟩
  | cons next others ih =>
    intro first parts hpieces hcount
    obtain ⟨hfirst, hothers⟩ := forall_mem_cons.mp hpieces
    rw [length_cons] at hcount
    have hbound : boundary parts first = .ok (parts ++ [decimal first]) :=
      boundary_iff.mpr ⟨by omega, hfirst, rfl⟩
    have hnext := @ih next (parts ++ [decimal first]) hothers
      (by rw [length_append, length_singleton]; omega)
    rw [intercalate_cons_cons, append_assoc, ipv4Loop_piece hfirst.no_dot,
      nil_append, singleton_append, ipv4Loop, if_pos rfl, hbound]
    refine hnext.trans ?_
    rw [append_assoc]
    rfl

/-! ## Dotted addresses -/

/-- Four octets between dots, and the number that they denote. -/
def Dotted (text : List UInt8) (value : Nat) : Prop :=
  ∃ octets : List (List UInt8), octets.length = 4 ∧ (∀ octet ∈ octets, IsOctet octet) ∧
    text = [46].intercalate octets ∧ value = number 256 (octets.map decimal)

theorem ipv4_eq {first second third fourth : Nat} (hfirst : first ≤ 255) (hsecond : second ≤ 255)
    (hthird : third ≤ 255) (hfourth : fourth ≤ 255) :
    ipv4 first second third fourth = .ok ⟨number 256 [first, second, third, fourth]⟩ := by
  have hshift : (first <<< 24) ||| (second <<< 16) ||| (third <<< 8) =
      (((first <<< 8) ||| second) <<< 8 ||| third) <<< 8 := by
    rw [shiftLeft_or_distrib, shiftLeft_or_distrib, shiftLeft_or_distrib,
      ← shiftLeft_add, ← shiftLeft_add, ← shiftLeft_add]
  have hdigit {octet : Nat} (h : octet ≤ 255) : octet < 2 ^ 8 := lt_succ_of_le h
  unfold ipv4
  rw [if_neg (by omega), hshift, shiftLeft_or (hdigit hsecond), shiftLeft_or (hdigit hthird),
    shiftLeft_or (hdigit hfourth)]
  have hval : ((first * 2 ^ 8 + second) * 2 ^ 8 + third) * 2 ^ 8 + fourth =
      number 256 [first, second, third, fourth] := by
    simp only [number_cons, number_nil, length_cons, length_nil]
    ring
  rw [hval]

/-- **Dotted addresses**: what is accepted is four octets between dots. -/
theorem parseIpv4_iff {text : List UInt8} {address : Ipv4Address} :
    parseIpv4 text = .ok address ↔ Dotted text address.value := by
  unfold parseIpv4
  constructor
  · intro h
    by_cases hlen : text.length < 7 ∨ text.length > 15
    · rw [if_pos hlen] at h
      cases h
    rw [if_neg hlen] at h
    cases hloop : ipv4Loop [] [] text with
    | error error =>
      rw [hloop] at h
      cases h
    | ok parts =>
      obtain ⟨first, others, htext, hpieces, hparts⟩ := ipv4Loop_sound hloop
      rw [nil_append] at htext hparts
      rw [hloop] at h
      match parts, h with
      | [a, b, c, d], h =>
        have hle : ∀ part ∈ (first :: others).map decimal, part ≤ 255 := by
          intro part hpart
          obtain ⟨piece, hpiece, rfl⟩ := mem_map.mp hpart
          exact (hpieces piece hpiece).value
        rw [← hparts] at hle
        simp only [forall_mem_cons] at hle
        obtain ⟨ha, hb, hc, hd, -⟩ := hle
        have hval := Except.ok.inj ((ipv4_eq ha hb hc hd).symm.trans h)
        refine ⟨first :: others, ?_, hpieces, htext, ?_⟩
        · rw [← length_map decimal, ← hparts]
          rfl
        · rw [← hval, ← hparts]
  · rintro ⟨octets, hcount, hoctets, htext, hval⟩
    match octets, hcount with
    | [a, b, c, d], _ =>
      have hloop := @ipv4Loop_complete [b, c, d] a [] hoctets (lt_succ_self 3)
      simp only [forall_mem_cons] at hoctets
      obtain ⟨ha, hb, hc, hd, -⟩ := hoctets
      have hlen : ¬ (text.length < 7 ∨ text.length > 15) := by
        have := ha.nonempty
        have := hb.nonempty
        have := hc.nonempty
        have := hd.nonempty
        have := ha.short
        have := hb.short
        have := hc.short
        have := hd.short
        simp only [htext, intercalate_cons_cons, intercalate_singleton,
          length_append, length_singleton]
        omega
      rw [if_neg hlen, htext, hloop]
      refine (ipv4_eq ha.value hb.value hc.value hd.value).trans ?_
      cases address
      exact congrArg _ (congrArg _ hval.symm)

theorem two_octets (value : Nat) :
    ((value / 256 % 256) <<< 8) ||| (value % 256) = value % 65536 := by
  have hlt : value % 256 < 2 ^ 8 := mod_lt value (by decide)
  rw [shiftLeft_or hlt]
  omega

theorem octets_groups (address : Ipv4Address) : [(ipv4First address <<< 8) ||| ipv4Second address,
      (ipv4Third address <<< 8) ||| ipv4Fourth address] = digitsOf 65536 2 address.value := by
  have hmask (value : Nat) : value &&& 255 = value % 256 := and_two_pow_sub_one_eq_mod value 8
  have hsplit : address.value >>> 24 = address.value >>> 16 / 256 :=
    (shiftRight_add address.value 16 8).trans (shiftRight_eq_div_pow _ 8)
  unfold ipv4First ipv4Second ipv4Third ipv4Fourth
  rw [hmask, hmask, hmask, hmask, hsplit, two_octets, shiftRight_eq_div_pow,
    shiftRight_eq_div_pow]
  exact congrArg _ (congrArg (fun low => [low]) (two_octets address.value))

end Raz.Net
