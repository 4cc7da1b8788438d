import Raz.Net.Ipv6Grammar

/-!
# Taking up the groups

The loops of the parser stay inside the array of groups, and take up what a form spells.

Result: `expand_some`, `words_eq`: the groups between the zeros, and the words that they make up.
-/

namespace Raz.Net

open Access Numerals Outcome List Cells

/-- No access outside, and what is known of the value. -/
abbrev Safe {α : Type} (post : α → Prop) : Run α → Prop := Avoids (· = .outside) post

theorem safe_invalid {α : Type} {post : α → Prop} : Safe post (invalid : Run α) := by
  change ¬ (Fault.reported _ = Fault.outside)
  nofun

/-! ## Digits -/

theorem hexadecimal_cons {value digit : Nat} {byte : UInt8} {text : List UInt8}
    (h : hexValue byte = some digit) :
    ((value <<< 4) ||| digit) * 16 ^ text.length + hexadecimal text =
      value * 16 ^ (byte :: text).length + hexadecimal (byte :: text) := by
  have hlt : digit < 2 ^ 4 := hexValue_lt h
  unfold hexadecimal
  rw [shiftLeft_or hlt, map_cons, number_cons, length_map, h, Option.getD_some,
    length_cons, Nat.pow_succ]
  ring

/-- What the digits of a group leave. -/
def Taken (value digits : Nat) (text : List UInt8) (result : Nat × Nat × List UInt8) : Prop :=
  ∃ taken, text = taken ++ result.2.2 ∧ (∀ byte ∈ taken, (hexValue byte).isSome) ∧
    result.1 = value * 16 ^ taken.length + hexadecimal taken ∧
    result.2.1 = digits + taken.length ∧
    (result.2.2 = [] ∨ ∃ rest, result.2.2 = 58 :: rest)

theorem digitLoop_sound {text : List UInt8} : ∀ {value digits : Nat}, digits ≤ 4 →
    Safe (fun result => result.2.1 ≤ 4 ∧ Taken value digits text result)
      (digitLoop value digits text) := by
  induction text with
  | nil =>
    intro value digits hle
    refine Avoids.pure ⟨hle, [], rfl, forall_mem_nil _, ?_, rfl, .inl rfl⟩
    rw [length_nil, Nat.pow_zero, Nat.mul_one]
    rfl
  | cons byte text ih =>
    intro value digits hle
    rw [digitLoop]
    by_cases hcolon : byte = 58
    · subst hcolon
      rw [if_pos rfl]
      refine Avoids.pure ⟨hle, [], rfl, forall_mem_nil _, ?_, rfl, .inr ⟨text, rfl⟩⟩
      rw [length_nil, Nat.pow_zero, Nat.mul_one]
      rfl
    rw [if_neg hcolon]
    cases hdigit : hexValue byte with
    | none => exact safe_invalid
    | some digit =>
      dsimp only
      by_cases hfull : digits ≥ 4
      · rw [if_pos hfull]
        exact safe_invalid
      rw [if_neg hfull]
      refine (ih (Nat.not_le.mp hfull)).mono ?_
      rintro ⟨result, count, rest⟩ ⟨hcount, taken, htext, htaken, hval, hdigs, hrest⟩
      refine ⟨hcount, byte :: taken, congrArg _ htext, forall_mem_cons.mpr ⟨?_, htaken⟩,
        ?_, ?_, hrest⟩
      · rw [hdigit]
        rfl
      · exact hval.trans (hexadecimal_cons hdigit)
      · rw [hdigs, length_cons, Nat.succ_add, Nat.add_succ]

theorem digitLoop_complete {text rest : List UInt8}
    (hrest : rest = [] ∨ ∃ more, rest = 58 :: more) :
    ∀ {value digits : Nat}, (∀ byte ∈ text, (hexValue byte).isSome) → digits + text.length ≤ 4 →
    digitLoop value digits (text ++ rest) =
      .ok (value * 16 ^ text.length + hexadecimal text, digits + text.length, rest) := by
  induction text with
  | nil =>
    intro value digits _ _
    have hval : value * 16 ^ ([] : List UInt8).length + hexadecimal [] = value := by
      rw [length_nil, Nat.pow_zero, Nat.mul_one]
      rfl
    rw [hval]
    obtain rfl | ⟨more, rfl⟩ := hrest
    · rfl
    · rw [nil_append, digitLoop, if_pos rfl]
      rfl
  | cons byte text ih =>
    intro value digits hdigs hcount
    obtain ⟨hbyte, htext⟩ := forall_mem_cons.mp hdigs
    obtain ⟨digit, hdigit⟩ := Option.isSome_iff_exists.mp hbyte
    have hcolon : byte ≠ 58 := by
      rintro rfl
      nomatch hbyte
    rw [length_cons] at hcount ⊢
    rw [cons_append, digitLoop, if_neg hcolon, hdigit]
    dsimp only
    rw [if_neg (by omega), ih htext (by omega), hexadecimal_cons hdigit, Nat.add_right_comm]
    rfl

/-! ## Groups -/

/-- The array once the groups have been stored. -/
def filled (groups : List Nat) (compression : Option Nat) : Groups :=
  ⟨Cells.written groups 8, groups.length, compression⟩

section

variable {text rest : List UInt8} {groups : List Nat} {compression : Option Nat}

theorem hexGroup_sound (hfree : groups.length < 8) :
    Safe (fun result => ∃ taken, IsHexGroup taken ∧ text = taken ++ result.1 ∧
      (result.1 = [] ∨ ∃ more, result.1 = 58 :: more) ∧
      result.2 = filled (groups ++ [hexadecimal taken]) compression)
      (hexGroup text (filled groups compression)) := by
  refine (digitLoop_sound (Nat.zero_le 4)).bind ?_
  rintro ⟨value, digits, rest⟩ ⟨hdigs, taken, htext, htaken, hval, hcount, hrest⟩
  rw [Nat.zero_mul, Nat.zero_add] at hval
  rw [Nat.zero_add] at hcount
  dsimp only at hdigs hval hcount htext hrest ⊢
  by_cases hzero : digits = 0
  · rw [if_pos hzero]
    exact safe_invalid
  rw [if_neg hzero]
  change Safe _ (store (written groups 8) groups.length value >>= _)
  rw [store_written hfree]
  refine Avoids.pure ⟨taken, ⟨by omega, by omega, htaken⟩, htext, hrest, ?_⟩
  unfold filled
  rw [length_append, hval]
  rfl

theorem hexGroup_complete {taken : List UInt8} (h : IsHexGroup taken)
    (hrest : rest = [] ∨ ∃ more, rest = 58 :: more) (hfree : groups.length < 8) :
    hexGroup (taken ++ rest) (filled groups compression) =
      .ok (rest, filled (groups ++ [hexadecimal taken]) compression) := by
  have hpos := h.nonempty
  unfold hexGroup
  rw [digitLoop_complete hrest h.digits (by rw [Nat.zero_add]; exact h.short), Nat.zero_mul,
    Nat.zero_add, Nat.zero_add]
  change (if taken.length = 0 then _ else _) = _
  rw [if_neg (by omega)]
  change (store (written groups 8) groups.length _ >>= _) = _
  rw [store_written hfree]
  unfold filled
  rw [length_append]
  rfl

theorem embedIpv4_dotted {value : Nat} (h : Dotted text value) (hfree : groups.length ≤ 6) :
    embedIpv4 text (filled groups compression) =
      .ok (filled (groups ++ digitsOf 65536 2 value) compression) := by
  have hparsed : parseIpv4 text = .ok ⟨value⟩ := parseIpv4_iff.mpr h
  obtain ⟨high, low, hgroups⟩ : ∃ high low, digitsOf 65536 2 value = [high, low] :=
    ⟨_, _, (octets_groups ⟨value⟩).symm⟩
  have hsame := (octets_groups ⟨value⟩).trans hgroups
  obtain ⟨hhigh, hlow⟩ := List.cons.inj hsame
  obtain ⟨hlow, -⟩ := List.cons.inj hlow
  have hfirst : (store (written groups 8) groups.length high : Run _) =
      .ok (written (groups ++ [high]) 8) := store_written (by omega)
  have hsecond : (store (written (groups ++ [high]) 8) (groups.length + 1) low :
      Run _) = .ok (written (groups ++ [high, low]) 8) := by
    have hlen : (groups ++ [high]).length = groups.length + 1 := length_append
    rw [← hlen, store_written (by omega), append_assoc]
    rfl
  have hroom : ¬ (filled groups compression).count > 6 := Nat.not_lt.mpr hfree
  unfold embedIpv4
  rw [if_neg hroom, hparsed]
  change (store (written groups 8) groups.length _ >>= _) = _
  rw [hhigh, hlow, hfirst]
  change (store _ (groups.length + 1) _ >>= _) = _
  rw [hsecond, hgroups]
  unfold filled
  rw [length_append]
  rfl

theorem embedIpv4_sound : Safe (fun s => groups.length ≤ 6 ∧ ∃ value, Dotted text value ∧
    s = filled (groups ++ digitsOf 65536 2 value) compression)
    (embedIpv4 text (filled groups compression)) := by
  by_cases hfull : (filled groups compression).count > 6
  · have hout : embedIpv4 text (filled groups compression) = invalid := if_pos hfull
    rw [hout]
    exact safe_invalid
  cases hparsed : parseIpv4 text with
  | error error =>
    have hout : embedIpv4 text (filled groups compression) = invalid := by
      unfold embedIpv4
      rw [if_neg hfull, hparsed]
    rw [hout]
    exact safe_invalid
  | ok address =>
    have hdotted := parseIpv4_iff.mp hparsed
    rw [embedIpv4_dotted hdotted (Nat.not_lt.mp hfull)]
    exact Avoids.pure ⟨Nat.not_lt.mp hfull, _, hdotted, rfl⟩

end

/-! ## The main loop -/

/-- What the loop adds to the groups, with or without two colons. -/
def Adds (text : List UInt8) (groups : List Nat) (compression : Option Nat) (s : Groups) : Prop :=
  (∃ added, Side true text added ∧ groups.length + added.length ≤ 8 ∧
    s = filled (groups ++ added) compression) ∨
  (compression = none ∧ ∃ left right before after, text = left ++ 58 :: 58 :: right ∧
    Spells false left before ∧ Side true right after ∧
    groups.length + (before.length + after.length) ≤ 8 ∧
    s = filled (groups ++ before ++ after) (some (groups.length + before.length)))

theorem Adds.next {taken text : List UInt8} {groups : List Nat} {compression : Option Nat}
    {s : Groups} (htaken : IsHexGroup taken) (htext : text ≠ [])
    (h : Adds text (groups ++ [hexadecimal taken]) compression s) :
    Adds (taken ++ 58 :: text) groups compression s := by
  rw [Adds, length_append, length_singleton] at h
  obtain ⟨added, hside, hcount, rfl⟩ | ⟨hnone, left, right, before, after, rfl, hleft, hright,
    hcount, rfl⟩ := h
  · refine .inl ⟨hexadecimal taken :: added, .inr ?_, ?_, ?_⟩
    · exact .next htaken (hside.resolve_left fun hempty => htext hempty.1)
    · rw [length_cons]
      omega
    · rw [append_assoc]
      rfl
  · refine .inr ⟨hnone, taken ++ 58 :: left, right, hexadecimal taken :: before, after, ?_,
      .next htaken hleft, hright, ?_, ?_⟩
    · rw [append_assoc]
      rfl
    · rw [length_cons]
      omega
    · rw [append_assoc groups, length_cons, Nat.add_assoc, Nat.add_comm 1]
      rfl

/-- **The loop takes up what a form spells**, and stays inside the array. -/
theorem groupLoop_sound {fuel : Nat} : ∀ {text : List UInt8} {groups : List Nat}
    {compression : Option Nat}, text.length < fuel → groups.length ≤ 8 →
    Safe (Adds text groups compression) (groupLoop fuel text (filled groups compression)) := by
  induction fuel with
  | zero => exact fun {_ _ _} h => absurd h (Nat.not_lt_zero _)
  | succ fuel ih =>
    intro text groups compression hfuel hgroups
    rw [groupLoop]
    by_cases hempty : text = []
    · rw [if_pos hempty]
      refine Avoids.pure (.inl ⟨[], .inl ⟨hempty, rfl⟩, hgroups, ?_⟩)
      rw [append_nil]
    rw [if_neg hempty]
    by_cases hfull : (filled groups compression).count ≥ 8
    · rw [if_pos hfull]
      exact safe_invalid
    have hfree : groups.length < 8 := Nat.not_le.mp hfull
    rw [if_neg hfull]
    by_cases hdot : text.contains 46 = true
    · rw [if_pos hdot]
      refine embedIpv4_sound.mono ?_
      rintro s ⟨hcount, value, hdotted, rfl⟩
      refine .inl ⟨_, .inr (.dotted rfl hdotted), ?_, rfl⟩
      rw [length_digitsOf]
      omega
    rw [if_neg hdot]
    refine (hexGroup_sound hfree).bind ?_
    rintro ⟨rest, s⟩ ⟨taken, htaken, htext, hrest, hs⟩
    subst htext hs
    have hcount : (groups ++ [hexadecimal taken]).length ≤ 8 := by
      rw [length_append, length_singleton]
      exact hfree
    match rest, hrest with
    | [], _ =>
      refine Avoids.pure (.inl ⟨[hexadecimal taken], .inr ?_, ?_, rfl⟩)
      · rw [append_nil]
        exact .last htaken
      · rwa [← length_append]
    | [_], _ => exact safe_invalid
    | _ :: byte :: rest, hrest =>
      obtain hrest | ⟨more, hrest⟩ := hrest
      · cases hrest
      obtain ⟨rfl, -⟩ := List.cons.inj hrest
      rw [length_append, length_cons, length_cons] at hfuel
      dsimp only
      by_cases hcolon : byte = 58
      · subst hcolon
        rw [if_pos rfl]
        cases compression with
        | some place => exact safe_invalid
        | none =>
          refine (@ih rest (groups ++ [hexadecimal taken])
            (some (groups ++ [hexadecimal taken]).length) (by omega) hcount).mono ?_
          rintro s (⟨added, hside, hfits, rfl⟩ | ⟨hnone, -⟩)
          · rw [length_append, length_singleton] at hfits ⊢
            refine .inr ⟨rfl, taken, rest, [hexadecimal taken], added, rfl, .last htaken, hside,
              ?_, rfl⟩
            rw [length_singleton]
            omega
          · cases hnone
      · rw [if_neg hcolon]
        refine (@ih (byte :: rest) _ compression (by rw [length_cons]; omega) hcount).mono ?_
        exact fun s hs => hs.next htaken (cons_ne_nil _ _)

/-! ### Texts of groups alone -/

section

variable {fuel : Nat} {text rest : List UInt8} {groups : List Nat} {compression : Option Nat}

theorem groupLoop_group {taken : List UInt8} (h : IsHexGroup taken)
    (hrest : rest = [] ∨ ∃ more, rest = 58 :: more) (hdot : 46 ∉ rest) (hfree : groups.length < 8) :
    groupLoop (fuel + 1) (taken ++ rest) (filled groups compression) =
      match rest with
      | [] => .ok (filled (groups ++ [hexadecimal taken]) compression)
      | [_] => invalid
      | _ :: byte :: rest =>
          if byte = 58 then
            if compression.isSome then invalid
            else groupLoop fuel rest (filled (groups ++ [hexadecimal taken])
              (some (groups.length + 1)))
          else groupLoop fuel (byte :: rest)
            (filled (groups ++ [hexadecimal taken]) compression) := by
  have hempty : taken ++ rest ≠ [] :=
    append_ne_nil_of_left_ne_nil (ne_nil_of_length_pos h.nonempty) rest
  have hroom : ¬ (filled groups compression).count ≥ 8 := Nat.not_le.mpr hfree
  have hnone : ¬ (taken ++ rest).contains 46 = true := by
    rw [contains_iff_mem]
    exact fun hmem => (mem_append.mp hmem).elim h.no_dot hdot
  have hlen : (groups ++ [hexadecimal taken]).length = groups.length + 1 := length_append
  rw [groupLoop, if_neg hempty, if_neg hroom, if_neg hnone, hexGroup_complete h hrest hfree,
    ← hlen]
  rfl

/-- **Groups are taken up** up to the end of the text. -/
theorem groupLoop_spells (h : Spells false text groups) : ∀ {fuel : Nat} {before : List Nat},
    text.length < fuel → before.length + groups.length ≤ 8 →
    groupLoop fuel text (filled before compression) =
      .ok (filled (before ++ groups) compression) := by
  induction h with
  | @last text h =>
    intro fuel before hfuel hcount
    obtain ⟨fuel, rfl⟩ := Nat.exists_eq_succ_of_ne_zero (Nat.ne_of_gt (Nat.zero_lt_of_lt hfuel))
    have hround := @groupLoop_group fuel [] before compression text h (.inl rfl) not_mem_nil hcount
    rwa [append_nil] at hround
  | dotted hdots _ => nomatch hdots
  | @next text rest groups h hrest ih =>
    intro fuel before hfuel hcount
    obtain ⟨fuel, rfl⟩ := Nat.exists_eq_succ_of_ne_zero (Nat.ne_of_gt (Nat.zero_lt_of_lt hfuel))
    rw [length_append, length_cons] at hfuel
    rw [length_cons] at hcount
    have hdot : 46 ∉ 58 :: rest := fun hmem =>
      hrest.no_dot (mem_of_ne_of_mem (by decide) hmem)
    have hround := @groupLoop_group fuel (58 :: rest) before compression text h
      (.inr ⟨rest, rfl⟩) hdot (by omega)
    have hnext := @ih fuel (before ++ [hexadecimal text]) (by omega)
      (by rw [length_append, length_singleton]; omega)
    obtain ⟨byte, others, rfl, hbyte⟩ := hrest.head
    dsimp only at hround
    rw [if_neg hbyte] at hround
    rw [hround, hnext, append_assoc]
    rfl

theorem groupLoop_colons {left right : List UInt8} (h : Spells false left groups)
    (hright : 46 ∉ right) : ∀ {fuel : Nat} {before : List Nat},
    (left ++ 58 :: 58 :: right).length < fuel → before.length + groups.length ≤ 8 →
    ∃ fuel', right.length < fuel' ∧
      groupLoop fuel (left ++ 58 :: 58 :: right) (filled before none) =
        groupLoop fuel' right
          (filled (before ++ groups) (some (before.length + groups.length))) := by
  induction h with
  | @last text h =>
    intro fuel before hfuel hcount
    obtain ⟨fuel, rfl⟩ := Nat.exists_eq_succ_of_ne_zero (Nat.ne_of_gt (Nat.zero_lt_of_lt hfuel))
    rw [length_append, length_cons, length_cons] at hfuel
    have hdot : 46 ∉ 58 :: 58 :: right := fun hmem => hright
      (mem_of_ne_of_mem (by decide) (mem_of_ne_of_mem (by decide) hmem))
    exact ⟨fuel, by omega, groupLoop_group h (.inr ⟨_, rfl⟩) hdot hcount⟩
  | dotted hdots _ => nomatch hdots
  | @next text rest groups h hrest ih =>
    intro fuel before hfuel hcount
    obtain ⟨fuel, rfl⟩ := Nat.exists_eq_succ_of_ne_zero (Nat.ne_of_gt (Nat.zero_lt_of_lt hfuel))
    rw [append_assoc, cons_append] at hfuel ⊢
    rw [length_append, length_cons] at hfuel
    rw [length_cons] at hcount
    have hdot : 46 ∉ 58 :: (rest ++ 58 :: 58 :: right) := by
      intro hmem
      obtain hmem | hmem := mem_append.mp (mem_of_ne_of_mem (by decide) hmem)
      · exact hrest.no_dot hmem
      · exact hright (mem_of_ne_of_mem (by decide) (mem_of_ne_of_mem (by decide) hmem))
    have hround := @groupLoop_group fuel (58 :: (rest ++ 58 :: 58 :: right)) before none text h
      (.inr ⟨_, rfl⟩) hdot (by omega)
    obtain ⟨fuel', hfuel', hnext⟩ := @ih fuel (before ++ [hexadecimal text]) (by omega)
      (by rw [length_append, length_singleton]; omega)
    obtain ⟨byte, others, rfl, hbyte⟩ := hrest.head
    rw [cons_append] at hround hnext
    dsimp only at hround
    rw [if_neg hbyte] at hround
    refine ⟨fuel', hfuel', ?_⟩
    rw [cons_append, hround, hnext, append_assoc, length_append,
      length_singleton, length_cons, Nat.add_assoc, Nat.add_comm 1]
    rfl

/-- A text with a dot is a dotted address as a whole, or nothing. -/
theorem groupLoop_dots {s : Groups} (hdot : 46 ∈ text)
    (h : groupLoop (fuel + 1) text (filled groups compression) = .ok s) :
    ∃ value, Dotted text value ∧ s = filled (groups ++ digitsOf 65536 2 value) compression := by
  have hcontains : text.contains 46 = true := contains_iff_mem.mpr hdot
  rw [groupLoop, if_neg (ne_nil_of_mem hdot), if_pos hcontains] at h
  by_cases hfull : (filled groups compression).count ≥ 8
  · rw [if_pos hfull] at h
    cases h
  · rw [if_neg hfull] at h
    exact (embedIpv4_sound.value h).2

theorem groupLoop_dotted {value : Nat} (h : Dotted text value) (hfree : groups.length ≤ 6) :
    groupLoop (fuel + 1) text (filled groups compression) =
      .ok (filled (groups ++ digitsOf 65536 2 value) compression) := by
  have hroom : ¬ (filled groups compression).count ≥ 8 := by
    change ¬ groups.length ≥ 8
    omega
  have hcontains : text.contains 46 = true := contains_iff_mem.mpr h.dot_mem
  rw [groupLoop, if_neg (ne_nil_of_mem h.dot_mem), if_neg hroom, if_pos hcontains]
  exact embedIpv4_dotted h hfree

end

/-! ## Between the groups and the words -/

theorem expand_none {groups : List Nat} (h : groups.length = 8) :
    expand (filled groups none) = .ok (groups.map some) := by
  have hcount : ¬ (filled groups none).count ≠ 8 := not_not_intro h
  change (if (filled groups none).count ≠ 8 then _ else _) = _
  rw [if_neg hcount]
  exact congrArg _ (written_full h)

theorem expand_some {before after : List Nat} (h : before.length + after.length < 8) :
    expand (filled (before ++ after) (some before.length)) =
      .ok ((before ++ List.replicate (8 - (before.length + after.length)) 0 ++ after).map
        some) := by
  have hlen : (before ++ after).length = before.length + after.length := length_append
  have hroom : ¬ (before ++ after).length ≥ 8 := by
    rw [hlen]
    exact Nat.not_le.mpr h
  have hgap : List.replicate (8 - (before.length + after.length)) (none : Option Nat) ≠ [] := by
    refine ne_nil_of_length_pos ?_
    rw [length_replicate]
    omega
  obtain ⟨gap, hcount, hmoved⟩ := @moveUp_gap ResolveError Nat (before.map some) [] after _ hgap
  have hfilled := @fill_gap ResolveError Nat 0 (after.map some) gap (before.map some)
  rw [length_replicate] at hcount hmoved
  rw [hcount, length_map] at hfilled
  rw [append_nil, append_nil, length_map] at hmoved
  unfold expand filled
  change (if (before ++ after).length ≥ 8 then _ else _) = _
  rw [if_neg hroom]
  change (moveUp (8 - (before ++ after).length) before.length _
    ((before ++ after).length - before.length) >>= _) = _
  unfold written
  rw [hlen, Nat.add_sub_cancel_left, map_append, hmoved]
  refine Eq.trans hfilled ?_
  rw [map_append, map_append, map_replicate]

theorem expand_sound {groups : List Nat} (place : Option Nat)
    (hplace : ∀ compression ∈ place, compression ≤ groups.length) :
    Safe (fun cells => (place = none ∧ groups.length = 8 ∧ cells = groups.map some) ∨
      ∃ before after, groups = before ++ after ∧ place = some before.length ∧
        before.length + after.length < 8 ∧
        cells = (before ++ List.replicate (8 - (before.length + after.length)) 0 ++ after).map some)
      (expand (filled groups place)) := by
  cases place with
  | none =>
    by_cases h : groups.length = 8
    · rw [expand_none h]
      exact Avoids.pure (.inl ⟨rfl, h, rfl⟩)
    · have hout : expand (filled groups none) = invalid := if_pos h
      rw [hout]
      exact safe_invalid
  | some compression =>
    have hle := hplace compression rfl
    have hbefore : (groups.take compression).length = compression := length_take_of_le hle
    have hgroups : groups = groups.take compression ++ groups.drop compression :=
      (take_append_drop compression groups).symm
    have htotal : (groups.take compression).length + (groups.drop compression).length =
        groups.length := by
      rw [← length_append, ← hgroups]
    by_cases h : groups.length ≥ 8
    · have hout : expand (filled groups (some compression)) = invalid := if_pos h
      rw [hout]
      exact safe_invalid
    have hlt := Nat.not_le.mp h
    rw [← htotal] at hlt
    have hexpand := expand_some hlt
    rw [← hgroups, hbefore] at hexpand
    rw [hexpand]
    refine Avoids.pure (.inr ⟨_, _, hgroups, congrArg some hbefore.symm, hlt, ?_⟩)
    rw [hbefore]

theorem shift_group {word : UInt64} {group : Nat} (hword : word.toNat < 2 ^ 48)
    (hgroup : group < 65536) :
    ((word <<< 16) ||| UInt64.ofNat group).toNat = word.toNat * 65536 + group := by
  have hlt : group < 2 ^ 16 := hgroup
  have hbits : (16 : UInt64).toNat % 64 = 16 := rfl
  have hfits : word.toNat <<< 16 < 2 ^ 64 := by
    rw [Nat.shiftLeft_eq]
    exact Nat.mul_lt_mul_of_pos_right hword (by decide)
  have hsmall : group < 2 ^ 64 := Nat.lt_trans hgroup (by decide)
  rw [UInt64.toNat_or, UInt64.toNat_shiftLeft, hbits, Nat.mod_eq_of_lt hfits,
    UInt64.toNat_ofNat_of_lt' hsmall, shiftLeft_or hlt]
  rfl

theorem wordLoop_eq {groups : List Nat} (hlen : groups.length = 8)
    (hgroups : ∀ group ∈ groups, group < 65536) : ∀ {count index : Nat} {taken : List Nat}
    {word : UInt64}, index + count ≤ 8 → taken.length + count ≤ 4 →
    (∀ group ∈ taken, group < 65536) → word.toNat = number 65536 taken →
    ∃ result, wordLoop (groups.map some) index count word = .ok result ∧
      result.toNat = number 65536 (taken ++ (groups.drop index).take count) := by
  intro count
  induction count with
  | zero =>
    intro index taken word _ _ _ hword
    exact ⟨word, rfl, by rw [take_zero, append_nil, hword]⟩
  | succ count ih =>
    intro index taken word hidx hcount htaken hword
    have hlt : index < groups.length := by omega
    have hgroup := hgroups _ (getElem_mem hlt)
    have hload : (load (groups.map some) index : Run Nat) = .ok groups[index] := by
      rw [← written_full hlen]
      exact load_written hlt
    have hsmall : word.toNat < 2 ^ 48 := by
      rw [hword]
      have hthree : 65536 ^ taken.length ≤ 65536 ^ 3 := Nat.pow_le_pow_right (by decide) (by omega)
      exact Nat.lt_of_lt_of_le (number_lt (by decide) htaken) hthree
    have hshift := shift_group hsmall hgroup
    rw [hword, ← number_concat] at hshift
    obtain ⟨result, hres, hval⟩ := @ih (index + 1) (taken ++ [groups[index]]) _ (by omega)
      (by rw [length_append, length_singleton]; omega)
      (forall_mem_append.mpr ⟨htaken, forall_mem_singleton.mpr hgroup⟩) hshift
    refine ⟨result, ?_, ?_⟩
    · rw [wordLoop, hload]
      exact hres
    · rw [hval, drop_eq_getElem_cons hlt, take_succ_cons, append_assoc]
      rfl

theorem words_eq {groups : List Nat} (hlen : groups.length = 8)
    (hgroups : ∀ group ∈ groups, group < 65536) :
    ∃ high low, wordLoop (groups.map some) 0 4 0 = .ok high ∧
      wordLoop (groups.map some) 4 4 0 = .ok low ∧
      high.toNat * 2 ^ 64 + low.toNat = number 65536 groups := by
  obtain ⟨high, hhigh, hfirst⟩ := @wordLoop_eq groups hlen hgroups 4 0 [] 0 (by decide)
    (by decide) (forall_mem_nil _) rfl
  obtain ⟨low, hlow, hsecond⟩ := @wordLoop_eq groups hlen hgroups 4 4 [] 0 (by decide)
    (by decide) (forall_mem_nil _) rfl
  refine ⟨high, low, hhigh, hlow, ?_⟩
  have hrest : (groups.drop 4).length = 4 := by
    rw [length_drop, hlen]
  rw [nil_append] at hfirst hsecond
  rw [drop_zero] at hfirst
  rw [take_of_length_le (Nat.le_of_eq hrest)] at hsecond
  rw [hfirst, hsecond, ← take_append_drop 4 groups, number_append]
  simp [hrest]

end Raz.Net
