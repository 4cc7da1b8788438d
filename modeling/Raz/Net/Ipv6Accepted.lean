import Raz.Net.Ipv6Parsing

/-!
# The texts that are accepted

What the parser accepts is a form of the address that it returns, and a form is accepted unless a
dotted address stands behind a group, or the scope is too large.

Result: `acceptsForms_iff`: acceptance is right if and only if the text is no form of these two
kinds.
-/

namespace Raz.Net

open Access Numerals Outcome List

variable {byte : UInt8} {scope : Nat} {text body : List UInt8} {groups : List Nat}

/-! ## Scopes -/

theorem digit_iff : asciiDigit byte ↔ ¬ (byte < 48 ∨ 57 < byte) := by
  unfold asciiDigit
  rw [Bool.and_eq_true, decide_eq_true_iff, decide_eq_true_iff, not_or, UInt8.not_lt, UInt8.not_lt]

theorem decimal_step (h : asciiDigit byte) :
    (scope * 10 + byte.toNat - 48) * 10 ^ text.length + decimal text =
      scope * 10 ^ (byte :: text).length + decimal (byte :: text) := by
  have hlow := (asciiDigit_iff.mp h).1
  have hstep : scope * 10 + byte.toNat - 48 = scope * 10 + (byte.toNat - 48) := by omega
  rw [hstep, decimal_cons, length_cons, Nat.pow_succ]
  ring

theorem decimal_start (scope : Nat) :
    scope * 10 ^ ([] : List UInt8).length + decimal [] = scope := by
  rw [length_nil, Nat.pow_zero, Nat.mul_one]
  rfl

theorem scopeLoop_sound : ∀ {scope : Nat}, scope ≤ 2147483649 →
    Safe (fun result => (∀ byte ∈ text, asciiDigit byte) ∧ result ≤ 2147483649 ∧
      result = scope * 10 ^ text.length + decimal text) (scopeLoop scope text) := by
  induction text with
  | nil =>
    intro scope hle
    exact Avoids.pure ⟨forall_mem_nil _, hle, (decimal_start scope).symm⟩
  | cons byte text ih =>
    intro scope hle
    rw [scopeLoop]
    by_cases hstop : byte < 48 ∨ 57 < byte ∨ scope > 214748364
    · rw [if_pos hstop]
      exact safe_invalid
    rw [if_neg hstop]
    rw [← or_assoc, not_or, Nat.not_lt] at hstop
    have hdigit := digit_iff.mpr hstop.1
    have hhigh := (asciiDigit_iff.mp hdigit).2
    refine (ih (by omega)).mono ?_
    rintro result ⟨htext, hres, hval⟩
    exact ⟨forall_mem_cons.mpr ⟨hdigit, htext⟩, hres, hval.trans (decimal_step hdigit)⟩

theorem scopeLoop_complete {text : List UInt8} : ∀ {scope : Nat}, (∀ byte ∈ text, asciiDigit byte) →
    scope * 10 ^ text.length + decimal text ≤ 2147483649 →
    scopeLoop scope text = .ok (scope * 10 ^ text.length + decimal text) := by
  induction text with
  | nil =>
    intro scope _ _
    rw [decimal_start]
    rfl
  | cons byte text ih =>
    intro scope hdigs hle
    obtain ⟨hdigit, htext⟩ := forall_mem_cons.mp hdigs
    have hten : scope * 10 ≤ scope * 10 ^ (byte :: text).length :=
      Nat.mul_le_mul_left _ (Nat.le_self_pow (Nat.succ_ne_zero _) 10)
    have hgo : ¬ (byte < 48 ∨ 57 < byte ∨ scope > 214748364) := by
      rw [← or_assoc, not_or, Nat.not_lt]
      exact ⟨digit_iff.mp hdigit, by omega⟩
    rw [scopeLoop, if_neg hgo]
    rw [← decimal_step hdigit] at hle ⊢
    exact ih htext hle

theorem splitScope_sound (text : List UInt8) :
    Safe (fun result => Scoped text result.1 result.2 ∧ result.2 ≤ 2147483649)
      (splitScope text) := by
  have hfound (hlt : text.findIdx (· = 37) < text.length) : text[text.findIdx (· = 37)] = 37 :=
    of_decide_eq_true (findIdx_getElem (w := hlt))
  unfold splitScope
  generalize text.findIdx (· = 37) = percent at hfound ⊢
  by_cases hpercent : percent < text.length
  · rw [if_pos hpercent]
    by_cases hempty : percent = 0 ∨ percent + 1 ≥ text.length
    · rw [if_pos hempty]
      exact safe_invalid
    rw [if_neg hempty]
    rw [not_or, Nat.not_le] at hempty
    have htext : text.take percent ++ 37 :: text.drop (percent + 1) = text := by
      have hdrop := drop_eq_getElem_cons hpercent
      rw [hfound hpercent] at hdrop
      rw [← hdrop, take_append_drop]
    refine (scopeLoop_sound (Nat.zero_le _)).bind ?_
    rintro scope ⟨hdigs, hscope, hval⟩
    rw [Nat.zero_mul, Nat.zero_add] at hval
    have hne : text.drop (percent + 1) ≠ [] := by
      refine ne_nil_of_length_pos ?_
      rw [length_drop]
      exact Nat.sub_pos_of_lt hempty.2
    have hscoped := @Scoped.behind (text.take percent) _ hne hdigs
    rw [htext, ← hval] at hscoped
    exact Avoids.pure ⟨hscoped, hscope⟩
  · rw [if_neg hpercent]
    exact Avoids.pure ⟨.without, Nat.zero_le _⟩

theorem splitScope_complete (h : Scoped text body scope) (hbody : body ≠ []) (hfree : 37 ∉ body)
    (hscope : scope ≤ 2147483649) :
    splitScope text = .ok (body, scope) := by
  have hnone : body.findIdx (· = 37) = body.length := by
    rw [findIdx_eq_length]
    intro byte hbyte
    exact decide_eq_false fun heq => hfree (heq ▸ hbyte)
  cases h with
  | without =>
    unfold splitScope
    rw [if_neg (by rw [hnone]; exact Nat.lt_irrefl _)]
  | @behind body digits hdigs hall =>
    have hfound : (body ++ 37 :: digits).findIdx (· = 37) = body.length := by
      rw [findIdx_append, hnone, if_neg (Nat.lt_irrefl _), findIdx_cons]
      exact Nat.zero_add _
    have hpos := length_pos_iff.mpr hbody
    have hmore := length_pos_iff.mpr hdigs
    have hscopes := @scopeLoop_complete digits 0 hall (by rwa [Nat.zero_mul, Nat.zero_add])
    have hdrop : (body ++ 37 :: digits).drop (body.length + 1) = digits := by
      rw [drop_append, drop_eq_nil_of_le (Nat.le_succ _), Nat.add_sub_cancel_left]
      rfl
    rw [Nat.zero_mul, Nat.zero_add] at hscopes
    unfold splitScope
    rw [hfound, if_pos (by rw [length_append, length_cons]; omega),
      if_neg (by rw [length_append, length_cons]; omega), hdrop, hscopes,
      take_left]
    rfl

/-! ## Where dots stand -/

theorem not_groupBeforeDots (h : 46 ∉ text) : ¬ GroupBeforeDots text := by
  rintro ⟨front, digit, back, -, rfl, hdot⟩
  exact h (mem_append_right _ (mem_cons_of_mem _ (mem_cons_of_mem _ hdot)))

theorem not_groupBeforeDots_colons (h : 58 ∉ text) : ¬ GroupBeforeDots (58 :: 58 :: text) := by
  rintro ⟨front, digit, back, hdigit, heq, -⟩
  match front, heq with
  | [], heq => exact hdigit (List.cons.inj heq).1.symm
  | [_], heq => exact hdigit (List.cons.inj (List.cons.inj heq).2).1.symm
  | _ :: _ :: front, heq =>
    have htext : text = front ++ digit :: 58 :: back := (List.cons.inj (List.cons.inj heq).2).2
    rw [htext] at h
    exact h (mem_append_right _ (mem_cons_of_mem _ mem_cons_self))

theorem Scoped.groupBeforeDots (h : Scoped text body scope) :
    GroupBeforeDots text ↔ GroupBeforeDots body := by
  cases h with
  | without => exact Iff.rfl
  | @behind body digits _ hdigs =>
    have hfree {byte : UInt8} (hdigit : ¬ asciiDigit byte) (hne : byte ≠ 37) :
        byte ∉ 37 :: digits := fun hmem =>
      hdigit (hdigs byte (mem_of_ne_of_mem hne hmem))
    refine ⟨?_, fun hbody => hbody.append_right _⟩
    rintro ⟨front, digit, back, hdigit, heq, hdot⟩
    obtain ⟨rest, rfl, hrest⟩ | ⟨rest, rfl, hrest⟩ := append_eq_append_iff.mp heq
    · have hcolon : 58 ∈ 37 :: digits := by
        rw [hrest]
        exact mem_append_right _ (mem_cons_of_mem _ mem_cons_self)
      exact absurd hcolon (hfree (by decide) (by decide))
    · match rest, hrest with
      | [], hrest =>
        obtain ⟨-, hback⟩ := List.cons.inj hrest
        have hcolon : 58 ∈ 37 :: digits := by
          rw [← hback]
          exact mem_cons_of_mem _ mem_cons_self
        exact absurd hcolon (hfree (by decide) (by decide))
      | [_], hrest => exact absurd (List.cons.inj (List.cons.inj hrest).2).1 (by decide)
      | _ :: _ :: rest, hrest =>
        obtain ⟨rfl, hback⟩ := List.cons.inj hrest
        obtain ⟨rfl, rfl⟩ := List.cons.inj hback
        obtain hdot | hdot := mem_append.mp hdot
        · exact ⟨front, digit, rest, hdigit, rfl, hdot⟩
        · exact absurd hdot (hfree (by decide) (by decide))

/-! ## Acceptance -/

theorem leadingColons_sound (text : List UInt8) :
    Safe (fun result => (result.1 = none ∧ text = result.2) ∨
      (result.1 = some 0 ∧ text = 58 :: 58 :: result.2)) (leadingColons text) := by
  unfold leadingColons
  by_cases hfirst : text.head? = some 58
  · rw [if_pos hfirst]
    match text, hfirst with
    | [_], _ => exact safe_invalid
    | _ :: second :: rest, hfirst =>
      cases hfirst
      by_cases hsecond : second = 58
      · subst hsecond
        exact Avoids.pure (.inr ⟨rfl, rfl⟩)
      · rw [if_pos (.inr fun heq => hsecond (Option.some.inj heq))]
        exact safe_invalid
  · rw [if_neg hfirst]
    exact Avoids.pure (.inl ⟨rfl, rfl⟩)

theorem leadingColons_head {rest : List UInt8} (h : byte ≠ 58) :
    leadingColons (byte :: rest) = .ok (none, byte :: rest) :=
  if_neg fun heq => h (Option.some.inj heq)

theorem Side.spells {dots : Bool} (h : Side dots text groups) (hne : groups ≠ []) :
    Spells dots text groups :=
  h.resolve_left fun hempty => hne hempty.2

theorem groups_open {s : Groups} (hadds : Adds text [] none s)
    (hloop : groupLoop (text.length + 1) text (filled [] none) = .ok s) :
    Safe (fun cells => ∃ groups, Body text groups ∧ ¬ GroupBeforeDots text ∧
      cells = groups.map some) (expand s) := by
  obtain ⟨added, hside, hcount, rfl⟩ | ⟨-, left, right, before, after, rfl, hleft, hright, hcount,
    rfl⟩ := hadds
  · refine (expand_sound none (fun _ h => nomatch h)).mono ?_
    rintro cells (⟨-, hlen, rfl⟩ | ⟨_, _, -, hplace, -⟩)
    · have hne : added ≠ [] := by
        rintro rfl
        exact absurd hlen (by decide)
      refine ⟨added, .full (hside.spells hne) hlen, not_groupBeforeDots fun hdot => ?_, rfl⟩
      obtain ⟨value, -, hs⟩ := groupLoop_dots hdot hloop
      have htwo : ([] ++ added).length = ([] ++ digitsOf 65536 2 value).length :=
        congrArg Groups.count hs
      rw [hlen, nil_append, length_digitsOf] at htwo
      exact absurd htwo (by decide)
    · cases hplace
  · have hlen : before.length = ([] : List Nat).length + before.length := (Nat.zero_add _).symm
    refine (expand_sound _ ?_).mono ?_
    · rintro compression hcompression
      cases hcompression
      rw [← hlen, nil_append, length_append]
      exact Nat.le_add_right _ _
    · rintro cells (⟨hplace, -⟩ | ⟨first, second, hgroups, hplace, hlt, rfl⟩)
      · cases hplace
      rw [← hlen] at hplace
      obtain ⟨rfl, rfl⟩ := append_inj hgroups (Option.some.inj hplace)
      refine ⟨_, .compressed (.inr hleft) hright hlt, not_groupBeforeDots fun hdot => ?_, rfl⟩
      obtain ⟨value, -, hs⟩ := groupLoop_dots hdot hloop
      nomatch congrArg Groups.compression hs

theorem groups_colons {s : Groups} (hadds : Adds text [] (some 0) s)
    (hloop : groupLoop (text.length + 1) text (filled [] (some 0)) = .ok s) :
    Safe (fun cells => ∃ groups, Body (58 :: 58 :: text) groups ∧
      ¬ GroupBeforeDots (58 :: 58 :: text) ∧ cells = groups.map some) (expand s) := by
  obtain ⟨added, hside, hcount, rfl⟩ | ⟨hplace, -⟩ := hadds
  · refine (expand_sound (some 0) ?_).mono ?_
    · rintro _ hcompression
      cases hcompression
      exact Nat.zero_le _
    rintro cells (⟨hplace, -⟩ | ⟨before, after, hgroups, hplace, hlt, rfl⟩)
    · cases hplace
    obtain rfl := length_eq_zero_iff.mp (Option.some.inj hplace).symm
    obtain rfl : added = after := hgroups
    refine ⟨_, .compressed (.inl ⟨rfl, rfl⟩) hside hlt, ?_, rfl⟩
    by_cases hdot : 46 ∈ text
    · obtain ⟨value, hdotted, -⟩ := groupLoop_dots hdot hloop
      exact not_groupBeforeDots_colons hdotted.no_colon
    · refine not_groupBeforeDots fun hmem => hdot ?_
      exact mem_of_ne_of_mem (by decide) (mem_of_ne_of_mem (by decide) hmem)
  · cases hplace

/-- **What is accepted** is a form of what is returned, with a small scope and no group before a
dot. -/
theorem parseIpv6_sound (text : List UInt8) :
    Safe (fun address => Denotes text address ∧ address.scopeId ≤ 2147483649 ∧
      ¬ GroupBeforeDots text) (parseIpv6 text) := by
  unfold parseIpv6
  by_cases hlen : text.length < 2 ∨ text.length > 64
  · rw [if_pos hlen]
    exact safe_invalid
  rw [if_neg hlen]
  refine (splitScope_sound text).bind ?_
  rintro ⟨body, scope⟩ ⟨hscoped, hscope⟩
  refine (leadingColons_sound body).bind ?_
  rintro ⟨place, rest⟩ hplace
  have hstart : ([] : List Nat).length ≤ 8 := Nat.zero_le 8
  refine (groupLoop_sound (Nat.lt_succ_self rest.length) hstart).result.bind ?_
  rintro s ⟨hadds, hloop⟩
  have hgroups : Safe (fun cells => ∃ groups, Body body groups ∧ ¬ GroupBeforeDots body ∧
      cells = groups.map some) (expand s) := by
    obtain ⟨rfl, rfl⟩ | ⟨rfl, rfl⟩ := hplace
    · exact groups_open hadds hloop
    · exact groups_colons hadds hloop
  refine hgroups.bind ?_
  rintro _ ⟨groups, hbody, hdots, rfl⟩
  obtain ⟨high, low, hhigh, hlow, hval⟩ := words_eq hbody.length hbody.lt
  rw [hhigh]
  change Safe _ (wordLoop _ 4 4 0 >>= _)
  rw [hlow]
  exact Avoids.pure ⟨⟨body, scope, groups, hscoped, hbody, rfl, rfl, hval⟩,
    Int.ofNat_le.mpr hscope, hscoped.groupBeforeDots.not.mpr hdots⟩

/-- The groups of a form are taken up if no group stands before a dot. -/
theorem groups_complete (h : Body body groups) (hdots : ¬ GroupBeforeDots body) :
    ∃ place text s, leadingColons body = .ok (place, text) ∧
      groupLoop (text.length + 1) text (filled [] place) = .ok s ∧
      expand s = .ok (groups.map some) := by
  cases h with
  | full h hlen =>
    obtain hplain | ⟨value, -, rfl⟩ | hgroup := h.cases
    · obtain ⟨byte, rest, rfl, hbyte⟩ := h.head
      exact ⟨none, _, _, leadingColons_head hbyte, groupLoop_spells hplain (Nat.lt_succ_self _)
        (by rw [length_nil, hlen]), expand_none hlen⟩
    · rw [length_digitsOf] at hlen
      exact absurd hlen (by decide)
    · exact absurd hgroup hdots
  | @compressed left right before after hleft hright hlt =>
    obtain ⟨rfl, rfl⟩ | hleft := hleft
    · refine ⟨some 0, right, filled after (some 0), rfl, ?_, expand_some hlt⟩
      have hfits : ([] : List Nat).length + after.length ≤ 8 := Nat.le_of_lt hlt
      obtain ⟨rfl, rfl⟩ | hright := hright
      · rfl
      obtain hplain | ⟨value, hdotted, rfl⟩ | hgroup := hright.cases
      · exact groupLoop_spells hplain (Nat.lt_succ_self _) hfits
      · exact groupLoop_dotted hdotted (Nat.zero_le 6)
      · exact absurd (hgroup.append_left [58, 58]) hdots
    · have hdot : 46 ∉ right := fun hmem =>
        hdots (hleft.groupBeforeDots (mem_cons_of_mem _ hmem))
      obtain ⟨fuel, hfuel, hloop⟩ := @groupLoop_colons before left right hleft hdot _ []
        (Nat.lt_succ_self _) (by rw [length_nil]; omega)
      obtain ⟨byte, rest, hhead, hbyte⟩ := hleft.head
      have hopen : leadingColons (left ++ 58 :: 58 :: right) =
          .ok (none, left ++ 58 :: 58 :: right) := by
        rw [hhead]
        exact leadingColons_head hbyte
      refine ⟨none, _, _, hopen, hloop.trans ?_, expand_some hlt⟩
      rw [nil_append, length_nil, Nat.zero_add]
      obtain ⟨rfl, rfl⟩ | hright := hright
      · obtain ⟨fuel, rfl⟩ := Nat.exists_eq_succ_of_ne_zero (Nat.ne_of_gt (Nat.zero_lt_of_lt hfuel))
        rw [append_nil]
        rfl
      obtain hplain | ⟨value, hdotted, -⟩ | ⟨_, _, _, -, rfl, hmem⟩ := hright.cases
      · exact groupLoop_spells hplain hfuel (Nat.le_of_lt hlt)
      · exact absurd hdotted.dot_mem hdot
      · exact absurd (mem_append_right _ (mem_cons_of_mem _ (mem_cons_of_mem _ hmem))) hdot

theorem Body.text_ne_nil (h : Body text groups) : text ≠ [] := by
  cases h with
  | full h _ =>
    obtain ⟨byte, rest, rfl, -⟩ := h.head
    exact cons_ne_nil _ _
  | compressed _ _ _ => exact append_ne_nil_of_right_ne_nil _ (cons_ne_nil _ _)

theorem words_inj {high low high' low' : UInt64}
    (h : high.toNat * 2 ^ 64 + low.toNat = high'.toNat * 2 ^ 64 + low'.toNat) :
    high = high' ∧ low = low' := by
  have hlow := low.toNat_lt
  have hlow' := low'.toNat_lt
  constructor
  · exact UInt64.toNat_inj.mp (by omega)
  · exact UInt64.toNat_inj.mp (by omega)

/-- **A form is accepted** if its scope is small and no group stands before a dot. -/
theorem parseIpv6_complete {address : IpAddress} (hlow : 2 ≤ text.length) (hhigh : text.length ≤ 64)
    (h : Denotes text address) (hscope : address.scopeId ≤ 2147483649)
    (hdots : ¬ GroupBeforeDots text) : parseIpv6 text = .ok address := by
  obtain ⟨body, scope, groups, hscoped, hbody, hfamily, hid, hval⟩ := h
  rw [hid] at hscope
  have hsplit := splitScope_complete hscoped hbody.text_ne_nil hbody.no_percent
    (Int.ofNat_le.mp hscope)
  obtain ⟨place, rest, s, hleading, hloop, hexpand⟩ := groups_complete hbody
    (hscoped.groupBeforeDots.not.mp hdots)
  obtain ⟨high, low, hfirst, hsecond, hwords⟩ := words_eq hbody.length hbody.lt
  obtain ⟨rfl, rfl⟩ := words_inj (hwords.trans hval.symm)
  have hlen : ¬ (text.length < 2 ∨ text.length > 64) := by omega
  unfold parseIpv6
  rw [if_neg hlen, hsplit]
  change (leadingColons body >>= _) = _
  rw [hleading]
  change (groupLoop (rest.length + 1) rest (filled [] place) >>= _) = _
  rw [hloop]
  change (expand s >>= _) = _
  rw [hexpand]
  change (wordLoop _ 0 4 0 >>= _) = _
  rw [hfirst]
  change (wordLoop _ 4 4 0 >>= _) = _
  rw [hsecond]
  change Except.ok (IpAddress.mk 6 _ _ _) = _
  rw [← hfamily, ← hid]

/-! ## When acceptance is right -/

/-- The array is never left, and the texts of an address are its forms. -/
def AcceptsForms (text : List UInt8) : Prop :=
  parseIpv6 text ≠ .error .outside ∧
    ∀ address, parseIpv6 text = .ok address ↔ Denotes text address

/-- **Acceptance is right** if and only if the text is not a form with a group before a dotted
address, nor one with a scope above 2147483649. -/
theorem acceptsForms_iff {text : List UInt8} (hlow : 2 ≤ text.length) (hhigh : text.length ≤ 64) :
    AcceptsForms text ↔ ¬ ∃ address, Denotes text address ∧
      (GroupBeforeDots text ∨ 2147483649 < address.scopeId) := by
  have hsound := parseIpv6_sound text
  constructor
  · rintro ⟨-, haccepts⟩ ⟨address, hdenotes, hkind⟩
    obtain ⟨-, hscope, hdots⟩ := hsound.value ((haccepts address).mpr hdenotes)
    obtain hgroup | hlarge := hkind
    · exact hdots hgroup
    · exact absurd hscope (Int.not_le.mpr hlarge)
  · intro hnone
    refine ⟨fun houtside => hsound.failure houtside rfl, fun address => ⟨fun h => ?_, fun h => ?_⟩⟩
    · exact (hsound.value h).1
    · refine parseIpv6_complete hlow hhigh h (Int.not_lt.mp fun hlarge => ?_) fun hgroup => ?_
      · exact hnone ⟨address, h, .inr hlarge⟩
      · exact hnone ⟨address, h, .inl hgroup⟩

/-- The loopback address is accepted. -/
theorem acceptsForms_loopback : AcceptsForms [58, 58, 49] := by
  refine (acceptsForms_iff (by decide) (by decide)).mpr ?_
  rintro ⟨address, ⟨body, scope, groups, hscoped, -, -, hid, -⟩, hgroup | hlarge⟩
  · exact not_groupBeforeDots (by decide) hgroup
  rw [hid] at hlarge
  generalize htext : ([58, 58, 49] : List UInt8) = text at hscoped
  cases hscoped with
  | without => exact absurd hlarge (by decide)
  | behind _ _ =>
    have hpercent : (37 : UInt8) ∈ [58, 58, 49] := by
      rw [htext]
      exact mem_append_right _ mem_cons_self
    exact absurd hpercent (by decide)

/-- The text of an IPv4-mapped address: `::ffff:192.0.2.1`. -/
def mappedText : List UInt8 :=
  [58, 58, 102, 102, 102, 102, 58, 49, 57, 50, 46, 48, 46, 50, 46, 49]

/-- It is a form, and is rejected. -/
theorem mapped_rejected : Denotes mappedText ⟨6, 0, 281473902969345, 0⟩ ∧
    parseIpv6 mappedText = .error (.reported .invalidAddressSyntax) ∧
    ¬ AcceptsForms mappedText := by
  have hgroup : IsHexGroup [102, 102, 102, 102] := ⟨by decide, by decide, by decide +kernel⟩
  have hdotted : Dotted [49, 57, 50, 46, 48, 46, 50, 46, 49] (number 256 [192, 0, 2, 1]) := by
    refine ⟨[[49, 57, 50], [48], [50], [49]], rfl, ?_, rfl, rfl⟩
    have hoctet (text : List UInt8) (h : 1 ≤ text.length ∧ text.length ≤ 3 ∧
        (∀ byte ∈ text, asciiDigit byte) ∧ decimal text ≤ 255) : IsOctet text :=
      ⟨h.1, h.2.1, h.2.2.1, h.2.2.2⟩
    simp only [forall_mem_cons]
    exact ⟨hoctet _ (by decide +kernel), hoctet _ (by decide +kernel), hoctet _ (by decide +kernel),
      hoctet _ (by decide +kernel), forall_mem_nil _⟩
  have hbody : Body mappedText _ := @Body.compressed [] _ [] _ (.inl ⟨rfl, rfl⟩)
    (.inr (.next hgroup (.dotted rfl hdotted))) (by decide)
  have hdenotes : Denotes mappedText ⟨6, 0, 281473902969345, 0⟩ :=
    ⟨mappedText, 0, _, .without, hbody, rfl, rfl, by decide +kernel⟩
  have hparsed : parseIpv6 mappedText = .error (.reported .invalidAddressSyntax) := rfl
  refine ⟨hdenotes, hparsed, fun haccepts => ?_⟩
  have hok := (haccepts.2 _).mpr hdenotes
  rw [hparsed] at hok
  nomatch hok

end Raz.Net
