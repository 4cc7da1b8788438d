import Raz.Http.Model

/-!
# Where the searches of the parser end

The line end and the end of the headers as the first place of a pattern. The search for the end of
the headers goes from CR to CR and asks for four bytes below its limit before each.

Result: `findCrlf_eq_some_iff`, `findHeaderEnd_eq_some_iff`: where the searches end.
-/

namespace Raz.Http

open List

variable {start count found : Nat}

/-! ## Bytes -/

theorem slice_take {source : List UInt8} {stop : Nat} (h : start + count ≤ stop) :
    (slice source start stop).take count = slice source start (start + count) := by
  unfold slice
  rw [take_take, Nat.min_eq_left (by omega), Nat.add_sub_cancel_left]

theorem slice_drop {source : List UInt8} {stop : Nat} :
    (slice source start stop).drop count = slice source (start + count) stop := by
  unfold slice
  rw [drop_take, drop_drop, Nat.sub_sub]

theorem findByte_cons (b : UInt8) (rest : List UInt8) (value : UInt8) :
    findByte (b :: rest) value =
      if b = value then some 0 else (findByte rest value).map (· + 1) := by
  unfold findByte
  rw [List.idxOf?_cons]
  by_cases h : b = value
  · rw [if_pos h, if_pos (beq_iff_eq.mpr h)]
  · rw [if_neg h, if_neg fun hbeq => h (beq_iff_eq.mp hbeq)]

theorem findByte_lt {bytes : List UInt8} {value : UInt8} {relative : Nat}
    (h : findByte bytes value = some relative) : relative < bytes.length :=
  (List.idxOf?_eq_some_iff.mp h).1

/-! ## The first place -/

/-- The first place where a pattern stands. -/
structure FirstAt (pattern source : List UInt8) (position : Nat) : Prop where
  here : (source.drop position).take pattern.length = pattern
  first : ∀ earlier < position, (source.drop earlier).take pattern.length ≠ pattern

section

variable {pattern source : List UInt8} {position : Nat}

theorem FirstAt.le (h : FirstAt pattern source position) (hne : pattern ≠ []) :
    position + pattern.length ≤ source.length := by
  have hlen := congrArg List.length h.here
  have hpos := length_pos_iff.mpr hne
  rw [length_take, length_drop] at hlen
  omega

theorem FirstAt.unique {other : Nat} (h : FirstAt pattern source position)
    (hother : FirstAt pattern source other) : position = other := by
  rcases Nat.lt_trichotomy position other with hlt | heq | hgt
  · exact absurd h.here (hother.first position hlt)
  · exact heq
  · exact absurd hother.here (h.first other hgt)

theorem drop_take_eq {offset size : Nat} (h : offset + size ≤ count) :
    ((source.take count).drop offset).take size = (source.drop offset).take size := by
  rw [drop_take, take_take, Nat.min_eq_left (by omega)]

theorem FirstAt.of_take (hne : pattern ≠ []) (h : FirstAt pattern (source.take count) position) :
    FirstAt pattern source position := by
  have hle := h.le hne
  rw [length_take] at hle
  constructor
  · rw [← h.here, drop_take_eq (by omega)]
    simp
  · intro earlier hlt
    have hfirst := h.first earlier hlt
    rwa [drop_take_eq (by omega)] at hfirst

theorem FirstAt.take (h : FirstAt pattern source position)
    (hcount : position + pattern.length ≤ count) :
    FirstAt pattern (source.take count) position := by
  constructor
  · rw [drop_take_eq hcount]
    exact h.here
  · intro earlier hlt
    rw [drop_take_eq (by omega)]
    exact h.first earlier hlt

theorem firstAt_zero (h : source.take pattern.length = pattern) : FirstAt pattern source 0 :=
  ⟨h, fun _ hlt => absurd hlt (Nat.not_lt_zero _)⟩

theorem firstAt_cons {byte : UInt8} (h : (byte :: source).take pattern.length ≠ pattern) :
    FirstAt pattern (byte :: source) (position + 1) ↔ FirstAt pattern source position := by
  constructor
  · exact fun hat => ⟨hat.here, fun earlier hlt => hat.first (earlier + 1) (Nat.succ_lt_succ hlt)⟩
  refine fun hat => ⟨hat.here, fun earlier hlt => ?_⟩
  cases earlier with
  | zero => exact h
  | succ earlier => exact hat.first earlier (Nat.lt_of_succ_lt_succ hlt)

theorem not_firstAt_zero {byte : UInt8} (h : (byte :: source).take pattern.length ≠ pattern) :
    ¬ FirstAt pattern (byte :: source) 0 := fun hat => h hat.here

end

/-! ## The searches -/

def lineEnd : List UInt8 := [13, 10]

theorem findCrlfFrom_eq_some_iff {source : List UInt8} : ∀ {cursor found : Nat},
    findCrlfFrom cursor source = some found ↔
      ∃ offset, found = cursor + offset ∧ FirstAt lineEnd source offset := by
  induction source with
  | nil =>
    intro cursor found
    refine iff_of_false nofun ?_
    rintro ⟨offset, -, hat⟩
    exact absurd (hat.le (cons_ne_nil _ _)) (by simp [lineEnd])
  | cons byte rest ih =>
    intro cursor found
    have hpattern : (byte = 13 ∧ rest.head? = some 10) ↔
        (byte :: rest).take lineEnd.length = lineEnd := by
      cases rest <;> simp [lineEnd]
    rw [findCrlfFrom]
    by_cases hhere : byte = 13 ∧ rest.head? = some 10
    · rw [if_pos hhere]
      have hzero := firstAt_zero (hpattern.mp hhere)
      constructor
      · exact fun h => ⟨0, (Option.some.inj h).symm, hzero⟩
      · rintro ⟨offset, rfl, hat⟩
        rw [hat.unique hzero, Nat.add_zero]
    · rw [if_neg hhere, ih]
      constructor
      · rintro ⟨offset, rfl, hat⟩
        exact ⟨offset + 1, by omega, (firstAt_cons (mt hpattern.mpr hhere)).mpr hat⟩
      rintro ⟨offset, rfl, hat⟩
      cases offset with
      | zero => exact absurd hat (not_firstAt_zero (mt hpattern.mpr hhere))
      | succ offset => exact ⟨offset, by omega, (firstAt_cons (mt hpattern.mpr hhere)).mp hat⟩

theorem findCrlf_eq_some_iff {source : List UInt8} :
    findCrlf source 0 = some found ↔ FirstAt lineEnd source found := by
  unfold findCrlf
  rw [drop_zero, findCrlfFrom_eq_some_iff]
  constructor
  · rintro ⟨offset, rfl, hat⟩
    rwa [Nat.zero_add]
  · exact fun hat => ⟨found, (Nat.zero_add found).symm, hat⟩

theorem findCrlf_bounds {source : List UInt8} {lineEnd : Nat}
    (h : findCrlf source start = some lineEnd) :
    start ≤ lineEnd ∧ lineEnd + 2 ≤ source.length := by
  obtain ⟨offset, rfl, hat⟩ := findCrlfFrom_eq_some_iff.mp h
  have hle := hat.le (cons_ne_nil _ _)
  rw [length_drop] at hle
  change offset + 2 ≤ _ at hle
  omega

/-- The empty line behind the headers, with the end of the line before it. -/
def headersEnd : List UInt8 := [13, 10, 13, 10]

/-- The search gets to a place below the limit if the head of its loop is passed behind every CR
before it. -/
structure Reached (limit : Nat) (source : List UInt8) (position : Nat) : Prop where
  below : position < limit
  start : 3 < limit
  passed : ∀ earlier < position, source[earlier]? = some 13 → earlier + 4 < limit

theorem headerEndFrom_eq_some_iff {limit : Nat} {source : List UInt8} :
    ∀ {atHead : Bool} {cursor found : Nat}, headerEndFrom limit atHead cursor source = some found ↔
      ∃ offset, found = cursor + offset ∧ FirstAt headersEnd source offset ∧
        cursor + offset < limit ∧ (atHead = true → cursor + 3 < limit) ∧
        ∀ earlier < offset, source[earlier]? = some 13 → cursor + earlier + 4 < limit := by
  induction source with
  | nil =>
    intro atHead cursor found
    refine iff_of_false nofun ?_
    rintro ⟨offset, -, hat, -⟩
    exact absurd (hat.le (cons_ne_nil _ _)) (by simp [headersEnd])
  | cons byte rest ih =>
    intro atHead cursor found
    have hpattern : (byte = 13 ∧ rest.take 3 = [10, 13, 10]) ↔
        (byte :: rest).take headersEnd.length = headersEnd := by
      simp [headersEnd]
    rw [headerEndFrom]
    by_cases hhead : atHead = true ∧ ¬ cursor + 3 < limit
    · rw [if_pos hhead]
      refine iff_of_false nofun ?_
      rintro ⟨offset, -, -, -, hlimit, -⟩
      exact hhead.2 (hlimit hhead.1)
    rw [if_neg hhead]
    by_cases hcur : cursor < limit
    · have hstart : atHead = true → cursor + 3 < limit := fun htrue =>
        Classical.byContradiction fun hlimit => hhead ⟨htrue, hlimit⟩
      rw [if_neg (not_not_intro hcur)]
      by_cases hbyte : byte = 13
      · rw [if_pos hbyte]
        by_cases hhere : rest.take 3 = [10, 13, 10]
        · have hzero := firstAt_zero (hpattern.mp ⟨hbyte, hhere⟩)
          rw [if_pos hhere]
          constructor
          · exact fun h => ⟨0, (Option.some.inj h).symm, hzero, hcur, hstart,
              fun _ hlt => absurd hlt (Nat.not_lt_zero _)⟩
          · rintro ⟨offset, rfl, hat, -⟩
            rw [hat.unique hzero, Nat.add_zero]
        · have hnot := mt hpattern.mpr fun hboth => hhere hboth.2
          rw [if_neg hhere, ih]
          constructor
          · rintro ⟨offset, rfl, hat, hlt, hnext, hpassed⟩
            refine ⟨offset + 1, by omega, (firstAt_cons hnot).mpr hat, by omega, hstart, ?_⟩
            intro earlier hearlier hcr
            cases earlier with
            | zero => exact hnext rfl
            | succ earlier =>
              have := hpassed earlier (Nat.lt_of_succ_lt_succ hearlier) hcr
              omega
          · rintro ⟨offset, rfl, hat, hlt, -, hpassed⟩
            cases offset with
            | zero => exact absurd hat (not_firstAt_zero hnot)
            | succ offset =>
              refine ⟨offset, by omega, (firstAt_cons hnot).mp hat, by omega, fun _ => ?_, ?_⟩
              · exact hpassed 0 (Nat.succ_pos _) (congrArg some hbyte)
              · intro earlier hearlier hcr
                have := hpassed (earlier + 1) (Nat.succ_lt_succ hearlier) hcr
                omega
      · have hnot := mt hpattern.mpr fun hboth => hbyte hboth.1
        rw [if_neg hbyte, ih]
        constructor
        · rintro ⟨offset, rfl, hat, hlt, -, hpassed⟩
          refine ⟨offset + 1, by omega, (firstAt_cons hnot).mpr hat, by omega, hstart, ?_⟩
          intro earlier hearlier hcr
          cases earlier with
          | zero => exact absurd (Option.some.inj hcr) hbyte
          | succ earlier =>
            have := hpassed earlier (Nat.lt_of_succ_lt_succ hearlier) hcr
            omega
        · rintro ⟨offset, rfl, hat, hlt, -, hpassed⟩
          cases offset with
          | zero => exact absurd hat (not_firstAt_zero hnot)
          | succ offset =>
            refine ⟨offset, by omega, (firstAt_cons hnot).mp hat, by omega, nofun, ?_⟩
            intro earlier hearlier hcr
            have := hpassed (earlier + 1) (Nat.succ_lt_succ hearlier) hcr
            omega
    · rw [if_pos hcur]
      refine iff_of_false nofun ?_
      rintro ⟨offset, -, -, hlt, -⟩
      omega

theorem firstAt_of_findHeaderEnd {source : List UInt8} {maxHeaderBytes : Int}
    (h : findHeaderEnd source maxHeaderBytes = some found) : FirstAt headersEnd source found := by
  obtain ⟨offset, rfl, hat, -⟩ := headerEndFrom_eq_some_iff.mp h
  rwa [Nat.zero_add]

/-- Where the search for the end of the headers ends, if the limit is not behind the source. -/
theorem findHeaderEnd_eq_some_iff {source : List UInt8} {limit : Nat} (hpos : 0 < limit) :
    findHeaderEnd source limit = some found ↔
      FirstAt headersEnd source found ∧ Reached (min limit source.length) source found := by
  unfold findHeaderEnd
  have hlimit : (if (limit : Int) > 0 ∧ (source.length : Int) > limit then (limit : Int).toNat
      else source.length) = min limit source.length := by
    split <;> omega
  rw [hlimit, headerEndFrom_eq_some_iff]
  constructor
  · rintro ⟨offset, rfl, hat, hlt, hstart, hpassed⟩
    simp only [Nat.zero_add] at hat hlt hstart hpassed ⊢
    exact ⟨hat, hlt, hstart trivial, hpassed⟩
  rintro ⟨hat, hlt, hstart, hpassed⟩
  refine ⟨found, (Nat.zero_add _).symm, hat, ?_, fun _ => ?_, ?_⟩
  · rwa [Nat.zero_add]
  · rwa [Nat.zero_add]
  · simpa only [Nat.zero_add] using hpassed

end Raz.Http
