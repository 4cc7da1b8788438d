import Raz.Http.Lines
import Raz.Http.Searches

/-!
# How the bytes of a request arrive

A request is parsed again from its first byte whenever more bytes have arrived. An error stays as it
is then, but for the limit of the header bytes: the search for the end of the headers begins below
the limit and looks at the bytes behind it once they are there. The first line is looked for without
a limit.

Result: `arrivalIndependent_iff`: when the limit does not depend on how the bytes arrive.
-/

namespace Raz.Http

open List

/-! ## More bytes -/

theorem findCrlf_take {source : List UInt8} {count found : Nat}
    (h : findCrlf (source.take count) 0 = some found) :
    findCrlf source 0 = some found ∧ (source.take count).take found = source.take found ∧
      found + 2 ≤ count := by
  have hat := findCrlf_eq_some_iff.mp h
  have hle := hat.le (cons_ne_nil _ _)
  rw [length_take] at hle
  change found + 2 ≤ _ at hle
  refine ⟨findCrlf_eq_some_iff.mpr (hat.of_take (cons_ne_nil _ _)), ?_, by omega⟩
  rw [take_take, Nat.min_eq_left (by omega)]

theorem Reached.mono {limit more position : Nat} {source : List UInt8}
    (h : Reached limit source position) (hle : limit ≤ more) : Reached more source position :=
  ⟨Nat.lt_of_lt_of_le h.below hle, Nat.lt_of_lt_of_le h.start hle,
    fun earlier hlt hcr => Nat.lt_of_lt_of_le (h.passed earlier hlt hcr) hle⟩

theorem reached_take {limit count position : Nat} {source : List UInt8} (h : position ≤ count) :
    Reached limit (source.take count) position ↔ Reached limit source position := by
  have hget : ∀ earlier < position, (source.take count)[earlier]? = source[earlier]? :=
    fun earlier hlt => List.getElem?_take_of_lt (Nat.lt_of_lt_of_le hlt h)
  constructor
  · exact fun hat => ⟨hat.below, hat.start, fun earlier hlt hcr =>
      hat.passed earlier hlt ((hget earlier hlt).trans hcr)⟩
  · exact fun hat => ⟨hat.below, hat.start, fun earlier hlt hcr =>
      hat.passed earlier hlt ((hget earlier hlt).symm.trans hcr)⟩

theorem findHeaderEnd_take {source : List UInt8} {limit count found : Nat} (hpos : 0 < limit)
    (h : findHeaderEnd (source.take count) limit = some found) :
    findHeaderEnd source limit = some found ∧ found + 4 ≤ count := by
  obtain ⟨hat, hreached⟩ := (findHeaderEnd_eq_some_iff hpos).mp h
  have hle := hat.le (cons_ne_nil _ _)
  rw [length_take] at hle hreached
  change found + 4 ≤ _ at hle
  refine ⟨(findHeaderEnd_eq_some_iff hpos).mpr ⟨hat.of_take (cons_ne_nil _ _), ?_⟩, by omega⟩
  exact ((reached_take (by omega)).mp hreached).mono (by omega)

/-! ## Errors -/

/-- An error that more bytes do not mend, as the parser has it. -/
def IsFinal (error : HttpError) : Prop :=
  error ≠ .none ∧ error ≠ .incomplete ∧ error ≠ .bodyIncomplete

/-- The checks of the start line. -/
def goodStartLine (line : List UInt8) : Bool :=
  match splitThree line with
  | none => false
  | some (method, target, version) =>
    method.all isTokenByte && supportedHttpVersion version && target.all isTargetByte

/-- What becomes of a request whose headers have arrived. -/
def headersOutcome (source : List UInt8) (firstEnd headerEnd : Nat) : HttpError :=
  match analyzeHeaders (slice source (firstEnd + 2) (headerEnd + 2)) with
  | .error error => error
  | .ok framing =>
    if (framing.chunked = false ∧ framing.contentLength ≥ 0) ∧
        ((source.drop (headerEnd + 4)).length : Int) < framing.contentLength then .bodyIncomplete
    else .none

section

variable {source : List UInt8} {firstEnd : Nat} {maxHeaderBytes : Int}

section

variable (h : findCrlf source 0 = some firstEnd)

include h

theorem ne_nil_of_findCrlf : source ≠ [] := by
  rintro rfl
  cases h

theorem parseRequest_bad (hbad : goodStartLine (source.take firstEnd) = false) :
    (parseRequest source maxHeaderBytes).1 = .invalidStartLine := by
  unfold parseRequest
  rw [if_neg (ne_nil_of_findCrlf h), h]
  dsimp only
  unfold goodStartLine at hbad
  cases hsplit : splitThree (source.take firstEnd) with
  | none => rfl
  | some parts =>
    obtain ⟨method, target, version⟩ := parts
    rw [hsplit] at hbad
    dsimp only at hbad ⊢
    by_cases hmethod : method.all isTokenByte = false
    · rw [if_pos hmethod]
    rw [if_neg hmethod]
    by_cases hver : supportedHttpVersion version = false
    · rw [if_pos hver]
    rw [if_neg hver]
    by_cases htarget : target.all isTargetByte = false
    · rw [if_pos htarget]
    rw [Bool.not_eq_false] at hmethod hver htarget
    rw [hmethod, hver, htarget] at hbad
    cases hbad

theorem parseRequest_good (hgood : goodStartLine (source.take firstEnd) = true) :
    (parseRequest source maxHeaderBytes).1 =
      match findHeaderEnd source maxHeaderBytes with
      | none =>
        if maxHeaderBytes > 0 ∧ (source.length : Int) ≥ maxHeaderBytes then .headersTooLarge
        else .incomplete
      | some headerEnd => headersOutcome source firstEnd headerEnd := by
  unfold goodStartLine at hgood
  cases hsplit : splitThree (source.take firstEnd) with
  | none =>
    rw [hsplit] at hgood
    cases hgood
  | some parts =>
    rw [hsplit] at hgood
    simp only [Bool.and_eq_true] at hgood
    obtain ⟨⟨hmethod, hver⟩, htarget⟩ := hgood
    unfold parseRequest
    rw [if_neg (ne_nil_of_findCrlf h), h]
    dsimp only
    rw [hsplit]
    dsimp only
    rw [if_neg (ne_false_of_eq_true hmethod), if_neg (ne_false_of_eq_true hver),
      if_neg (ne_false_of_eq_true htarget)]
    cases findHeaderEnd source maxHeaderBytes with
    | none =>
      dsimp only
      split <;> rfl
    | some headerEnd =>
      dsimp only
      unfold headersOutcome
      cases analyzeHeaders (slice source (firstEnd + 2) (headerEnd + 2)) <;> rfl

end

/-- Only an error of the header fields comes from them. -/
def IsHeaderError (error : HttpError) : Prop :=
  error = .invalidHeader ∨ error = .invalidContentLength ∨ error = .conflictingFraming

theorem analyzeHeader_error {framing : Framing} {header : HeaderView} {error : HttpError}
    (h : analyzeHeader framing header = .error error) : IsHeaderError error := by
  unfold analyzeHeader at h
  unfold IsHeaderError
  dsimp only at h
  repeat' split at h
  all_goals first
    | (obtain rfl := Except.error.inj h; simp)
    | cases h

theorem analyzeLoop_error {rounds : Nat} : ∀ {iterator : HeaderIterator} {framing : Framing}
    {error : HttpError}, analyzeLoop rounds iterator framing = .error error →
      IsHeaderError error := by
  induction rounds with
  | zero => exact fun h => nomatch h
  | succ rounds ih =>
    intro iterator framing error h
    rw [analyzeLoop] at h
    split at h
    · cases h
    rename_i header next _
    cases hheader : analyzeHeader framing header with
    | error first =>
      rw [hheader] at h
      obtain rfl : first = error := Except.error.inj h
      exact analyzeHeader_error hheader
    | ok after =>
      rw [hheader] at h
      exact ih h

theorem analyzeHeaders_error {block : List UInt8} {error : HttpError}
    (h : analyzeHeaders block = .error error) : IsHeaderError error := by
  unfold analyzeHeaders at h
  cases hloop : analyzeLoop (block.length + 1) (headers block) ⟨-1, false, false⟩ with
  | error first =>
    rw [hloop] at h
    obtain rfl : first = error := Except.error.inj h
    exact analyzeLoop_error hloop
  | ok result =>
    rw [hloop] at h
    dsimp only [bind, Except.bind] at h
    split at h
    · exact .inl (Except.error.inj h).symm
    split at h
    · exact .inr (.inr (Except.error.inj h).symm)
    · cases h

theorem headersOutcome_cases (source : List UInt8) (firstEnd headerEnd : Nat) :
    headersOutcome source firstEnd headerEnd = .none ∨
      headersOutcome source firstEnd headerEnd = .bodyIncomplete ∨
      IsHeaderError (headersOutcome source firstEnd headerEnd) := by
  unfold headersOutcome
  split
  · exact .inr (.inr (analyzeHeaders_error ‹_›))
  · split
    · exact .inr (.inl rfl)
    · exact .inl rfl

theorem headersOutcome_ne (source : List UInt8) (firstEnd headerEnd : Nat) :
    headersOutcome source firstEnd headerEnd ≠ .headersTooLarge ∧
      headersOutcome source firstEnd headerEnd ≠ .incomplete := by
  rcases headersOutcome_cases source firstEnd headerEnd with h | h | h | h | h <;> rw [h] <;>
    exact ⟨nofun, nofun⟩

end

/-! ## Prefixes -/

section

variable {source : List UInt8} {limit count : Nat}

theorem headersOutcome_take {firstEnd headerEnd : Nat} (hfirst : firstEnd + 2 ≤ count)
    (hend : headerEnd + 4 ≤ count)
    (h : IsFinal (headersOutcome (source.take count) firstEnd headerEnd)) :
    headersOutcome source firstEnd headerEnd =
      headersOutcome (source.take count) firstEnd headerEnd := by
  have hblock : slice (source.take count) (firstEnd + 2) (headerEnd + 2) =
      slice source (firstEnd + 2) (headerEnd + 2) := drop_take_eq (by omega)
  unfold headersOutcome at h ⊢
  rw [hblock] at h ⊢
  cases hanalyzed : analyzeHeaders (slice source (firstEnd + 2) (headerEnd + 2)) with
  | error error => rfl
  | ok framing =>
    rw [hanalyzed] at h
    dsimp only at h
    split at h
    · exact absurd rfl h.2.2
    · exact absurd rfl h.1

/-- **An error that is not about the limit stays.** -/
theorem parseRequest_stable (hpos : 0 < limit)
    (hfinal : IsFinal (parseRequest (source.take count) limit).1)
    (hlarge : (parseRequest (source.take count) limit).1 ≠ .headersTooLarge) :
    (parseRequest source limit).1 = (parseRequest (source.take count) limit).1 := by
  cases hline : findCrlf (source.take count) 0 with
  | none =>
    refine absurd ?_ hfinal.2.1
    unfold parseRequest
    split
    · rfl
    · rw [hline]
  | some firstEnd =>
    obtain ⟨hwhole, htake, hle⟩ := findCrlf_take hline
    cases hgood : goodStartLine ((source.take count).take firstEnd) with
    | false => rw [parseRequest_bad hline hgood, parseRequest_bad hwhole (htake ▸ hgood)]
    | true =>
      rw [parseRequest_good hline hgood] at hfinal hlarge ⊢
      rw [parseRequest_good hwhole (htake ▸ hgood)]
      cases hend : findHeaderEnd (source.take count) limit with
      | none =>
        rw [hend] at hfinal hlarge
        dsimp only at hfinal hlarge
        split at hfinal
        · rename_i hlimit
          rw [if_pos hlimit] at hlarge
          exact absurd rfl hlarge
        · exact absurd rfl hfinal.2.1
      | some headerEnd =>
        obtain ⟨hend', hle'⟩ := findHeaderEnd_take hpos hend
        rw [hend] at hfinal
        rw [hend']
        exact headersOutcome_take hle hle' hfinal

theorem headersTooLarge_iff (hpos : 0 < limit) : (parseRequest source limit).1 = .headersTooLarge ↔
      limit ≤ source.length ∧ findHeaderEnd source limit = none ∧
        ∃ firstEnd, FirstAt lineEnd source firstEnd ∧
          goodStartLine (source.take firstEnd) = true := by
  cases hline : findCrlf source 0 with
  | none =>
    refine iff_of_false (fun h => ?_) ?_
    · unfold parseRequest at h
      split at h
      · cases h
      · rw [hline] at h
        cases h
    · rintro ⟨-, -, firstEnd, hat, -⟩
      rw [findCrlf_eq_some_iff.mpr hat] at hline
      cases hline
  | some firstEnd =>
    have hat := findCrlf_eq_some_iff.mp hline
    cases hgood : goodStartLine (source.take firstEnd) with
    | false =>
      rw [parseRequest_bad hline hgood]
      refine iff_of_false nofun ?_
      rintro ⟨-, -, other, hother, hgood'⟩
      obtain rfl := hat.unique hother
      rw [hgood] at hgood'
      cases hgood'
    | true =>
      rw [parseRequest_good hline hgood]
      cases hend : findHeaderEnd source limit with
      | some headerEnd =>
        exact iff_of_false (headersOutcome_ne source firstEnd headerEnd).1 fun h => nomatch h.2.1
      | none =>
        dsimp only
        constructor
        · intro h
          split at h
          · rename_i hlimit
            exact ⟨by omega, rfl, firstEnd, hat, hgood⟩
          · cases h
        · rintro ⟨hle, -⟩
          rw [if_pos ⟨by omega, by omega⟩]

/-- With as many bytes as the limit allows, only a first line without an end is incomplete. -/
theorem incomplete_iff (hlimit : 0 < limit) (hle : limit ≤ source.length) :
    (parseRequest source limit).1 = .incomplete ↔ findCrlf source 0 = none := by
  cases hline : findCrlf source 0 with
  | none =>
    refine iff_of_true ?_ rfl
    unfold parseRequest
    split
    · rfl
    · rw [hline]
  | some firstEnd =>
    refine iff_of_false ?_ nofun
    cases hgood : goodStartLine (source.take firstEnd) with
    | false =>
      rw [parseRequest_bad hline hgood]
      nofun
    | true =>
      rw [parseRequest_good hline hgood]
      cases hend : findHeaderEnd source limit with
      | some headerEnd => exact (headersOutcome_ne source firstEnd headerEnd).2
      | none =>
        rw [if_pos ⟨by omega, by omega⟩]
        nofun

end

/-! ## The limit -/

/-- Whatever has arrived of the bytes, an error that more bytes do not mend stays, and no more bytes
are asked for than the limit allows. -/
structure ArrivalIndependent (bytes : List UInt8) (limit : Nat) : Prop where
  stable : ∀ first second : Nat, first ≤ second → second ≤ bytes.length →
    IsFinal (parseRequest (bytes.take first) limit).1 →
    (parseRequest (bytes.take second) limit).1 = (parseRequest (bytes.take first) limit).1
  bounded : ∀ count : Nat, limit ≤ count → count ≤ bytes.length →
    (parseRequest (bytes.take count) limit).1 ≠ .incomplete

/-- The headers end at a place below the limit, where the search gets to, and their end is behind
the limit. -/
structure Crosses (bytes : List UInt8) (limit position : Nat) : Prop where
  ending : FirstAt headersEnd bytes position
  reached : Reached limit bytes position
  behind : limit < position + 4

/-- The first line ends within the limit, and the headers do not end across it. -/
structure KeepsLimit (bytes : List UInt8) (limit : Nat) : Prop where
  line : bytes.length < limit ∨ ∃ firstEnd, FirstAt lineEnd bytes firstEnd ∧ firstEnd + 2 ≤ limit
  headers : ∀ firstEnd headerEnd : Nat, FirstAt lineEnd bytes firstEnd →
    goodStartLine (bytes.take firstEnd) = true → ¬ Crosses bytes limit headerEnd

theorem bounded_iff {bytes : List UInt8} {limit : Nat} (hpos : 0 < limit) :
    (∀ count : Nat, limit ≤ count → count ≤ bytes.length →
      (parseRequest (bytes.take count) limit).1 ≠ .incomplete) ↔
      (bytes.length < limit ∨
        ∃ firstEnd, FirstAt lineEnd bytes firstEnd ∧ firstEnd + 2 ≤ limit) := by
  have htest {count : Nat} (hcount : limit ≤ count) (hle : count ≤ bytes.length) :
      (parseRequest (bytes.take count) limit).1 = .incomplete ↔
        findCrlf (bytes.take count) 0 = none := by
    refine incomplete_iff hpos ?_
    rw [length_take]
    omega
  constructor
  · intro h
    rcases Nat.lt_or_ge bytes.length limit with hshort | hle
    · exact .inl hshort
    refine .inr ?_
    cases hline : findCrlf (bytes.take limit) 0 with
    | none => exact absurd ((htest (Nat.le_refl _) hle).mpr hline) (h limit (Nat.le_refl _) hle)
    | some firstEnd =>
      obtain ⟨hwhole, -, hbound⟩ := findCrlf_take hline
      exact ⟨firstEnd, findCrlf_eq_some_iff.mp hwhole, hbound⟩
  · rintro (hshort | ⟨firstEnd, hat, hbound⟩) count hcount hle
    · omega
    have hpart : FirstAt lineEnd (bytes.take count) firstEnd :=
      hat.take (Nat.le_trans hbound hcount)
    have hline := findCrlf_eq_some_iff.mpr hpart
    rw [Ne, htest hcount hle, hline]
    nofun

/-- **The limit does not depend on how the bytes arrive** if the first line ends within it and the
headers do not end across it. -/
theorem arrivalIndependent_iff (bytes : List UInt8) (limit : Nat) (hpos : 0 < limit) :
    ArrivalIndependent bytes limit ↔ KeepsLimit bytes limit := by
  have hne : headersEnd ≠ [] := cons_ne_nil _ _
  constructor
  · intro h
    refine ⟨(bounded_iff hpos).mp h.bounded, fun firstEnd headerEnd hat hgood hcross => ?_⟩
    -- without its last byte the end of the headers is not found, and the limit is exceeded
    have hle : headerEnd + 4 ≤ bytes.length := hcross.ending.le hne
    have hbehind := hcross.behind
    have hfirst : firstEnd ≤ headerEnd := by
      refine Nat.not_lt.mp fun hlt => hat.first headerEnd hlt ?_
      have hpair := congrArg (List.take 2) hcross.ending.here
      rw [take_take] at hpair
      exact hpair
    have hline : FirstAt lineEnd (bytes.take (headerEnd + 3)) firstEnd :=
      hat.take (show firstEnd + 2 ≤ headerEnd + 3 by omega)
    have hgood' : goodStartLine ((bytes.take (headerEnd + 3)).take firstEnd) = true := by
      rw [take_take, Nat.min_eq_left (by omega)]
      exact hgood
    have hnone : findHeaderEnd (bytes.take (headerEnd + 3)) limit = none := by
      cases hend : findHeaderEnd (bytes.take (headerEnd + 3)) limit with
      | none => rfl
      | some found =>
        obtain ⟨hfound, hbound⟩ := findHeaderEnd_take hpos hend
        obtain ⟨hat', -⟩ := (findHeaderEnd_eq_some_iff hpos).mp hfound
        have := hat'.unique hcross.ending
        omega
    have hlarge : (parseRequest (bytes.take (headerEnd + 3)) limit).1 = .headersTooLarge := by
      refine (headersTooLarge_iff hpos).mpr ⟨?_, hnone, firstEnd, hline, hgood'⟩
      rw [length_take]
      omega
    have hsame := h.stable (headerEnd + 3) bytes.length (by omega) (Nat.le_refl _)
      (by rw [hlarge]; exact ⟨nofun, nofun, nofun⟩)
    rw [hlarge, take_length] at hsame
    obtain ⟨-, hmissing, -⟩ := (headersTooLarge_iff hpos).mp hsame
    have hfound := (findHeaderEnd_eq_some_iff hpos).mpr
      ⟨hcross.ending, hcross.reached.mono (show limit ≤ min limit bytes.length by omega)⟩
    rw [hfound] at hmissing
    cases hmissing
  · intro h
    refine ⟨fun first second hle hsecond hfinal => ?_, (bounded_iff hpos).mpr h.line⟩
    have hpart : bytes.take first = (bytes.take second).take first := by
      rw [take_take, Nat.min_eq_left hle]
    rw [hpart] at hfinal ⊢
    by_cases hlarge : (parseRequest ((bytes.take second).take first) limit).1 = .headersTooLarge
    · obtain ⟨hlimit, hnone, firstEnd, hat, hgood⟩ := (headersTooLarge_iff hpos).mp hlarge
      rw [hlarge]
      rw [← hpart] at hlimit hnone hat hgood
      rw [length_take] at hlimit
      have hbound := hat.le (cons_ne_nil _ _)
      rw [length_take] at hbound
      change firstEnd + 2 ≤ _ at hbound
      have hwhole := hat.of_take (cons_ne_nil _ _)
      have hline : (bytes.take first).take firstEnd = bytes.take firstEnd := by
        rw [take_take, Nat.min_eq_left (by omega)]
      rw [hline] at hgood
      refine (headersTooLarge_iff hpos).mpr ⟨?_, ?_, firstEnd, ?_, ?_⟩
      · rw [length_take]
        omega
      · cases hend : findHeaderEnd (bytes.take second) limit with
        | none => rfl
        | some headerEnd =>
          -- it was not there before, so that it ends across the limit
          refine absurd ?_ (h.headers firstEnd headerEnd hwhole hgood)
          obtain ⟨hfound, -⟩ := findHeaderEnd_take hpos hend
          obtain ⟨hending, hreached⟩ := (findHeaderEnd_eq_some_iff hpos).mp hfound
          have hreached' := hreached.mono (Nat.min_le_left limit bytes.length)
          refine ⟨hending, hreached', Nat.not_le.mp fun hinside => ?_⟩
          have hpart : FirstAt headersEnd (bytes.take first) headerEnd :=
            hending.take (show headerEnd + 4 ≤ first by omega)
          have hbefore := (findHeaderEnd_eq_some_iff hpos).mpr
            ⟨hpart, ((reached_take (show headerEnd ≤ first by omega)).mpr hreached').mono
                (show limit ≤ min limit (bytes.take first).length by
                  rw [length_take]
                  omega)⟩
          rw [hnone] at hbefore
          cases hbefore
      · exact hwhole.take (show firstEnd + 2 ≤ second by omega)
      · rw [take_take, Nat.min_eq_left (by omega)]
        exact hgood
    · exact parseRequest_stable hpos hfinal hlarge

/-- A request with one header field, whose last bytes are behind a limit of 22 bytes. -/
def crossingRequest : List UInt8 :=
  [71, 69, 84, 32, 47, 32, 72, 84, 84, 80, 47, 49, 46, 49, 13, 10, 65, 58, 32, 98, 13, 10, 13, 10]

theorem crossingRequest_within : ArrivalIndependent crossingRequest 24 := by
  refine (arrivalIndependent_iff crossingRequest 24 (by decide)).mpr ⟨.inr ⟨14, ?_, by decide⟩, ?_⟩
  · exact findCrlf_eq_some_iff.mp (by decide)
  · rintro firstEnd headerEnd - - hcross
    have hle := hcross.ending.le (cons_ne_nil _ _)
    exact absurd hcross.behind (Nat.not_lt.mpr hle)

/-- Without the last two bytes the limit is exceeded, with them it is not. -/
theorem crossingRequest_depends : ¬ ArrivalIndependent crossingRequest 22 := by
  intro h
  have hlarge : (parseRequest (crossingRequest.take 22) (22 : Nat)).1 = .headersTooLarge := by
    decide
  have hnone : (parseRequest (crossingRequest.take 24) (22 : Nat)).1 = .none := by
    decide
  have hsame := h.stable 22 24 (by decide) (by decide) (by rw [hlarge]; exact ⟨nofun, nofun, nofun⟩)
  rw [hlarge, hnone] at hsame
  cases hsame

end Raz.Http
