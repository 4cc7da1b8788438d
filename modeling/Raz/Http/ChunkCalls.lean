import Raz.Http.ChunkReads
import Mathlib.Data.Nat.Digits.Defs

/-!
# The calls of the chunk reader

What a call of `next_chunk` takes, and when it runs outside its source: the sum of the place, the
size and two has to be a word.

Result: `calls_safe_iff`: when every call is safe.
-/

namespace Raz.Http

open Access List Checked

/-! ## Sizes -/

/-- The hexadecimal digits of a size line, up to an extension. -/
def sizeField (line : List UInt8) : List UInt8 := line.takeWhile (fun b => b ≠ 59)

/-- The number that hexadecimal digits stand for. -/
def hexValue (digits : List UInt8) : Nat :=
  Nat.ofDigits 16 (digits.reverse.map fun b => (hexDigitValue b).getD 0)

theorem hexValue_cons (b : UInt8) (digits : List UInt8) :
    hexValue (b :: digits) = (hexDigitValue b).getD 0 * 16 ^ digits.length + hexValue digits := by
  unfold hexValue
  rw [reverse_cons, map_append, Nat.ofDigits_append, map_singleton,
    Nat.ofDigits_singleton, length_map, length_reverse]
  ring

theorem hexDigitValue_lt {b : UInt8} {digit : Nat} (h : hexDigitValue b = some digit) :
    digit < 16 := by
  unfold hexDigitValue at h
  split at h
  · rename_i hrange
    have h1 := UInt8.le_iff_toNat_le.mp hrange.1
    have h2 := UInt8.le_iff_toNat_le.mp hrange.2
    simp only [Option.some.injEq, UInt8.reduceToNat] at h h1 h2
    omega
  split at h
  · rename_i hrange
    have h1 := UInt8.le_iff_toNat_le.mp hrange.1
    have h2 := UInt8.le_iff_toNat_le.mp hrange.2
    simp only [Option.some.injEq, UInt8.reduceToNat] at h h1 h2
    omega
  split at h
  · rename_i hrange
    have h1 := UInt8.le_iff_toNat_le.mp hrange.1
    have h2 := UInt8.le_iff_toNat_le.mp hrange.2
    simp only [Option.some.injEq, UInt8.reduceToNat] at h h1 h2
    omega
  · cases h

theorem sizeField_cons {b : UInt8} (line : List UInt8) (h : b ≠ 59) :
    sizeField (b :: line) = b :: sizeField line := by
  unfold sizeField
  exact takeWhile_cons_of_pos (decide_eq_true h)

theorem sizeField_end (line : List UInt8) : sizeField (59 :: line) = [] := rfl

/-- **The size is the number in the line**, and a number that is no word is refused. -/
theorem chunkSizeLoop_eq_some_iff {line : List UInt8} : ∀ {size value : Nat} {any found : Bool},
    size < 2 ^ 63 → (chunkSizeLoop size any line = some (value, found) ↔
      (∀ b ∈ sizeField line, (hexDigitValue b).isSome = true) ∧
      value = size * 16 ^ (sizeField line).length + hexValue (sizeField line) ∧
      value < 2 ^ 63 ∧ found = (any || decide (sizeField line ≠ []))) := by
  have hdone : ∀ {size value : Nat} {any found : Bool}, size < 2 ^ 63 →
      (some (size, any) = some (value, found) ↔
        (∀ b ∈ ([] : List UInt8), (hexDigitValue b).isSome = true) ∧
        value = size * 16 ^ ([] : List UInt8).length + hexValue [] ∧
        value < 2 ^ 63 ∧ found = (any || decide (([] : List UInt8) ≠ []))) := by
    intro size value any found hsize
    have hval : size * 16 ^ ([] : List UInt8).length + hexValue [] = size := by
      change size * 1 + 0 = size
      omega
    rw [hval, Option.some.injEq, Prod.mk.injEq]
    constructor
    · rintro ⟨rfl, rfl⟩
      exact ⟨fun _ h => absurd h not_mem_nil, rfl, hsize, by simp⟩
    · rintro ⟨-, rfl, -, rfl⟩
      exact ⟨rfl, by simp⟩
  induction line with
  | nil => exact fun hsize => hdone hsize
  | cons b line ih =>
    intro size value any found hsize
    rw [chunkSizeLoop]
    by_cases hend : b = 59
    · subst hend
      rw [if_pos rfl, sizeField_end]
      exact hdone hsize
    rw [if_neg hend, sizeField_cons line hend, forall_mem_cons, hexValue_cons,
      length_cons, Nat.pow_succ]
    cases hdigit : hexDigitValue b with
    | none =>
      exact iff_of_false (Option.some_ne_none _).symm fun h => absurd h.1.1 Bool.false_ne_true
    | some digit =>
      have hlt := hexDigitValue_lt hdigit
      have hpos := Nat.pos_of_neZero (16 ^ (sizeField line).length)
      dsimp only [Option.isSome_some, Option.getD_some]
      have hsum : size * (16 ^ (sizeField line).length * 16) +
          (digit * 16 ^ (sizeField line).length + hexValue (sizeField line)) =
          (size * 16 + digit) * 16 ^ (sizeField line).length + hexValue (sizeField line) := by
        ring
      rw [hsum]
      by_cases hlarge : size > 576460752303423487
      · rw [if_pos hlarge]
        refine iff_of_false (Option.some_ne_none _).symm ?_
        rintro ⟨-, rfl, hword, -⟩
        have hge := Nat.le_mul_of_pos_right (size * 16 + digit) hpos
        omega
      · rw [if_neg hlarge, ih (by omega)]
        simp

/-- The size that a size line gives. -/
structure SizeIs (line : List UInt8) (size : Nat) : Prop where
  some : sizeField line ≠ []
  digits : ∀ b ∈ sizeField line, (hexDigitValue b).isSome = true
  value : size = hexValue (sizeField line)
  word : size < 2 ^ 63

theorem chunkSizeLoop_eq_some_true_iff {line : List UInt8} {size : Nat} :
    chunkSizeLoop 0 false line = some (size, true) ↔ SizeIs line size := by
  rw [chunkSizeLoop_eq_some_iff (by decide), Nat.zero_mul, Nat.zero_add, Bool.false_or]
  constructor
  · rintro ⟨hdigs, hval, hword, hsome⟩
    exact ⟨of_decide_eq_true hsome.symm, hdigs, hval, hword⟩
  · exact fun h => ⟨h.digits, h.value, h.word, (decide_eq_true h.some).symm⟩

theorem SizeIs.unique {line : List UInt8} {size other : Nat} (h : SizeIs line size)
    (hother : SizeIs line other) : size = other := h.value.trans hother.value.symm

/-! ## One call -/

/-- The size line of a call that finds its end. -/
def sizeLine (cursor : ChunkCursor) (lineEnd : Nat) : List UInt8 :=
  slice cursor.source cursor.cursor lineEnd

/-- The sum that is compared with the length of the source does not wrap around. In the last place
of the longest source a byte that is no CR does as well. -/
def Fits (cursor : ChunkCursor) : Prop :=
  cursor.finished = false → ∀ lineEnd size,
    findCrlf cursor.source cursor.cursor = some lineEnd → SizeIs (sizeLine cursor lineEnd) size →
    lineEnd + 2 + size + 2 < 2 ^ 63 ∨ ∃ b, cursor.source[lineEnd + 2 + size]? = some b ∧ b ≠ 13

namespace Checked

/-- What a call writes that takes a chunk. -/
structure Taken (cursor : ChunkCursor) (dataStart size : Nat) (chunk : Chunk)
    (after : ChunkCursor) : Prop where
  source : after.source = cursor.source
  data : chunk.data = ⟨dataStart, size⟩
  trailers : ∀ span, chunk.trailers = some span →
    span.start = dataStart ∧ span.start + span.length ≤ cursor.source.length
  behind : dataStart + size + 2 ≤ after.cursor
  inside : after.cursor ≤ cursor.source.length
  final : chunk.finalChunk = after.finished

section

variable {source : List UInt8} {offset : Nat}

theorem wrap_small (h : offset < 2 ^ 63) : Word.wrap offset = offset :=
  Word.wrap_of_range (by omega) (by omega)

/-- A sum of two words and two less than `2 ^ 64` is not above a length once it has wrapped. -/
theorem wrap_large (hge : 2 ^ 63 ≤ offset) (hle : offset ≤ 2 ^ 64) : Word.wrap offset ≤ 0 := by
  unfold Word.wrap
  rw [Int.bmod_def]
  split <;> omega

theorem crlfAt_eq (h : offset + 1 < source.length) :
    crlfAt source offset =
      .ok (decide (source[offset]? = some 13 ∧ source[offset + 1]? = some 10)) := by
  have hlt : offset < source.length := by omega
  unfold crlfAt
  rw [access_eq hlt, access_eq h, List.getElem?_eq_getElem hlt, List.getElem?_eq_getElem h]
  by_cases hcr : source[offset] = 13 <;> simp [bind, Except.bind, pure, Except.pure, hcr]

theorem crlfAt_other {b : UInt8} (h : source[offset]? = some b) (hne : b ≠ 13) :
    crlfAt source offset = .ok false := by
  unfold crlfAt access
  rw [h]
  exact if_neg hne

theorem crlfAt_true (h : crlfAt source offset = .ok true) : offset + 2 ≤ source.length := by
  unfold crlfAt access at h
  cases hfirst : source[offset]? with
  | none =>
    rw [hfirst] at h
    cases h
  | some b =>
    rw [hfirst] at h
    cases hsecond : source[offset + 1]? with
    | none =>
      rw [hsecond] at h
      simp only [bind, Except.bind] at h
      split at h <;> cases h
    | some next =>
      have hlt := (List.getElem?_eq_some_iff.mp hsecond).1
      omega

/-- Where the test for the two bytes behind the data runs outside. -/
theorem crlfAt_outside_iff (hlen : source.length < 2 ^ 63) (hle : offset + 2 ≤ 2 ^ 64) :
    (¬ Word.wrap ((offset + 2 : Nat) : Int) > source.length ∧
      crlfAt source offset = .error .outside) ↔
      ¬ (offset + 2 < 2 ^ 63 ∨ ∃ b, source[offset]? = some b ∧ b ≠ 13) := by
  by_cases hsmall : offset + 2 < 2 ^ 63
  · refine iff_of_false ?_ (not_not_intro (.inl hsmall))
    rintro ⟨hwrap, hcrlf⟩
    rw [wrap_small hsmall] at hwrap
    rw [crlfAt_eq (by omega)] at hcrlf
    cases hcrlf
  · have hwrap := wrap_large (Nat.not_lt.mp hsmall) hle
    rw [and_iff_right (by omega), or_iff_right hsmall]
    cases hfirst : source[offset]? with
    | none =>
      refine iff_of_true ?_ nofun
      unfold crlfAt access
      rw [hfirst]
      rfl
    | some b =>
      have hsecond : source[offset + 1]? = none := List.getElem?_eq_none (by omega)
      by_cases hb : b = 13
      · refine iff_of_true ?_ ?_
        · unfold crlfAt access
          rw [hfirst, hsecond, hb]
          rfl
        · rintro ⟨other, hother, hne⟩
          exact hne ((Option.some.inj hother).symm.trans hb)
      · refine iff_of_false ?_ (not_not_intro ⟨b, rfl, hb⟩)
        rw [crlfAt_other hfirst hb]
        nofun

end

section

variable {cursor after : ChunkCursor} {dataStart size : Nat} {found : Option Chunk}

theorem nextData_taken (h : nextData cursor dataStart size = .ok (found, after)) :
    ∃ chunk, found = some chunk ∧ Taken cursor dataStart size chunk after := by
  unfold nextData at h
  by_cases hlen : Word.wrap (dataStart + size + 2) > cursor.source.length
  · rw [if_pos hlen] at h
    cases h
  rw [if_neg hlen] at h
  cases hcrlf : crlfAt cursor.source (dataStart + size) with
  | error failure =>
    rw [hcrlf] at h
    cases h
  | ok isCrlf =>
    rw [hcrlf] at h
    cases isCrlf with
    | false => cases h
    | true =>
      cases h
      exact ⟨_, rfl, rfl, rfl, nofun, le_rfl, crlfAt_true hcrlf, rfl⟩

theorem nextData_outside_iff : nextData cursor dataStart size = .error .outside ↔
    ¬ Word.wrap ((dataStart + size + 2 : Nat) : Int) > cursor.source.length ∧
      crlfAt cursor.source (dataStart + size) = .error .outside := by
  unfold nextData
  push_cast
  by_cases hlen : Word.wrap (dataStart + size + 2) > cursor.source.length
  · rw [if_pos hlen]
    exact iff_of_false nofun fun h => h.1 hlen
  rw [if_neg hlen, and_iff_right hlen]
  cases hcrlf : crlfAt cursor.source (dataStart + size) with
  | error failure =>
    exact ⟨fun h => congrArg Except.error (Except.error.inj h),
      fun h => congrArg Except.error (Except.error.inj h)⟩
  | ok isCrlf => cases isCrlf <;> exact iff_of_false nofun nofun

theorem nextFinal_trailers (hlen : ¬ Word.wrap (dataStart + 2) > cursor.source.length)
    (hcrlf : crlfAt cursor.source dataStart = .ok false)
    (hle : dataStart ≤ cursor.source.length) :
    nextFinal cursor dataStart =
      match Http.findHeaderEnd (cursor.source.drop dataStart) 0 with
      | none => report .incomplete
      | some trailerEnd =>
        if (Http.drainHeaders
            (slice cursor.source dataStart (dataStart + trailerEnd + 2))).invalid then
          report .invalidHeader
        else
          .ok (some ⟨⟨dataStart, 0⟩, some ⟨dataStart, trailerEnd + 2⟩, true⟩,
            ⟨cursor.source, dataStart + trailerEnd + 4, true⟩) := by
  have hrest : view cursor.source dataStart (cursor.source.length - dataStart) =
      .ok (cursor.source.drop dataStart) := by
    rw [view_eq (by omega), slice, take_of_length_le (by rw [length_drop]; omega)]
  unfold nextFinal
  rw [if_neg hlen, hcrlf]
  simp only [bind, Except.bind, Bool.false_eq_true, if_false]
  rw [hrest]
  dsimp only
  rw [findHeaderEnd_eq]
  cases hend : Http.findHeaderEnd (cursor.source.drop dataStart) 0 with
  | none => rfl
  | some trailerEnd =>
    have hbound := (firstAt_of_findHeaderEnd hend).le (cons_ne_nil _ _)
    rw [length_drop] at hbound
    change trailerEnd + 4 ≤ _ at hbound
    dsimp only
    rw [view_eq (by omega)]
    dsimp only
    rw [drainHeaders_eq, ← Nat.add_assoc]
    rfl

theorem nextFinal_taken (hle : dataStart ≤ cursor.source.length)
    (h : nextFinal cursor dataStart = .ok (found, after)) :
    ∃ chunk, found = some chunk ∧ Taken cursor dataStart 0 chunk after := by
  by_cases hlen : Word.wrap (dataStart + 2) > cursor.source.length
  · unfold nextFinal at h
    rw [if_pos hlen] at h
    cases h
  cases hcrlf : crlfAt cursor.source dataStart with
  | error failure =>
    unfold nextFinal at h
    rw [if_neg hlen, hcrlf] at h
    cases h
  | ok isCrlf =>
    cases isCrlf with
    | true =>
      unfold nextFinal at h
      rw [if_neg hlen, hcrlf] at h
      cases h
      refine ⟨_, rfl, rfl, rfl, ?_, le_rfl, crlfAt_true hcrlf, rfl⟩
      rintro span ⟨⟩
      exact ⟨rfl, hle⟩
    | false =>
      rw [nextFinal_trailers hlen hcrlf hle] at h
      cases hend : Http.findHeaderEnd (cursor.source.drop dataStart) 0 with
      | none =>
        rw [hend] at h
        cases h
      | some trailerEnd =>
        have hbound := (firstAt_of_findHeaderEnd hend).le (cons_ne_nil _ _)
        rw [length_drop] at hbound
        change trailerEnd + 4 ≤ _ at hbound
        rw [hend] at h
        dsimp only at h
        split at h
        · cases h
        cases h
        refine ⟨_, rfl, rfl, rfl, ?_, ?_, ?_, rfl⟩
        · rintro span ⟨⟩
          exact ⟨rfl, show dataStart + (trailerEnd + 2) ≤ _ by omega⟩
        · change dataStart + 0 + 2 ≤ dataStart + trailerEnd + 4
          omega
        · change dataStart + trailerEnd + 4 ≤ cursor.source.length
          omega

theorem nextFinal_outside_iff (hle : dataStart ≤ cursor.source.length) :
    nextFinal cursor dataStart = .error .outside ↔
      ¬ Word.wrap ((dataStart + 2 : Nat) : Int) > cursor.source.length ∧
        crlfAt cursor.source dataStart = .error .outside := by
  push_cast
  by_cases hlen : Word.wrap (dataStart + 2) > cursor.source.length
  · unfold nextFinal
    rw [if_pos hlen]
    exact iff_of_false nofun fun h => h.1 hlen
  rw [and_iff_right hlen]
  cases hcrlf : crlfAt cursor.source dataStart with
  | error failure =>
    unfold nextFinal
    rw [if_neg hlen, hcrlf]
    exact ⟨fun h => congrArg Except.error (Except.error.inj h),
      fun h => congrArg Except.error (Except.error.inj h)⟩
  | ok isCrlf =>
    cases isCrlf with
    | true =>
      unfold nextFinal
      rw [if_neg hlen, hcrlf]
      exact iff_of_false nofun nofun
    | false =>
      rw [nextFinal_trailers hlen hcrlf hle]
      refine iff_of_false ?_ nofun
      split
      · nofun
      · split <;> nofun

theorem nextChunk_eq (hfin : cursor.finished = false) :
    nextChunk cursor =
      match Http.findCrlf cursor.source cursor.cursor with
      | none => report .incomplete
      | some lineEnd =>
        match Http.chunkSizeLoop 0 false (sizeLine cursor lineEnd) with
        | none => report .invalidChunk
        | some (size, any) =>
          if any = false then report .invalidChunk
          else if size = 0 then nextFinal cursor (lineEnd + 2)
          else nextData cursor (lineEnd + 2) size := by
  unfold nextChunk
  rw [if_neg (ne_true_of_eq_false hfin), findCrlf_eq]
  simp only [bind, Except.bind]
  cases hline : Http.findCrlf cursor.source cursor.cursor with
  | none => rfl
  | some lineEnd =>
    obtain ⟨hge, hle⟩ := findCrlf_bounds hline
    dsimp only
    rw [chunkSizeLoop_eq (by omega)]
    unfold sizeLine slice
    cases Http.chunkSizeLoop 0 false
        ((cursor.source.drop cursor.cursor).take (lineEnd - cursor.cursor)) with
    | none => rfl
    | some read => rfl

/-- **What a successful call does.** -/
theorem nextChunk_ok (h : nextChunk cursor = .ok (found, after)) :
    (cursor.finished = true ∧ found = none ∧ after = cursor) ∨
      ∃ chunk lineEnd size, cursor.finished = false ∧ found = some chunk ∧
        Http.findCrlf cursor.source cursor.cursor = some lineEnd ∧
        SizeIs (sizeLine cursor lineEnd) size ∧ Taken cursor (lineEnd + 2) size chunk after := by
  cases hfin : cursor.finished with
  | true =>
    unfold nextChunk at h
    rw [if_pos hfin] at h
    cases h
    exact .inl ⟨rfl, rfl, rfl⟩
  | false =>
    rw [nextChunk_eq hfin] at h
    cases hline : Http.findCrlf cursor.source cursor.cursor with
    | none =>
      rw [hline] at h
      cases h
    | some lineEnd =>
      rw [hline] at h
      dsimp only at h
      cases hsize : Http.chunkSizeLoop 0 false (sizeLine cursor lineEnd) with
      | none =>
        rw [hsize] at h
        cases h
      | some read =>
        obtain ⟨size, any⟩ := read
        rw [hsize] at h
        dsimp only at h
        cases any with
        | false => cases h
        | true =>
          rw [if_neg (by decide)] at h
          have hle := (findCrlf_bounds hline).2
          have hsize' := chunkSizeLoop_eq_some_true_iff.mp hsize
          by_cases hzero : size = 0
          · rw [if_pos hzero] at h
            obtain ⟨chunk, hfound, htaken⟩ := nextFinal_taken hle h
            exact .inr ⟨chunk, lineEnd, size, rfl, hfound, rfl, hsize', hzero ▸ htaken⟩
          · rw [if_neg hzero] at h
            obtain ⟨chunk, hfound, htaken⟩ := nextData_taken h
            exact .inr ⟨chunk, lineEnd, size, rfl, hfound, rfl, hsize', htaken⟩

/-- **When a call runs outside.** -/
theorem nextChunk_outside_iff (hlen : cursor.source.length < 2 ^ 63) :
    nextChunk cursor = .error .outside ↔ ¬ Fits cursor := by
  cases hfin : cursor.finished with
  | true =>
    refine iff_of_false ?_ (not_not_intro fun h => absurd h (by rw [hfin]; decide))
    unfold nextChunk
    rw [if_pos hfin]
    nofun
  | false =>
    rw [nextChunk_eq hfin]
    unfold Fits
    cases hline : Http.findCrlf cursor.source cursor.cursor with
    | none => exact iff_of_false nofun (not_not_intro nofun)
    | some lineEnd =>
      have hle := (findCrlf_bounds hline).2
      dsimp only
      by_cases hsize : ∃ size, SizeIs (sizeLine cursor lineEnd) size
      · obtain ⟨size, hsize⟩ := hsize
        have hcondition : (cursor.finished = false → ∀ other value, some lineEnd = some other →
            SizeIs (sizeLine cursor other) value → other + 2 + value + 2 < 2 ^ 63 ∨
              ∃ b, cursor.source[other + 2 + value]? = some b ∧ b ≠ 13) ↔
            lineEnd + 2 + size + 2 < 2 ^ 63 ∨
              ∃ b, cursor.source[lineEnd + 2 + size]? = some b ∧ b ≠ 13 := by
          constructor
          · exact fun h => h hfin lineEnd size rfl hsize
          · rintro h - other value ⟨⟩ hval
            rwa [hval.unique hsize]
        rw [hcondition, chunkSizeLoop_eq_some_true_iff.mpr hsize]
        have hword := hsize.word
        dsimp only
        rw [if_neg (by decide)]
        by_cases hzero : size = 0
        · subst hzero
          rw [if_pos rfl, nextFinal_outside_iff hle]
          exact crlfAt_outside_iff hlen (by omega)
        · rw [if_neg hzero, nextData_outside_iff]
          exact crlfAt_outside_iff hlen (by omega)
      · refine iff_of_false ?_ (not_not_intro ?_)
        · cases hread : Http.chunkSizeLoop 0 false (sizeLine cursor lineEnd) with
          | none => nofun
          | some read =>
            obtain ⟨size, any⟩ := read
            cases any with
            | false => nofun
            | true => exact absurd ⟨size, chunkSizeLoop_eq_some_true_iff.mp hread⟩ hsize
        · rintro - other value ⟨⟩ hval
          exact absurd ⟨value, hval⟩ hsize

end

end Checked

/-! ## Every call -/

/-- The cursor after a call; an error leaves it as it is. -/
def afterCall (cursor : ChunkCursor) : ChunkCursor :=
  match Checked.nextChunk cursor with
  | .ok (_, after) => after
  | .error _ => cursor

def afterCalls (source : List UInt8) : Nat → ChunkCursor
  | 0 => chunks source
  | calls + 1 => afterCall (afterCalls source calls)

/-- A call reads inside its source, keeps the cursor inside and moves it with every chunk, the views
of a chunk are inside, and its size is the number in the size line. -/
structure CallSafe (cursor : ChunkCursor) : Prop where
  reads : Checked.nextChunk cursor ≠ .error .outside
  before : cursor.cursor ≤ cursor.source.length
  after : ∀ found after, Checked.nextChunk cursor = .ok (found, after) →
    after.cursor ≤ cursor.source.length
  grows : ∀ chunk after, Checked.nextChunk cursor = .ok (some chunk, after) →
    cursor.cursor < after.cursor
  data : ∀ chunk after, Checked.nextChunk cursor = .ok (some chunk, after) →
    chunk.data.start + chunk.data.length ≤ cursor.source.length ∧
      ∀ span, chunk.trailers = some span → span.start + span.length ≤ cursor.source.length
  size : ∀ lineEnd size any, findCrlf cursor.source cursor.cursor = some lineEnd →
    Checked.chunkSizeLoop cursor.source (lineEnd - cursor.cursor) cursor.cursor 0 false =
      .ok (size, any) → size = hexValue (sizeField (sizeLine cursor lineEnd))
  taken : ∀ chunk after lineEnd, findCrlf cursor.source cursor.cursor = some lineEnd →
    Checked.nextChunk cursor = .ok (some chunk, after) →
      chunk.data.length = hexValue (sizeField (sizeLine cursor lineEnd))
  large : ∀ lineEnd, cursor.finished = false →
    findCrlf cursor.source cursor.cursor = some lineEnd →
    2 ^ 63 ≤ hexValue (sizeField (sizeLine cursor lineEnd)) →
      Checked.nextChunk cursor = Checked.report .invalidChunk

theorem callSafe_iff {cursor : ChunkCursor} (hlen : cursor.source.length < 2 ^ 63)
    (hcur : cursor.cursor ≤ cursor.source.length) : CallSafe cursor ↔ Fits cursor := by
  constructor
  · intro h
    exact Classical.byContradiction fun hnot =>
      h.reads ((nextChunk_outside_iff hlen).mpr hnot)
  intro hfits
  have htaken {chunk : Checked.Chunk} {after : ChunkCursor}
      (h : Checked.nextChunk cursor = .ok (some chunk, after)) :
      ∃ lineEnd size, findCrlf cursor.source cursor.cursor = some lineEnd ∧
        SizeIs (sizeLine cursor lineEnd) size ∧
        Checked.Taken cursor (lineEnd + 2) size chunk after := by
    obtain ⟨-, hnone, -⟩ | ⟨taken, lineEnd, size, -, hfound, hline, hsize, htaken⟩ :=
      nextChunk_ok h
    · cases hnone
    · cases hfound
      exact ⟨lineEnd, size, hline, hsize, htaken⟩
  refine ⟨fun h => (nextChunk_outside_iff hlen).mp h hfits, hcur, ?_, ?_, ?_, ?_, ?_, ?_⟩
  · intro found after h
    cases found with
    | none =>
      obtain ⟨-, -, rfl⟩ | ⟨_, _, _, -, hfound, -⟩ := nextChunk_ok h
      · exact hcur
      · cases hfound
    | some chunk =>
      obtain ⟨lineEnd, size, -, -, htaken⟩ := htaken h
      exact htaken.inside
  · intro chunk after h
    obtain ⟨lineEnd, size, hline, -, htaken⟩ := htaken h
    have hge := (findCrlf_bounds hline).1
    have hbehind := htaken.behind
    omega
  · intro chunk after h
    obtain ⟨lineEnd, size, -, -, htaken⟩ := htaken h
    have hbehind := htaken.behind
    have hinside := htaken.inside
    refine ⟨?_, fun span hspan => (htaken.trailers span hspan).2⟩
    rw [htaken.data]
    change lineEnd + 2 + size ≤ _
    omega
  · intro lineEnd size any hline hread
    obtain ⟨hge, hle⟩ := findCrlf_bounds hline
    rw [chunkSizeLoop_eq (by omega)] at hread
    cases hval : chunkSizeLoop 0 false (sizeLine cursor lineEnd) with
    | none =>
      unfold sizeLine slice at hval
      rw [hval] at hread
      cases hread
    | some read =>
      obtain ⟨value, found⟩ := read
      have hread' := hval
      unfold sizeLine slice at hread'
      rw [hread'] at hread
      cases hread
      have hiff := (chunkSizeLoop_eq_some_iff (by decide)).mp hval
      rw [hiff.2.1, Nat.zero_mul, Nat.zero_add]
  · intro chunk after lineEnd hline h
    obtain ⟨other, size, hother, hsize, htaken⟩ := htaken h
    obtain rfl := Option.some.inj (hline.symm.trans hother)
    rw [htaken.data]
    exact hsize.value
  · intro lineEnd hfin hline hlarge
    rw [nextChunk_eq hfin, hline]
    dsimp only
    cases hval : chunkSizeLoop 0 false (sizeLine cursor lineEnd) with
    | none => rfl
    | some read =>
      have hiff := (chunkSizeLoop_eq_some_iff (by decide)).mp hval
      rw [Nat.zero_mul, Nat.zero_add] at hiff
      have hword := hiff.2.2.1
      rw [hiff.2.1] at hword
      omega

theorem afterCalls_bounds (source : List UInt8) (calls : Nat) :
    (afterCalls source calls).source = source ∧
      (afterCalls source calls).cursor ≤ source.length := by
  induction calls with
  | zero => exact ⟨rfl, Nat.zero_le _⟩
  | succ calls ih =>
    rw [afterCalls, afterCall]
    cases hnext : Checked.nextChunk (afterCalls source calls) with
    | error failure => exact ih
    | ok result =>
      obtain ⟨found, after⟩ := result
      obtain ⟨-, -, rfl⟩ | ⟨_, _, _, -, -, -, -, htaken⟩ := nextChunk_ok hnext
      · exact ih
      · have hinside := htaken.inside
        rw [ih.1] at hinside
        exact ⟨htaken.source.trans ih.1, hinside⟩

/-- **Every call is safe** if the sum of every call is a word. -/
theorem calls_safe_iff (source : List UInt8) (hlength : source.length < 2 ^ 63) :
    (∀ calls, CallSafe (afterCalls source calls)) ↔ ∀ calls, Fits (afterCalls source calls) := by
  refine forall_congr' fun calls => ?_
  obtain ⟨hsrc, hcur⟩ := afterCalls_bounds source calls
  exact callSafe_iff (by rwa [hsrc]) (by rwa [hsrc])

/-- A chunk of one byte, and the last chunk without trailers. -/
def twoChunks : List UInt8 := [49, 13, 10, 120, 13, 10, 48, 13, 10, 13, 10]

theorem twoChunks_safe : twoChunks.length = 11 ∧
    ∀ calls, CallSafe (afterCalls twoChunks calls) := by
  refine ⟨rfl, (calls_safe_iff twoChunks (by decide)).mpr fun calls => ?_⟩
  have hfits (cursor lineEnd size : Nat)
      (hline : findCrlf twoChunks cursor = some lineEnd)
      (hsize : SizeIs (sizeLine ⟨twoChunks, cursor, false⟩ lineEnd) size)
      (hsum : lineEnd + 2 + size + 2 < 2 ^ 63) : Fits ⟨twoChunks, cursor, false⟩ := by
    intro _ lineEnd' size' hline' hsize'
    obtain rfl := Option.some.inj (hline.symm.trans hline')
    obtain rfl := hsize.unique hsize'
    exact .inl hsum
  have hdata : afterCalls twoChunks 1 = ⟨twoChunks, 6, false⟩ := by decide
  have hafter (calls : Nat) : afterCalls twoChunks (calls + 2) = ⟨twoChunks, 11, true⟩ := by
    induction calls with
    | zero => decide
    | succ calls ih =>
      rw [afterCalls, ih]
      rfl
  obtain _ | _ | calls := calls
  · exact hfits 0 1 1 (by decide) (chunkSizeLoop_eq_some_true_iff.mp (by decide))
      (by decide)
  · rw [hdata]
    exact hfits 6 7 0 (by decide) (chunkSizeLoop_eq_some_true_iff.mp (by decide))
      (by decide)
  · intro hfin
    rw [hafter calls] at hfin
    cases hfin

/-- A chunk of the largest size there is. -/
def hugeChunk : List UInt8 :=
  [55, 102, 102, 102, 102, 102, 102, 102, 102, 102, 102, 102, 102, 102, 102, 102, 13, 10]

/-- The sum wraps around, and a byte far behind the source is read. -/
theorem hugeChunk_outside : ¬ ∀ calls, CallSafe (afterCalls hugeChunk calls) := by
  intro h
  refine (h 0).reads ((nextChunk_outside_iff (by decide)).mpr fun hfits => ?_)
  have hsize : SizeIs (sizeLine (chunks hugeChunk) 16) (2 ^ 63 - 1) :=
    chunkSizeLoop_eq_some_true_iff.mp (by decide)
  obtain hsmall | ⟨b, hbyte, -⟩ := hfits rfl 16 (2 ^ 63 - 1) (by decide) hsize
  · exact absurd hsmall (by decide)
  · have hlt := (List.getElem?_eq_some_iff.mp hbyte).1
    exact absurd hlt (by decide)

end Raz.Http
