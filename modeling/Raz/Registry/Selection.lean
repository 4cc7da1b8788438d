import Raz.Registry.Version

/-!
# Selection of a version

The loop of `registry_resolve_mode` is a running maximum over the lines of the index that match.
Lines whose versions have the same numbers are ties: the loop keeps the first of them in the index,
and the suffix of a version takes no part.

Result: `select_version`: the version satisfies the constraint, no other version that does has
higher numbers, and the order of the lines shows only in the suffix.
-/

namespace Raz.Registry

open List

variable {line : IndexLine} {core : Core}

/-! ## Lines of an index -/

/-- A line is not empty and has no line break in it. -/
structure IsLine (line : List UInt8) : Prop where
  ne : line ≠ []
  unbroken : ∀ b ∈ line, isNewline b = false

theorem linesLoop_isLine (rounds : Nat) : ∀ (text line : List UInt8),
    line ∈ linesLoop rounds text → IsLine line := by
  induction rounds with
  | zero => exact fun _ _ h => nomatch h
  | succ rounds ih =>
    intro text line h
    rw [linesLoop] at h
    split at h
    · cases h
    simp only at h
    split at h
    · exact ih _ _ h
    rename_i hne
    rcases mem_cons.mp h with rfl | h
    · refine ⟨hne, fun b hb => ?_⟩
      have hall := all_eq_true.mp (all_takeWhile (p := fun b => !isNewline b)) b hb
      exact Bool.eq_false_iff.mpr fun h => by rw [h] at hall; cases hall
    · exact ih _ _ h

theorem indexLines_isLine {text line : List UInt8} (h : line ∈ indexLines text) : IsLine line :=
  linesLoop_isLine _ _ _ h

/-- The index with these lines. -/
def joined (lines : List (List UInt8)) : List UInt8 := lines.flatMap (· ++ [10])

theorem joined_dropWhile {lines : List (List UInt8)} (h : ∀ line ∈ lines, IsLine line) :
    (joined lines).dropWhile isNewline = joined lines := by
  cases lines with
  | nil => rfl
  | cons line lines =>
    have hline := h line mem_cons_self
    cases line with
    | nil => exact absurd rfl hline.ne
    | cons b line =>
      have hb := Bool.eq_false_iff.mp (hline.unbroken b mem_cons_self)
      exact dropWhile_cons_of_neg hb

theorem linesLoop_joined (rounds : Nat) : ∀ lines : List (List UInt8),
    (∀ line ∈ lines, IsLine line) → (joined lines).length < rounds →
      linesLoop rounds (joined lines) = lines := by
  induction rounds with
  | zero => exact fun _ _ h => absurd h (Nat.not_lt_zero _)
  | succ rounds ih =>
    intro lines hlines hlen
    cases lines with
    | nil => rfl
    | cons line lines =>
      obtain ⟨hline, hlines⟩ := forall_mem_cons.mp hlines
      have hjoined : joined (line :: lines) = line ++ 10 :: joined lines := by
        rw [joined, flatMap_cons, append_assoc]
        rfl
      have htake : (line ++ 10 :: joined lines).takeWhile (fun b => !isNewline b) = line := by
        rw [takeWhile_append_of_pos fun b hb => by rw [hline.unbroken b hb]; rfl]
        rw [takeWhile_cons_of_neg (by decide), append_nil]
      rw [hjoined, length_append, length_cons] at hlen
      rw [hjoined, linesLoop, if_neg (append_ne_nil_of_left_ne_nil hline.ne _)]
      simp only
      rw [htake, drop_left, dropWhile_cons_of_pos (by decide), joined_dropWhile hlines,
        ih lines hlines (by omega), if_neg hline.ne]

/-- **Any lines are the lines of some index.** -/
theorem indexLines_joined {lines : List (List UInt8)} (h : ∀ line ∈ lines, IsLine line) :
    indexLines (joined lines) = lines :=
  linesLoop_joined _ lines h (Nat.lt_succ_self _)

/-! ## The loop -/

/-- The numbers of a line are above those of another. -/
def newer (a b : Core × IndexLine) : Bool := semverCompare a.1 b.1 > 0

theorem newer_iff {a b : Core × IndexLine} : newer a b = true ↔ b.1.Lower a.1 := by
  rw [newer, decide_eq_true_eq, semverCompare_pos]

theorem newer_eq_false {a b : Core × IndexLine} : newer a b = false ↔ ¬ b.1.Lower a.1 := by
  rw [← newer_iff, Bool.not_eq_true]

theorem newer_weakOrder : RunningMax.WeakOrder newer where
  irrefl a := newer_eq_false.mpr fun h => by unfold Core.Lower at h; omega
  trans hab hbc := by
    rw [newer_eq_false] at *
    unfold Core.Lower at *
    omega
  asymm h := by
    rw [newer_eq_false]
    have h := newer_iff.mp h
    unfold Core.Lower at *
    omega

/-- The lines that match, with the numbers of their versions. -/
def candidates (name constraint text : List UInt8) : List (Core × IndexLine) :=
  (indexLines text).filterMap (candidate name constraint)

theorem selectLoop_eq (name constraint : List UInt8) (lines : List (List UInt8)) :
    ∀ best, selectLoop name constraint best lines =
      RunningMax.runningMax newer best (lines.filterMap (candidate name constraint)) := by
  induction lines with
  | nil => exact fun _ => rfl
  | cons line lines ih =>
    intro best
    rw [selectLoop]
    cases hline : candidate name constraint line with
    | none => exact (ih best).trans (by rw [filterMap_cons_none hline])
    | some next =>
      rw [filterMap_cons_some hline, RunningMax.runningMax, foldl_cons]
      cases best with
      | none => exact ih _
      | some old =>
        refine (ih _).trans ?_
        rw [RunningMax.runningMax, RunningMax.keep, newer]
        simp

/-- **The loop keeps a running maximum.** -/
theorem selectLine_eq (name constraint text : List UInt8) :
    selectLine name constraint text =
      (RunningMax.runningMax newer none (candidates name constraint text)).map Prod.snd := by
  rw [selectLine, selectLoop_eq, candidates]

/-! ## What is selected -/

/-- The version that is selected. -/
def selectedVersion (name constraint text : List UInt8) : Option (List UInt8) :=
  (selectLine name constraint text).map IndexLine.version

/-- The lines of a package that can be read. -/
def packageLines (name text : List UInt8) : List IndexLine :=
  ((indexLines text).filterMap readLine).filter (fun line => line.name = name)

/-- The version texts that are parsed. -/
def parsedTexts (name constraint text : List UInt8) : List (List UInt8) :=
  (constraintMode constraint).2 :: (packageLines name text).map IndexLine.version

/-- A version that the constraint allows, as the documentation says it. -/
def Allowed (constraint version : List UInt8) (v : Version) : Prop :=
  Reads version v ∧ ∃ c, ReadsConstraint constraint c ∧ c.Allows version v

/-- A version that matches: without a constraint a prerelease may. -/
def Matches (constraint version : List UInt8) (v : Version) : Prop :=
  Reads version v ∧ ∃ c, ReadsConstraint constraint c ∧ c.Rule version v ∧
    (constraint ≠ [] → v.isPrerelease = true → c.isPrerelease = true)

/-- What the documentation says of a selection. -/
structure Documented (name constraint text : List UInt8) : Prop where
  /-- The version satisfies the constraint. -/
  allowed : ∀ line, selectLine name constraint text = some line →
    line.name = name ∧ ∃ v, Allowed constraint line.version v
  /-- No other one that does is higher. -/
  highest : ∀ line v, selectLine name constraint text = some line → Reads line.version v →
    ∀ other ∈ packageLines name text, ∀ w, Allowed constraint other.version w → ¬ v.Lower w
  /-- The order of the lines does not matter. -/
  stable : ∀ text', (indexLines text').Perm (indexLines text) →
    selectedVersion name constraint text' = selectedVersion name constraint text
  /-- No number is read as another one. -/
  exact : ∀ version ∈ parsedTexts name constraint text, ∀ core,
    parseSemver version = some core → ∃ v, readVersion version = some v ∧ v.core = core

theorem constraintMatches_iff_matches {version constraint : List UInt8} (hver : NoWrap version)
    (hconstraint : NoWrap (constraintMode constraint).2) :
    constraintMatches version constraint = true ↔ ∃ v, Matches constraint version v := by
  rw [constraintMatches_iff hver hconstraint]
  constructor
  · rintro ⟨v, c, hv, hc, hrule, hnamed⟩
    refine ⟨v, hv, c, hc, hrule, fun hne hpre => (hnamed hpre).resolve_left ?_⟩
    rintro rfl
    cases hc
    exact hne rfl
  · rintro ⟨v, hv, c, hc, hrule, hnamed⟩
    refine ⟨v, c, hv, hc, hrule, fun hpre => ?_⟩
    cases hc with
    | any => exact .inl rfl
    | bound ne _ => exact .inr (hnamed ne hpre)

theorem mem_candidates {name constraint text : List UInt8} :
    (core, line) ∈ candidates name constraint text ↔
      line ∈ packageLines name text ∧ constraintMatches line.version constraint = true ∧
        parseSemver line.version = some core := by
  unfold candidates packageLines
  rw [mem_filterMap, mem_filter, mem_filterMap, decide_eq_true_eq]
  constructor
  · rintro ⟨source, hsrc, hcandidate⟩
    unfold candidate at hcandidate
    simp only [Option.bind_eq_bind, Option.bind_eq_some_iff] at hcandidate
    obtain ⟨read, hread, hcandidate⟩ := hcandidate
    split at hcandidate
    · cases hcandidate
    rename_i hmatches
    obtain ⟨hname, hmatches⟩ := not_or.mp hmatches
    obtain ⟨core', hparse, heq⟩ := Option.bind_eq_some_iff.mp hcandidate
    cases heq
    exact ⟨⟨⟨source, hsrc, hread⟩, Classical.not_not.mp hname⟩,
      eq_true_of_ne_false hmatches, hparse⟩
  · rintro ⟨⟨⟨source, hsrc, hread⟩, rfl⟩, hmatches, hparse⟩
    refine ⟨source, hsrc, ?_⟩
    unfold candidate
    rw [hread]
    simp only [Option.bind_eq_bind, Option.bind_some]
    rw [if_neg (not_or.mpr ⟨fun h => h rfl, fun h => by rw [hmatches] at h; cases h⟩), hparse]
    rfl

/-- A line of the package that matches, and no other one that does has higher numbers. -/
structure Selects (name constraint text : List UInt8) (line : IndexLine) : Prop where
  listed : line ∈ packageLines name text
  allowed : ∃ v, Matches constraint line.version v
  highest : ∀ v, Reads line.version v → ∀ other ∈ packageLines name text, ∀ w,
    Matches constraint other.version w → ¬ v.core.Lower w.core

section
variable {name constraint text : List UInt8}
  (small : ∀ version ∈ parsedTexts name constraint text, NoWrap version)

include small

theorem noWrap_of_mem (h : line ∈ packageLines name text) : NoWrap line.version :=
  small _ (mem_cons_of_mem _ (mem_map_of_mem h))

/-- The candidates are the lines that match, with the numbers of their versions. -/
theorem mem_candidates_iff : (core, line) ∈ candidates name constraint text ↔
      line ∈ packageLines name text ∧ ∃ v, Matches constraint line.version v ∧ v.core = core := by
  rw [mem_candidates]
  refine and_congr_right fun hlisted => ?_
  have hline := noWrap_of_mem small hlisted
  rw [constraintMatches_iff_matches hline (small _ mem_cons_self), hline.parseSemver_eq_some]
  constructor
  · rintro ⟨⟨v, hv⟩, w, hread, hfits, hcore⟩
    exact ⟨v, hv, by rw [hv.1.unique ⟨hread, hfits⟩, hcore]⟩
  · rintro ⟨v, hv, hcore⟩
    exact ⟨⟨v, hv⟩, v, hv.1.1, hv.1.2, hcore⟩

theorem selects_of_isTop {core : Core} {line : IndexLine}
    (h : RunningMax.IsTop newer (candidates name constraint text) (core, line)) :
    Selects name constraint text line := by
  obtain ⟨hlisted, v, hv, hcore⟩ := (mem_candidates_iff small).mp h.mem
  refine ⟨hlisted, ⟨v, hv⟩, fun v' hv' other hother w hw => ?_⟩
  have hmem := (mem_candidates_iff small).mpr ⟨hother, w, hw, rfl⟩
  have htop := newer_eq_false.mp (h.top _ hmem)
  rwa [hv'.unique hv.1, hcore]

theorem isTop_of_selects (h : Selects name constraint text line) :
    ∃ core, RunningMax.IsTop newer (candidates name constraint text) (core, line) := by
  obtain ⟨v, hv⟩ := h.allowed
  refine ⟨v.core, (mem_candidates_iff small).mpr ⟨h.listed, v, hv, rfl⟩, ?_⟩
  rintro ⟨core, other⟩ hother
  obtain ⟨hlisted, w, hw, rfl⟩ := (mem_candidates_iff small).mp hother
  exact newer_eq_false.mpr (h.highest v hv.1 other hlisted w hw)

end

/-- The versions that are selected, whatever the order of the lines. -/
theorem selectedVersion_eq (name constraint text : List UInt8) :
    selectedVersion name constraint text =
      (RunningMax.runningMax newer none (candidates name constraint text)).map
        (fun best => best.2.version) := by
  rw [selectedVersion, selectLine_eq, Option.map_map]
  rfl

/-- An order of the lines is an index with its lines in that order. -/
theorem stable_iff_perm (name constraint text : List UInt8) :
    (∀ text', (indexLines text').Perm (indexLines text) →
      selectedVersion name constraint text' = selectedVersion name constraint text) ↔
      ∀ lines : List (List UInt8), lines.Perm (indexLines text) →
        (RunningMax.runningMax newer none (lines.filterMap (candidate name constraint))).map
            (fun best => best.2.version) =
          (RunningMax.runningMax newer none (candidates name constraint text)).map
            (fun best => best.2.version) := by
  constructor
  · intro h lines hperm
    have hlines : indexLines (joined lines) = lines :=
      indexLines_joined fun line hline => indexLines_isLine (hperm.mem_iff.mp hline)
    have hjoined := h (joined lines) (hlines.symm ▸ hperm)
    rw [selectedVersion_eq, selectedVersion_eq, candidates, hlines] at hjoined
    exact hjoined
  · intro h text' hperm
    rw [selectedVersion_eq, selectedVersion_eq]
    exact h _ hperm

/-- **The selected version satisfies the constraint, and no other version that does has higher
numbers. It depends on the order of the lines exactly where two such lines differ in their version
text**, as they do where two versions have the same numbers and different suffixes. -/
theorem select_version (name constraint text : List UInt8)
    (small : ∀ version ∈ parsedTexts name constraint text, NoWrap version) :
    (∀ line, selectLine name constraint text = some line → Selects name constraint text line) ∧
    (selectLine name constraint text = none →
      ∀ line ∈ packageLines name text, ∀ v, ¬ Matches constraint line.version v) ∧
    ((∀ text', (indexLines text').Perm (indexLines text) →
        selectedVersion name constraint text' = selectedVersion name constraint text) ↔
      ∀ a b, Selects name constraint text a → Selects name constraint text b →
        a.version = b.version) := by
  have hspec := RunningMax.runningMax_spec newer_weakOrder (candidates name constraint text)
  rw [selectLine_eq]
  refine ⟨fun line hline => ?_, fun hnone line hlisted v hv => ?_, ?_⟩
  · obtain ⟨⟨core, kept⟩, hkept, rfl⟩ := Option.map_eq_some_iff.mp hline
    rcases hspec with ⟨-, hnone⟩ | ⟨best, hbest, htop⟩
    · rw [hnone] at hkept
      cases hkept
    · obtain rfl := Option.some.inj (hkept.symm.trans hbest)
      exact selects_of_isTop small htop
  · rcases hspec with ⟨hnil, -⟩ | ⟨best, hbest, -⟩
    · have hmem := (mem_candidates_iff small).mpr ⟨hlisted, v, hv, rfl⟩
      rw [hnil] at hmem
      cases hmem
    · rw [hbest] at hnone
      cases hnone
  · rw [stable_iff_perm]
    refine (RunningMax.runningMax_perm_iff newer_weakOrder _ _ _).trans ?_
    constructor
    · intro h a b ha hb
      obtain ⟨_, ha⟩ := isTop_of_selects small ha
      obtain ⟨_, hb⟩ := isTop_of_selects small hb
      exact h _ _ ha hb
    · exact fun h a b ha hb => h _ _ (selects_of_isTop small ha) (selects_of_isTop small hb)

/-- `p 1.0.0-a s c` and `p 1.0.0-b s c`. -/
def prereleases : List UInt8 :=
  [112, 32, 49, 46, 48, 46, 48, 45, 97, 32, 115, 32, 99, 10,
    112, 32, 49, 46, 48, 46, 48, 45, 98, 32, 115, 32, 99, 10]

/-- `^1.0.0-a`. -/
def caretPrerelease : List UInt8 := [94, 49, 46, 48, 46, 48, 45, 97]

theorem reads_prerelease (b : UInt8) : Reads [49, 46, 48, 46, 48, 45, b] ⟨1, 0, 0, [45, b]⟩ where
  left := rfl
  right := ⟨(by decide : 1 < 2 ^ 63), (by decide : 0 < 2 ^ 63), (by decide : 0 < 2 ^ 63)⟩

theorem select_version_prereleases :
    Selects [112] caretPrerelease prereleases
      ⟨[112], [49, 46, 48, 46, 48, 45, 97], [115], [99], [], []⟩ := by
  refine (select_version [112] caretPrerelease prereleases ?_).1 _ (by decide)
  have htexts : parsedTexts [112] caretPrerelease prereleases =
      [[49, 46, 48, 46, 48, 45, 97], [49, 46, 48, 46, 48, 45, 97],
        [49, 46, 48, 46, 48, 45, 98]] := by decide
  rw [htexts]
  simp only [forall_mem_cons]
  exact ⟨(reads_prerelease _).noWrap, (reads_prerelease _).noWrap,
    (reads_prerelease _).noWrap, nofun⟩

/-- The first of the two prereleases is selected, and the second is higher. -/
theorem select_prereleases : ¬ Documented [112] caretPrerelease prereleases := by
  intro h
  have hallowed : Allowed caretPrerelease [49, 46, 48, 46, 48, 45, 98] ⟨1, 0, 0, [45, 98]⟩ := by
    refine ⟨reads_prerelease 98, _, .bound (by decide) (reads_prerelease 97), ⟨?_, ?_⟩,
      fun _ => by decide⟩
    · unfold Core.Lower
      decide
    · unfold Core.Lower
      decide
  refine h.highest ⟨[112], [49, 46, 48, 46, 48, 45, 97], [115], [99], [], []⟩ _ (by decide)
    (reads_prerelease 97) ⟨[112], [49, 46, 48, 46, 48, 45, 98], [115], [99], [], []⟩ (by decide) _
    hallowed (.inr ⟨rfl, by decide⟩)

end Raz.Registry
