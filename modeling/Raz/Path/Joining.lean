import Mathlib.Data.List.DropRight
import Raz.Path.Normal

/-!
# Joined paths

What a path with a further part should come to: the root of the path, and the place that its
components and then those of the part come to. A part is put behind a path without the separators
at its end, and a separator.

Result: `continues_trimmed`: the text that is put together has them, unless the path is a drive
letter with its colon or has separators alone.
-/

namespace Raz.Path

open LexicalPath List

/-! ## Components behind a path -/

theorem components_separators {path : List UInt8} (h : ∀ byte ∈ path, isSeparator byte) :
    components path = [] := by
  induction path with
  | nil => rfl
  | cons byte path ih =>
    obtain ⟨hbyte, hpath⟩ := forall_mem_cons.mp h
    rw [components_separator hbyte, ih hpath]

theorem components_append_separator (front : List UInt8) {byte : UInt8} (h : isSeparator byte)
    (back : List UInt8) :
    components (front ++ byte :: back) = components front ++ components back := by
  unfold components
  rw [splitOnP_append_cons _ _ h, filter_append]

theorem components_append_separators (front : List UInt8) {back : List UInt8}
    (h : ∀ byte ∈ back, isSeparator byte) : components (front ++ back) = components front := by
  cases back with
  | nil => rw [append_nil]
  | cons byte back =>
    obtain ⟨hbyte, hback⟩ := forall_mem_cons.mp h
    rw [components_append_separator front hbyte, components_separators hback, append_nil]

/-! ## The target -/

/-- Where the components of a path and then those of a part lead from the root of the path. -/
def targetPlace (base part : List UInt8) : Place (List UInt8) :=
  placeOf (0 < rootLength base)
    (components (base.drop (rootLength base)) ++ components part)

/-- The normal form of a path with a part behind it. -/
def target (base part : List UInt8) : List UInt8 :=
  let text := rootText base ++ joined (partsOf (targetPlace base part))
  if text = [] ∧ (base ≠ [] ∨ part ≠ []) then [46] else text

/-- The text has the root of the path, and the components of the path and the part behind it. -/
structure Continues (text base part : List UInt8) : Prop where
  length : rootLength text = rootLength base
  root : rootText text = rootText base
  components : components (text.drop (rootLength text)) =
    components (base.drop (rootLength base)) ++ components part
  empty : text = [] ↔ base = [] ∧ part = []

theorem Continues.place {text base part : List UInt8} (h : Continues text base part) :
    place text = targetPlace base part := by
  unfold Path.place targetPlace
  rw [h.components, h.length]

/-- **A text that continues the path** comes to the same normal form. -/
theorem normalForm_continues {text base part : List UInt8} (h : Continues text base part) :
    normalForm text = target base part := by
  have hempty : text ≠ [] ↔ base ≠ [] ∨ part ≠ [] := by
    rw [ne_eq, h.empty, Classical.not_and_iff_not_or_not]
  unfold normalForm target
  rw [h.root, h.place]
  by_cases htext : rootText base ++ joined (partsOf (targetPlace base part)) = []
  · by_cases hne : text ≠ []
    · rw [if_pos ⟨htext, hne⟩, if_pos ⟨htext, hempty.mp hne⟩]
    · rw [if_neg (fun hboth => hne hboth.2), if_neg (fun hboth => hne (hempty.mpr hboth.2))]
  · rw [if_neg (fun hboth => htext hboth.1), if_neg (fun hboth => htext hboth.1)]

theorem continues_nil_right (base : List UInt8) : Continues base base [] :=
  ⟨rfl, rfl, (append_nil _).symm, ⟨fun h => ⟨h, rfl⟩, And.left⟩⟩

theorem continues_nil_left {part : List UInt8} (h : rootLength part = 0) :
    Continues part [] part := by
  refine ⟨h, rootText_relative h, ?_, ⟨fun h => ⟨rfl, h⟩, And.right⟩⟩
  rw [h]
  rfl

/-! ## The text that is put together -/

/-- The path without the separators at its end. -/
def trimmed (base : List UInt8) : List UInt8 := base.rdropWhile isSeparator

theorem trimmed_split (base : List UInt8) : ∃ back, base = trimmed base ++ back ∧
    (∀ byte ∈ back, isSeparator byte) ∧
    ∀ byte ∈ (trimmed base).getLast?, isSeparator byte = false := by
  refine ⟨base.rtakeWhile isSeparator, (rdropWhile_append_rtakeWhile ..).symm,
    fun byte => mem_rtakeWhile_imp, ?_⟩
  intro byte hbyte
  obtain ⟨hne, rfl⟩ := List.mem_getLast?_eq_getLast hbyte
  exact eq_false_of_ne_true (rdropWhile_last_not isSeparator base hne)

theorem rootText_congr {path other : List UInt8} (hlen : rootLength path = rootLength other)
    (hfirst : path.take 1 = other.take 1) : rootText path = rootText other := by
  unfold rootText
  rw [hlen, hfirst]

theorem rootLength_le_three (path : List UInt8) : rootLength path ≤ 3 := by
  obtain ⟨hlen, -⟩ | ⟨hlen, -⟩ | ⟨hlen, -⟩ | ⟨hlen, -⟩ := rootLength_cases path
  all_goals exact Nat.le_trans (Nat.le_of_eq hlen) (by decide)

section

variable {front back part : List UInt8}

theorem components_behind {root : Nat} (hback : ∀ byte ∈ back, isSeparator byte)
    (hroot : root ≤ front.length) :
    components ((front ++ 47 :: part).drop root) =
      components ((front ++ back).drop root) ++ components part := by
  rw [drop_append_of_le_length hroot, drop_append_of_le_length hroot,
    components_append_separator _ rfl, components_append_separators _ hback]

/-- The root of a text that is put together is the root of the path. -/
theorem root_behind (hne : front ≠ []) (hlast : ∀ byte ∈ front.getLast?, isSeparator byte = false)
    (hback : ∀ byte ∈ back, isSeparator byte) (hdrive : ¬ IsDrive (front ++ back)) :
    rootLength (front ++ 47 :: part) = rootLength (front ++ back) ∧
      components ((front ++ 47 :: part).drop (rootLength (front ++ back))) =
        components ((front ++ back).drop (rootLength (front ++ back))) ++ components part := by
  match front, hne with
  | [first], _ =>
    -- one byte that is no separator, and no colon behind it
    have hfirst := hlast first rfl
    have hnone (rest : List UInt8) (hrest : ∀ byte ∈ rest.head?, isSeparator byte) :
        rootLength (first :: rest) = 0 := by
      have hnot : ¬ driveRoot (first :: rest) := by
        rw [driveRoot_iff]
        rintro ⟨-, third, others, rfl, -⟩
        nomatch hrest 58 rfl
      rw [rootLength_relative hfirst, if_neg hnot]
    have htext : rootLength ([first] ++ 47 :: part) = 0 := hnone _ (by rintro byte ⟨⟩; rfl)
    have hbase : rootLength ([first] ++ back) = 0 :=
      hnone _ fun byte hbyte => hback byte (mem_of_mem_head? hbyte)
    refine ⟨htext.trans hbase.symm, components_behind hback ?_⟩
    rw [hbase]
    exact Nat.zero_le _
  | [first, second], _ =>
    have hsame : rootLength ([first, second] ++ 47 :: part) =
        rootLength ([first, second] ++ back) := by
      by_cases hfirst : isSeparator first
      · change (if isSeparator first then _ else _) = (if isSeparator first then _ else _)
        rw [if_pos hfirst, if_pos hfirst]
        rfl
      have hrelative := eq_false_of_ne_true hfirst
      have htext := @rootLength_relative first ([second] ++ 47 :: part) hrelative
      have hbase := @rootLength_relative first ([second] ++ back) hrelative
      refine htext.trans (Eq.trans ?_ hbase.symm)
      congr 1
      rw [driveRoot_iff, driveRoot_iff, eq_iff_iff]
      refine and_congr_right fun hletter => ?_
      cases back with
      | nil =>
        refine ⟨?_, fun ⟨_, _, heq, _⟩ => nomatch heq⟩
        rintro ⟨third, others, heq, -⟩
        obtain ⟨rfl, -⟩ := List.cons.inj heq
        exact absurd ⟨first, hletter, rfl⟩ hdrive
      | cons byte back =>
        have hbyte := hback byte mem_cons_self
        constructor
        · rintro ⟨third, others, heq, -⟩
          obtain ⟨rfl, -⟩ := List.cons.inj heq
          exact ⟨byte, back, rfl, hbyte⟩
        · rintro ⟨third, others, heq, -⟩
          obtain ⟨rfl, -⟩ := List.cons.inj heq
          exact ⟨47, part, rfl, rfl⟩
    refine ⟨hsame, ?_⟩
    by_cases hthree : rootLength ([first, second] ++ back) = 3
    · -- the separator behind a drive is a part of its root
      rw [hthree]
      have hnone := components_separators fun byte hbyte =>
        hback byte (mem_of_mem_drop (hbyte : byte ∈ back.drop 1))
      change components part = components (back.drop 1) ++ components part
      rw [hnone]
      rfl
    · have hle := rootLength_le_three ([first, second] ++ back)
      exact components_behind hback (Nat.le_of_lt_succ (Nat.lt_of_le_of_ne hle hthree))
  | first :: second :: third :: rest, _ =>
    refine ⟨rfl, components_behind hback ?_⟩
    exact Nat.le_trans (rootLength_le_three _) (Nat.le_add_left 3 _)

end

/-- **The text that is put together** continues the path. -/
theorem continues_trimmed {base : List UInt8} (part : List UInt8) (hne : trimmed base ≠ [])
    (hdrive : ¬ IsDrive base) : Continues (trimmed base ++ 47 :: part) base part := by
  obtain ⟨back, hbase, hback, hlast⟩ := trimmed_split base
  generalize trimmed base = front at *
  subst hbase
  obtain ⟨hlen, hcomps⟩ := @root_behind front back part hne hlast hback hdrive
  obtain ⟨first, rest, rfl⟩ := exists_cons_of_ne_nil hne
  rw [← hlen] at hcomps
  refine ⟨hlen, rootText_congr hlen rfl, ?_, ⟨nofun, nofun⟩⟩
  rw [hcomps, hlen]

theorem rootLength_behind_drive {base : List UInt8} (h : IsDrive base) (part : List UInt8) :
    trimmed base = base ∧ rootLength base = 0 ∧ rootLength (base ++ 47 :: part) = 3 := by
  obtain ⟨letter, hletter, rfl⟩ := h
  refine ⟨?_, ?_, rootLength_drive hletter part⟩
  · exact rdropWhile_eq_self_iff.mpr fun _ => nofun
  · exact rootLength_relative (driveLetter_separator hletter)

theorem rootLength_separators {base : List UInt8} (hne : base ≠ [])
    (h : ∀ byte ∈ base, isSeparator byte) : rootLength base = if base.length = 1 then 1 else 2 := by
  match base, hne with
  | [first], _ =>
    change (if isSeparator first then 1 else _) = 1
    exact if_pos (h first mem_cons_self)
  | first :: second :: rest, _ =>
    have hsecond := h second (mem_cons_of_mem _ mem_cons_self)
    change (if isSeparator first then if isSeparator second then 2 else 1 else _) = 2
    rw [if_pos (h first mem_cons_self), if_pos hsecond]

end Raz.Path
