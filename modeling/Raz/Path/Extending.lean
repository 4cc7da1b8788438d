import Raz.Path.Pushing

/-!
# When a path is extended rightly

Pushing and joining are right if what they leave is the normal form of the components of both paths
behind the root of the first, and if a push that is not done leaves the first as it was.

Result: `extends_iff`: the exact condition on the two paths and on the answers of the allocator.
-/

namespace Raz.Path

open Memory LexicalPath Storage

/-! ## What is right -/

def KeepsRoot (text base : List UInt8) : Prop :=
  rootLength text = rootLength base ∧ isAbsolute text = isAbsolute base

/-- What a push comes to is right: the target if it is done, else the path as it was. -/
def IsRight (result : Bool × List UInt8) (base part : List UInt8) : Prop :=
  if result.1 then result.2 = target base part ∧ KeepsRoot result.2 base else result.2 = base

/-- Wherever a buffer holds the path and the part stands apart from it, the push is right. -/
def Pushes (grants : Nat → Bool) (capacity : Nat) (base part : List UInt8) : Prop :=
  ∀ (allocator : Allocator) (memory : Bytes) (value : Storage) (source : Nat),
    Ready memory value base source part → value.capacity = capacity →
    Reallocates allocator grants source part.length → (part = [] ∨ source ≠ 0) →
    ∃ ok memory' value' text,
      pathBufPush allocator memory value ⟨source, part.length⟩ = (ok, memory', value') ∧
      Stands memory' value'.data text ∧ value'.length = text.length ∧ IsRight (ok, text) base part

/-- Wherever the two paths stand and there is room apart from them, a path with the same normal form
is written. -/
def Joins (base part : List UInt8) : Prop :=
  ∀ (memory : Bytes) (left right output capacity : Nat),
    Stands memory left base → Stands memory right part → output ≠ 0 →
    joinRequired memory ⟨left, base.length⟩ ⟨right, part.length⟩ ≤ capacity →
    (left + base.length ≤ output ∨ output + capacity ≤ left) →
    (right + part.length ≤ output ∨ output + capacity ≤ right) →
    ∃ memory' text,
      joinInto memory ⟨left, base.length⟩ ⟨right, part.length⟩ output capacity =
        (some text.length, memory') ∧
      Stands memory' output text ∧ normalForm text = target base part ∧ KeepsRoot text base

structure Extends (grants : Nat → Bool) (capacity : Nat) (base part : List UInt8) : Prop where
  pushes : Pushes grants capacity base part
  joins : Joins base part

theorem keepsRoot_iff {text base : List UInt8} :
    KeepsRoot text base ↔ rootLength text = rootLength base := by
  refine ⟨And.left, fun h => ⟨h, ?_⟩⟩
  rw [Bool.eq_iff_iff, isAbsolute_iff, isAbsolute_iff, h]

/-! ## The texts alone -/

section

variable {grants : Nat → Bool} {capacity : Nat} {base part : List UInt8}

theorem exists_ready (grants : Nat → Bool) (part : List UInt8) (hfit : base.length ≤ capacity) :
    ∃ allocator memory value source, Ready memory value base source part ∧
      value.capacity = capacity ∧ Reallocates allocator grants source part.length ∧
      (part = [] ∨ source ≠ 0) := by
  obtain ⟨memory, h⟩ := exists_stands (0 : UInt8) 1 (part ++ base)
  obtain ⟨hpart, hbase⟩ := Stands.append_iff.mp h
  let allocator : Allocator :=
    ⟨fun _ => none, fun pointer old size =>
      if grants size then some (pointer + old + part.length + 1) else none⟩
  refine ⟨allocator, memory, ⟨1 + part.length, base.length, capacity⟩, 1,
    ⟨hbase, rfl, hfit, fun hzero => ?_, hpart, .inl le_rfl⟩, rfl, ?_, .inr Nat.one_ne_zero⟩
  · have hzero : 1 + part.length = 0 := hzero
    omega
  intro pointer old size
  dsimp only [allocator]
  by_cases hgrants : grants size
  · rw [if_pos hgrants, hgrants]
    refine ⟨rfl, fun replacement hreplacement => ?_⟩
    cases hreplacement
    omega
  · rw [if_neg hgrants]
    exact ⟨(eq_false_of_ne_true hgrants).symm, nofun⟩

theorem pushes_iff (hfit : base.length ≤ capacity) (hlimit : capacity ≤ 9223372036854775807)
    (hpart : isAbsolute part = false) :
    Pushes grants capacity base part ↔ IsRight (pushed grants capacity base part) base part := by
  constructor
  · intro h
    obtain ⟨allocator, memory, value, source, hready, rfl, halloc, hsrc⟩ :=
      exists_ready grants part hfit
    obtain ⟨memory₁, value₁, hpush, hafter⟩ := pathBufPush_eq hready halloc hlimit hsrc hpart
    obtain ⟨ok, memory', value', text, hpush', hstands, hlen, hright⟩ :=
      h allocator memory value source hready rfl halloc hsrc
    obtain ⟨rfl, hrest⟩ := Prod.mk.inj (hpush.symm.trans hpush')
    cases hrest
    have hsame := hafter.holds.unique hstands (hafter.length.symm.trans hlen)
    rwa [← hsame] at hright
  · intro h allocator memory value source hready hcap halloc hsrc
    subst hcap
    obtain ⟨memory', value', hpush, hafter⟩ := pathBufPush_eq hready halloc hlimit hsrc hpart
    exact ⟨_, memory', value', _, hpush, hafter.holds, hafter.length, h⟩

theorem joins_iff (hpart : isAbsolute part = false) :
    Joins base part ↔ normalForm (joinText base part) = target base part ∧
      rootLength (joinText base part) = rootLength base := by
  constructor
  · intro h
    obtain ⟨memory, hstands⟩ := exists_stands (0 : UInt8) 0 (base ++ part)
    obtain ⟨hleft, hright⟩ := Stands.append_iff.mp hstands
    have hrequired := joinRequired_eq hleft hright hpart
    have hoff : (0 : Nat) + base.length ≤ base.length + part.length + 1 := by omega
    have hoff' : 0 + base.length + part.length ≤ base.length + part.length + 1 := by omega
    obtain ⟨memory₁, hjoin, hafter⟩ := joinInto_eq hleft hright hpart (.inr (Nat.succ_ne_zero _))
      le_rfl (.inl hoff) (.inl hoff')
    obtain ⟨memory', text, hjoin', htext, hform, hroot⟩ := h memory 0 (0 + base.length)
      (base.length + part.length + 1) (joinText base part).length hleft hright (Nat.succ_ne_zero _)
      (Nat.le_of_eq hrequired) (.inl hoff) (.inl hoff')
    obtain ⟨hlen, rfl⟩ := Prod.mk.inj (hjoin.symm.trans hjoin')
    rw [hafter.unique htext (Option.some.inj hlen)]
    exact ⟨hform, hroot.1⟩
  · rintro ⟨hform, hroot⟩ memory left right output capacity hleft hright hout hroom hapart
      hapart'
    rw [joinRequired_eq hleft hright hpart] at hroom
    obtain ⟨memory', hjoin, hafter⟩ :=
      joinInto_eq hleft hright hpart (.inr hout) hroom hapart hapart'
    exact ⟨memory', _, hjoin, hafter, hform, keepsRoot_iff.mpr hroot⟩

end

/-! ## The condition -/

/-- The components of a relative path and a part come to begin with a drive and have more behind
it. -/
def TurnsDriveWith (base part : List UInt8) : Prop :=
  rootLength base = 0 ∧ ∃ drive next others,
    partsOf (targetPlace base part) = drive :: next :: others ∧ IsDrive drive

/-- The condition: an empty part goes with a path in normal form. A path with a part behind it is
not of separators alone and not a drive letter with its colon, and does not come to begin with a
drive. If the part gets no room, the path has one separator at its end, or is empty. -/
structure Extendable (grants : Nat → Bool) (capacity : Nat) (base part : List UInt8) : Prop where
  empty : part = [] → normalForm base = base
  separators : part ≠ [] → trimmed base = [] → base = []
  drive : part ≠ [] → ¬ IsDrive base
  granted : part ≠ [] → separatorGrows grants capacity base = true →
    partGrows grants capacity base part = true → ¬ TurnsDriveWith base part
  refused : part ≠ [] → separatorGrows grants capacity base = true →
    partGrows grants capacity base part = false → base = [] ∨ base = trimmed base ++ [47]

section

variable {grants : Nat → Bool} {capacity : Nat} {base part : List UInt8}

theorem turnsDrive_continues {text : List UInt8} (h : Continues text base part) :
    TurnsDrive text ↔ TurnsDriveWith base part := by
  unfold TurnsDrive TurnsDriveWith
  rw [h.length, h.place]

theorem right_nil : IsRight (pushed grants capacity base []) base [] ↔ normalForm base = base := by
  rw [normalForm_continues (continues_nil_right base)]
  exact ⟨fun h => h.1.symm, fun h => ⟨h.symm, rfl, rfl⟩⟩

/-- A push that gets no room for the separator takes nothing from the path. -/
theorem trimmed_of_refused (hfit : base.length ≤ capacity)
    (h : separatorGrows grants capacity base = false) : trimmed base = base := by
  obtain ⟨hne, hgrows⟩ := Bool.or_eq_false_iff.mp h
  obtain ⟨hroom, -⟩ := Bool.or_eq_false_iff.mp hgrows
  have hroom := of_decide_eq_false hroom
  have hle : base.length ≤ (trimmed base).length := by omega
  exact (List.rdropWhile_prefix isSeparator base).eq_of_length_le hle

/-- **A push of a part** whose text continues the path. -/
theorem right_continues (hfit : base.length ≤ capacity) (hpart : part ≠ [])
    (h : Continues (putText base part) base part) (hbase : trimmed base = [] → base = []) :
    IsRight (pushed grants capacity base part) base part ↔
      (separatorGrows grants capacity base = true → partGrows grants capacity base part = true →
        ¬ TurnsDriveWith base part) ∧
      (separatorGrows grants capacity base = true → partGrows grants capacity base part = false →
        base = [] ∨ base = trimmed base ++ [47]) := by
  have hyes : ¬ true = false := nofun
  have hno : ¬ false = true := nofun
  unfold IsRight pushed
  rw [if_neg hpart]
  cases hsep : separatorGrows grants capacity base with
  | false =>
    rw [if_pos rfl]
    exact ⟨fun _ => ⟨nofun, nofun⟩, fun _ => trimmed_of_refused hfit hsep⟩
  | true =>
    rw [if_neg hyes]
    cases hgrows : partGrows grants capacity base part with
    | false =>
      rw [if_pos rfl, if_neg hno]
      have hleft : (if trimmed base = [] then [] else trimmed base ++ [47]) = base ↔
          base = [] ∨ base = trimmed base ++ [47] := by
        by_cases htrimmed : trimmed base = []
        · rw [if_pos htrimmed, hbase htrimmed]
          exact ⟨fun _ => .inl rfl, fun _ => rfl⟩
        rw [if_neg htrimmed]
        refine ⟨fun heq => .inr heq.symm, fun hor => (hor.resolve_left ?_).symm⟩
        rintro rfl
        exact htrimmed rfl
      rw [hleft]
      exact ⟨fun hor => ⟨nofun, fun _ _ => hor⟩, fun hboth => hboth.2 rfl rfl⟩
    | true =>
      rw [if_neg hyes, if_pos rfl, keepsRoot_iff, normalForm_continues h]
      have hroot := @rootLength_normalForm (putText base part)
      rw [h.length, turnsDrive_continues h, normalForm_continues h] at hroot
      rw [hroot]
      exact ⟨fun hboth => ⟨fun _ _ => hboth.2, nofun⟩, fun hboth => ⟨rfl, hboth.1 rfl rfl⟩⟩

/-- A relative path comes to begin with a drive or has no root. -/
theorem rootLength_normalForm_relative {path : List UInt8} (h : rootLength path = 0) :
    rootLength (normalForm path) = 0 ∨ rootLength (normalForm path) = 3 := by
  cases hparts : partsOf (place path) with
  | nil =>
    obtain heq | heq := normalForm_nothing h hparts
    all_goals
      rw [heq]
      exact .inl rfl
  | cons part parts =>
    have hpart : IsComponent part := place_parts part (by rw [hparts]; exact List.mem_cons_self)
    rw [normalForm_relative h hparts, rootLength_joined hpart]
    split
    · exact .inr rfl
    · exact .inl rfl

theorem not_right_separators (hrelative : rootLength part = 0) (hpart : part ≠ [])
    (htrimmed : trimmed base = []) (hbase : base ≠ []) :
    ¬ IsRight (pushed grants capacity base part) base part := by
  have hseparators := List.rdropWhile_eq_nil_iff.mp htrimmed
  have hsep : separatorGrows grants capacity base = true :=
    Bool.or_eq_true_iff.mpr (.inl (decide_eq_true htrimmed))
  have hput : putText base part = part := if_pos htrimmed
  have hyes : ¬ true = false := nofun
  unfold IsRight pushed
  rw [if_neg hpart, hsep, if_neg hyes, if_pos htrimmed, hput]
  cases partGrows grants capacity base part with
  | false =>
    rw [if_pos rfl]
    exact fun heq => hbase heq.symm
  | true =>
    rw [if_neg hyes, if_pos rfl]
    rintro ⟨-, hroot, -⟩
    have hlen := rootLength_separators hbase hseparators
    rw [← hroot] at hlen
    obtain hzero | hthree := rootLength_normalForm_relative hrelative
    · rw [hzero] at hlen
      split at hlen <;> nomatch hlen
    · rw [hthree] at hlen
      split at hlen <;> nomatch hlen

/-- The two texts that are put together are the same, unless there are separators alone. -/
theorem joinText_eq (hpart : part ≠ []) (h : trimmed base = [] → base = []) :
    joinText base part = putText base part := by
  unfold joinText putText kept
  by_cases htrimmed : trimmed base = []
  · rw [if_pos (h htrimmed), if_pos htrimmed]
  have hbase : base ≠ [] := by
    rintro rfl
    exact htrimmed rfl
  rw [if_neg hbase, if_neg hpart, if_neg htrimmed, if_neg htrimmed]

theorem continues_putText (hrelative : rootLength part = 0) (h : trimmed base = [] → base = [])
    (hdrive : ¬ IsDrive base) : Continues (putText base part) base part := by
  unfold putText
  by_cases htrimmed : trimmed base = []
  · obtain rfl := h htrimmed
    rw [if_pos htrimmed]
    exact continues_nil_left hrelative
  · rw [if_neg htrimmed]
    exact continues_trimmed part htrimmed hdrive

/-- **Paths are extended rightly** if and only if the condition holds. -/
theorem extends_iff (hfit : base.length ≤ capacity) (hlimit : capacity ≤ 9223372036854775807)
    (hpart : isAbsolute part = false) :
    Extends grants capacity base part ↔ Extendable grants capacity base part := by
  have hrelative := rootLength_of_relative hpart
  have htexts : Extends grants capacity base part ↔
      IsRight (pushed grants capacity base part) base part ∧
        normalForm (joinText base part) = target base part ∧
          rootLength (joinText base part) = rootLength base :=
    ⟨fun h => ⟨(pushes_iff hfit hlimit hpart).mp h.pushes, (joins_iff hpart).mp h.joins⟩,
      fun h => ⟨(pushes_iff hfit hlimit hpart).mpr h.1, (joins_iff hpart).mpr h.2⟩⟩
  rw [htexts]
  by_cases hempty : part = []
  · subst hempty
    have hjoin : joinText base [] = base := by
      unfold joinText
      split
      · exact Eq.symm ‹_›
      · rfl
    rw [right_nil, hjoin]
    exact ⟨fun h => ⟨fun _ => h.1, fun hne => absurd rfl hne, fun hne => absurd rfl hne,
        fun hne => absurd rfl hne, fun hne => absurd rfl hne⟩,
      fun h => ⟨h.empty rfl, normalForm_continues (continues_nil_right base), rfl⟩⟩
  by_cases hseparators : trimmed base = [] → base = []
  · by_cases hdrive : IsDrive base
    · -- a join makes a root of the drive
      refine ⟨fun h => ?_, fun h => absurd hdrive (h.drive hempty)⟩
      obtain ⟨htrimmed, hzero, hthree⟩ := rootLength_behind_drive hdrive part
      have hne : trimmed base ≠ [] := by
        obtain ⟨letter, -, hbase⟩ := hdrive
        rw [htrimmed, hbase]
        exact List.cons_ne_nil _ _
      have hroot := h.2.2
      have hput : putText base part = trimmed base ++ 47 :: part := if_neg hne
      rw [joinText_eq hempty hseparators, hput, htrimmed, hthree, hzero] at hroot
      nomatch hroot
    · have hcontinues := continues_putText hrelative hseparators hdrive
      rw [joinText_eq hempty hseparators, right_continues hfit hempty hcontinues hseparators]
      exact ⟨fun h => ⟨fun hnil => absurd hnil hempty, fun _ => hseparators, fun _ => hdrive,
          fun _ => h.1.1, fun _ => h.1.2⟩,
        fun h => ⟨⟨h.granted hempty, h.refused hempty⟩, normalForm_continues hcontinues,
          hcontinues.length⟩⟩
  · obtain ⟨htrimmed, hbase⟩ := Classical.not_imp.mp hseparators
    exact ⟨fun h => absurd h.1 (not_right_separators hrelative hempty htrimmed hbase),
      fun h => absurd (h.separators hempty) hseparators⟩

end

/-- `/usr` and `lib`. -/
theorem extends_usr : Extends (fun _ => true) 16 [47, 117, 115, 114] [108, 105, 98] := by
  refine (extends_iff (by decide) (by decide) (by decide)).mpr
    ⟨nofun, fun _ h => ?_, fun _ h => ?_, fun _ _ _ h => ?_, fun _ _ h => ?_⟩
  · exact absurd h (by decide)
  · obtain ⟨_, -, heq⟩ := h
    nomatch heq
  · exact absurd h.1 (by decide)
  · exact absurd h (by decide)

/-- A push of `x` to the root comes to `x`, and a join to `//x`. -/
theorem root_broken : pushed (fun _ => true) 16 [47] [120] = (true, [120]) ∧
    joinText [47] [120] = [47, 47, 120] ∧ target [47] [120] = [47, 120] ∧
    ¬ Extends (fun _ => true) 16 [47] [120] := by
  have htrimmed : trimmed [47] = [] := by decide
  refine ⟨by decide, by decide, by decide, fun h => ?_⟩
  have hright := (pushes_iff (by decide) (by decide) (by decide)).mp h.pushes
  exact not_right_separators (by decide) (by decide) htrimmed (by decide) hright

end Raz.Path
