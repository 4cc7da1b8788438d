import Raz.Alloc.Edits
import Raz.Lib.Offsets

/-!
# A string as its scalars

The string is the list of its Unicode scalars, and an index is a position of the list if it is the
offset of a boundary. Every operation on characters does to the string what its meaning does to the
list.

Result: `string_is_scalars`: so does every sequence of operations.
-/

namespace Raz.Alloc

open Memory Core.Utf8 Offsets Raz.Path Raz.Path.Storage

/-! ## Operations and their meaning -/

inductive Operation
  | reserve (capacity : Int)
  | shrinkToFit
  | pushChar (scalar : Int)
  | popChar
  | insertChar (index scalar : Int)
  | removeChar (index : Int)
  | truncate (length : Int)
  | strSlice (start length : Int)
  | strSplitAt (index : Int)
  | strCharAt (index : Int)

inductive Answer
  | flag (done : Bool)
  | scalar (found : Option Int)
  | slice (view : Option Str)
  | pair (views : Option (Str × Str))

/-- An operation on the string. No room is needed for a negative capacity. -/
def perform (allocator : Allocator) (memory : Bytes) (value : Storage) :
    Operation → Answer × Bytes × Storage
  | .reserve capacity =>
      match reserve allocator memory value capacity.toNat with
      | none => (.flag false, memory, value)
      | some (memory, value) => (.flag true, memory, value)
  | .shrinkToFit => (shrinkToFit allocator memory value).map .flag id
  | .pushChar scalar => (pushChar allocator memory value scalar).map .flag id
  | .popChar => (popChar memory value).map .scalar id
  | .insertChar index scalar => (insertChar allocator memory value index scalar).map .flag id
  | .removeChar index => (removeChar memory value index).map .scalar id
  | .truncate length =>
      if length < 0 then (.flag false, memory, value)
      else
        match truncate memory value length.toNat with
        | none => (.flag false, memory, value)
        | some (memory, value) => (.flag true, memory, value)
  | .strSlice start length => (.slice (strSlice memory (asStr value) start length), memory, value)
  | .strSplitAt index => (.pair (strSplitAt memory (asStr value) index), memory, value)
  | .strCharAt index => (.scalar (strCharAt memory (asStr value) index), memory, value)

/-- What an operation answers on a list of scalars. The answers on room alone mean nothing for the
list. -/
inductive Meaning
  | room
  | flag (done : Bool)
  | scalar (found : Option Int)
  | slice (part : Option (List Int))
  | pair (parts : Option (List Int × List Int))

/-- The position of the boundary at a byte index. -/
abbrev positionOf (scalars : List Int) (index : Int) : Option Nat :=
  position scalarWidth scalars index

/-- An operation on the list, where there is room for the given widths. -/
def meaning (room : Nat → Bool) (scalars : List Int) : Operation → Meaning × List Int
  | .reserve _ => (.room, scalars)
  | .shrinkToFit => (.room, scalars)
  | .pushChar scalar =>
      if scalarValid scalar && room (scalarWidth scalar) then (.flag true, scalars ++ [scalar])
      else (.flag false, scalars)
  | .popChar => (.scalar scalars.getLast?, scalars.dropLast)
  | .insertChar index scalar =>
      match positionOf scalars index with
      | none => (.flag false, scalars)
      | some k =>
          if scalarValid scalar && room (scalarWidth scalar) then
            (.flag true, scalars.take k ++ scalar :: scalars.drop k)
          else (.flag false, scalars)
  | .removeChar index =>
      match positionOf scalars index with
      | none => (.scalar none, scalars)
      | some k => (.scalar scalars[k]?, scalars.eraseIdx k)
  | .truncate length =>
      match positionOf scalars length with
      | none => (.flag false, scalars)
      | some k => (.flag true, scalars.take k)
  | .strSlice start length =>
      let part :=
        (positionOf scalars start).bind fun k =>
          (positionOf scalars (start + length)).bind fun m =>
            if length < 0 then none else some ((scalars.take m).drop k)
      (.slice part, scalars)
  | .strSplitAt index =>
      (.pair ((positionOf scalars index).map fun k => (scalars.take k, scalars.drop k)), scalars)
  | .strCharAt index =>
      (.scalar ((positionOf scalars index).bind fun k => scalars[k]?), scalars)

/-- A length inside the string is the offset of a boundary. -/
def Allowed (scalars : List Int) : Operation → Prop
  | .truncate length => 0 ≤ length → length ≤ total scalarWidth scalars →
      ∃ k, positionOf scalars length = some k
  | _ => True

/-- There is no such scalar, or no such boundary. -/
def Refused (scalars : List Int) : Operation → Prop
  | .pushChar scalar => scalarValid scalar = false
  | .insertChar index scalar => scalarValid scalar = false ∨ positionOf scalars index = none
  | .removeChar index => positionOf scalars index = none
  | .truncate length => positionOf scalars length = none
  | _ => False

/-- The bytes of a view are those of the scalars. -/
def Shows (memory : Bytes) (view : Str) (scalars : List Int) : Prop :=
  view.length = (scalars.flatMap encoding).length ∧
    Stands memory view.data (scalars.flatMap encoding)

/-- The answer on the string is the answer on the list. -/
def Matches (memory : Bytes) : Answer → Meaning → Prop
  | .flag _, .room => True
  | .flag done, .flag expected => done = expected
  | .scalar found, .scalar expected => found = expected
  | .slice none, .slice none => True
  | .slice (some view), .slice (some part) => Shows memory view part
  | .pair none, .pair none => True
  | .pair (some (left, right)), .pair (some (left', right')) =>
      Shows memory left left' ∧ Shows memory right right'
  | _, _ => False

/-- The string holds the scalars. -/
structure Holds (memory : Bytes) (value : Storage) (scalars : List Int) : Prop where
  valid : ∀ scalar ∈ scalars, scalarValid scalar = true
  kept : Kept memory value (scalars.flatMap encoding)

/-! ## Boundaries -/

theorem total_eq {scalars : List Int} (h : ∀ scalar ∈ scalars, scalarValid scalar = true) :
    total scalarWidth scalars = (scalars.flatMap encoding).length := by
  induction scalars with
  | nil => rfl
  | cons scalar scalars ih =>
    obtain ⟨hscalar, hrest⟩ := List.forall_mem_cons.mp h
    rw [total, List.flatMap_cons, List.length_append, length_encoding hscalar, ih hrest]

theorem widths_pos {scalars : List Int} (h : ∀ scalar ∈ scalars, scalarValid scalar = true) :
    ∀ scalar ∈ scalars, 0 < scalarWidth scalar :=
  fun scalar hscalar => scalarWidth_pos (h scalar hscalar)

theorem position_negative {scalars : List Int}
    (h : ∀ scalar ∈ scalars, scalarValid scalar = true) {index : Int} (hidx : index < 0) :
    positionOf scalars index = none := by
  cases hpos : positionOf scalars index with
  | none => rfl
  | some k =>
    have htotal := ((position_eq_some (widths_pos h)).mp hpos).2
    omega

/-- The first bytes of a text are at the offsets of its scalars. -/
theorem lead_iff {scalars : List Int} (h : ∀ scalar ∈ scalars, scalarValid scalar = true)
    {index : Nat} {byte : UInt8} (hbyte : (scalars.flatMap encoding)[index]? = some byte) :
    isLead byte = true ↔ ∃ k, positionOf scalars index = some k := by
  induction scalars generalizing index with
  | nil => cases hbyte
  | cons scalar scalars ih =>
    obtain ⟨hscalar, hrest⟩ := List.forall_mem_cons.mp h
    obtain ⟨lead, tail, hencoding, hlead, htail⟩ := encoding_lead hscalar
    have hwidth := length_encoding hscalar
    rw [List.flatMap_cons] at hbyte
    unfold positionOf
    rw [position]
    by_cases hzero : index = 0
    · subst hzero
      rw [hencoding, List.cons_append, List.getElem?_cons_zero] at hbyte
      cases hbyte
      exact iff_of_true hlead ⟨0, rfl⟩
    rw [if_neg (by omega)]
    by_cases hinside : index < scalarWidth scalar
    · have hnone := @position_negative _ hrest ((index : Int) - scalarWidth scalar) (by omega)
      unfold positionOf at hnone
      rw [hnone]
      rw [List.getElem?_append_left (by omega), hencoding] at hbyte
      obtain ⟨index, rfl⟩ := Nat.exists_eq_succ_of_ne_zero hzero
      rw [List.getElem?_cons_succ] at hbyte
      refine iff_of_false (fun hb => ?_) fun h =>
        absurd h.choose_spec (Option.some_ne_none _).symm
      exact Bool.noConfusion <| hb.symm.trans (htail byte (List.mem_of_getElem? hbyte))
    · rw [List.getElem?_append_right (by omega), hwidth] at hbyte
      have hcast : (index : Int) - scalarWidth scalar = (index - scalarWidth scalar : Nat) := by
        omega
      rw [ih hrest hbyte, hcast]
      constructor
      · rintro ⟨k, hk⟩
        exact ⟨k + 1, by rw [show position scalarWidth scalars _ = some k from hk]; rfl⟩
      · rintro ⟨k, hk⟩
        obtain ⟨j, hj, -⟩ := Option.map_eq_some_iff.mp hk
        exact ⟨j, hj⟩

section

variable {allocator : Allocator} {memory : Bytes} {value : Storage} {scalars : List Int}

section

variable (h : Holds memory value scalars)

include h

theorem Holds.cut {index : Int} {k : Nat} (hpos : positionOf scalars index = some k) :
    k ≤ scalars.length ∧ index = ((scalars.take k).flatMap encoding).length ∧
      scalars.flatMap encoding =
        (scalars.take k).flatMap encoding ++ (scalars.drop k).flatMap encoding := by
  obtain ⟨hle, htotal⟩ := (position_eq_some (widths_pos h.valid)).mp hpos
  refine ⟨hle, ?_, ?_⟩
  · rw [htotal, total_eq fun scalar hscalar => h.valid scalar (List.mem_of_mem_take hscalar)]
  · rw [← List.flatMap_append, List.take_append_drop]

/-- **The boundaries are the offsets of the positions.** -/
theorem Holds.isCharBoundary {index : Int} :
    isCharBoundary memory value index = true ↔ ∃ k, positionOf scalars index = some k := by
  have hlen := h.kept.length
  have hwidths := widths_pos h.valid
  unfold Alloc.isCharBoundary strIsCharBoundary asStr
  dsimp only
  split
  · rename_i hout
    refine iff_of_false nofun fun ⟨k, hk⟩ => ?_
    obtain ⟨-, hidx, htext⟩ := h.cut hk
    have hle : ((scalars.take k).flatMap encoding).length ≤ value.length := by
      rw [hlen, htext, List.length_append]
      exact Nat.le_add_right _ _
    omega
  split
  · rename_i hend
    refine iff_of_true rfl ?_
    obtain rfl | rfl := hend
    · refine ⟨0, (position_eq_some hwidths).mpr ⟨Nat.zero_le _, rfl⟩⟩
    · refine ⟨scalars.length, (position_eq_some hwidths).mpr ⟨le_rfl, ?_⟩⟩
      rw [List.take_length, total_eq h.valid, hlen]
  · rename_i hinside
    obtain ⟨index, rfl⟩ := Int.eq_ofNat_of_zero_le (show 0 ≤ index by omega)
    have hlt : index < (scalars.flatMap encoding).length := by omega
    rw [Int.toNat_natCast, h.kept.stands.at hlt]
    exact lead_iff h.valid (List.getElem?_eq_getElem hlt)

theorem Holds.not_boundary {index : Int} (hpos : positionOf scalars index = none) :
    Alloc.isCharBoundary memory value index = false := by
  refine Bool.of_not_eq_true fun hbound => ?_
  obtain ⟨k, hk⟩ := h.isCharBoundary.mp hbound
  exact nomatch hpos.symm.trans hk

theorem Holds.at_end {index : Int} {k : Nat} (hpos : positionOf scalars index = some k) :
    index = value.length ↔ k = scalars.length := by
  have hwidths := widths_pos h.valid
  have hlen : (value.length : Int) = total scalarWidth scalars := by
    rw [h.kept.length, total_eq h.valid]
  constructor
  · rintro rfl
    have hlast : positionOf scalars value.length = some scalars.length :=
      (position_eq_some hwidths).mpr ⟨le_rfl, by rw [List.take_length, hlen]⟩
    exact Option.some.inj (hpos.symm.trans hlast)
  · rintro rfl
    obtain ⟨-, htotal⟩ := (position_eq_some hwidths).mp hpos
    rw [htotal, List.take_length, hlen]

theorem Holds.cut_at {index : Int} {k : Nat} (hpos : positionOf scalars index = some k)
    (hk : k < scalars.length) :
    Kept memory value ((scalars.take k).flatMap encoding ++ encoding scalars[k] ++
      (scalars.drop (k + 1)).flatMap encoding) := by
  have hkept := h.kept
  rwa [(h.cut hpos).2.2, List.drop_eq_getElem_cons hk, List.flatMap_cons,
    ← List.append_assoc] at hkept

end

/-! ## One operation -/

/-- The operation does to the string what it means for the list, and nothing where it is refused. -/
structure Does (allocator : Allocator) (memory : Bytes) (value : Storage) (scalars : List Int)
    (operation : Operation) (result : Answer × Bytes × Storage)
    (expected : Meaning × List Int) : Prop where
  answer : Matches result.2.1 result.1 expected.1
  holds : Holds result.2.1 result.2.2 expected.2
  refused : Refused scalars operation → result.2 = (memory, value)

theorem Holds.reserve (h : Holds memory value scalars) (halloc : Serves allocator)
    (capacity : Nat) {memory' : Bytes} {value' : Storage}
    (hsome : Storage.reserve allocator memory value capacity = some (memory', value')) :
    Holds memory' value' scalars := by
  have hfits := h.kept.fits
  unfold Storage.reserve reserveExact at hsome
  split at hsome
  · cases hsome
    exact h
  split at hsome
  · nomatch hsome
  rename_i size hsize
  split at hsome
  · nomatch hsome
  rename_i replacement hrealloc
  obtain ⟨hne, hplace⟩ := halloc _ _ _ replacement hrealloc
  unfold allocationSize at hsize
  split at hsize
  · rename_i hlimit
    cases hsize
    cases hsome
    exact ⟨h.valid, h.kept.moved hne hplace (by omega) (Nat.le_of_lt hlimit)⟩
  · nomatch hsize

variable {scalar index : Int}

section

variable (h : Holds memory value scalars)

include h

theorem Holds.pushChar (halloc : Serves allocator) :
    Does allocator memory value scalars (.pushChar scalar)
      (perform allocator memory value (.pushChar scalar))
      (meaning (roomFor allocator value) scalars (.pushChar scalar)) := by
  unfold perform meaning
  by_cases hgo : scalarValid scalar = true ∧ roomFor allocator value (scalarWidth scalar) = true
  · obtain ⟨memory', value', hpush, hkept⟩ := h.kept.pushChar halloc hgo.1 hgo.2
    dsimp only
    rw [hpush, if_pos (Bool.and_eq_true_iff.mpr hgo)]
    refine ⟨rfl, ⟨?_, ?_⟩, fun hrefused => nomatch hrefused.symm.trans hgo.1⟩
    · exact List.forall_mem_append.mpr ⟨h.valid, List.forall_mem_singleton.mpr hgo.1⟩
    · rwa [List.flatMap_append, List.flatMap_singleton]
  · dsimp only
    rw [h.kept.pushChar_refused hgo, if_neg fun hand => hgo (Bool.and_eq_true_iff.mp hand)]
    exact ⟨rfl, h, fun _ => rfl⟩

theorem Holds.popChar :
    Does allocator memory value scalars .popChar (perform allocator memory value .popChar)
      (meaning (roomFor allocator value) scalars .popChar) := by
  unfold perform meaning
  rcases List.eq_nil_or_concat' scalars with rfl | ⟨init, last, rfl⟩
  · have hempty : Alloc.popChar memory value = (none, memory, value) := if_pos h.kept.length
    rw [hempty]
    exact ⟨rfl, h, nofun⟩
  obtain ⟨hinit, hlast⟩ := List.forall_mem_append.mp h.valid
  have hkept := h.kept
  rw [List.flatMap_append, List.flatMap_singleton] at hkept
  obtain ⟨memory', value', hpop, hkept'⟩ :=
    hkept.popChar (hlast last (List.mem_singleton_self last))
  rw [hpop, List.getLast?_concat, List.dropLast_concat]
  exact ⟨rfl, ⟨hinit, hkept'⟩, nofun⟩

theorem Holds.insertChar (halloc : Serves allocator) :
    Does allocator memory value scalars (.insertChar index scalar)
      (perform allocator memory value (.insertChar index scalar))
      (meaning (roomFor allocator value) scalars (.insertChar index scalar)) := by
  have hrefuse (hrefused : ¬ (Alloc.isCharBoundary memory value index = true ∧
      scalarValid scalar = true ∧ roomFor allocator value (scalarWidth scalar) = true)) :
      Does allocator memory value scalars (.insertChar index scalar)
        (perform allocator memory value (.insertChar index scalar)) (.flag false, scalars) := by
    unfold perform
    dsimp only
    rw [h.kept.insertChar_refused hrefused]
    exact ⟨rfl, h, fun _ => rfl⟩
  unfold meaning
  dsimp only
  cases hpos : positionOf scalars index with
  | none => exact hrefuse fun hgo => nomatch (h.not_boundary hpos).symm.trans hgo.1
  | some k =>
    dsimp only
    by_cases hgo : scalarValid scalar = true ∧ roomFor allocator value (scalarWidth scalar) = true
    · have hbound := h.isCharBoundary.mpr ⟨k, hpos⟩
      obtain ⟨-, rfl, htext⟩ := h.cut hpos
      have hkept := h.kept
      rw [htext] at hkept
      obtain ⟨memory', value', hinsert, hkept'⟩ := hkept.insertChar halloc hbound hgo.1 hgo.2
      unfold perform
      dsimp only
      rw [hinsert, if_pos (Bool.and_eq_true_iff.mpr hgo)]
      refine ⟨rfl, ⟨?_, ?_⟩, ?_⟩
      · have hparts := List.forall_mem_append.mp ((List.take_append_drop k scalars).symm ▸ h.valid)
        exact List.forall_mem_append.mpr ⟨hparts.1, List.forall_mem_cons.mpr ⟨hgo.1, hparts.2⟩⟩
      · rwa [List.flatMap_append, List.flatMap_cons, ← List.append_assoc]
      · rintro (hinvalid | hnone)
        · exact nomatch hinvalid.symm.trans hgo.1
        · exact nomatch hpos.symm.trans hnone
    · rw [if_neg fun hand => hgo (Bool.and_eq_true_iff.mp hand)]
      exact hrefuse fun hall => hgo hall.2

theorem Holds.removeChar :
    Does allocator memory value scalars (.removeChar index)
      (perform allocator memory value (.removeChar index))
      (meaning (roomFor allocator value) scalars (.removeChar index)) := by
  unfold perform meaning
  dsimp only
  cases hpos : positionOf scalars index with
  | none =>
    have hnone : Alloc.removeChar memory value index = (none, memory, value) :=
      if_pos (.inl (h.not_boundary hpos))
    rw [hnone]
    exact ⟨rfl, h, fun _ => rfl⟩
  | some k =>
    have hrefused : ¬ Refused scalars (.removeChar index) :=
      fun hnone => nomatch hpos.symm.trans hnone
    obtain ⟨hle, hidx, -⟩ := h.cut hpos
    dsimp only
    by_cases hk : k < scalars.length
    · have hbound := h.isCharBoundary.mpr ⟨k, hpos⟩
      subst hidx
      obtain ⟨memory', value', hremove, hkept⟩ :=
        (h.cut_at hpos hk).removeChar (h.valid _ (List.getElem_mem hk)) hbound
      rw [hremove, List.getElem?_eq_getElem hk, List.eraseIdx_eq_take_drop_succ]
      refine ⟨rfl, ⟨fun scalar hscalar => ?_, ?_⟩, fun hno => absurd hno hrefused⟩
      · obtain hfront | hback := List.mem_append.mp hscalar
        · exact h.valid scalar (List.mem_of_mem_take hfront)
        · exact h.valid scalar (List.mem_of_mem_drop hback)
      · rwa [List.flatMap_append]
    · have hend : k = scalars.length := Nat.le_antisymm hle (Nat.not_lt.mp hk)
      have hnone : Alloc.removeChar memory value index = (none, memory, value) :=
        if_pos (.inr ((h.at_end hpos).mpr hend))
      rw [hnone, List.getElem?_eq_none (Nat.le_of_eq hend.symm),
        List.eraseIdx_of_length_le (Nat.le_of_eq hend.symm)]
      exact ⟨rfl, h, fun _ => rfl⟩

theorem Holds.truncate (hallowed : Allowed scalars (.truncate index)) :
    Does allocator memory value scalars (.truncate index)
      (perform allocator memory value (.truncate index))
      (meaning (roomFor allocator value) scalars (.truncate index)) := by
  unfold perform meaning
  dsimp only
  cases hpos : positionOf scalars index with
  | none =>
    by_cases hnegative : index < 0
    · rw [if_pos hnegative]
      exact ⟨rfl, h, fun _ => rfl⟩
    have hlong : index.toNat > value.length := by
      refine Nat.lt_of_not_le fun hle => ?_
      rw [h.kept.length, ← total_eq h.valid] at hle
      obtain ⟨k, hk⟩ := hallowed (Int.not_lt.mp hnegative) (by omega)
      exact nomatch hpos.symm.trans hk
    have hnone : Storage.truncate memory value index.toNat = none := if_pos hlong
    rw [if_neg hnegative, hnone]
    exact ⟨rfl, h, fun _ => rfl⟩
  | some k =>
    obtain ⟨-, rfl, htext⟩ := h.cut hpos
    have hkept := h.kept
    rw [htext] at hkept
    obtain ⟨memory', value', htruncate, hkept'⟩ := hkept.truncate
    rw [if_neg (by omega), Int.toNat_natCast, htruncate]
    exact ⟨rfl, ⟨fun scalar hscalar => h.valid scalar (List.mem_of_mem_take hscalar), hkept'⟩,
      fun hnone => nomatch hpos.symm.trans hnone⟩

theorem Holds.between {index index' : Int} {k m : Nat}
    (hpos : positionOf scalars index = some k)
    (hpos' : positionOf scalars index' = some m) (hle : index ≤ index') :
    Shows memory ⟨value.data + index.toNat, (index' - index).toNat⟩
      ((scalars.take m).drop k) := by
  have hwidths := widths_pos h.valid
  obtain ⟨hk, htotal⟩ := (position_eq_some hwidths).mp hpos
  obtain ⟨-, htotal'⟩ := (position_eq_some hwidths).mp hpos'
  obtain ⟨-, hidx, -⟩ := h.cut hpos
  obtain ⟨-, hidx', htext⟩ := h.cut hpos'
  have hkm : k ≤ m := by
    refine Nat.le_of_not_lt fun hlt => ?_
    have hbefore := total_take_lt hwidths hlt hk
    omega
  have hsplit : (scalars.take m).flatMap encoding =
      (scalars.take k).flatMap encoding ++ ((scalars.take m).drop k).flatMap encoding := by
    conv_lhs => rw [← List.take_append_drop k (scalars.take m), List.take_take,
      Nat.min_eq_left hkm, List.flatMap_append]
  have hstands := h.kept.stands
  rw [htext, hsplit] at hstands
  rw [hsplit, List.length_append] at hidx'
  refine ⟨?_, ?_⟩
  · dsimp only
    omega
  · have hpart := (Stands.append_iff.mp (Stands.append_iff.mp hstands).1).2
    rwa [hidx, Int.toNat_natCast]

theorem Holds.strSlice {start length : Int} :
    Matches memory (.slice (strSlice memory (asStr value) start length))
      (meaning (roomFor allocator value) scalars (.strSlice start length)).1 := by
  have hbound {index : Int} (hnone : positionOf scalars index = none) :
      strIsCharBoundary memory (asStr value) index = false := h.not_boundary hnone
  have hrefused (hno : strIsCharBoundary memory (asStr value) start = false ∨
      strIsCharBoundary memory (asStr value) (start + length) = false) :
      Alloc.strSlice memory (asStr value) start length = none := by
    unfold Alloc.strSlice
    rw [if_pos hno, ite_self]
  unfold meaning
  dsimp only
  cases hpos : positionOf scalars start with
  | none =>
    rw [hrefused (.inl (hbound hpos))]
    trivial
  | some k =>
    cases hpos' : positionOf scalars (start + length) with
    | none =>
      rw [hrefused (.inr (hbound hpos'))]
      trivial
    | some m =>
      dsimp only [Option.bind_some]
      by_cases hlen : length < 0
      · unfold Alloc.strSlice
        rw [if_pos (.inl hlen), if_pos hlen]
        trivial
      have hshows := h.between hpos hpos' (by omega)
      have hlast : start + length ≤ value.length := by
        obtain ⟨-, hidx', htext⟩ := h.cut hpos'
        have hwhole := h.kept.length
        rw [htext, List.length_append] at hwhole
        omega
      have hfirst : 0 ≤ start := by
        obtain ⟨-, hidx, -⟩ := h.cut hpos
        omega
      have hguard : ¬ (length < 0 ∨ start < 0 ∨ start > (asStr value).length ∨
          length > (asStr value).length - start) := by
        unfold asStr
        dsimp only
        omega
      have hedges : ¬ (strIsCharBoundary memory (asStr value) start = false ∨
          strIsCharBoundary memory (asStr value) (start + length) = false) := by
        rintro (hno | hno)
        · exact nomatch hno.symm.trans (h.isCharBoundary.mpr ⟨k, hpos⟩)
        · exact nomatch hno.symm.trans (h.isCharBoundary.mpr ⟨m, hpos'⟩)
      have hspan : start + length - start = length := by omega
      rw [hspan] at hshows
      unfold Alloc.strSlice
      rw [if_neg hguard, if_neg hedges, if_neg hlen]
      exact hshows

theorem Holds.strSplitAt :
    Matches memory (.pair (strSplitAt memory (asStr value) index))
      (meaning (roomFor allocator value) scalars (.strSplitAt index)).1 := by
  unfold meaning Alloc.strSplitAt
  dsimp only
  cases hpos : positionOf scalars index with
  | none =>
    have hbound : strIsCharBoundary memory (asStr value) index = false :=
      h.not_boundary hpos
    rw [if_pos hbound]
    trivial
  | some k =>
    have hbound : ¬ strIsCharBoundary memory (asStr value) index = false :=
      fun hno => nomatch hno.symm.trans (h.isCharBoundary.mpr ⟨k, hpos⟩)
    obtain ⟨-, hidx, htext⟩ := h.cut hpos
    have hlen := h.kept.length
    have hstands := h.kept.stands
    rw [htext, List.length_append] at hlen
    rw [htext] at hstands
    obtain ⟨hleft, hright⟩ := Stands.append_iff.mp hstands
    rw [if_neg hbound, hidx, Int.toNat_natCast]
    refine ⟨⟨rfl, hleft⟩, ?_, hright⟩
    unfold asStr
    dsimp only
    omega

theorem Holds.strCharAt :
    Matches memory (.scalar (strCharAt memory (asStr value) index))
      (meaning (roomFor allocator value) scalars (.strCharAt index)).1 := by
  unfold meaning Alloc.strCharAt
  dsimp only
  cases hpos : positionOf scalars index with
  | none =>
    have hbound : strIsCharBoundary memory (asStr value) index = false :=
      h.not_boundary hpos
    rw [if_pos (.inl hbound)]
    rfl
  | some k =>
    dsimp only [Option.bind_some]
    obtain ⟨hle, hidx, -⟩ := h.cut hpos
    by_cases hk : k < scalars.length
    · have hguard : ¬ (strIsCharBoundary memory (asStr value) index = false ∨
          index = (asStr value).length) := by
        rintro (hno | hend)
        · exact nomatch hno.symm.trans (h.isCharBoundary.mpr ⟨k, hpos⟩)
        · exact absurd ((h.at_end hpos).mp hend) (Nat.ne_of_lt hk)
      have hscalar := h.valid _ (List.getElem_mem hk)
      have hdecode := (h.cut_at hpos hk).decodeAt hscalar
      rw [if_neg hguard, hidx, Int.toNat_natCast]
      unfold asStr
      rw [hdecode, if_neg (Nat.ne_of_gt (scalarWidth_pos hscalar)), List.getElem?_eq_getElem hk]
      rfl
    · have hend := Nat.le_antisymm hle (Nat.not_lt.mp hk)
      rw [if_pos (.inr ((h.at_end hpos).mpr hend)),
        List.getElem?_eq_none (Nat.le_of_eq hend.symm)]
      rfl

/-- **One operation does what it means.** -/
theorem Holds.perform (halloc : Serves allocator) (operation : Operation)
    (hallowed : Allowed scalars operation) :
    Does allocator memory value scalars operation (perform allocator memory value operation)
      (meaning (roomFor allocator value) scalars operation) := by
  cases operation with
  | reserve capacity =>
    unfold Alloc.perform
    dsimp only
    cases hreserve : Storage.reserve allocator memory value capacity.toNat with
    | none => exact ⟨trivial, h, nofun⟩
    | some result => exact ⟨trivial, h.reserve halloc _ hreserve, nofun⟩
  | shrinkToFit => exact ⟨trivial, ⟨h.valid, h.kept.shrinkToFit halloc⟩, nofun⟩
  | pushChar scalar => exact h.pushChar halloc
  | popChar => exact h.popChar
  | insertChar index scalar => exact h.insertChar halloc
  | removeChar index => exact h.removeChar
  | truncate length => exact h.truncate hallowed
  | strSlice start length => exact ⟨h.strSlice, h, nofun⟩
  | strSplitAt index => exact ⟨h.strSplitAt, h, nofun⟩
  | strCharAt index => exact ⟨h.strCharAt, h, nofun⟩

end

end

/-! ## Every sequence of operations -/

/-- Along the operations the string holds the scalars, and each does what it means for them. The
allocator may answer otherwise at each operation. -/
def Follows : List (Allocator × Operation) → Bytes → Storage → List Int → Prop
  | [], memory, value, scalars => Holds memory value scalars
  | (allocator, operation) :: steps, memory, value, scalars =>
      Holds memory value scalars ∧
        (Serves allocator → Allowed scalars operation →
          let result := perform allocator memory value operation
          let expected := meaning (roomFor allocator value) scalars operation
          Does allocator memory value scalars operation result expected ∧
            Follows steps result.2.1 result.2.2 expected.2)

/-- **The string behaves as the list of its scalars.** -/
theorem string_is_scalars (steps : List (Allocator × Operation)) {memory : Bytes} {value : Storage}
    {scalars : List Int} (h : Holds memory value scalars) : Follows steps memory value scalars := by
  induction steps generalizing memory value scalars with
  | nil => exact h
  | cons step steps ih =>
    refine ⟨h, fun halloc hallowed => ?_⟩
    have hdoes := h.perform halloc step.2 hallowed
    exact ⟨hdoes, ih hdoes.holds⟩

/-- An allocator that grants every block, behind the old one. -/
def growing : Allocator := ⟨fun _ => none, fun pointer old _ => some (pointer + old + 1)⟩

theorem growing_serves : Serves growing := by
  rintro pointer old size _ ⟨⟩
  exact ⟨Nat.succ_ne_zero _, fun _ => .inr (.inl (Nat.le_succ _))⟩

/-- An empty string, to which `é` is pushed and from which it is taken back. -/
theorem string_is_scalars_empty : Serves growing ∧ Follows
    [(growing, .pushChar 233), (growing, .popChar)] (fun _ => 0) ⟨0, 0, 0⟩ [] :=
  ⟨growing_serves,
    string_is_scalars _ ⟨nofun, trivial, rfl, le_rfl, Nat.zero_le _, fun _ => rfl, nofun⟩⟩

end Raz.Alloc
