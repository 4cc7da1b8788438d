import Raz.Alloc.Ranges

/-!
# Edits of ranges

Result: `edit_exact`: an edit does what it says, but for a null string that seems to have room.
-/

namespace Raz.Alloc.Ranges

open Memory Blocks Raz.Path List
open Raz.Path.Storage (allocationSize growthCapacity)

section

variable {allocator : Allocator} {heap heap' : Heap} {value : Storage}
  {text front cut back bytes : List UInt8} {source : Nat}

/-! ## Appending -/

/-- Bytes that are found behind the growth, wherever the string is then, are appended. -/
theorem appendFrom_spec (h : Owns heap value text) (hsound : Sound allocator)
    (hbytes : bytes ≠ []) {stableSource : Storage → Nat}
    (hstable : ∀ heap' value', Filled heap' value' text →
      Aside heap value.data heap' value'.data →
        Stands heap'.memory (stableSource value') bytes ∧ stableSource value' ≠ 0 ∧
        (value'.data + text.length ≤ stableSource value' ∨
          stableSource value' + bytes.length ≤ value'.data + text.length)) :
    Does heap value text (text ++ bytes)
      (Roomy allocator heap value (value.length + bytes.length))
      (Unbacked value (value.length + bytes.length) bytes.length)
      (appendFrom allocator heap value bytes.length 0 stableSource) := by
  have hpos := length_pos_iff.mpr hbytes
  unfold appendFrom
  obtain ⟨hroomy, hreserve⟩ |
    ⟨hroomy, heap₂, value₂, hreserve, howns₂, hroom, haside₂, hnull, hstay⟩ :=
    reserve_spec h hsound (value.length + bytes.length)
  · rw [hreserve]
    dsimp only
    unfold Heap.release
    rw [if_pos rfl]
    exact ⟨⟨nofun, fun hroomy' => absurd hroomy' hroomy⟩, fun _ => ⟨rfl, h⟩, nofun, nofun,
      Aside.refl _ _⟩
  · rw [hreserve]
    dsimp only
    unfold Heap.release
    rw [if_pos rfl]
    by_cases hdata : value₂.data = 0
    · obtain ⟨hzero, hcap, rfl, rfl⟩ := hnull hdata
      have hempty := h.empty hzero
      have hnothing := h.length
      rw [hempty, length_nil] at hnothing
      have hcopy : heap₂.copy (value₂.data + value₂.length) (stableSource value₂) bytes.length =
          heap₂ := by
        unfold Heap.copy
        rw [if_pos (.inl (by omega))]
      unfold writeTerminator
      rw [hcopy, if_neg (fun hne => hne hzero)]
      refine ⟨⟨fun _ => hroomy, fun _ => rfl⟩, nofun,
        fun _ hbacked => absurd ⟨hzero, hpos, hcap⟩ hbacked, fun _ _ hlost => ?_,
        Aside.refl _ _⟩
      have hlen := hlost.length
      rw [hlost.empty hzero] at hlen
      dsimp only [length_nil] at hlen
      omega
    · have hfilled := howns₂.filled hdata
      have hlen := howns₂.length
      have hsame : value₂.length = value.length := hlen.trans h.length.symm
      obtain ⟨hstands, hsrc, hapart⟩ := hstable heap₂ value₂ hfilled haside₂
      rw [← hsame, hlen] at hroom
      obtain ⟨gap, hgap, hwide⟩ := hfilled.widen hroom
      rw [← append_nil (text ++ gap)] at hwide
      obtain ⟨hput, haside₃⟩ := hwide.putIn hgap hstands (fun _ => hsrc) hapart
      rw [append_nil] at hput
      obtain ⟨hfinal, haside₄⟩ := hput.terminate
      have hcopy : heap₂.copy (value₂.data + value₂.length) (stableSource value₂) bytes.length =
          putIn heap₂ value₂ text.length (stableSource value₂) bytes.length := by
        unfold putIn
        rw [if_pos hpos, hlen]
      have hnew : value₂.length + bytes.length = (text ++ bytes).length := by
        rw [length_append, hlen]
      rw [hcopy, hnew]
      refine ⟨⟨fun _ => hroomy, fun _ => rfl⟩, nofun, fun _ _ => hfinal, fun _ hunbacked => ?_,
        (haside₂.trans haside₃).trans haside₄⟩
      exact absurd (hstay hunbacked.2.2 ▸ hunbacked.1) hdata

theorem Stable.outside (h : Stable heap value source bytes)
    (howns : Owns heap value text) (hbytes : bytes ≠ []) : inside value source = false := by
  refine Bool.of_not_eq_true fun hinside => ?_
  simp [inside] at hinside
  obtain ⟨⟨hdata, hge⟩, hlt⟩ := hinside
  have hfilled := howns.filled hdata
  have hrange := h.covers.apart (length_pos_iff.mpr hbytes) (Nat.succ_pos _)
    fun _ hother => hfilled.tidy.others_apart hfilled.block hother
  have hpos := length_pos_iff.mpr hbytes
  have hlen := howns.length
  have hfits := howns.fits
  unfold blockOf at hrange
  dsimp only at hrange
  omega

theorem Sourced.split (h : Sourced heap value text source bytes) (howns : Owns heap value text)
    (hinside : inside value source = true) (hbytes : bytes ≠ []) :
    ∃ front back, text = front ++ bytes ++ back ∧ source = value.data + front.length := by
  rcases h with hempty | hpart | ⟨hcovers, hstands⟩
  · exact absurd hempty hbytes
  · exact hpart
  · have houtside := Stable.outside ⟨hcovers, hstands⟩ howns hbytes
    rw [hinside] at houtside
    nomatch houtside

/-- **Bytes are appended**, those of the string itself too, from where they are after the growth. -/
theorem appendBytes_spec (h : Owns heap value text) (hsound : Sound allocator)
    (hsourced : Sourced heap value text source bytes) (hsrc : bytes ≠ [] → source ≠ 0)
    (hlimit : value.length + bytes.length ≤ 9223372036854775807) :
    Does heap value text (text ++ bytes)
      (Roomy allocator heap value (value.length + bytes.length))
      (Unbacked value (value.length + bytes.length) bytes.length)
      (appendBytes allocator heap value source bytes.length) := by
  have hlen := h.length
  have hfits := h.fits
  unfold appendBytes
  by_cases hbytes : bytes = []
  · subst hbytes
    rw [if_pos (by simp)]
    refine ⟨⟨fun _ => .inl ?_, fun _ => rfl⟩, fun hfalse => by simp at hfalse, fun _ _ => ?_,
      fun _ hunbacked => absurd hunbacked.2.1 (Nat.lt_irrefl 0), Aside.refl _ _⟩
    · rw [length_nil, Nat.add_zero, hlen]
      exact hfits
    · rwa [append_nil]
  have hpos := length_pos_iff.mpr hbytes
  have hnull := hsrc hbytes
  rw [if_neg (by omega), if_neg (by omega)]
  rw [Int.toNat_natCast]
  cases hinside : inside value source with
  | true =>
    obtain ⟨front, back, rfl, rfl⟩ := hsourced.split h hinside hbytes
    rw [length_append, length_append] at hlen
    rw [if_pos rfl, if_pos (by omega), Nat.add_sub_cancel_left]
    refine appendFrom_spec h hsound hbytes fun heap' value' hfilled haside => ?_
    have hstands := (Stands.append_iff.mp (Stands.append_iff.mp hfilled.stands).1).2
    refine ⟨hstands, ?_, .inr ?_⟩
    · have hplace := hfilled.null
      omega
    · rw [length_append, length_append]
      omega
  | false =>
    rw [if_neg nofun]
    have hstable := hsourced.stable h hinside
    refine appendFrom_spec h hsound hbytes fun heap' value' hfilled haside => ?_
    have hstable' : Stable heap' value' source bytes := hstable.aside haside
    have hrange := hstable'.covers.apart hpos (Nat.succ_pos _)
      fun _ hother => hfilled.tidy.others_apart hfilled.block hother
    have hfits' := hfilled.fits
    unfold blockOf at hrange
    dsimp only at hrange
    exact ⟨hstable'.stands, hnull, by omega⟩

/-! ## Removing -/

/-- **Bytes are taken out.** -/
theorem removeRange_spec (h : Owns heap value (front ++ cut ++ back)) :
    (removeRange heap value front.length cut.length).1 = true ∧
      Owns (removeRange heap value front.length cut.length).2.1
        (removeRange heap value front.length cut.length).2.2 (front ++ back) ∧
      Aside heap value.data (removeRange heap value front.length cut.length).2.1
        (removeRange heap value front.length cut.length).2.2.data := by
  have hlen := h.length
  have hfits := h.fits
  rw [length_append, length_append] at hlen hfits
  unfold removeRange
  rw [if_neg (by omega)]
  split
  · rename_i hzero
    obtain rfl := eq_nil_of_length_eq_zero (Int.ofNat.inj hzero)
    rw [append_nil] at h
    exact ⟨rfl, h, Aside.refl _ _⟩
  · have hdata : value.data ≠ 0 := fun hnull => by
      have hempty := congrArg List.length (h.empty hnull)
      rw [length_append, length_append, length_nil] at hempty
      omega
    have htail : value.length - front.length - cut.length = back.length := by omega
    have hnew : value.length - cut.length = (front ++ back).length := by
      rw [length_append]
      omega
    rw [Int.toNat_natCast, Int.toNat_natCast, htail, hnew]
    obtain ⟨gap, hgap, hmoved, haside⟩ := (h.filled hdata).moveTail 0 (by omega)
    obtain rfl := eq_nil_of_length_eq_zero hgap
    rw [append_nil] at hmoved
    obtain ⟨hfinal, haside'⟩ := hmoved.terminate
    exact ⟨rfl, hfinal, haside.trans haside'⟩

end

/-! ## Edits -/

/-- A call that changes a range of the string. -/
inductive Edit
  | append (source : Nat) (length : Int)
  | insert (index : Int) (source : Nat) (length : Int)
  | replace (index length : Int) (replacement : Nat) (replacementLength : Int)
  | remove (index length : Int)

namespace Edit

def run (allocator : Allocator) (heap : Heap) (value : Storage) : Edit → Outcome
  | append source length => appendBytes allocator heap value source length
  | insert index source length => insertBytes allocator heap value index source length
  | replace index length replacement replacementLength =>
      replaceRangeBytes allocator heap value index length replacement replacementLength
  | remove index length => removeRange heap value index length

/-- Where the range begins. -/
def index (value : Storage) : Edit → Int
  | append _ _ => value.length
  | insert index _ _ => index
  | replace index _ _ _ => index
  | remove index _ => index

/-- The bytes that are taken out. -/
def removed : Edit → Int
  | append _ _ => 0
  | insert _ _ _ => 0
  | replace _ length _ _ => length
  | remove _ length => length

def source : Edit → Nat
  | append source _ => source
  | insert _ source _ => source
  | replace _ _ replacement _ => replacement
  | remove _ _ => 0

/-- The bytes that are put in. -/
def count : Edit → Int
  | append _ length => length
  | insert _ _ length => length
  | replace _ _ _ replacementLength => replacementLength
  | remove _ _ => 0

/-- The arguments are in range. -/
structure InRange (value : Storage) (edit : Edit) : Prop where
  index : 0 ≤ edit.index value ∧ edit.index value ≤ value.length
  removed : 0 ≤ edit.removed ∧ edit.removed ≤ value.length - edit.index value
  count : 0 ≤ edit.count
  source : 0 < edit.count → edit.source ≠ 0

/-- The new length. -/
def newLength (value : Storage) (edit : Edit) : Int := value.length - edit.removed + edit.count

/-- The allocator gives the blocks that are asked for. -/
def Served (allocator : Allocator) (heap : Heap) (value : Storage) (edit : Edit) : Prop :=
  match edit with
  | append _ length => Roomy allocator heap value (value.length + length.toNat)
  | insert _ source length => Granted allocator heap value 0 source length.toNat
  | replace _ length replacement replacementLength =>
      Granted allocator heap value length.toNat replacement replacementLength.toNat
  | remove _ _ => True

/-- The text with the bytes in the place of the range. -/
def edited (value : Storage) (edit : Edit) (text bytes : List UInt8) : List UInt8 :=
  text.take (edit.index value).toNat ++ bytes ++
    text.drop ((edit.index value).toNat + edit.removed.toNat)

/-- The call does what it says: it is done where the arguments are in range, the new length is one,
and the allocator gives the blocks; then the string has the new text, and otherwise it is as it
was. -/
structure Meets (allocator : Allocator) (heap : Heap) (value : Storage) (text bytes : List UInt8)
    (edit : Edit) : Prop where
  answer : (edit.run allocator heap value).1 = true ↔ edit.InRange value ∧
    edit.newLength value ≤ 9223372036854775807 ∧ edit.Served allocator heap value
  done : (edit.run allocator heap value).1 = true →
    Owns (edit.run allocator heap value).2.1 (edit.run allocator heap value).2.2
      (edit.edited value text bytes)
  kept : (edit.run allocator heap value).1 = false →
    (edit.run allocator heap value).2.2 = value ∧
      Owns (edit.run allocator heap value).2.1 value text
  aside : Aside heap value.data (edit.run allocator heap value).2.1
    (edit.run allocator heap value).2.2.data

variable {allocator : Allocator} {heap : Heap} {value : Storage} {text bytes : List UInt8}
  {edit : Edit}

theorem InRange.split (h : edit.InRange value) (howns : Owns heap value text)
    (bytes : List UInt8) : ∃ front cut back, text = front ++ cut ++ back ∧
      (front.length : Int) = edit.index value ∧ (cut.length : Int) = edit.removed ∧
      edit.edited value text bytes = front ++ bytes ++ back := by
  obtain ⟨hidx, hle⟩ := h.index
  obtain ⟨hremoved, hroom⟩ := h.removed
  have hlen := howns.length
  refine ⟨text.take (edit.index value).toNat,
    (text.drop (edit.index value).toNat).take edit.removed.toNat,
    text.drop ((edit.index value).toNat + edit.removed.toNat), ?_, ?_, ?_, rfl⟩
  · rw [append_assoc, ← drop_drop, take_append_drop, take_append_drop]
  · rw [length_take]
    omega
  · rw [length_take, length_drop]
    omega

/-- A call with arguments that are not in range, or that would be too long, changes nothing. -/
theorem run_refused (howns : Owns heap value text)
    (h : ¬ (edit.InRange value ∧ edit.newLength value ≤ 9223372036854775807)) :
    edit.run allocator heap value = (false, heap, value) := by
  have hlen := howns.length
  have hfits := howns.fits
  have hlimit := howns.limit
  -- what each call checks is that it is in range
  cases edit with
  | append place length =>
    have hguard : length < 0 ∨
        0 < length ∧ (place = 0 ∨ value.length > 9223372036854775807 - length) := by
      by_contra hpass
      have hin : (append place length).InRange value :=
        ⟨⟨Int.natCast_nonneg _, Int.le_refl _⟩, ⟨Int.le_refl _, by
          dsimp only [Edit.removed, Edit.index]; omega⟩, by dsimp only [Edit.count]; omega,
          by dsimp only [Edit.count, Edit.source]; omega⟩
      refine h ⟨hin, ?_⟩
      dsimp only [Edit.newLength, Edit.removed, Edit.count]
      omega
    change appendBytes allocator heap value place length = _
    unfold appendBytes
    rcases hguard with hneg | ⟨hpos, hguard⟩
    · rw [if_pos (by omega), decide_eq_false (by omega)]
    · rw [if_neg (by omega), if_pos hguard]
  | insert place from' length =>
    change insertBytes allocator heap value place from' length = _
    unfold insertBytes
    split
    · rfl
    split
    · rename_i hzero
      refine absurd ⟨⟨?_, ?_, ?_, ?_⟩, ?_⟩ h <;>
        dsimp only [Edit.index, Edit.removed, Edit.count, Edit.source, Edit.newLength] <;> omega
    split
    · rfl
    · refine absurd ⟨⟨?_, ?_, ?_, ?_⟩, ?_⟩ h <;>
        dsimp only [Edit.index, Edit.removed, Edit.count, Edit.source, Edit.newLength] <;> omega
  | replace place length from' replacementLength =>
    change replaceRangeBytes allocator heap value place length from' replacementLength = _
    unfold replaceRangeBytes
    split
    · rfl
    split
    · rfl
    split
    · rfl
    · refine absurd ⟨⟨?_, ?_, ?_, ?_⟩, ?_⟩ h <;>
        dsimp only [Edit.index, Edit.removed, Edit.count, Edit.source, Edit.newLength] <;> omega
  | remove place length =>
    change removeRange heap value place length = _
    unfold removeRange
    split
    · rfl
    · refine absurd ⟨⟨?_, ?_, ?_, ?_⟩, ?_⟩ h <;>
        dsimp only [Edit.index, Edit.removed, Edit.count, Edit.source, Edit.newLength] <;> omega

theorem run_spec (hrange : edit.InRange value) (h : Owns heap value text)
    (hsound : Sound allocator) (hlimit : edit.newLength value ≤ 9223372036854775807)
    (hbytes : (bytes.length : Int) = edit.count)
    (hsourced : Sourced heap value text edit.source bytes) :
    Does heap value text (edit.edited value text bytes) (edit.Served allocator heap value)
      (Unbacked value (edit.newLength value).toNat edit.count.toNat)
      (edit.run allocator heap value) := by
  obtain ⟨front, cut, back, rfl, hfront, hcut, hedited⟩ := hrange.split h bytes
  have hlen := h.length
  have hfits := h.fits
  have hremoved := hrange.removed
  have hnull : bytes ≠ [] → edit.source ≠ 0 := fun hne => hrange.source (by
    have hpos := length_pos_iff.mpr hne
    omega)
  rw [hedited]
  cases edit with
  | append source length =>
    dsimp only [index, removed, count, Edit.source, newLength] at *
    obtain rfl := eq_nil_of_length_eq_zero (Int.ofNat.inj hcut)
    have hback : back = [] := eq_nil_of_length_eq_zero (by
      rw [length_append, append_nil] at hlen
      omega)
    subst hback
    rw [append_nil, append_nil] at *
    have hdoes := @appendBytes_spec allocator heap value front bytes source h hsound hsourced hnull
      (by omega)
    rw [append_nil, ← hbytes] at *
    rw [show ((value.length : Int) - 0 + bytes.length).toNat = value.length + bytes.length by omega]
    exact hdoes
  | insert index source length =>
    dsimp only [Edit.index, removed, count, Edit.source, newLength] at *
    obtain rfl := eq_nil_of_length_eq_zero (Int.ofNat.inj hcut)
    obtain rfl : (front.length : Int) = index := hfront
    obtain rfl : (bytes.length : Int) = length := hbytes
    have hdoes := splice_spec h hsound hsourced
    rw [show ((value.length : Int) - 0 + bytes.length).toNat =
      value.length - ([] : List UInt8).length + bytes.length by
        rw [length_nil]; omega, Int.toNat_natCast]
    change Does heap value _ _ (Granted allocator heap value 0 source _) _
      (insertBytes allocator heap value front.length source bytes.length)
    unfold insertBytes
    have hguard : ¬ ((bytes.length : Int) > 0 ∧ source = 0) := fun ⟨hpos, hzero⟩ =>
      hnull (length_pos_iff.mp (Int.ofNat_lt.mp hpos)) hzero
    rw [if_neg (by omega), Int.toNat_natCast, Int.toNat_natCast]
    split
    · rename_i hzero
      obtain rfl := eq_nil_of_length_eq_zero (Int.ofNat.inj hzero)
      have hgranted : Granted allocator heap value 0 source 0 :=
        ⟨0, source, heap, if_neg (fun hpos => absurd hpos.1 (Nat.lt_irrefl 0)), .inl (by omega)⟩
      exact ⟨⟨fun _ => hgranted, fun _ => rfl⟩, nofun, fun _ _ => h,
        fun _ hunbacked => absurd hunbacked.2.1 (Nat.lt_irrefl 0), Aside.refl _ _⟩
    · rw [if_neg (by omega)]
      exact hdoes
  | replace index length source replacementLength =>
    dsimp only [Edit.index, removed, count, Edit.source, newLength] at *
    obtain rfl : (front.length : Int) = index := hfront
    obtain rfl : (cut.length : Int) = length := hcut
    obtain rfl : (bytes.length : Int) = replacementLength := hbytes
    have hdoes := splice_spec h hsound hsourced
    rw [show ((value.length : Int) - cut.length + bytes.length).toNat =
      value.length - cut.length + bytes.length by omega, Int.toNat_natCast]
    change Does heap value _ _ (Granted allocator heap value _ source _) _
      (replaceRangeBytes allocator heap value front.length cut.length source bytes.length)
    unfold replaceRangeBytes
    have hguard : ¬ ((bytes.length : Int) > 0 ∧ source = 0) := fun ⟨hpos, hzero⟩ =>
      hnull (length_pos_iff.mp (Int.ofNat_lt.mp hpos)) hzero
    rw [if_neg (by omega), if_neg hguard, if_neg (by omega), Int.toNat_natCast, Int.toNat_natCast,
      Int.toNat_natCast]
    exact hdoes
  | remove index length =>
    dsimp only [Edit.index, removed, count, Edit.source, newLength] at *
    obtain rfl : (front.length : Int) = index := hfront
    obtain rfl : (cut.length : Int) = length := hcut
    obtain rfl := eq_nil_of_length_eq_zero (Int.ofNat.inj hbytes)
    obtain ⟨hdone, howns, haside⟩ := removeRange_spec h
    rw [append_nil]
    change Does heap value _ _ True _ (removeRange heap value front.length cut.length)
    exact ⟨⟨fun _ => trivial, fun _ => hdone⟩, fun hfalse => absurd (hdone.symm.trans hfalse) nofun,
      fun _ _ => howns, fun _ hunbacked => absurd hunbacked.2.1 (Nat.lt_irrefl 0), haside⟩

/-- On a null string that seems to have room no block is asked for. -/
theorem served_of_unbacked (hrange : edit.InRange value)
    (hunbacked : Unbacked value (edit.newLength value).toNat edit.count.toNat) :
    edit.Served allocator heap value := by
  obtain ⟨hnull, -, hroom⟩ := hunbacked
  have hoff (source : Nat) : inside value source = false := by simp [inside, hnull]
  have hgranted (length source count : Nat) (hle : value.length - length + count ≤ value.capacity) :
      Granted allocator heap value length source count :=
    ⟨0, source, heap, if_neg (fun hin => Bool.noConfusion (hin.2.symm.trans (hoff source))),
      .inl hle⟩
  have hidx := hrange.index
  have hremoved := hrange.removed
  have hcount := hrange.count
  cases edit with
  | append source length =>
    dsimp only [Edit.index, removed, count, newLength] at *
    exact .inl (by omega)
  | insert index source length =>
    dsimp only [Edit.index, removed, count, newLength] at *
    exact hgranted _ _ _ (by omega)
  | replace index length source replacementLength =>
    dsimp only [Edit.index, removed, count, newLength] at *
    exact hgranted _ _ _ (by omega)
  | remove index length => trivial

end Edit

/-- **An edit does what it says**, but for a null string that seems to have room. -/
theorem edit_exact {allocator : Allocator} {heap : Heap} {value : Storage} {text bytes : List UInt8}
    {edit : Edit} (h : Owns heap value text) (hsound : Sound allocator)
    (hsource : edit.InRange value → (bytes.length : Int) = edit.count ∧
      Sourced heap value text edit.source bytes) :
    edit.Meets allocator heap value text bytes ↔
      ¬ (edit.InRange value ∧
        Unbacked value (edit.newLength value).toNat edit.count.toNat) := by
  by_cases hcall : edit.InRange value ∧ edit.newLength value ≤ 9223372036854775807
  · obtain ⟨hrange, hlimit⟩ := hcall
    obtain ⟨hbytes, hsourced⟩ := hsource hrange
    have hdoes := @Edit.run_spec allocator heap value text bytes edit hrange h hsound hlimit hbytes
      hsourced
    constructor
    · rintro hmeets ⟨-, hunbacked⟩
      have hanswer := hdoes.answer.mpr (Edit.served_of_unbacked hrange hunbacked)
      exact hdoes.lost hanswer hunbacked (hmeets.done hanswer)
    intro hbacked
    refine ⟨hdoes.answer.trans ⟨fun hserved => ⟨hrange, hlimit, hserved⟩, fun hall => hall.2.2⟩,
      fun hanswer => hdoes.done hanswer fun hunbacked => hbacked ⟨hrange, hunbacked⟩,
      hdoes.kept, hdoes.aside⟩
  · have hrun := @Edit.run_refused allocator heap value text edit h hcall
    constructor
    · rintro - ⟨hrange, -, -, hroom⟩
      have hlimit := h.limit
      exact hcall ⟨hrange, by omega⟩
    intro _
    refine ⟨?_, ?_, ?_, ?_⟩ <;> rw [hrun]
    · exact ⟨nofun, fun hall => absurd ⟨hall.1, hall.2.1⟩ hcall⟩
    · exact nofun
    · exact fun _ => ⟨rfl, h⟩
    · exact Aside.refl _ _

/-! ## A null string with a capacity -/

/-- An allocator that refuses every block. -/
def refusing : Allocator := ⟨fun _ _ => none, fun _ _ _ => none, fun heap _ => heap.memory⟩

/-- One block, with the byte 65 in it. -/
def oneBlock : Heap := ⟨fun _ => 65, [⟨100, 1⟩]⟩

theorem sound_refusing : Sound refusing := ⟨nofun, nofun, Agrees.refl _ _⟩

theorem owns_withCapacity : Owns (withCapacity refusing oneBlock 8).1
    (withCapacity refusing oneBlock 8).2 [] :=
  ⟨⟨pairwise_singleton _ _, by decide⟩, rfl, by decide, by decide, .inl ⟨rfl, rfl⟩⟩

theorem sourced_oneBlock : Sourced oneBlock (withCapacity refusing oneBlock 8).2 [] 100 [65] :=
  .inr (.inr ⟨Covers.single (mem_singleton_self _) le_rfl le_rfl,
    rfl, trivial⟩)

/-- A byte is appended to a string whose block was refused: the answer is true, and the length 1,
but the string is null still. -/
theorem append_lost :
    Sound refusing ∧ Owns oneBlock (withCapacity refusing oneBlock 8).2 [] ∧
    Sourced oneBlock (withCapacity refusing oneBlock 8).2 [] 100 [65] ∧
    Edit.run refusing oneBlock (withCapacity refusing oneBlock 8).2 (.append 100 1) =
      (true, oneBlock, ⟨0, 1, 8⟩) ∧
    ¬ (Edit.append 100 1).Meets refusing oneBlock (withCapacity refusing oneBlock 8).2 [] [65] := by
  refine ⟨sound_refusing, owns_withCapacity, sourced_oneBlock, rfl, fun hmeets => ?_⟩
  exact nomatch (hmeets.done rfl).empty rfl

/-! ## A string that moves -/

/-- Behind all blocks. -/
def behindAll (heap : Heap) : Nat :=
  heap.blocks.foldr (fun block behind => max (block.start + block.size) behind) 1

theorem behindAll_spec (heap : Heap) : behindAll heap ≠ 0 ∧
    ∀ block ∈ heap.blocks, block.start + block.size ≤ behindAll heap := by
  unfold behindAll
  induction heap.blocks with
  | nil => exact ⟨by decide, nofun⟩
  | cons first blocks ih =>
    obtain ⟨hpos, hbehind⟩ := ih
    rw [foldr_cons]
    refine ⟨by omega, forall_mem_cons.mpr ⟨Nat.le_max_left _ _, fun block hblock => ?_⟩⟩
    exact Nat.le_trans (hbehind block hblock) (Nat.le_max_right _ _)

/-- An allocator that gives every block, behind all others. -/
def moving : Allocator where
  alloc heap _ := some (behindAll heap, heap.memory)
  realloc heap pointer _ := some (behindAll heap, fun address =>
    heap.memory (if behindAll heap ≤ address then pointer + (address - behindAll heap)
      else address))
  dealloc heap _ := heap.memory

theorem sound_moving : Sound moving where
  alloc h := by
    cases h
    obtain ⟨hne, hbehind⟩ := behindAll_spec _
    exact ⟨hne, fun block hblock => .inr (hbehind block hblock), Agrees.refl _ _⟩
  realloc h := by
    cases h
    obtain ⟨hne, hbehind⟩ := behindAll_spec _
    refine ⟨hne, fun block hblock => .inr (hbehind block (Heap.mem_others.mp hblock).1),
      fun block hblock address hholds => ?_, fun block _ _ index _ _ => ?_⟩
    · have hle := hbehind block (Heap.mem_others.mp hblock).1
      exact congrArg _ (if_neg (Nat.not_le.mpr (Nat.lt_of_lt_of_le hholds.2 hle)))
    · dsimp only
      rw [if_pos (Nat.le_add_right _ _), Nat.add_sub_cancel_left]
  dealloc := Agrees.refl _ _

/-- `ab`, in a block without room for more. -/
def fullBlock : Heap := ⟨fun address => [97, 98].getD (address - 100) 0, [⟨100, 3⟩]⟩

theorem owns_fullBlock : Owns fullBlock ⟨100, 2, 2⟩ [97, 98] :=
  ⟨⟨pairwise_singleton _ _, by decide⟩, rfl, by decide, by decide,
    .inr ⟨by decide, mem_singleton_self _, rfl, rfl, rfl, trivial⟩⟩

/-- Its own `b` is put in front of it, in the block that it moves to. -/
theorem edit_exact_moved :
    (Edit.insert 0 101 1).Meets moving fullBlock ⟨100, 2, 2⟩ [97, 98] [98] := by
  refine (edit_exact owns_fullBlock sound_moving fun _ => ⟨rfl, ?_⟩).mpr ?_
  · exact .inr (.inl ⟨[97], [], rfl, rfl⟩)
  · rintro ⟨-, hnull, -⟩
    exact nomatch hnull

end Raz.Alloc.Ranges
