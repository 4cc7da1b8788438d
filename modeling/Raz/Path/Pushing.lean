import Raz.Path.Buf
import Raz.Path.Joining

/-!
# Pushing and joining

What a push comes to for the text of a buffer, with the answers of the allocator, and what a join
writes. The two trim the separators of a path differently: a push takes all of them, a join leaves
the first byte.

Result: `joinInto_eq`: a join writes `joinText`.
-/

namespace Raz.Path

open Memory Storage List

theorem trimEnd_goBack {memory : Bytes} {data least : Nat} : ∀ stop : Nat,
    trimEnd memory data least stop = goBack isSeparator memory data least stop
  | 0 => rfl
  | stop + 1 => by
    unfold trimEnd goBack
    rw [trimEnd_goBack stop]

theorem takeWhile_relative {part : List UInt8} (h : isAbsolute part = false) :
    part.takeWhile isSeparator = [] := by
  cases part with
  | nil => rfl
  | cons first rest =>
    refine takeWhile_cons_of_neg fun hfirst => ?_
    unfold isAbsolute at h
    dsimp only at h
    rw [if_pos hfirst] at h
    nomatch h

theorem rootLength_of_relative {part : List UInt8} (h : isAbsolute part = false) :
    rootLength part = 0 := by
  refine Nat.eq_zero_of_not_pos fun hpos => ?_
  rw [(isAbsolute_iff part).mpr hpos] at h
  nomatch h

/-! ## Pushing -/

/-- The text that is put together. -/
def putText (base part : List UInt8) : List UInt8 :=
  if trimmed base = [] then part else trimmed base ++ 47 :: part

/-- There is room for the separator, or none is put. -/
def separatorGrows (grants : Nat → Bool) (capacity : Nat) (base : List UInt8) : Bool :=
  trimmed base = [] || grows grants capacity ((trimmed base).length + 1)

/-- There is room for the part, behind the separator. -/
def partGrows (grants : Nat → Bool) (capacity : Nat) (base part : List UInt8) : Bool :=
  if trimmed base = [] then grows grants capacity part.length
  else grows grants (growthCapacity capacity ((trimmed base).length + 1))
    ((trimmed base).length + 1 + part.length)

/-- What a push makes of the text of a buffer: whether it is done, and the text afterwards. -/
def pushed (grants : Nat → Bool) (capacity : Nat) (base part : List UInt8) :
    Bool × List UInt8 :=
  if part = [] then (true, base)
  else if separatorGrows grants capacity base = false then (false, trimmed base)
  else if partGrows grants capacity base part = false then
    (false, if trimmed base = [] then [] else trimmed base ++ [47])
  else (true, normalForm (putText base part))

section

variable {allocator : Allocator} {grants : Nat → Bool} {memory : Bytes} {value : Storage}
  {base part : List UInt8} {source : Nat}

/-- **A push** does to the storage what `pushed` does to its text. -/
theorem pathBufPush_eq (h : Ready memory value base source part)
    (halloc : Reallocates allocator grants source part.length)
    (hlimit : value.capacity ≤ 9223372036854775807) (hsrc : part = [] ∨ source ≠ 0)
    (hpart : isAbsolute part = false) :
    ∃ memory' value', pathBufPush allocator memory value ⟨source, part.length⟩ =
        ((pushed grants value.capacity base part).1, memory', value') ∧
      Ready memory' value' (pushed grants value.capacity base part).2 source part := by
  have hbytes := bytes_eq h.beside hsrc
  have hvalid : ¬ valid ⟨source, part.length⟩ = false := by
    unfold valid
    obtain rfl | hne := hsrc
    · exact nofun
    · simp [hne]
  unfold pathBufPush pushed separatorGrows partGrows putText
  rw [if_neg hvalid, hbytes, hpart]
  by_cases hempty : part = []
  · subst hempty
    exact ⟨_, _, rfl, h⟩
  have hpos : ¬ part.length = 0 := fun hzero => hempty (eq_nil_of_length_eq_zero hzero)
  have hsrc := hsrc.resolve_left hempty
  have hyes : ¬ true = false := nofun
  obtain ⟨back, hbase, hback, hlast⟩ := trimmed_split base
  generalize trimmed base = left at *
  subst hbase
  have htrim : trimEnd memory value.data 0 value.length = left.length := by
    rw [trimEnd_goBack, h.length]
    exact goBack_eq h.holds hback (Nat.zero_le _) (.inr hlast)
  obtain ⟨memory₁, value₁, htruncated, hready₁, hcapacity₁⟩ := h.truncate
  have hover := @passOver_eq isSeparator memory₁ ⟨source, part.length⟩ part 0 hready₁.beside
  rw [takeWhile_relative hpart, length_nil, Nat.add_zero] at hover
  rw [if_neg hpos, if_neg Bool.false_ne_true, htrim]
  dsimp only
  rw [htruncated, if_neg hempty]
  dsimp only
  rw [hover, if_neg fun hge => hpos (Nat.le_zero.mp hge), Nat.add_zero, Nat.sub_zero]
  rw [← hcapacity₁] at hlimit ⊢
  by_cases hleft : left = []
  · subst hleft
    have hnothing : ¬ ([] : List UInt8).length > 0 := Nat.lt_irrefl 0
    rw [if_neg hnothing, decide_eq_true rfl, Bool.true_or, if_neg hyes, if_pos rfl,
      if_pos rfl, if_pos rfl]
    dsimp only
    obtain ⟨hgrows, hnone⟩ | ⟨hgrows, memory₂, value₂, hsome, hready₂⟩ :=
      hready₁.appendBytes halloc hlimit hempty hsrc
    · rw [length_nil, Nat.zero_add] at hgrows
      rw [hnone, hgrows]
      exact ⟨_, _, rfl, hready₁⟩
    · rw [length_nil, Nat.zero_add] at hgrows
      rw [hsome, hgrows]
      exact hready₂.normalize
  rw [if_pos (length_pos_iff.mpr hleft), decide_eq_false hleft, Bool.false_or, if_neg hleft,
    if_neg hleft, if_neg hleft]
  obtain ⟨hgrows, hnone⟩ | ⟨hgrows, memory₂, value₂, hsome, hready₂, hcapacity₂⟩ :=
    hready₁.pushByte halloc hlimit 47
  · rw [hnone, hgrows]
    exact ⟨_, _, rfl, hready₁⟩
  have hlimit₂ := growthCapacity_le hlimit hgrows
  rw [hsome, hgrows, if_neg hyes, ← hcapacity₂]
  rw [← hcapacity₂] at hlimit₂
  dsimp only
  obtain ⟨hgrows₂, hnone⟩ | ⟨hgrows₂, memory₃, value₃, hsome, hready₃⟩ :=
    hready₂.appendBytes halloc hlimit₂ hempty hsrc
  · rw [length_append, length_singleton] at hgrows₂
    rw [hnone, hgrows₂]
    exact ⟨_, _, rfl, hready₂⟩
  rw [length_append, length_singleton] at hgrows₂
  rw [hsome, hgrows₂]
  rw [append_assoc] at hready₃
  exact hready₃.normalize

end

/-! ## Joining -/

/-- The path without the separators at its end, of which a first byte stays. -/
def kept (base : List UInt8) : List UInt8 :=
  if trimmed base = [] then base.take 1 else trimmed base

/-- The text that a join writes. -/
def joinText (base part : List UInt8) : List UInt8 :=
  if base = [] then part else if part = [] then base else kept base ++ 47 :: part

theorem trimEnd_kept {memory : Bytes} {data : Nat} {base : List UInt8}
    (h : Stands memory data base) : trimEnd memory data 1 base.length = (kept base).length ∧
      ∃ back, base = kept base ++ back := by
  obtain ⟨back, hbase, hback, hlast⟩ := trimmed_split base
  unfold kept
  rw [trimEnd_goBack]
  by_cases htrimmed : trimmed base = []
  · rw [if_pos htrimmed]
    rw [htrimmed, nil_append] at hbase
    subst hbase
    cases base with
    | nil => exact ⟨rfl, [], rfl⟩
    | cons first rest =>
      obtain ⟨-, hrest⟩ := forall_mem_cons.mp hback
      exact ⟨@goBack_eq isSeparator memory data 1 [first] rest h hrest le_rfl (.inl rfl),
        rest, rfl⟩
  · rw [if_neg htrimmed]
    generalize trimmed base = left at *
    subst hbase
    exact ⟨goBack_eq h hback (length_pos_iff.mpr htrimmed) (.inr hlast), back, rfl⟩

section

variable {memory : Bytes} {base part : List UInt8} {left right output capacity : Nat}

theorem joinRequired_eq (hleft : Stands memory left base) (hright : Stands memory right part)
    (hpart : isAbsolute part = false) :
    joinRequired memory ⟨left, base.length⟩ ⟨right, part.length⟩ = (joinText base part).length := by
  have hover := @passOver_eq isSeparator memory ⟨right, part.length⟩ part 0 hright
  rw [takeWhile_relative hpart, length_nil, Nat.add_zero] at hover
  unfold joinRequired joinText
  dsimp only
  by_cases hbase : base = []
  · rw [if_pos (length_eq_zero_iff.mpr hbase), if_pos hbase]
  rw [if_neg (mt eq_nil_of_length_eq_zero hbase), if_neg hbase]
  by_cases hempty : part = []
  · rw [if_pos (length_eq_zero_iff.mpr hempty), if_pos hempty]
  rw [if_neg (mt eq_nil_of_length_eq_zero hempty), if_neg hempty, (trimEnd_kept hleft).1,
    hover, length_append, length_cons]
  omega

/-- **A join** writes its text. -/
theorem joinInto_eq (hleft : Stands memory left base) (hright : Stands memory right part)
    (hpart : isAbsolute part = false) (hout : joinText base part = [] ∨ output ≠ 0)
    (hfit : (joinText base part).length ≤ capacity)
    (hapart : left + base.length ≤ output ∨ output + capacity ≤ left)
    (hapart' : right + part.length ≤ output ∨ output + capacity ≤ right) :
    ∃ memory', joinInto memory ⟨left, base.length⟩ ⟨right, part.length⟩ output capacity =
        (some (joinText base part).length, memory') ∧
      Stands memory' output (joinText base part) := by
  have hover := @passOver_eq isSeparator memory ⟨right, part.length⟩ part 0 hright
  rw [takeWhile_relative hpart, length_nil, Nat.add_zero] at hover
  have hwritable : ¬ (capacity < (joinText base part).length ∨
      ((joinText base part).length > 0 ∧ output = 0)) := by
    rintro (hlt | ⟨hpos, hzero⟩)
    · omega
    · exact length_pos_iff.mp hpos (hout.resolve_right fun hne => hne hzero)
  unfold joinInto
  dsimp only
  rw [joinRequired_eq hleft hright hpart, if_neg hwritable]
  unfold joinText at hfit ⊢
  by_cases hbase : base = []
  · rw [if_pos hbase] at hfit ⊢
    rw [if_pos (length_eq_zero_iff.mpr hbase)]
    exact ⟨_, rfl, stands_copyUp hright (by omega)⟩
  rw [if_neg hbase] at hfit ⊢
  rw [if_neg (mt eq_nil_of_length_eq_zero hbase)]
  by_cases hempty : part = []
  · rw [if_pos hempty] at hfit ⊢
    rw [if_pos (length_eq_zero_iff.mpr hempty)]
    exact ⟨_, rfl, stands_copyUp hleft (by omega)⟩
  rw [if_neg hempty] at hfit ⊢
  rw [if_neg (mt eq_nil_of_length_eq_zero hempty)]
  obtain ⟨htrim, back, hback⟩ := trimEnd_kept hleft
  rw [htrim, hover, Nat.sub_zero, Nat.add_zero]
  generalize kept base = front at *
  subst hback
  rw [length_append, length_cons] at hfit
  rw [length_append] at hapart
  -- the front, the separator and the part, each behind the one before
  have hfront := @stands_copyUp _ front memory output left (Stands.append_iff.mp hleft).1 (by omega)
  have hframe₁ := @frame_copyUp _ front.length memory output left
  have hstore := @frame_store _ (copyUp memory output left front.length) (output + front.length) 47
  have hright₁ := (hright.frame hframe₁ (by omega)).frame hstore (by omega)
  have hcopied := @stands_copyUp _ part _ (output + front.length + 1) right hright₁ (by omega)
  have hframe₂ := @frame_copyUp _ part.length
    (store (copyUp memory output left front.length) (output + front.length) 47)
    (output + front.length + 1) right
  have hfront₂ := (hfront.frame hstore (by omega)).frame hframe₂ (by omega)
  have hslash := (@stands_store _ (copyUp memory output left front.length)
    (output + front.length) 47).frame hframe₂ (.inl le_rfl)
  exact ⟨_, rfl, Stands.append_iff.mpr ⟨hfront₂, hslash.1, hcopied⟩⟩

end

end Raz.Path
