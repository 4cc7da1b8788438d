import Raz.Forge.Layout
import Raz.Lib.Packing
import Mathlib.Tactic.Common

/-!
# A layout as a packing

One level of the data layout, given the sizes and alignments of the aggregates below it, in terms
of the general packing of items in order.

Result: `ofFields_eq_some`, `ofElements_eq_some`: what one level of the layout computes is the
packing of its parts, within `size_t`.
-/

namespace Raz.Forge

open Packing List Option

variable {value alignment : Nat} {r : StructLayout} {fields : List StructField}

/-! ## Alignments -/

theorem isPowerOfTwo_iff (value : Nat) : isPowerOfTwo value = true ↔ value.isPowerOfTwo := by
  rw [← Nat.ne_zero_and_sub_one_eq_zero_iff_isPowerOfTwo]
  simp [isPowerOfTwo]

theorem isPowerOfTwo_pos (h : isPowerOfTwo value = true) : 0 < value :=
  Nat.pos_of_isPowerOfTwo ((isPowerOfTwo_iff value).mp h)

theorem isPowerOfTwo_max {first second : Nat} (hfirst : isPowerOfTwo first = true)
    (hsecond : isPowerOfTwo second = true) : isPowerOfTwo (max first second) = true := by
  rcases Nat.le_total first second with hle | hle
  · rwa [Nat.max_eq_right hle]
  · rwa [Nat.max_eq_left hle]

/-- Rounding up wraps exactly when the result does not fit: a power of two either divides `2 ^ 64`
or is above every `size_t`. -/
theorem wraps_iff (h : isPowerOfTwo alignment = true) :
    sizeMax - (alignment - 1) < value ↔ sizeMax < alignUp value alignment := by
  have hpos := isPowerOfTwo_pos h
  have hle := le_alignUp value hpos
  obtain ⟨power, hpower⟩ := (isPowerOfTwo_iff alignment).mp h
  rcases Nat.le_total power 64 with hsmall | hlarge
  · have hdvd : alignment ∣ 2 ^ 64 := hpower ▸ Nat.pow_dvd_pow 2 hsmall
    constructor
    · intro hwrap
      by_contra hfits
      -- the next multiple after `alignUp value alignment` would still be at most `2 ^ 64`
      have hrest := Nat.dvd_sub hdvd (dvd_alignUp value alignment)
      have hgap := Nat.le_of_dvd (by simp only [sizeMax] at hfits; omega) hrest
      simp only [sizeMax] at hwrap hfits
      omega
    · intro hover
      by_contra hwrap
      simp only [sizeMax] at hover hwrap
      have hup := alignUp_le value hpos (Nat.dvd_sub hdvd (Nat.dvd_refl _)) (by omega)
      omega
  · have hlarge : 2 ^ 64 ≤ alignment := hpower ▸ Nat.pow_le_pow_right (by decide) hlarge
    simp only [sizeMax]
    constructor
    · intro hwrap
      have hstep := Nat.le_of_dvd (by omega) (dvd_alignUp value alignment)
      omega
    intro hover
    by_contra hzero
    have hup := alignUp_le value hpos (Nat.dvd_zero _) (by omega)
    omega

theorem checkedAlignTo_eq_some {offset : Nat} (h : isPowerOfTwo alignment = true) :
    checkedAlignTo value alignment = some offset ↔
      offset = alignUp value alignment ∧ offset ≤ sizeMax := by
  rw [checkedAlignTo, if_neg (by simp [h])]
  by_cases hwraps : sizeMax - (alignment - 1) < value
  · rw [if_pos hwraps]
    have hover := (wraps_iff h).mp hwraps
    constructor
    · nofun
    · rintro ⟨rfl, hfits⟩
      omega
  · rw [if_neg hwraps, some.injEq]
    have hfits := Nat.le_of_not_lt fun hover => hwraps ((wraps_iff h).mpr hover)
    constructor
    · rintro rfl
      exact ⟨rfl, hfits⟩
    · rintro ⟨rfl, -⟩
      rfl

/-! ## One level of the layout -/

/-- The fields of a struct whose parts are of these sizes and alignments. -/
def placedFields (extents : List (Nat × Nat)) : List FieldLayout :=
  List.zipWith (fun offset extent => ⟨offset, extent.1, extent.2⟩) (offsets 0 extents) extents

/-- The layout of a struct after these parts, before its size is rounded up. -/
def placed (extents : List (Nat × Nat)) : StructLayout :=
  { size := finish 0 extents, alignment := maxAlignment 1 extents, fields := placedFields extents }

theorem placed_concat (extents : List (Nat × Nat)) (size alignment : Nat) :
    placed (extents ++ [(size, alignment)]) =
      { size := alignUp (placed extents).size alignment + size
        alignment := max (placed extents).alignment alignment
        fields := (placed extents).fields ++
          [⟨alignUp (placed extents).size alignment, size, alignment⟩] } := by
  simp only [placed, placedFields, finish_append, maxAlignment_append, offsets_append]
  rw [zipWith_append (length_offsets ..)]
  rfl

theorem getElem?_placedFields (extents : List (Nat × Nat)) (i : Nat) :
    (placedFields extents)[i]? = extents[i]?.map fun extent =>
      ⟨alignUp (finish 0 (extents.take i)) extent.2, extent.1, extent.2⟩ := by
  rw [placedFields, List.getElem?_zipWith]
  cases hext : extents[i]? with
  | none => simp
  | some extent => rw [getElem?_offsets 0 hext, map_some]

theorem isPowerOfTwo_maxAlignment (before : Nat) {extents : List (Nat × Nat)}
    (hbefore : isPowerOfTwo before = true) (h : ∀ e ∈ extents, isPowerOfTwo e.2 = true) :
    isPowerOfTwo (maxAlignment before extents) = true := by
  induction extents generalizing before with
  | nil => exact hbefore
  | cons extent extents ih =>
    rw [forall_mem_cons] at h
    exact ih _ (isPowerOfTwo_max hbefore h.1) h.2

section
variable {layout : DataLayout} {nested : AggregateRef → Option (Nat × Nat)}

/-- The size and the alignment of a field's type. -/
def DataLayout.ofField (layout : DataLayout) (nested : AggregateRef → Option (Nat × Nat))
    (field : StructField) : Option (Nat × Nat) :=
  layout.ofElement nested field.type field.aggregate

theorem addField_eq_some {extents : List (Nat × Nat)} {field : StructField} :
    layout.addField nested (placed extents) field = some r ↔
      ∃ extent, layout.ofField nested field = some extent ∧ isPowerOfTwo extent.2 = true ∧
        finish 0 (extents ++ [extent]) ≤ sizeMax ∧ r = placed (extents ++ [extent]) := by
  unfold DataLayout.addField
  rw [← DataLayout.ofField]
  cases hext : layout.ofField nested field with
  | none => simp
  | some extent =>
    obtain ⟨size, alignment⟩ := extent
    simp only [bind_eq_bind, bind_some, some.injEq, exists_eq_left']
    cases hpower : isPowerOfTwo alignment with
    | false => simp
    | true =>
      have hend : finish 0 (extents ++ [(size, alignment)]) =
          alignUp (placed extents).size alignment + size := by
        rw [finish_append]
        rfl
      rw [hend, placed_concat]
      simp only [Bool.not_true, Bool.false_eq_true, if_false, true_and]
      cases hoff : checkedAlignTo (placed extents).size alignment with
      | none =>
        have hover : ¬ alignUp (placed extents).size alignment ≤ sizeMax := fun hle =>
          nomatch hoff.symm.trans ((checkedAlignTo_eq_some hpower).mpr ⟨rfl, hle⟩)
        rw [bind_none]
        constructor
        · nofun
        · rintro ⟨hle, -⟩
          omega
      | some offset =>
        obtain ⟨rfl, hle⟩ := (checkedAlignTo_eq_some hpower).mp hoff
        rw [bind_some]
        split
        · constructor
          · nofun
          · rintro ⟨hfits, -⟩
            omega
        · constructor
          · intro hr
            exact ⟨by omega, (some.inj hr).symm⟩
          · rintro ⟨-, rfl⟩
            rfl

theorem foldlM_addField_sound (extents : List (Nat × Nat))
    (h : fields.foldlM (layout.addField nested) (placed extents) = some r) :
    ∃ more, fields.map (layout.ofField nested) = more.map some ∧
      (∀ e ∈ more, isPowerOfTwo e.2 = true) ∧ r = placed (extents ++ more) := by
  induction fields generalizing extents with
  | nil => exact ⟨[], rfl, nofun, by simpa using (some.inj h).symm⟩
  | cons field fields ih =>
    rw [foldlM_cons, bind_eq_bind, bind_eq_some_iff] at h
    obtain ⟨next, hnext, hrest⟩ := h
    obtain ⟨extent, hext, hpower, -, rfl⟩ := addField_eq_some.mp hnext
    obtain ⟨more, hmore, hpowers, rfl⟩ := ih _ hrest
    refine ⟨extent :: more, ?_, forall_mem_cons.mpr ⟨hpower, hpowers⟩, ?_⟩
    · rw [map_cons, map_cons, hext, hmore]
    · rw [append_assoc, singleton_append]

theorem foldlM_addField_complete (extents : List (Nat × Nat)) {more : List (Nat × Nat)}
    (hmap : fields.map (layout.ofField nested) = more.map some)
    (hpowers : ∀ e ∈ more, isPowerOfTwo e.2 = true) (hfits : finish 0 (extents ++ more) ≤ sizeMax) :
    fields.foldlM (layout.addField nested) (placed extents) = some (placed (extents ++ more)) := by
  induction fields generalizing extents more with
  | nil =>
    obtain rfl : more = [] := by simpa using hmap.symm
    rw [append_nil]
    rfl
  | cons field fields ih =>
    cases more with
    | nil => simp at hmap
    | cons extent more =>
      rw [map_cons, map_cons, List.cons.injEq] at hmap
      rw [forall_mem_cons] at hpowers
      have hassoc : extents ++ extent :: more = extents ++ [extent] ++ more := by simp
      rw [hassoc] at hfits ⊢
      have hbelow : finish 0 (extents ++ [extent]) ≤ sizeMax := by
        rw [finish_append] at hfits
        exact (le_finish _ fun e he => isPowerOfTwo_pos (hpowers.2 e he)).trans hfits
      have hstep := addField_eq_some.mpr ⟨extent, hmap.1, hpowers.1, hbelow, rfl⟩
      rw [foldlM_cons, hstep]
      exact ih _ hmap.2 hpowers.2 hfits

/-- The layout of a struct whose parts are of these sizes and alignments. -/
def packed (extents : List (Nat × Nat)) : StructLayout :=
  { placed extents with size := alignUp (finish 0 extents) (maxAlignment 1 extents) }

/-- **A struct is laid out if and only if its parts are, and their packing fits.** -/
theorem ofFields_eq_some :
    layout.ofFields nested fields = some r ↔
      ∃ extents, fields.map (layout.ofField nested) = extents.map some ∧
        (∀ e ∈ extents, isPowerOfTwo e.2 = true) ∧ (packed extents).size ≤ sizeMax ∧
        r = packed extents := by
  unfold DataLayout.ofFields
  rw [bind_eq_bind, bind_eq_some_iff]
  constructor
  · rintro ⟨result, hres, hr⟩
    obtain ⟨extents, hmap, hpowers, rfl⟩ := foldlM_addField_sound [] hres
    have hpower := isPowerOfTwo_maxAlignment 1 rfl hpowers
    rw [bind_eq_bind, bind_eq_some_iff] at hr
    obtain ⟨size, hsize, hr⟩ := hr
    obtain ⟨rfl, hfits⟩ := (checkedAlignTo_eq_some hpower).mp hsize
    exact ⟨extents, hmap, hpowers, hfits, (some.inj hr).symm⟩
  · rintro ⟨extents, hmap, hpowers, hfits, rfl⟩
    have hpower := isPowerOfTwo_maxAlignment 1 rfl hpowers
    have hle := le_alignUp (finish 0 extents) (isPowerOfTwo_pos hpower)
    refine ⟨placed extents, ?_, ?_⟩
    · exact foldlM_addField_complete [] hmap hpowers (hle.trans hfits)
    · have hsize := (checkedAlignTo_eq_some hpower).mpr ⟨rfl, hfits⟩
      exact bind_eq_some_iff.mpr ⟨_, hsize, rfl⟩

/-- The last checks on an array, those of its stride and its size. -/
theorem ofStride_eq_some (size : Nat) {count : Nat} {r : ArrayLayout}
    (hpower : isPowerOfTwo alignment = true) (hcount : count ≠ 0) :
    ((checkedAlignTo size alignment).bind fun stride =>
      if stride != 0 && sizeMax / stride < count then none
      else some (⟨stride * count, alignment, stride⟩ : ArrayLayout)) = some r ↔
      alignUp size alignment * count ≤ sizeMax ∧
        r = ⟨alignUp size alignment * count, alignment, alignUp size alignment⟩ := by
  have hwraps : ∀ stride : Nat, (stride != 0 && sizeMax / stride < count) = true ↔
      sizeMax < stride * count := by
    intro stride
    rcases Nat.eq_zero_or_pos stride with rfl | hpos
    · simp
    · rw [Bool.and_eq_true, bne_iff_ne, decide_eq_true_iff, Nat.div_lt_iff_lt_mul hpos,
        Nat.mul_comm]
      exact and_iff_right hpos.ne'
  simp only [bind_eq_some_iff, checkedAlignTo_eq_some hpower, hwraps]
  constructor
  · rintro ⟨stride, ⟨rfl, -⟩, hr⟩
    split at hr
    · nomatch hr
    · exact ⟨by omega, (some.inj hr).symm⟩
  · rintro ⟨hfits, rfl⟩
    have hstride := (Nat.le_mul_of_pos_right _ (Nat.pos_of_ne_zero hcount)).trans hfits
    exact ⟨_, ⟨rfl, hstride⟩, if_neg (by omega)⟩

/-- **An array is laid out if and only if it has elements, its element is laid out, and all the
elements fit.** -/
theorem ofElements_eq_some {declaration : ArrayDecl} {r : ArrayLayout} :
    layout.ofElements nested declaration = some r ↔
      declaration.elementCount ≠ 0 ∧ ∃ size alignment,
        layout.ofElement nested declaration.elementType declaration.elementAggregate =
          some (size, alignment) ∧
        isPowerOfTwo alignment = true ∧
        alignUp size alignment * declaration.elementCount ≤ sizeMax ∧
        r = ⟨alignUp size alignment * declaration.elementCount, alignment,
          alignUp size alignment⟩ := by
  unfold DataLayout.ofElements
  cases hcount : declaration.elementCount == 0 with
  | true => simp [beq_iff_eq.mp hcount]
  | false =>
    have hcount : declaration.elementCount ≠ 0 := by simpa using hcount
    simp only [Bool.false_eq_true, if_false, bind_eq_bind, bind_eq_some_iff,
      Prod.exists]
    refine Iff.trans (exists_congr fun size => exists_congr fun alignment =>
      and_congr_right fun _ => ?_) (and_iff_right hcount).symm
    cases hpower : isPowerOfTwo alignment with
    | false => simp
    | true =>
      have hfits := ofStride_eq_some size (r := r) hpower hcount
      simpa using hfits

end

end Raz.Forge
