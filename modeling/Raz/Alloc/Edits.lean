import Raz.Alloc.Chars

/-!
# Edits of a string

What each operation on characters does to the bytes of a string, for the bytes cut at the place
where it works.

Result: `Kept.truncate`, `Kept.shrinkToFit`: the bytes that are kept.
-/

namespace Raz.Alloc

open List
open Memory Core.Utf8 Unicode Raz.Path Raz.Path.Storage

/-! ## First bytes -/

theorem isLead_iff {byte : UInt8} : isLead byte = true ↔ byte.toNat < 128 ∨ 192 ≤ byte.toNat := by
  unfold isLead
  rw [Bool.or_eq_true, decide_eq_true_iff, decide_eq_true_iff]
  exact or_congr UInt8.lt_iff_toNat_lt UInt8.le_iff_toNat_le

theorem WellFormed.lead {bytes : List UInt8} (h : WellFormed bytes) :
    ∃ lead tail, bytes = lead :: tail ∧ isLead lead = true ∧ ∀ b ∈ tail, isLead b = false := by
  have htail {b : UInt8} (h : IsTail b) : isLead b = false := by
    refine Bool.of_not_eq_true fun hlead => ?_
    have hrange := isLead_iff.mp hlead
    obtain ⟨hlow, hhigh⟩ := h
    omega
  cases h with
  | one ha => exact ⟨_, [], rfl, isLead_iff.mpr (.inl (Nat.lt_succ_of_le ha)), nofun⟩
  | two ha _ hb =>
    refine ⟨_, _, rfl, isLead_iff.mpr (.inr (by omega)), ?_⟩
    simp only [forall_mem_cons]
    exact ⟨htail hb, nofun⟩
  | three ha _ hb hc =>
    refine ⟨_, _, rfl, isLead_iff.mpr (.inr (by omega)), ?_⟩
    simp only [forall_mem_cons]
    exact ⟨htail hb, htail hc, nofun⟩
  | four ha _ hb hc hd =>
    refine ⟨_, _, rfl, isLead_iff.mpr (.inr (by omega)), ?_⟩
    simp only [forall_mem_cons]
    exact ⟨htail hb, htail hc, htail hd, nofun⟩

theorem encoding_lead {scalar : Int} (h : scalarValid scalar = true) :
    ∃ lead tail, encoding scalar = lead :: tail ∧ isLead lead = true ∧
      ∀ b ∈ tail, isLead b = false :=
  WellFormed.lead (wellFormed_encoding.mpr ⟨scalar, h, rfl⟩)

theorem scalarWidth_invalid {scalar : Int} (h : scalarValid scalar = false) :
    scalarWidth scalar = 0 := if_pos h

section

variable {allocator : Allocator} {memory : Bytes} {value : Storage} {text front back : List UInt8}
  {scalar : Int}

theorem Kept.bytes (h : Kept memory value text) :
    Raz.Path.bytes memory ⟨value.data, value.length⟩ = text := by
  rw [h.length]
  refine bytes_eq h.stands ?_
  by_cases hdata : value.data = 0
  · have hempty := h.null hdata
    rw [h.length] at hempty
    exact .inl (eq_nil_of_length_eq_zero hempty)
  · exact .inr hdata

theorem Kept.decodeAt (h : Kept memory value (front ++ encoding scalar ++ back))
    (hscalar : scalarValid scalar = true) :
    decodeAt memory value.data value.length front.length = ⟨scalar, scalarWidth scalar⟩ := by
  unfold Alloc.decodeAt
  rw [h.bytes]
  refine @decode_encoding _ back _ _ hscalar ?_
  rw [append_assoc, drop_left]

/-! ## Cuts -/

theorem Kept.prefix (h : Kept memory value (front ++ back)) :
    Kept (writeTerminator memory { value with length := front.length })
      { value with length := front.length } front := by
  have hlen := h.length
  have hfits := h.fits
  rw [length_append] at hlen
  refine kept_terminate (Stands.append_iff.mp h.stands).1 rfl ?_ h.limit fun hdata => ?_
  · dsimp only
    omega
  · have hempty := h.null hdata
    dsimp only
    omega

theorem Kept.truncate (h : Kept memory value (front ++ back)) :
    ∃ memory' value', truncate memory value front.length = some (memory', value') ∧
      Kept memory' value' front := by
  have hlen := h.length
  rw [length_append] at hlen
  unfold Storage.truncate
  rw [if_neg (by omega)]
  exact ⟨_, _, rfl, h.prefix⟩

theorem Kept.shrinkToFit (h : Kept memory value text) (halloc : Serves allocator) :
    Kept (shrinkToFit allocator memory value).2.1 (shrinkToFit allocator memory value).2.2
      text := by
  unfold Alloc.shrinkToFit
  split
  · exact h
  split
  · exact h
  rename_i size hsize
  split
  · exact h
  rename_i replacement hrealloc
  obtain ⟨hne, hplace⟩ := halloc _ _ _ replacement hrealloc
  have hsize : size = value.length + 1 := by
    unfold allocationSize at hsize
    split at hsize
    · exact (Option.some.inj hsize).symm
    · nomatch hsize
  rw [hsize] at hplace
  exact h.moved hne hplace le_rfl (Nat.le_trans h.fits h.limit)

theorem scanBack_eq {lead : UInt8} {tail : List UInt8}
    (h : Stands memory value.data (front ++ lead :: tail))
    (hlead : isLead lead = true) (htail : ∀ b ∈ tail, isLead b = false) :
    scanBack memory value.data (front.length + tail.length) = front.length := by
  induction tail using List.reverseRecOn with
  | nil =>
    rw [length_nil, Nat.add_zero]
    cases hlen : front.length with
    | zero => rfl
    | succ start =>
      have hbyte : memory (value.data + front.length) = lead := h.at_append
      rw [scanBack, ← hlen, hbyte, if_pos hlead]
  | append_singleton tail b ih =>
    obtain ⟨hrest, hb⟩ := forall_mem_append.mp htail
    have hsplit : front ++ lead :: (tail ++ [b]) = (front ++ lead :: tail) ++ b :: [] := by simp
    rw [hsplit] at h
    have hbyte := h.at_append
    rw [length_append, length_cons] at hbyte
    rw [length_append, length_singleton, ← Nat.add_assoc, scanBack,
      show front.length + tail.length + 1 = front.length + (tail.length + 1) from rfl,
      hbyte, hb b (mem_singleton_self b)]
    exact (if_neg nofun).trans (ih (Stands.append_iff.mp h).1 hrest)

theorem Kept.popChar (h : Kept memory value (front ++ encoding scalar))
    (hscalar : scalarValid scalar = true) :
    ∃ memory' value', popChar memory value = (some scalar, memory', value') ∧
      Kept memory' value' front := by
  have hlen := h.length
  have hwidth := length_encoding hscalar
  have hpos := scalarWidth_pos hscalar
  obtain ⟨lead, tail, hencoding, hlead, htail⟩ := encoding_lead hscalar
  have hstands := h.stands
  rw [hencoding] at hstands
  have hscan := scanBack_eq hstands hlead htail
  have hidx : value.length - 1 = front.length + tail.length := by
    rw [hlen, length_append, hencoding, length_cons]
    omega
  have hkept := h
  rw [← append_nil (encoding scalar), ← append_assoc] at hkept
  rw [length_append, hwidth] at hlen
  unfold Alloc.popChar
  rw [if_neg (by omega), hidx, hscan]
  dsimp only
  rw [hkept.decodeAt hscalar, if_neg (by dsimp only; omega)]
  exact ⟨_, _, rfl, h.prefix⟩

theorem Kept.removeChar (h : Kept memory value (front ++ encoding scalar ++ back))
    (hscalar : scalarValid scalar = true)
    (hbound : isCharBoundary memory value front.length = true) :
    ∃ memory' value', removeChar memory value front.length = (some scalar, memory', value') ∧
      Kept memory' value' (front ++ back) := by
  have hlen := h.length
  have hfits := h.fits
  have hwidth := length_encoding hscalar
  have hpos := scalarWidth_pos hscalar
  rw [length_append, length_append, hwidth] at hlen
  have hguard : ¬ (isCharBoundary memory value front.length = false ∨
      (front.length : Int) = value.length) :=
    not_or.mpr ⟨by rw [hbound]; nofun, by omega⟩
  unfold Alloc.removeChar
  rw [if_neg hguard, Int.toNat_natCast, h.decodeAt hscalar]
  rw [if_neg (Nat.ne_of_gt hpos)]
  have htail : value.length - front.length - scalarWidth scalar = back.length := by omega
  rw [htail]
  obtain ⟨hfirst, hback⟩ := Stands.append_iff.mp h.stands
  have hfront := (Stands.append_iff.mp hfirst).1
  rw [length_append, hwidth, ← Nat.add_assoc] at hback
  have hmoved : Stands (if back.length > 0 then move memory (value.data + front.length)
      (value.data + front.length + scalarWidth scalar) back.length else memory) value.data
      (front ++ back) := by
    split
    · exact Stands.append_iff.mpr
        ⟨hfront.frame frame_move (.inl le_rfl), stands_move hback⟩
    · rename_i hempty
      obtain rfl := eq_nil_of_length_eq_zero (Nat.eq_zero_of_not_pos hempty)
      exact Stands.append_iff.mpr ⟨hfront, trivial⟩
  refine ⟨_, _, rfl, kept_terminate hmoved ?_ ?_ h.limit fun hdata => ?_⟩
  · dsimp only
    rw [length_append]
    omega
  · dsimp only
    omega
  · have hempty := h.null hdata
    omega

theorem encode_gap (hscalar : scalarValid scalar = true) {output capacity : Nat}
    (hout : output ≠ 0) (hcap : scalarWidth scalar ≤ capacity) {data : Nat}
    (hdata : data + front.length = output) (hfront : Stands memory data front)
    (hback : Stands memory (output + scalarWidth scalar) back) :
    ∃ memory', encode memory scalar output capacity = (scalarWidth scalar, memory') ∧
      Stands memory' data (front ++ encoding scalar ++ back) := by
  obtain ⟨memory', hencode, hstands, hframe⟩ := @encode_eq memory _ _ _ hscalar hout hcap
  have hfront' := hfront.frame hframe (.inl (Nat.le_of_eq hdata))
  have hback' := hback.frame hframe (.inr le_rfl)
  refine ⟨memory', hencode, Stands.append_iff.mpr ⟨Stands.append_iff.mpr ⟨hfront', ?_⟩, ?_⟩⟩
  · rwa [hdata]
  · rwa [length_append, length_encoding hscalar, ← Nat.add_assoc, hdata]

/-- **A scalar is written behind the bytes.** -/
theorem Kept.pushChar (h : Kept memory value text) (halloc : Serves allocator)
    (hscalar : scalarValid scalar = true)
    (hroom : roomFor allocator value (scalarWidth scalar) = true) :
    ∃ memory' value', pushChar allocator memory value scalar = (true, memory', value') ∧
      Kept memory' value' (text ++ encoding scalar) := by
  have hpos := scalarWidth_pos hscalar
  have hlimit := of_decide_eq_true (Bool.and_eq_true_iff.mp hroom).1
  obtain ⟨memory₁, value₁, hreserve, hkept, hcap, hdata⟩ := h.reserve halloc hroom
  have hlength₁ : value₁.length = value.length := hkept.length.trans h.length.symm
  obtain ⟨memory₂, hencode, hstands⟩ := @encode_gap memory₁ text [] scalar hscalar
    (value₁.data + value₁.length) (value₁.capacity - value₁.length) (by omega) (by omega)
    value₁.data (by rw [hkept.length]) hkept.stands trivial
  rw [append_nil] at hstands
  unfold Alloc.pushChar
  rw [if_neg (by omega), hreserve]
  dsimp only
  rw [hencode]
  rw [if_neg (not_not_intro rfl)]
  refine ⟨_, _, rfl, kept_terminate hstands ?_ ?_ hkept.limit fun hzero => absurd hzero hdata⟩
  · dsimp only
    rw [length_append, length_encoding hscalar, hkept.length]
  · dsimp only
    omega

theorem Kept.pushChar_refused (h : Kept memory value text)
    (hrefused : ¬ (scalarValid scalar = true ∧
      roomFor allocator value (scalarWidth scalar) = true)) :
    Alloc.pushChar allocator memory value scalar = (false, memory, value) := by
  unfold Alloc.pushChar
  dsimp only
  split
  · rfl
  rename_i hguard
  obtain ⟨hwidth, hlen⟩ := not_or.mp hguard
  have hscalar : scalarValid scalar = true :=
    Bool.of_not_eq_false fun hinvalid => hwidth (scalarWidth_invalid hinvalid)
  have hroom := Bool.of_not_eq_true fun hroom => hrefused ⟨hscalar, hroom⟩
  obtain hnone | ⟨hdata, hsome⟩ := @reserve_refused allocator memory value _ hroom (by omega)
  · rw [hnone]
  have hempty := h.null hdata
  have hencode : encode memory scalar (value.data + value.length)
      (value.capacity - value.length) = (0, memory) := by
    unfold encode
    exact if_pos (.inr (.inr (by omega)))
  rw [hsome]
  dsimp only
  rw [hencode]
  rw [if_pos (Ne.symm hwidth)]

/-- **A scalar is written between the bytes.** -/
theorem Kept.insertChar (h : Kept memory value (front ++ back)) (halloc : Serves allocator)
    (hbound : isCharBoundary memory value front.length = true)
    (hscalar : scalarValid scalar = true)
    (hroom : roomFor allocator value (scalarWidth scalar) = true) :
    ∃ memory' value',
      insertChar allocator memory value front.length scalar = (true, memory', value') ∧
      Kept memory' value' (front ++ encoding scalar ++ back) := by
  have hpos := scalarWidth_pos hscalar
  have hlimit := of_decide_eq_true (Bool.and_eq_true_iff.mp hroom).1
  obtain ⟨memory₁, value₁, hreserve, hkept, hcap, hdata⟩ := h.reserve halloc hroom
  have hlen := hkept.length
  have hlength₁ : value₁.length = value.length := hlen.trans h.length.symm
  rw [length_append] at hlen
  obtain ⟨hfront, hback⟩ := Stands.append_iff.mp hkept.stands
  have htail : value₁.length - front.length = back.length := by omega
  -- the gap
  have hmoved : ∀ memory₂, memory₂ = (if back.length > 0 then
      move memory₁ (value₁.data + front.length + scalarWidth scalar) (value₁.data + front.length)
        back.length else memory₁) →
      Stands memory₂ value₁.data front ∧
        Stands memory₂ (value₁.data + front.length + scalarWidth scalar) back := by
    rintro memory₂ rfl
    split
    · exact ⟨hfront.frame frame_move (.inl (Nat.le_add_right _ _)), stands_move hback⟩
    · rename_i hempty
      obtain rfl := eq_nil_of_length_eq_zero (Nat.eq_zero_of_not_pos hempty)
      exact ⟨hfront, trivial⟩
  obtain ⟨hfront₂, hback₂⟩ := hmoved _ rfl
  obtain ⟨memory₃, hencode, hstands⟩ := @encode_gap _ front back scalar hscalar
    (value₁.data + front.length) (scalarWidth scalar) (by omega) le_rfl
    value₁.data rfl hfront₂ hback₂
  unfold Alloc.insertChar
  rw [if_neg (by rw [hbound]; nofun)]
  rw [if_neg (by omega), hreserve]
  dsimp only
  rw [Int.toNat_natCast, htail, hencode]
  rw [if_neg (not_not_intro rfl)]
  refine ⟨_, _, rfl, kept_terminate hstands ?_ ?_ hkept.limit fun hzero => absurd hzero hdata⟩
  · dsimp only
    rw [length_append, length_append, length_encoding hscalar]
    omega
  · dsimp only
    omega

/-- Nothing is changed by an insertion of no scalar, off a boundary, or without room. -/
theorem Kept.insertChar_refused (h : Kept memory value text) {index : Int}
    (hrefused : ¬ (isCharBoundary memory value index = true ∧ scalarValid scalar = true ∧
      roomFor allocator value (scalarWidth scalar) = true)) :
    Alloc.insertChar allocator memory value index scalar = (false, memory, value) := by
  unfold Alloc.insertChar
  dsimp only
  split
  · rfl
  rename_i hbound
  have hbound := Bool.of_not_eq_false hbound
  split
  · rfl
  rename_i hguard
  obtain ⟨hwidth, hlen⟩ := not_or.mp hguard
  have hscalar : scalarValid scalar = true :=
    Bool.of_not_eq_false fun hinvalid => hwidth (scalarWidth_invalid hinvalid)
  have hroom := Bool.of_not_eq_true fun hroom => hrefused ⟨hbound, hscalar, hroom⟩
  obtain hnone | ⟨hdata, hsome⟩ := @reserve_refused allocator memory value _ hroom (by omega)
  · rw [hnone]
  have hempty := h.null hdata
  have hidx : index.toNat = 0 := by
    have hrange : ¬ (index < 0 ∨ index > value.length) := by
      intro hout
      unfold isCharBoundary strIsCharBoundary at hbound
      rw [if_pos (show index < 0 ∨ index > (asStr value).length from hout)] at hbound
      nomatch hbound
    omega
  have hencode : encode memory scalar (value.data + index.toNat) (scalarWidth scalar) =
      (0, memory) := by
    unfold encode
    exact if_pos (.inr (.inr (by omega)))
  have htail : ¬ value.length - index.toNat > 0 := by omega
  rw [hsome]
  dsimp only
  rw [if_neg htail, hencode]
  rw [if_pos (Ne.symm hwidth)]

end

end Raz.Alloc
