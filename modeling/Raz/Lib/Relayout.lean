import Mathlib.Algebra.Order.Ring.Int
import Mathlib.Data.List.Forall2
import Mathlib.Order.Nat
import Mathlib.Tactic.Common

/-!
# Rewriting spans of a list

A list in which some spans, in order and disjoint, are rewritten to others of another length. What
is not in a span is kept. The list is cut into pieces, each of them an item that is kept or a whole
span, and an offset at the start of a piece moves with it.

Results:
1. `exists_position`: each offset that is not inside a span is the start of a piece.
2. `removed_mono`: the more the spans lose, the closer two offsets come.
-/

namespace Relayout

variable {k offset : Nat}

variable {β ι : Type}

/-- An item that is kept, or a span that is rewritten. -/
inductive Piece (β ι : Type)
  | kept (item : β)
  | replaced (span : ι)

/-- The length of a piece, given those of the spans. -/
def Piece.width (size : ι → Nat) : Piece β ι → Nat
  | kept _ => 1
  | replaced span => size span

/-- The items of a piece, given those of the spans. -/
def Piece.items (text : ι → List β) : Piece β ι → List β
  | kept item => [item]
  | replaced span => text span

/-- The pieces of the list from the cursor on. -/
def pieces (start size : ι → Nat) (items : List β) : Nat → List ι → List (Piece β ι)
  | cursor, [] => (items.drop cursor).map .kept
  | cursor, span :: rest =>
    ((items.drop cursor).take (start span - cursor)).map .kept ++
      .replaced span :: pieces start size items (start span + size span) rest

/-- Where the piece of an index begins. -/
def position (size : ι → Nat) (ps : List (Piece β ι)) (k : Nat) : Nat :=
  ((ps.take k).map (·.width size)).sum

/-- The spans follow each other from the cursor on, and end before the limit. -/
def InOrder (start size : ι → Nat) (limit : Nat) : Nat → List ι → Prop
  | cursor, [] => cursor ≤ limit
  | cursor, span :: rest =>
    cursor ≤ start span ∧ 0 < size span ∧ InOrder start size limit (start span + size span) rest

/-- What the spans that begin before an offset lose. -/
def removed (start saved : ι → Nat) (spans : List ι) (offset : Nat) : Nat :=
  ((spans.filter (start · < offset)).map saved).sum

/-- The offset is not inside a span. -/
def Boundary (start size : ι → Nat) (spans : List ι) (offset : Nat) : Prop :=
  ∀ span ∈ spans, offset ≤ start span ∨ start span + size span ≤ offset

section
variable {start size saved : ι → Nat} {items : List β} {spans : List ι} {limit cursor : Nat}

/-! ## Positions -/

theorem position_append_left {front back : List (Piece β ι)} (h : k ≤ front.length) :
    position size (front ++ back) k = position size front k := by
  rw [position, List.take_append_of_le_length h, position]

theorem position_append_right (size : ι → Nat) (front back : List (Piece β ι)) (k : Nat) :
    position size (front ++ back) (front.length + k) =
      position size front front.length + position size back k := by
  simp [position, List.take_append, List.take_of_length_le]

theorem position_cons (piece : Piece β ι) (ps : List (Piece β ι)) (k : Nat) :
    position size (piece :: ps) (k + 1) = piece.width size + position size ps k := by
  simp [position]

theorem position_kept (front : List β) (h : k ≤ front.length) :
    position size (front.map Piece.kept) k = k := by
  induction front generalizing k with
  | nil => obtain rfl := Nat.le_zero.mp h; rfl
  | cons item front ih =>
    cases k with
    | zero => rfl
    | succ k =>
      rw [List.map_cons, position_cons, ih (Nat.le_of_succ_le_succ h)]
      exact Nat.add_comm 1 k

theorem position_succ (size : ι → Nat) {ps : List (Piece β ι)} {piece : Piece β ι}
    (h : ps[k]? = some piece) :
    position size ps (k + 1) = position size ps k + piece.width size := by
  simp [position, List.take_add_one, h]

theorem position_mono (size : ι → Nat) (ps : List (Piece β ι)) {j : Nat} (h : j ≤ k) :
    position size ps j ≤ position size ps k := by
  have hsplit : ps.take k = ps.take j ++ (ps.take k).drop j := by
    conv_lhs => rw [← List.take_append_drop j (ps.take k), List.take_take, Nat.min_eq_left h]
  rw [position, position, hsplit, List.map_append, List.sum_append]
  exact Nat.le_add_right ..

/-! ## The pieces of a list -/

theorem InOrder.le_limit {spans : List ι} {cursor : Nat}
    (h : InOrder start size limit cursor spans) : cursor ≤ limit := by
  induction spans generalizing cursor with
  | nil => exact h
  | cons span rest ih =>
    obtain ⟨hstart, -, hrest⟩ := h
    have hlimit := ih hrest
    omega

theorem InOrder.le_start {span : ι} (h : InOrder start size limit cursor spans)
    (hmem : span ∈ spans) : cursor ≤ start span := by
  induction spans generalizing cursor with
  | nil => nomatch hmem
  | cons first rest ih =>
    obtain ⟨hstart, -, hrest⟩ := h
    rcases List.mem_cons.mp hmem with rfl | hmem
    · exact hstart
    · have hle := ih hrest hmem
      omega

theorem InOrder.size_pos {span : ι} (h : InOrder start size limit cursor spans)
    (hmem : span ∈ spans) : 0 < size span := by
  induction spans generalizing cursor with
  | nil => nomatch hmem
  | cons first rest ih =>
    rcases List.mem_cons.mp hmem with rfl | hmem
    · exact h.2.1
    · exact ih h.2.2 hmem

theorem InOrder.end_le {span : ι} (h : InOrder start size limit cursor spans)
    (hmem : span ∈ spans) : start span + size span ≤ limit := by
  induction spans generalizing cursor with
  | nil => nomatch hmem
  | cons first rest ih =>
    rcases List.mem_cons.mp hmem with rfl | hmem
    · exact h.2.2.le_limit
    · exact ih h.2.2 hmem

theorem flatMap_kept (text : ι → List β) (part : List β) :
    (part.map (Piece.kept (ι := ι))).flatMap (·.items text) = part := by
  induction part with
  | nil => rfl
  | cons item part ih => exact congrArg (item :: ·) ih

/-- The pieces make up the list. -/
theorem flatMap_pieces {text : ι → List β}
    (htext : ∀ span ∈ spans, text span = (items.drop (start span)).take (size span)) :
    InOrder start size items.length cursor spans →
    (pieces start size items cursor spans).flatMap (·.items text) = items.drop cursor := by
  induction spans generalizing cursor with
  | nil => exact fun _ => flatMap_kept _ _
  | cons span rest ih =>
    rintro ⟨hstart, -, hrest⟩
    rw [List.forall_mem_cons] at htext
    rw [pieces, List.flatMap_append, flatMap_kept, List.flatMap_cons, ih htext.2 hrest]
    have hspan : Piece.items text (.replaced span : Piece β ι) =
        (items.drop (start span)).take (size span) := htext.1
    rw [hspan, ← List.drop_drop, List.take_append_drop]
    have hnext : items.drop (start span) = (items.drop cursor).drop (start span - cursor) := by
      rw [List.drop_drop, Nat.add_sub_cancel' hstart]
    rw [hnext, List.take_append_drop]

theorem removed_of_le (h : InOrder start size limit cursor spans) (hle : offset ≤ cursor) :
    removed start saved spans offset = 0 := by
  have hnone : spans.filter (start · < offset) = [] := by
    refine List.filter_eq_nil_iff.mpr fun span hspan => ?_
    have hstart := h.le_start hspan
    simp only [decide_eq_true_eq]
    omega
  rw [removed, hnone]
  rfl

theorem removed_cons (span : ι) (spans : List ι) (offset : Nat) :
    removed start saved (span :: spans) offset =
      (if start span < offset then saved span else 0) + removed start saved spans offset := by
  by_cases h : start span < offset
  · simp [removed, h]
  · simp [removed, h]

/-- The number of items in front of the first span. -/
theorem length_front (horder : InOrder start size items.length cursor (span :: spans)) :
    (((items.drop cursor).take (start span - cursor)).map (Piece.kept (ι := ι))).length =
      start span - cursor := by
  have hlimit := horder.2.2.le_limit
  rw [List.length_map, List.length_take, List.length_drop]
  omega

theorem position_front {newSize : ι → Nat} {k : Nat}
    (horder : InOrder start size items.length cursor (span :: spans))
    (h : k ≤ start span - cursor) :
    position newSize (pieces start size items cursor (span :: spans)) k = k := by
  have hfront := h.trans_eq (length_front horder).symm
  rw [pieces, position_append_left hfront]
  exact position_kept _ (hfront.trans_eq (List.length_map _))

theorem position_rest {newSize : ι → Nat} (j : Nat)
    (horder : InOrder start size items.length cursor (span :: spans)) :
    position newSize (pieces start size items cursor (span :: spans))
        (start span - cursor + (j + 1)) =
      start span - cursor + newSize span +
        position newSize (pieces start size items (start span + size span) spans) j := by
  have hlen := length_front horder
  have happend := position_append_right newSize
    (((items.drop cursor).take (start span - cursor)).map (.kept (ι := ι)))
    (.replaced span :: pieces start size items (start span + size span) spans) (j + 1)
  rw [hlen, position_kept _ (hlen.symm.trans (List.length_map _)).le,
    position_cons] at happend
  rw [pieces, happend, Nat.add_assoc]
  rfl

/-- **A piece moves by what the spans before it lose.** -/
theorem position_add_removed {newSize : ι → Nat}
    (horder : InOrder start size items.length cursor spans)
    (hsaved : ∀ span ∈ spans, newSize span + saved span = size span)
    (hk : k ≤ (pieces start size items cursor spans).length) :
    position newSize (pieces start size items cursor spans) k + removed start saved spans
          (cursor + position size (pieces start size items cursor spans) k) =
      position size (pieces start size items cursor spans) k := by
  induction spans generalizing cursor k with
  | nil =>
    rw [pieces, List.length_map] at hk
    rw [pieces, position_kept _ hk, position_kept _ hk]
    rfl
  | cons span rest ih =>
    obtain ⟨hstart, hsize, hrest⟩ := horder
    have hall := List.forall_mem_cons.mp hsaved
    have horder : InOrder start size items.length cursor (span :: rest) := ⟨hstart, hsize, hrest⟩
    rcases Nat.lt_or_ge (start span - cursor) k with hafter | hbefore
    · obtain ⟨j, rfl⟩ : ∃ j, k = start span - cursor + (j + 1) :=
        ⟨k - (start span - cursor) - 1, by omega⟩
      have hj : j ≤ (pieces start size items (start span + size span) rest).length := by
        rw [pieces, List.length_append, length_front horder, List.length_cons] at hk
        omega
      have hmoved := ih hrest hall.2 hj
      have hoff : cursor + (start span - cursor + size span +
          position size (pieces start size items (start span + size span) rest) j) =
          start span + size span +
            position size (pieces start size items (start span + size span) rest) j := by omega
      rw [position_rest j horder, position_rest j horder, hoff, removed_cons, if_pos (by omega)]
      omega
    · -- among the items in front of the span
      have hspans : InOrder start size items.length (start span) (span :: rest) :=
        ⟨le_rfl, hsize, hrest⟩
      rw [position_front horder hbefore, position_front horder hbefore,
        removed_of_le hspans (by omega), Nat.add_zero]

/-! ## Offsets -/

theorem length_pieces (horder : InOrder start size items.length cursor (span :: spans)) :
    (pieces start size items cursor (span :: spans)).length = start span - cursor +
        ((pieces start size items (start span + size span) spans).length + 1) := by
  rw [pieces, List.length_append, length_front horder, List.length_cons]

section

variable (horder : InOrder start size items.length cursor spans)

include horder

/-- **An offset that is not inside a span is the start of a piece.** -/
theorem exists_position (hcur : cursor ≤ offset) (hlimit : offset ≤ items.length)
    (hbound : Boundary start size spans offset) :
    ∃ k ≤ (pieces start size items cursor spans).length,
      cursor + position size (pieces start size items cursor spans) k = offset := by
  induction spans generalizing cursor with
  | nil =>
    have hlen : (items.drop cursor).length = items.length - cursor := List.length_drop
    refine ⟨offset - cursor, ?_, ?_⟩
    · rw [pieces, List.length_map]
      omega
    · rw [pieces, position_kept _ (by omega)]
      omega
  | cons span rest ih =>
    have hall := List.forall_mem_cons.mp hbound
    rcases hall.1 with hbefore | hafter
    · refine ⟨offset - cursor, ?_, ?_⟩
      · rw [length_pieces horder]
        omega
      · rw [position_front horder (by omega)]
        omega
    · obtain ⟨j, hj, hoff⟩ := ih horder.2.2 hafter hall.2
      have hstart := horder.1
      refine ⟨start span - cursor + (j + 1), ?_, ?_⟩
      · rw [length_pieces horder]
        omega
      · rw [position_rest j horder]
        omega

/-- The piece that a span is. -/
theorem exists_replaced {span : ι} (hmem : span ∈ spans) :
    ∃ k, (pieces start size items cursor spans)[k]? = some (.replaced span) ∧
      cursor + position size (pieces start size items cursor spans) k = start span := by
  induction spans generalizing cursor with
  | nil => nomatch hmem
  | cons first rest ih =>
    have hstart := horder.1
    rcases List.mem_cons.mp hmem with rfl | hmem
    · refine ⟨start span - cursor, ?_, ?_⟩
      · rw [pieces, List.getElem?_append_right (length_front horder).le, length_front horder,
          Nat.sub_self]
        rfl
      · rw [position_front horder le_rfl]
        omega
    · obtain ⟨j, hj, hoff⟩ := ih horder.2.2 hmem
      refine ⟨start first - cursor + (j + 1), ?_, ?_⟩
      · rw [pieces, List.getElem?_append_right (by rw [length_front horder]; omega),
          length_front horder, Nat.add_sub_cancel_left]
        exact hj
      · rw [position_rest j horder]
        omega

/-- A span that is a piece begins where the span does. -/
theorem position_replaced {span : ι}
    (h : (pieces start size items cursor spans)[k]? = some (.replaced span)) :
    cursor + position size (pieces start size items cursor spans) k = start span := by
  induction spans generalizing cursor k with
  | nil =>
    obtain ⟨_, _, heq⟩ := List.mem_map.mp (List.mem_of_getElem? h)
    nomatch heq
  | cons first rest ih =>
    have hstart := horder.1
    rcases Nat.lt_trichotomy k (start first - cursor) with hbefore | rfl | hafter
    · rw [pieces, List.getElem?_append_left (hbefore.trans_eq (length_front horder).symm)] at h
      obtain ⟨_, _, heq⟩ := List.mem_map.mp (List.mem_of_getElem? h)
      nomatch heq
    · rw [pieces, List.getElem?_append_right (length_front horder).le, length_front horder,
        Nat.sub_self] at h
      obtain rfl := Piece.replaced.inj (Option.some.inj h)
      rw [position_front horder le_rfl]
      omega
    · obtain ⟨j, rfl⟩ : ∃ j, k = start first - cursor + (j + 1) :=
        ⟨k - (start first - cursor) - 1, by omega⟩
      rw [pieces, List.getElem?_append_right (by rw [length_front horder]; omega),
        length_front horder, Nat.add_sub_cancel_left] at h
      have hrest := ih horder.2.2 (k := j) h
      rw [position_rest j horder]
      omega

end

/-- The spans among the pieces are those that are rewritten. -/
theorem mem_of_replaced {span : ι}
    (h : (pieces start size items cursor spans)[k]? = some (.replaced span)) : span ∈ spans := by
  have hmem := List.mem_of_getElem? h
  clear h
  induction spans generalizing cursor with
  | nil =>
    obtain ⟨_, _, heq⟩ := List.mem_map.mp hmem
    nomatch heq
  | cons first rest ih =>
    rw [pieces, List.mem_append, List.mem_cons] at hmem
    rcases hmem with hmem | heq | hmem
    · obtain ⟨_, _, heq⟩ := List.mem_map.mp hmem
      nomatch heq
    · exact Piece.replaced.inj heq ▸ List.mem_cons_self
    · exact List.mem_cons_of_mem _ (ih hmem)

section

variable (horder : InOrder start size items.length cursor spans)

include horder

/-- Pieces in another order have starts in that order. -/
theorem position_lt {j k : Nat} (hjk : j < k)
    (hk : k ≤ (pieces start size items cursor spans).length) :
    position size (pieces start size items cursor spans) j <
      position size (pieces start size items cursor spans) k := by
  have hpiece : (pieces start size items cursor spans)[j]? =
      some ((pieces start size items cursor spans).get ⟨j, by omega⟩) :=
    List.getElem?_eq_getElem _
  have hwidth : 0 < ((pieces start size items cursor spans).get ⟨j, by omega⟩).width size := by
    cases hcase : (pieces start size items cursor spans).get ⟨j, by omega⟩ with
    | kept => exact Nat.one_pos
    | replaced span => exact horder.size_pos (mem_of_replaced (hcase ▸ hpiece))
  have hstep := position_succ size hpiece
  have hle := position_mono size (pieces start size items cursor spans) (Nat.succ_le_of_lt hjk)
  rw [Nat.succ_eq_add_one] at hle
  omega

/-- The piece at an offset outside the spans is an item. -/
theorem kept_at (hlimit : offset < items.length)
    (houtside : ∀ span ∈ spans, offset < start span ∨ start span + size span ≤ offset)
    (hk : cursor + position size (pieces start size items cursor spans) k = offset) :
    ∃ item, (pieces start size items cursor spans)[k]? = some (.kept item) := by
  obtain ⟨last, hlast, hend⟩ := exists_position horder horder.le_limit le_rfl
    fun span hspan => .inr (horder.end_le hspan)
  have hlt : k < last := Nat.lt_of_not_le fun hle => by
    have hmono := position_mono size (pieces start size items cursor spans) hle
    omega
  have hpiece : (pieces start size items cursor spans)[k]? =
      some ((pieces start size items cursor spans).get ⟨k, by omega⟩) := List.getElem?_eq_getElem _
  cases hcase : (pieces start size items cursor spans).get ⟨k, by omega⟩ with
  | kept item => exact ⟨item, hcase ▸ hpiece⟩
  | replaced span =>
    rw [hcase] at hpiece
    have hstart := position_replaced horder hpiece
    have hmem := mem_of_replaced hpiece
    have hsize := horder.size_pos hmem
    have hspan := houtside span hmem
    omega

/-- What is apart from the spans is kept, item by item. -/
theorem kept_of_apart {width : Nat} (hlimit : offset + width ≤ items.length)
    (hapart : ∀ span ∈ spans, offset + width ≤ start span ∨ start span + size span ≤ offset)
    (hk : cursor + position size (pieces start size items cursor spans) k = offset) {i : Nat}
    (hi : i < width) :
    ∃ item, (pieces start size items cursor spans)[k + i]? = some (.kept item) := by
  have hpos : ∀ i < width,
      cursor + position size (pieces start size items cursor spans) (k + i) = offset + i → ∃ item,
        (pieces start size items cursor spans)[k + i]? = some (.kept item) := fun i hi hpos =>
    kept_at horder (by omega) (fun span hspan => by have := hapart span hspan; omega) hpos
  refine hpos i hi ?_
  induction i with
  | zero => exact hk
  | succ i ih =>
    obtain ⟨item, hitem⟩ := hpos i (by omega) (ih (by omega))
    rw [← Nat.add_assoc, position_succ size hitem]
    have hwidth : (.kept item : Piece β ι).width size = 1 := rfl
    omega

end

/-- **The more the spans lose, the closer two offsets come.** -/
theorem removed_mono {saved' : ι → Nat} {spans' : List ι}
    (h : List.Forall₂ (fun a b => start a = start b ∧ saved a ≤ saved' b) spans spans')
    {first second : Nat} (hle : first ≤ second) :
    removed start saved spans second + removed start saved' spans' first ≤
      removed start saved' spans' second + removed start saved spans first := by
  induction h with
  | nil => exact le_rfl
  | @cons a b _ _ hab _ ih =>
    obtain ⟨hstart, hsaved⟩ := hab
    simp only [removed_cons, ← hstart]
    split <;> split <;> omega

end

end Relayout
