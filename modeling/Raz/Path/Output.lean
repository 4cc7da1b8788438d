import Mathlib.Data.List.Induction
import Mathlib.Data.List.TakeWhile
import Raz.Path.Normal

/-!
# The output of normalizing as a stack

The output is a root and components between separators. Its last component is looked at and taken
back from the end, and a component is added behind it over bytes that have been read, so that the
output may be written over the path.

Result: `appendComponent_eq`: a component is added, and the rest of the path stays.
-/

namespace Raz.Path

open Memory LexicalPath List

/-! ## Reading -/

theorem bytes_eq {memory : Bytes} {data : Nat} : ∀ {text : List UInt8}, Stands memory data text →
    (text = [] ∨ data ≠ 0) → bytes memory ⟨data, text.length⟩ = text := by
  intro text h hdata
  unfold bytes
  obtain rfl | hdata := hdata
  · split <;> rfl
  rw [if_neg hdata]
  refine ext_getElem (by rw [length_map, List.length_range]) fun index hleft hright => ?_
  rw [getElem_map, List.getElem_range, h.at hright]

theorem passOver_eq {test : UInt8 → Bool} {memory : Bytes} {path : PathView} {rest : List UInt8} :
    ∀ {read : Nat}, Stands memory (path.data + read) rest →
      passOver test memory path rest.length read = read + (rest.takeWhile test).length := by
  induction rest with
  | nil => exact fun {read} _ => rfl
  | cons byte rest ih =>
    intro read h
    rw [length_cons, passOver, h.1]
    by_cases hbyte : test byte
    · rw [if_pos hbyte, takeWhile_cons_of_pos hbyte, length_cons, ih h.2, Nat.add_assoc,
        Nat.add_comm 1]
    · rw [if_neg hbyte, takeWhile_cons_of_neg hbyte]
      rfl

theorem goBack_eq {test : UInt8 → Bool} {memory : Bytes} {output root : Nat}
    {front back : List UInt8} (h : Stands memory output (front ++ back))
    (hback : ∀ byte ∈ back, test byte) (hroot : root ≤ front.length)
    (hfront : front.length = root ∨ ∀ byte ∈ front.getLast?, test byte = false) :
    goBack test memory output root (front ++ back).length = front.length := by
  induction back using List.reverseRecOn with
  | nil =>
    rw [append_nil] at h ⊢
    cases hlen : front.length with
    | zero => rfl
    | succ stop =>
      rw [goBack]
      refine if_neg ?_
      rintro ⟨hbeyond, htest⟩
      obtain hend | hlast := hfront
      · omega
      have hlt : stop < front.length := by omega
      have hbyte := hlast front[stop] (by
        rw [List.getLast?_eq_getElem?, hlen, Nat.add_sub_cancel, List.getElem?_eq_getElem hlt]
        rfl)
      rw [h.at hlt, hbyte] at htest
      nomatch htest
  | append_singleton back byte ih =>
    obtain ⟨hrest, hbyte⟩ := forall_mem_append.mp hback
    rw [← append_assoc] at h ⊢
    obtain ⟨hbefore, hlast⟩ := Stands.append_iff.mp h
    have hlen : (front ++ back ++ [byte]).length = (front ++ back).length + 1 := length_append
    have htest : test (memory (output + (front ++ back).length)) := by
      rw [hlast.1]
      exact hbyte byte (mem_singleton_self _)
    have hgo : (front ++ back).length + 1 > root ∧
        test (memory (output + (front ++ back).length)) := by
      refine ⟨?_, htest⟩
      rw [length_append]
      omega
    rw [hlen, goBack, if_pos hgo, ih hbefore hrest]

theorem dots_eq {memory : Bytes} {address : Nat} {part : List UInt8}
    (h : Stands memory address part) :
    (decide (part.length = 2) && decide (memory address = 46) &&
      decide (memory (address + 1) = 46)) = decide (part = [46, 46]) := by
  match part, h with
  | [], _ => rfl
  | [_], _ =>
    symm
    exact decide_eq_false nofun
  | [first, second], h =>
    rw [h.1, h.2.1, Bool.eq_iff_iff]
    simp
  | _ :: _ :: _ :: _, _ =>
    symm
    exact decide_eq_false nofun

/-! ## The output as a stack -/

/-- What stands before a component that is added. -/
def before (parts : List (List UInt8)) : List UInt8 :=
  if parts = [] then [] else joined parts ++ [47]

theorem joined_concat (parts : List (List UInt8)) (last : List UInt8) :
    joined (parts ++ [last]) = before parts ++ last := by
  induction parts with
  | nil =>
    unfold joined before
    rw [nil_append, intercalate_singleton, if_pos rfl, nil_append]
  | cons part parts ih =>
    cases parts with
    | nil =>
      rw [singleton_append, joined_cons_cons]
      unfold joined before
      rw [intercalate_singleton, if_neg (cons_ne_nil _ _)]
      unfold joined
      rw [intercalate_singleton, append_assoc]
      rfl
    | cons next parts =>
      rw [cons_append, cons_append, joined_cons_cons, ← cons_append, ih]
      unfold before
      rw [if_neg (cons_ne_nil _ _), if_neg (cons_ne_nil _ _), joined_cons_cons]
      simp

theorem joined_le {parts : List (List UInt8)} {last : List UInt8} :
    (joined parts).length ≤ (joined (parts ++ [last])).length := by
  rw [joined_concat, length_append]
  unfold before
  by_cases hempty : parts = []
  · rw [hempty]
    exact Nat.zero_le _
  · rw [if_neg hempty, length_append]
    omega

section

variable {memory : Bytes} {output : Nat} {head : List UInt8} {parts : List (List UInt8)}
  {last : List UInt8}

theorem IsComponent.no_slash (h : IsComponent last) : ∀ byte ∈ last, byte ≠ 47 := by
  rintro byte hbyte rfl
  exact absurd (h.2 47 hbyte) (by decide)

section

variable (h : Stands memory output (head ++ joined (parts ++ [last]))) (hlast : IsComponent last)

include h hlast

theorem goBack_component :
    goBack (· ≠ 47) memory output head.length (head ++ joined (parts ++ [last])).length =
      (head ++ before parts).length := by
  rw [joined_concat, ← append_assoc] at h ⊢
  refine goBack_eq h (fun byte hbyte => decide_eq_true (hlast.no_slash byte hbyte)) ?_ ?_
  · rw [length_append]
    exact Nat.le_add_right _ _
  by_cases hempty : parts = []
  · refine .inl ?_
    unfold before
    rw [if_pos hempty, append_nil]
  refine .inr fun byte hbyte => ?_
  unfold before at hbyte
  rw [if_neg hempty, ← append_assoc, List.getLast?_concat] at hbyte
  cases hbyte
  rfl

theorem outputEndsDotDot_eq :
    outputEndsDotDot memory output head.length (head ++ joined (parts ++ [last])).length =
      decide (last = [46, 46]) := by
  have hback := goBack_component h hlast
  have hlen : (head ++ joined (parts ++ [last])).length =
      (head ++ before parts).length + last.length := by
    rw [joined_concat, ← append_assoc, length_append]
  have hstands : Stands memory (output + (head ++ before parts).length) last := by
    rw [joined_concat, ← append_assoc] at h
    exact (Stands.append_iff.mp h).2
  have hroot : head.length ≤ (head ++ before parts).length := by
    rw [length_append]
    exact Nat.le_add_right _ _
  have hdots := dots_eq hstands
  unfold outputEndsDotDot
  dsimp only
  rw [hback, hlen, Nat.add_sub_cancel_left]
  by_cases hshort : (head ++ before parts).length + last.length - head.length < 2
  · rw [if_pos hshort]
    symm
    refine decide_eq_false ?_
    rintro rfl
    rw [length_cons, length_singleton] at hshort
    omega
  · rw [if_neg hshort]
    exact hdots

theorem popOutputComponent_eq :
    popOutputComponent memory output head.length (head ++ joined (parts ++ [last])).length =
      (head ++ joined parts).length := by
  have hback := goBack_component h hlast
  have hpos := length_pos_iff.mpr hlast.1
  have hlen : (head ++ joined (parts ++ [last])).length =
      (head ++ before parts).length + last.length := by
    rw [joined_concat, ← append_assoc, length_append]
  have hroot : head.length ≤ (head ++ before parts).length := by
    rw [length_append]
    exact Nat.le_add_right _ _
  -- the last byte is no separator
  have hstay : goBack (· = 47) memory output head.length
      (head ++ joined (parts ++ [last])).length = (head ++ joined (parts ++ [last])).length := by
    have hstands := h
    rw [← append_nil (head ++ joined (parts ++ [last]))] at hstands
    have hgo := @goBack_eq (· = 47) memory output head.length _ [] hstands (forall_mem_nil _)
      (by omega) (.inr fun byte hbyte => ?_)
    · rwa [append_nil] at hgo
    rw [joined_concat, ← append_assoc, List.getLast?_append,
      List.getLast?_eq_some_getLast hlast.1, Option.some_or,
      ← List.getLast?_eq_some_getLast hlast.1] at hbyte
    exact decide_eq_false (hlast.no_slash byte (mem_of_getLast? hbyte))
  unfold popOutputComponent
  dsimp only
  rw [if_neg (by omega), hstay, hback]
  by_cases hempty : parts = []
  · subst hempty
    have hfront : (head ++ before []).length = head.length := by
      unfold before
      rw [if_pos rfl, append_nil]
    have hstop : ¬ (head.length > head.length ∧ memory (output + head.length - 1) = 47) :=
      fun hbeyond => Nat.lt_irrefl _ hbeyond.1
    rw [hfront, if_neg hstop, if_neg (Nat.lt_irrefl _)]
    exact hfront.symm
  · have hfront : head ++ before parts = head ++ joined parts ++ [47] := by
      unfold before
      rw [if_neg hempty, append_assoc]
    have hslash : memory (output + (head ++ joined parts).length) = 47 := by
      rw [joined_concat, ← append_assoc, hfront, append_assoc (head ++ joined parts)] at h
      exact (Stands.append_iff.mp h).2.1
    have hcount : (head ++ before parts).length = (head ++ joined parts).length + 1 := by
      rw [hfront, length_append, length_singleton]
    have hbeyond : head.length ≤ (head ++ joined parts).length := by
      rw [length_append]
      exact Nat.le_add_right _ _
    have hlast : (head ++ joined parts).length + 1 > head.length ∧
        memory (output + ((head ++ joined parts).length + 1) - 1) = 47 := by
      refine ⟨by omega, ?_⟩
      rwa [← Nat.add_assoc, Nat.add_sub_cancel]
    rw [hcount, if_pos hlast, Nat.add_sub_cancel, if_neg (Nat.not_lt.mpr hbeyond)]

end

theorem stands_last {text : List UInt8} {byte : UInt8} (h : Stands memory output text)
    (hbyte : text.getLast? = some byte) : memory (output + text.length - 1) = byte := by
  obtain ⟨front, rfl⟩ := List.getLast?_eq_some_iff.mp hbyte
  have hlast := (Stands.append_iff.mp h).2.1
  rwa [length_append, length_singleton, ← Nat.add_assoc, Nat.add_sub_cancel]

theorem needsSeparator_eq (h : Stands memory output (head ++ joined parts))
    (hhead : ∀ byte ∈ head.getLast?, byte = 47) (hparts : ∀ part ∈ parts, IsComponent part) :
    (decide ((head ++ joined parts).length > 0) &&
      decide (memory (output + (head ++ joined parts).length - 1) ≠ 47)) = decide (parts ≠ []) := by
  by_cases hempty : parts = []
  · subst hempty
    have hnil : head ++ joined [] = head := append_nil head
    rw [hnil] at h ⊢
    cases hlast : head.getLast? with
    | none =>
      rw [List.getLast?_eq_none_iff.mp hlast]
      rfl
    | some byte =>
      obtain rfl := hhead byte hlast
      rw [stands_last h hlast]
      exact Bool.and_false _
  · obtain ⟨init, last, rfl⟩ : ∃ init last, parts = init ++ [last] :=
      ⟨parts.dropLast, parts.getLast hempty, (dropLast_concat_getLast hempty).symm⟩
    have hlast := hparts last (mem_append_right _ (mem_singleton_self _))
    have hend : (head ++ joined (init ++ [last])).getLast? = some (last.getLast hlast.1) := by
      rw [joined_concat, ← append_assoc, List.getLast?_append,
        List.getLast?_eq_some_getLast hlast.1, Option.some_or]
    have hpos : (head ++ joined (init ++ [last])).length > 0 :=
      length_pos_of_mem (mem_of_getLast? hend)
    rw [stands_last h hend, decide_eq_true hpos, decide_eq_true hempty,
      decide_eq_true (hlast.no_slash _ (getLast_mem hlast.1))]
    rfl

end

/-! ## Adding a component -/

/-- The output is the path itself, or apart from it. -/
def Placed (data length output capacity : Nat) : Prop :=
  output = data ∨ output + capacity ≤ data ∨ data + length ≤ output

section

variable {memory : Bytes} {data length output capacity start : Nat} {head : List UInt8}
  {parts : List (List UInt8)} {component after : List UInt8}

/-- **A component is added** over bytes that have been read, and the rest of the path stays. -/
theorem appendComponent_eq (hplaced : Placed data length output capacity)
    (hout : Stands memory output (head ++ joined parts))
    (hhead : ∀ byte ∈ head.getLast?, byte = 47) (hparts : ∀ part ∈ parts, IsComponent part)
    (hrest : Stands memory (data + start) (component ++ after))
    (hend : start + (component ++ after).length = length) (hfit : length ≤ capacity)
    (hroom : (head ++ before parts).length ≤ start) :
    ∃ memory', appendComponent memory output capacity (head ++ joined parts).length ⟨data, length⟩
        start component.length = some ((head ++ joined (parts ++ [component])).length, memory') ∧
      Stands memory' output (head ++ joined (parts ++ [component])) ∧
      Stands memory' (data + (start + component.length)) after ∧
      Frame output (start + component.length) memory memory' := by
  rw [length_append] at hend
  -- the separator, if there is one
  obtain ⟨memory₁, hfirst, hout₁, hrest₁, hframe₁⟩ : ∃ memory₁,
      memory₁ = (if decide (parts ≠ []) = true then
        store memory (output + (head ++ joined parts).length) 47 else memory) ∧
      Stands memory₁ output (head ++ before parts) ∧
      Stands memory₁ (data + start) (component ++ after) ∧ Frame output start memory memory₁ := by
    refine ⟨_, rfl, ?_⟩
    by_cases hempty : parts = []
    · rw [if_neg (by rw [decide_eq_true_iff]; exact not_not_intro hempty)]
      unfold before
      rw [if_pos hempty, append_nil]
      exact ⟨(Stands.append_iff.mp hout).1, hrest, frame_refl _ _ _⟩
    · have hsome : head ++ before parts = head ++ joined parts ++ [47] := by
        unfold before
        rw [if_neg hempty, append_assoc]
      rw [if_pos (decide_eq_true hempty)]
      rw [hsome, length_append, length_singleton] at hroom
      have hframe : Frame (output + (head ++ joined parts).length) 1 memory
          (store memory (output + (head ++ joined parts).length) 47) := frame_store _ _
      refine ⟨?_, hrest.frame hframe ?_, hframe.widen (Nat.le_add_right _ _) (by omega)⟩
      · rw [hsome]
        exact Stands.append_iff.mpr ⟨hout.frame hframe (.inl le_rfl), stands_store _ _⟩
      · rw [length_append]
        unfold Placed at hplaced
        omega
  have hcount : (head ++ joined (parts ++ [component])).length =
      (head ++ before parts).length + component.length := by
    rw [joined_concat, ← append_assoc, length_append]
  have hwrote : (if decide (parts ≠ []) = true then (head ++ joined parts).length + 1
      else (head ++ joined parts).length) = (head ++ before parts).length := by
    unfold before
    by_cases hempty : parts = []
    · subst hempty
      rfl
    · have hslash : (head ++ joined parts ++ [47]).length = (head ++ joined parts).length + 1 :=
        length_append
      rw [if_pos (decide_eq_true hempty), if_neg hempty, ← append_assoc, hslash]
  have hapart : output + (head ++ before parts).length ≤ data + start ∨
      data + start + component.length ≤ output + (head ++ before parts).length := by
    unfold Placed at hplaced
    omega
  have hcopied := stands_copyUp (Stands.append_iff.mp hrest₁).1 hapart
  have hframe₂ := @frame_copyUp _ component.length memory₁
    (output + (head ++ before parts).length) (data + start)
  refine ⟨copyUp memory₁ (output + (head ++ before parts).length) (data + start) component.length,
    ?_, ?_, ?_, ?_⟩
  · unfold appendComponent
    dsimp only
    rw [needsSeparator_eq hout hhead hparts, hwrote, ← hfirst, hcount]
    refine if_neg ?_
    by_cases hempty : parts = []
    · rw [if_neg (by rw [decide_eq_true_iff]; exact not_not_intro hempty)] at hwrote ⊢
      omega
    · rw [if_pos (decide_eq_true hempty)] at hwrote ⊢
      omega
  · rw [joined_concat, ← append_assoc]
    exact Stands.append_iff.mpr ⟨hout₁.frame hframe₂ (.inl le_rfl), hcopied⟩
  · rw [← Nat.add_assoc]
    refine (Stands.append_iff.mp hrest₁).2.frame hframe₂ ?_
    unfold Placed at hplaced
    omega
  · exact (hframe₁.widen le_rfl (by omega)).trans
      (hframe₂.widen (Nat.le_add_right _ _) (by omega))

end

end Raz.Path
