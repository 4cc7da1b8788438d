import Raz.Path.Output

/-!
# Normalizing in memory

The main loop keeps the place that has been reached in the output, which never goes beyond what has
been read.

Result: `normalizes_iff`: normalizing is right if and only if no relative path turns into one with a
drive.
-/

namespace Raz.Path

open Memory LexicalPath List

/-! ## The main loop -/

section

variable {memory : Bytes} {data length output capacity start : Nat} {head : List UInt8}
  {parts : List (List UInt8)} {component after : List UInt8}

theorem byteAt_eq {rest : List UInt8} {index : Nat} (hdata : data ≠ 0)
    (h : Stands memory (data + start) rest) (hlt : index < rest.length)
    (hend : start + rest.length = length) :
    byteAt memory ⟨data, length⟩ (start + index) = some rest[index] := by
  have hinside : ¬ (start + index ≥ length ∨ data = 0) := by omega
  unfold byteAt
  rw [if_neg hinside, ← h.at hlt, Nat.add_assoc]

theorem segmentIsDot_eq (hdata : data ≠ 0) (h : Stands memory (data + start) (component ++ after))
    (hend : start + (component ++ after).length = length) :
    segmentIsDot memory ⟨data, length⟩ start component.length = decide (component = [46]) := by
  unfold segmentIsDot
  match component, h, hend with
  | [], _, _ => rfl
  | [byte], h, hend =>
    have hbyte := byteAt_eq hdata h (Nat.succ_pos _) hend
    rw [Nat.add_zero] at hbyte
    rw [hbyte, Bool.eq_iff_iff]
    simp
  | _ :: _ :: _, _, _ =>
    symm
    exact decide_eq_false nofun

theorem segmentIsDotDot_eq (hdata : data ≠ 0)
    (h : Stands memory (data + start) (component ++ after))
    (hend : start + (component ++ after).length = length) :
    segmentIsDotDot memory ⟨data, length⟩ start component.length =
      decide (component = [46, 46]) := by
  unfold segmentIsDotDot
  match component, h, hend with
  | [], _, _ => rfl
  | [_], _, _ =>
    symm
    exact decide_eq_false nofun
  | [first, second], h, hend =>
    have hfirst := byteAt_eq hdata h (Nat.succ_pos _) hend
    have hsecond := byteAt_eq hdata h (Nat.succ_lt_succ (Nat.succ_pos _)) hend
    rw [Nat.add_zero] at hfirst
    rw [hfirst, hsecond, Bool.eq_iff_iff]
    simp
  | _ :: _ :: _ :: _, _, _ =>
    symm
    exact decide_eq_false nofun

/-- The place that has been reached stands in the output, and the rest of the path behind what has
been read; a component ends where the rest begins. -/
structure Reached (head : List UInt8) (data output : Nat) (memory : Bytes) (read : Nat)
    (rest : List UInt8) (place : Place (List UInt8)) : Prop where
  output : Stands memory output (head ++ joined (partsOf place))
  unread : Stands memory (data + read) rest
  room : (head ++ joined (partsOf place)).length ≤ read
  ended : partsOf place ≠ [] → ∀ byte ∈ rest.head?, isSeparator byte
  names : ∀ name ∈ place.names, IsName name
  rooted : head ≠ [] → place.ups = 0

theorem Reached.pass {read : Nat} {rest : List UInt8} {place : Place (List UInt8)}
    (h : Reached head data output memory read rest place)
    (hunread : Stands memory (data + start) (component ++ after)) (hread : read ≤ start)
    (hafter : ∀ byte ∈ after.head?, isSeparator byte) :
    Reached head data output memory (start + component.length) after place := by
  refine ⟨h.output, ?_, ?_, fun _ => hafter, h.names, h.rooted⟩
  · rw [← Nat.add_assoc]
    exact (Stands.append_iff.mp hunread).2
  · have := h.room
    omega

theorem partsOf_pop {ups : Nat} {names : List (List UInt8)} (h : names ≠ []) :
    partsOf ⟨ups, names⟩ = partsOf ⟨ups, names.dropLast⟩ ++ [names.getLast h] := by
  unfold partsOf
  rw [append_assoc, dropLast_concat_getLast]

theorem partsOf_up (ups : Nat) :
    partsOf (⟨ups + 1, []⟩ : Place (List UInt8)) = partsOf ⟨ups, []⟩ ++ [[46, 46]] := by
  unfold partsOf
  rw [replicate_succ', append_nil, append_nil]

theorem stands_before (h : Stands memory output (head ++ joined (parts ++ [component]))) :
    Stands memory output (head ++ joined parts) := by
  rw [joined_concat, ← append_assoc] at h
  have hbefore := (Stands.append_iff.mp h).1
  unfold before at hbefore
  by_cases hempty : parts = []
  · rw [if_pos hempty] at hbefore
    subst hempty
    exact hbefore
  · rw [if_neg hempty, ← append_assoc] at hbefore
    exact (Stands.append_iff.mp hbefore).1

/-- The output has a component behind its root if there is a part. -/
theorem written_gt (hparts : ∀ part ∈ parts, IsComponent part) :
    (head ++ joined parts).length > head.length ↔ parts ≠ [] := by
  rw [length_append]
  constructor
  · rintro hlt rfl
    exact Nat.lt_irrefl _ hlt
  · intro hne
    exact Nat.lt_add_of_pos_right (length_pos_iff.mpr (joined_ne_nil hparts hne))

/-- **One component**: the place moves as it says, and the output with it. -/
theorem takeComponent_eq {read : Nat} {rest : List UInt8} {place : Place (List UInt8)}
    (hplaced : Placed data length output capacity) (hfit : length ≤ capacity) (hdata : data ≠ 0)
    (hhead : ∀ byte ∈ head.getLast?, byte = 47) (hcomp : IsComponent component)
    (hafter : ∀ byte ∈ after.head?, isSeparator byte)
    (h : Reached head data output memory read rest place)
    (hunread : Stands memory (data + start) (component ++ after))
    (hend : start + (component ++ after).length = length) (hread : read ≤ start)
    (hgap : partsOf place ≠ [] → read < start) :
    ∃ memory' place', place' = place.move (decide (0 < head.length)) (moveOf component) ∧
      Reached head data output memory' (start + component.length) after place' ∧
      Frame output length memory memory' ∧
      takeComponent memory ⟨data, length⟩ output capacity head.length
        (head ++ joined (partsOf place)).length start component.length =
          some ((head ++ joined (partsOf place')).length, memory') := by
  obtain ⟨ups, names⟩ := place
  have hparts := partsOf_components h.names
  have hroom : (head ++ before (partsOf ⟨ups, names⟩)).length ≤ start := by
    have hroom := h.room
    unfold before
    split
    · rename_i hempty
      rw [hempty] at hroom
      exact Nat.le_trans hroom hread
    rename_i hne
    have hslash : (head ++ joined (partsOf ⟨ups, names⟩) ++ [47]).length =
      (head ++ joined (partsOf ⟨ups, names⟩)).length + 1 := length_append
    rw [← append_assoc, hslash]
    have := hgap hne
    omega
  have hbeyond : start + component.length ≤ length := by
    rw [length_append] at hend
    omega
  have hadded := appendComponent_eq hplaced h.output hhead hparts hunread hend hfit hroom
  -- a component that is added
  have hadd {place' : Place (List UInt8)}
      (hparts' : partsOf place' = partsOf ⟨ups, names⟩ ++ [component])
      (hnames' : ∀ name ∈ place'.names, IsName name) (hrooted' : head ≠ [] → place'.ups = 0) :
      ∃ memory', Reached head data output memory' (start + component.length) after place' ∧
        Frame output length memory memory' ∧
        appendComponent memory output capacity (head ++ joined (partsOf ⟨ups, names⟩)).length
          ⟨data, length⟩ start component.length =
            some ((head ++ joined (partsOf place')).length, memory') := by
    obtain ⟨memory', happend, hout', hunread', hframe⟩ := hadded
    rw [← hparts'] at happend hout'
    refine ⟨memory', ⟨hout', hunread', ?_, fun _ => hafter, hnames', hrooted'⟩,
      hframe.widen le_rfl (by omega), happend⟩
    rw [hparts', joined_concat, ← append_assoc, length_append]
    exact Nat.add_le_add_right hroom _
  unfold takeComponent
  rw [segmentIsDot_eq hdata hunread hend, segmentIsDotDot_eq hdata hunread hend]
  by_cases hdot : component = [46]
  · have hstay : moveOf component = .stay := if_pos hdot
    rw [if_pos (decide_eq_true hdot), hstay]
    exact ⟨memory, _, rfl, h.pass hunread hread hafter, frame_refl _ _ _, rfl⟩
  rw [if_neg (fun heq => hdot (of_decide_eq_true heq))]
  by_cases hdots : component = [46, 46]
  · have hup : moveOf component = .up := by
      unfold moveOf
      rw [if_neg hdot, if_pos hdots]
    rw [hup]
    by_cases hnames : names = []
    · subst hnames
      -- there is no name to take back
      have hstop : ¬ (decide (component = [46, 46]) = true ∧
          (head ++ joined (partsOf ⟨ups, []⟩)).length > head.length ∧
          outputEndsDotDot memory output head.length
            (head ++ joined (partsOf ⟨ups, []⟩)).length = false) := by
        rintro ⟨-, hwrote, hends⟩
        cases ups with
        | zero => exact (written_gt hparts).mp hwrote rfl
        | succ ups =>
          have hlast : IsComponent [46, 46] := ⟨cons_ne_nil _ _, by decide +kernel⟩
          have hout := h.output
          rw [partsOf_up] at hends hout
          rw [outputEndsDotDot_eq hout hlast] at hends
          nomatch hends
      rw [if_neg hstop]
      by_cases hroot : head.length > 0
      · rw [if_pos ⟨decide_eq_true hdots, hroot⟩]
        refine ⟨memory, ⟨ups, []⟩, ?_, h.pass hunread hread hafter, frame_refl _ _ _, rfl⟩
        rw [decide_eq_true hroot]
        rfl
      · rw [if_neg fun hboth => hroot hboth.2]
        have hempty : head = [] := length_eq_zero_iff.mp (Nat.eq_zero_of_not_pos hroot)
        have hparts' : partsOf (⟨ups + 1, []⟩ : Place (List UInt8)) =
            partsOf ⟨ups, []⟩ ++ [component] := by rw [partsOf_up, hdots]
        obtain ⟨memory', hreached, hframe, happend⟩ :=
          hadd hparts' (forall_mem_nil _) fun hne => absurd hempty hne
        refine ⟨memory', ⟨ups + 1, []⟩, ?_, hreached, hframe, happend⟩
        rw [decide_eq_false hroot]
        rfl
    · have hpop := @partsOf_pop ups names hnames
      have hname := h.names _ (getLast_mem hnames)
      have hout := h.output
      rw [hpop] at hout hparts
      have hwrote := (@written_gt head _ hparts).mpr
        (append_ne_nil_of_right_ne_nil _ (cons_ne_nil _ _))
      have hends := outputEndsDotDot_eq hout hname.1
      rw [decide_eq_false hname.2.2] at hends
      have hgo : decide (component = [46, 46]) = true ∧
          (head ++ joined (partsOf ⟨ups, names⟩)).length > head.length ∧
          outputEndsDotDot memory output head.length
            (head ++ joined (partsOf ⟨ups, names⟩)).length = false := by
        rw [hpop]
        exact ⟨decide_eq_true hdots, hwrote, hends⟩
      have hpopped := popOutputComponent_eq hout hname.1
      rw [if_pos hgo, hpop, hpopped]
      refine ⟨memory, ⟨ups, names.dropLast⟩, ?_, ⟨stands_before hout, ?_, ?_, fun _ => hafter,
        fun name hmem => h.names name ((dropLast_sublist _).mem hmem), h.rooted⟩,
        frame_refl _ _ _, rfl⟩
      · unfold Place.move
        rw [isEmpty_eq_false_iff.mpr hnames]
        rfl
      · rw [← Nat.add_assoc]
        exact (Stands.append_iff.mp hunread).2
      have hshorter := @joined_le (partsOf ⟨ups, names.dropLast⟩) (names.getLast hnames)
      have hbehind := h.room
      rw [hpop, length_append] at hbehind
      rw [length_append]
      omega
  · have hinto : moveOf component = .into component := by
      unfold moveOf
      rw [if_neg hdot, if_neg hdots]
    have hstop (condition : Prop) : ¬ (decide (component = [46, 46]) = true ∧ condition) :=
      fun hboth => hdots (of_decide_eq_true hboth.1)
    rw [hinto, if_neg (hstop _), if_neg (hstop _)]
    have hparts' : partsOf ⟨ups, names ++ [component]⟩ = partsOf ⟨ups, names⟩ ++ [component] := by
      unfold partsOf
      rw [append_assoc]
    obtain ⟨memory', hreached, hframe, happend⟩ := hadd hparts' (forall_mem_append.mpr ⟨h.names,
        forall_mem_singleton.mpr ⟨hcomp, hdot, hdots⟩⟩) h.rooted
    exact ⟨memory', _, rfl, hreached, hframe, happend⟩

/-- A text that does not start with a separator, cut behind its first component. -/
theorem component_split {text : List UInt8} (hne : text ≠ [])
    (hhead : ∀ byte ∈ text.head?, isSeparator byte = false) :
    ∃ component after, text = component ++ after ∧
      text.takeWhile (!isSeparator ·) = component ∧ IsComponent component ∧
      (∀ byte ∈ after.head?, isSeparator byte) ∧
      components text = component :: components after := by
  have hafter : ∀ byte ∈ (text.dropWhile (!isSeparator ·)).head?, isSeparator byte := by
    intro byte hbyte
    have hnot := List.head?_dropWhile_not (!isSeparator ·) text
    rw [hbyte] at hnot
    simpa using hnot
  have hsplit : text = text.takeWhile (!isSeparator ·) ++ text.dropWhile (!isSeparator ·) :=
    takeWhile_append_dropWhile.symm
  have hcomp : IsComponent (text.takeWhile (!isSeparator ·)) := by
    constructor
    · obtain ⟨byte, rest, rfl⟩ := exists_cons_of_ne_nil hne
      rw [takeWhile_cons_of_pos (by rw [hhead byte rfl]; rfl)]
      exact cons_ne_nil _ _
    · intro byte hbyte
      have htest := mem_takeWhile_imp hbyte
      simpa using htest
  refine ⟨_, _, hsplit, rfl, hcomp, hafter, ?_⟩
  conv_lhs => rw [hsplit]
  exact components_append hcomp hafter

/-- **The main loop** writes the place that the rest of the path leads to. -/
theorem componentLoop_eq (hplaced : Placed data length output capacity) (hfit : length ≤ capacity)
    (hdata : data ≠ 0) (hhead : ∀ byte ∈ head.getLast?, byte = 47) {fuel : Nat} :
    ∀ {memory : Bytes} {read : Nat} {rest : List UInt8} {place : Place (List UInt8)},
    rest.length < fuel → read + rest.length = length →
    Reached head data output memory read rest place →
    ∃ memory' place', place' = walk (decide (0 < head.length)) place
        ((components rest).map moveOf) ∧
      componentLoop ⟨data, length⟩ output capacity head.length fuel memory read
        (head ++ joined (partsOf place)).length =
          (some (head ++ joined (partsOf place')).length, memory') ∧
      Stands memory' output (head ++ joined (partsOf place')) ∧
      (head ++ joined (partsOf place')).length ≤ length ∧
      Frame output length memory memory' := by
  induction fuel with
  | zero => exact fun hfuel => absurd hfuel (Nat.not_lt_zero _)
  | succ fuel ih =>
    intro memory read rest place hfuel hend h
    have hroom : (head ++ joined (partsOf place)).length ≤ length :=
      Nat.le_trans h.room (hend ▸ Nat.le_add_right _ _)
    have hdone (hnone : components rest = []) :
        ∃ place', place' = walk (decide (0 < head.length)) place ((components rest).map moveOf) ∧
          place' = place := by
      rw [hnone]
      exact ⟨place, rfl, rfl⟩
    rw [componentLoop]
    by_cases hempty : rest = []
    · subst hempty
      obtain ⟨place', hplace', rfl⟩ := hdone rfl
      have hread : read ≥ length := Nat.le_of_eq hend.symm
      rw [if_pos hread]
      exact ⟨memory, _, hplace', rfl, h.output, hroom, frame_refl _ _ _⟩
    have hpos := length_pos_iff.mpr hempty
    have hread : ¬ read ≥ length := by omega
    have hremaining : length - read = rest.length := by omega
    have hpass := @passOver_eq isSeparator memory ⟨data, length⟩ rest read h.unread
    rw [if_neg hread, hremaining, hpass]
    dsimp only
    -- the separators, and what stands behind them
    have hparts : rest.takeWhile isSeparator ++ rest.dropWhile isSeparator = rest :=
      takeWhile_append_dropWhile
    have hcomps := components_dropWhile rest
    have hfirst : ∀ byte ∈ (rest.dropWhile isSeparator).head?, isSeparator byte = false := by
      intro byte hbyte
      have hnot := List.head?_dropWhile_not isSeparator rest
      rw [hbyte] at hnot
      simpa using hnot
    generalize rest.takeWhile isSeparator = separators at hparts ⊢
    generalize rest.dropWhile isSeparator = text at hparts hcomps hfirst
    subst hparts
    rw [length_append] at hend hfuel
    have hunread := (Stands.append_iff.mp h.unread).2
    rw [Nat.add_assoc] at hunread
    by_cases htext : text = []
    · subst htext
      obtain ⟨place', hplace', rfl⟩ := hdone hcomps.symm
      rw [if_pos (by rw [length_nil] at hend; omega)]
      exact ⟨memory, _, hplace', rfl, h.output, hroom, frame_refl _ _ _⟩
    have hmore := length_pos_iff.mpr htext
    obtain ⟨component, after, rfl, htake, hcomp, hafter, hsplit⟩ :=
      component_split htext hfirst
    have hgap : partsOf place ≠ [] → read < read + separators.length := by
      intro hne
      cases separators with
      | nil =>
        obtain ⟨byte, others, rfl⟩ := exists_cons_of_ne_nil hcomp.1
        have hended := h.ended hne byte rfl
        rw [hfirst byte rfl] at hended
        nomatch hended
      | cons _ _ => exact Nat.lt_add_of_pos_right (Nat.succ_pos _)
    have hend' : read + separators.length + (component ++ after).length = length := by omega
    have hcount : length - (read + separators.length) = (component ++ after).length := by omega
    have hover := @passOver_eq (!isSeparator ·) memory ⟨data, length⟩ (component ++ after)
      (read + separators.length) hunread
    obtain ⟨memory₁, place₁, hplace₁, hreached, hframe, htaken⟩ := takeComponent_eq hplaced hfit
      hdata hhead hcomp hafter h hunread hend' (Nat.le_add_right _ _) hgap
    rw [htake] at hover
    rw [if_neg (by omega), hcount, hover, Nat.add_sub_cancel_left, htaken]
    rw [length_append] at hend'
    have hshorter := length_pos_iff.mpr hcomp.1
    rw [length_append] at hfuel
    obtain ⟨memory', place', hplace', hloop, hout, hle, hframe'⟩ :=
      ih (by omega) (by omega) hreached
    refine ⟨memory', place', ?_, hloop, hout, hle, hframe.trans hframe'⟩
    rw [hplace', ← hcomps, hsplit, hplace₁]
    rfl

end

/-! ## Normalizing -/

theorem rootLength_le (text : List UInt8) : rootLength text ≤ text.length := by
  match text with
  | [] => exact le_rfl
  | [byte] =>
    unfold rootLength
    dsimp only
    split
    · exact le_rfl
    · exact Nat.zero_le _
  | [first, second] =>
    unfold rootLength
    dsimp only
    split
    · split
      · exact le_rfl
      · exact Nat.le_succ 1
    · exact Nat.zero_le _
  | _ :: _ :: _ :: rest =>
    have hthree : 3 ≤ rest.length + 3 := Nat.le_add_left 3 _
    refine Nat.le_trans ?_ hthree
    unfold rootLength
    dsimp only
    split
    · split <;> decide
    · split <;> decide

theorem stands_snoc {memory memory' : Bytes} {output : Nat} {text : List UInt8} (byte : UInt8)
    (h : Stands memory' output text) (hframe : Frame output text.length memory memory') :
    Stands (store memory' (output + text.length) byte) output (text ++ [byte]) ∧
      Frame output (text ++ [byte]).length memory
        (store memory' (output + text.length) byte) := by
  have hstore := @frame_store _ memory' (output + text.length) byte
  rw [length_append, length_singleton]
  exact ⟨Stands.append_iff.mpr ⟨h.frame hstore (.inl le_rfl), stands_store _ _⟩,
    (hframe.widen le_rfl (by omega)).trans
      (hstore.widen (Nat.le_add_right _ _) (by omega))⟩

theorem writeRoot_eq {memory : Bytes} {data output : Nat} {text : List UInt8}
    (h : Stands memory data text) :
    Stands (writeRoot memory ⟨data, text.length⟩ output (rootLength text)) output (rootText text) ∧
      Frame output (rootLength text) memory
        (writeRoot memory ⟨data, text.length⟩ output (rootLength text)) := by
  have hempty : Stands memory output [] ∧ Frame output ([] : List UInt8).length memory memory :=
    ⟨trivial, frame_refl _ _ _⟩
  obtain ⟨hlen, htext⟩ | ⟨hlen, htext⟩ | ⟨hlen, htext⟩ |
    ⟨hlen, letter, -, hletter, htext⟩ := rootLength_cases text
  · rw [hlen, htext]
    exact hempty
  · rw [hlen, htext]
    exact stands_snoc 47 hempty.1 hempty.2
  · rw [hlen, htext]
    have hone := stands_snoc 47 hempty.1 hempty.2
    exact stands_snoc 47 hone.1 hone.2
  rw [hlen, htext]
  obtain ⟨hlt, hfirst⟩ := List.getElem?_eq_some_iff.mp hletter
  have hbyte : memory data = letter := (h.at hlt).trans hfirst
  have hone := stands_snoc letter hempty.1 hempty.2
  have htwo := stands_snoc 58 hone.1 hone.2
  have hthree := stands_snoc 47 htwo.1 htwo.2
  rw [← hbyte] at hthree ⊢
  exact hthree

theorem rootText_last (text : List UInt8) : ∀ byte ∈ (rootText text).getLast?, byte = 47 := by
  intro byte hbyte
  obtain ⟨-, htext⟩ | ⟨-, htext⟩ | ⟨-, htext⟩ | ⟨-, letter, -, -, htext⟩ := rootLength_cases text
  · rw [htext] at hbyte
    nomatch hbyte
  all_goals
    rw [htext] at hbyte
    exact (Option.some.inj hbyte).symm

/-- **The normal form is written**, over the path or apart from it. -/
theorem normalizeLexicalInto_eq {memory : Bytes} {data output capacity : Nat} {text : List UInt8}
    (hplaced : Placed data text.length output capacity) (hfit : text.length ≤ capacity)
    (hnull : text = [] ∨ (data ≠ 0 ∧ output ≠ 0)) (h : Stands memory data text) :
    ∃ memory', normalizeLexicalInto memory ⟨data, text.length⟩ output capacity =
        (some (normalForm text).length, memory') ∧
      Stands memory' output (normalForm text) ∧ (normalForm text).length ≤ text.length ∧
      Frame output text.length memory memory' := by
  have hbytes := bytes_eq h (hnull.imp_right And.left)
  obtain rfl | ⟨hdata, houtput⟩ := hnull
  · refine ⟨memory, ?_, trivial, le_rfl, frame_refl _ _ _⟩
    unfold normalizeLexicalInto
    rw [hbytes]
    rfl
  have hle := rootLength_le text
  obtain ⟨hroot, hframe⟩ := @writeRoot_eq memory data output text h
  have hparts : text.take (rootLength text) ++ text.drop (rootLength text) = text :=
    take_append_drop _ _
  have htake : (text.take (rootLength text)).length = rootLength text := length_take_of_le hle
  have hdrop : rootLength text + (text.drop (rootLength text)).length = text.length := by
    rw [length_drop]
    omega
  have hunread : Stands memory (data + rootLength text) (text.drop (rootLength text)) := by
    rw [← hparts, Stands.append_iff, htake] at h
    exact h.2
  have hstart : rootText text ++ joined (partsOf .start) = rootText text := append_nil _
  have hreached : Reached (rootText text) data output
      (writeRoot memory ⟨data, text.length⟩ output (rootLength text)) (rootLength text)
      (text.drop (rootLength text)) .start := by
    refine ⟨by rwa [hstart], hunread.frame hframe ?_, ?_, fun hne => absurd rfl hne,
      forall_mem_nil _, fun _ => rfl⟩
    · unfold Placed at hplaced
      omega
    · rw [hstart, length_rootText]
  have hfuel : (text.drop (rootLength text)).length < text.length + 1 := by omega
  obtain ⟨memory', place', hplace', hloop, hout, hshort, hframe'⟩ :=
    componentLoop_eq hplaced hfit hdata (rootText_last text) hfuel hdrop hreached
  rw [hstart, length_rootText] at hloop
  rw [length_rootText] at hplace'
  obtain rfl : place' = place text := hplace'
  have hwhole := (hframe.widen le_rfl (Nat.add_le_add_left hle output)).trans hframe'
  have hvalid : ¬ (valid ⟨data, text.length⟩ = false ∨ (text.length > 0 ∧ output = 0)) := by
    unfold valid
    simp [hdata, houtput]
  unfold normalizeLexicalInto
  rw [if_neg hvalid, hbytes]
  rw [if_neg (by omega), hloop]
  dsimp only
  by_cases hempty : rootText text ++ joined (partsOf (place text)) = [] ∧ text ≠ []
  · have hform : normalForm text = [46] := if_pos hempty
    have hnothing : (rootText text ++ joined (partsOf (place text))).length = 0 ∧
        text.length > 0 := ⟨length_eq_zero_iff.mpr hempty.1, length_pos_iff.mpr hempty.2⟩
    have hroom : ¬ capacity < 1 := by omega
    rw [if_pos hnothing, if_neg hroom, hform]
    exact ⟨_, rfl, stands_store output 46, hnothing.2,
      hwhole.trans ((frame_store output 46).widen le_rfl (by omega))⟩
  · have hform : normalForm text = rootText text ++ joined (partsOf (place text)) := if_neg hempty
    have hsome : ¬ ((rootText text ++ joined (partsOf (place text))).length = 0 ∧
        text.length > 0) := fun hboth =>
      hempty ⟨length_eq_zero_iff.mp hboth.1, length_pos_iff.mp hboth.2⟩
    rw [if_neg hsome, hform]
    exact ⟨memory', rfl, hout, hshort, hwhole⟩

/-! ## When normalizing is right -/

/-- Wherever the text stands and the output is the text itself or apart from it, with room for the
text, the result is written. -/
def Writes (text result : List UInt8) : Prop :=
  ∀ (memory : Bytes) (data output capacity : Nat), (text = [] ∨ (data ≠ 0 ∧ output ≠ 0)) →
    Stands memory data text → text.length ≤ capacity →
    Placed data text.length output capacity →
    ∃ memory', normalizeLexicalInto memory ⟨data, text.length⟩ output capacity =
      (some result.length, memory') ∧ Stands memory' output result

/-- The normal form is written, in place and apart, is written again for itself, and has the root of
the path. -/
structure Normalizes (text : List UInt8) : Prop where
  writes : Writes text (normalForm text)
  again : Writes (normalForm text) (normalForm text)
  root : rootLength (normalForm text) = rootLength text
  absolute : isAbsolute (normalForm text) = isAbsolute text

theorem writes_normalForm (text : List UInt8) : Writes text (normalForm text) := by
  intro memory data output capacity hnull h hfit hplaced
  obtain ⟨memory', hwrote, hout, -, -⟩ := normalizeLexicalInto_eq hplaced hfit hnull h
  exact ⟨memory', hwrote, hout⟩

/-- **Normalizing is right** if and only if the path is no relative one whose components come to
begin with a drive and have more behind it. -/
theorem normalizes_iff (text : List UInt8) : Normalizes text ↔ ¬ TurnsDrive text := by
  constructor
  · exact fun h => rootLength_normalForm.mp h.root
  intro h
  have hroot := rootLength_normalForm.mpr h
  have hagain := writes_normalForm (normalForm text)
  rw [normalForm_normalForm] at hagain
  refine ⟨writes_normalForm text, hagain, hroot, ?_⟩
  rw [Bool.eq_iff_iff, isAbsolute_iff, isAbsolute_iff, hroot]

/-- The path `./C:/x`. -/
def driveText : List UInt8 := [46, 47, 67, 58, 47, 120]

/-- It is relative, and is normalized to an absolute path. -/
theorem driveText_broken : isAbsolute driveText = false ∧
    normalForm driveText = [67, 58, 47, 120] ∧ isAbsolute (normalForm driveText) = true ∧
    ¬ Normalizes driveText := by
  have hform : normalForm driveText = [67, 58, 47, 120] := by decide +kernel
  have habsolute : isAbsolute (normalForm driveText) = true := by
    rw [hform]
    decide
  refine ⟨by decide, hform, habsolute, fun h => ?_⟩
  have hsame := h.absolute
  rw [habsolute] at hsame
  nomatch hsame

end Raz.Path
