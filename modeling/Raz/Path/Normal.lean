import Raz.Lib.LexicalPath
import Raz.Path.Model

/-!
# The lexical normal form

A path is a root and the components between its separators. Its normal form is the root and the
place that the components come to: no component for the current directory, none for the parent
directory behind a name, and none at all for the parent directory behind a root.

Result: `rootLength_normalForm`: the root stays, unless a relative path comes to begin with a drive.
-/

namespace Raz.Path

open LexicalPath List

variable {component part : List UInt8} {parts : List (List UInt8)}

/-! ## Components -/

/-- A component is not empty and has no separator. -/
def IsComponent (component : List UInt8) : Prop :=
  component ≠ [] ∧ ∀ byte ∈ component, isSeparator byte = false

/-- What stands between the separators. -/
def components (path : List UInt8) : List (List UInt8) :=
  (path.splitOnP isSeparator).filter (· ≠ [])

def joined (components : List (List UInt8)) : List UInt8 := [47].intercalate components

theorem components_separator {byte : UInt8} (h : isSeparator byte) (path : List UInt8) :
    components (byte :: path) = components path := by
  unfold components
  rw [← nil_append (byte :: path), splitOnP_append_cons _ _ h]
  rfl

theorem components_dropWhile (path : List UInt8) :
    components (path.dropWhile isSeparator) = components path := by
  induction path with
  | nil => rfl
  | cons byte path ih =>
    by_cases hbyte : isSeparator byte
    · rw [dropWhile_cons_of_pos hbyte, ih, components_separator hbyte]
    · rw [dropWhile_cons_of_neg hbyte]

theorem components_append {component rest : List UInt8} (h : IsComponent component)
    (hrest : ∀ byte ∈ rest.head?, isSeparator byte) :
    components (component ++ rest) = component :: components rest := by
  have hsingle := splitOnP_eq_singleton h.2
  have hkept : [component].filter (· ≠ []) = [component] := filter_cons_of_pos (decide_eq_true h.1)
  cases rest with
  | nil =>
    rw [append_nil]
    unfold components
    rw [hsingle]
    exact hkept
  | cons byte rest =>
    rw [components_separator (hrest byte rfl)]
    unfold components
    rw [splitOnP_append_cons _ _ (hrest byte rfl), hsingle, filter_append, hkept]
    rfl

theorem joined_cons_cons (first next : List UInt8) (others : List (List UInt8)) :
    joined (first :: next :: others) = first ++ 47 :: joined (next :: others) := by
  unfold joined
  rw [intercalate_cons_cons, append_assoc]
  rfl

theorem components_joined (h : ∀ part ∈ parts, IsComponent part) :
    components (joined parts) = parts := by
  induction parts with
  | nil => rfl
  | cons part parts ih =>
    obtain ⟨hpart, hparts⟩ := forall_mem_cons.mp h
    cases parts with
    | nil =>
      have hlast := @components_append part [] hpart (fun _ h => nomatch h)
      rw [append_nil] at hlast
      unfold joined
      rw [intercalate_singleton]
      exact hlast
    | cons next parts =>
      rw [joined_cons_cons, components_append hpart, components_separator rfl, ih hparts]
      rintro byte ⟨⟩
      rfl

theorem joined_ne_nil (h : ∀ part ∈ parts, IsComponent part) (hne : parts ≠ []) :
    joined parts ≠ [] := by
  intro hempty
  have hagain := components_joined h
  rw [hempty] at hagain
  exact hne hagain.symm

theorem isComponent_of_mem {path : List UInt8} (h : component ∈ components path) :
    IsComponent component := by
  obtain ⟨hmem, hne⟩ := mem_filter.mp h
  refine ⟨of_decide_eq_true hne, ?_⟩
  clear h hne
  induction path generalizing component with
  | nil =>
    obtain rfl := mem_singleton.mp hmem
    exact forall_mem_nil _
  | cons byte path ih =>
    rw [splitOnP_cons_eq_if_modifyHead] at hmem
    by_cases hbyte : isSeparator byte
    · rw [if_pos hbyte] at hmem
      obtain rfl | hmem := mem_cons.mp hmem
      · exact forall_mem_nil _
      · exact ih hmem
    · rw [if_neg hbyte] at hmem
      obtain ⟨first, others, hparts⟩ := exists_cons_of_ne_nil (splitOnP_ne_nil isSeparator path)
      rw [hparts, modifyHead_cons] at hmem
      rw [hparts] at ih
      obtain rfl | hmem := mem_cons.mp hmem
      · exact forall_mem_cons.mpr ⟨eq_false_of_ne_true hbyte, ih mem_cons_self⟩
      · exact ih (mem_cons_of_mem _ hmem)

theorem joined_head (h : ∀ part ∈ parts, IsComponent part) :
    ∀ byte ∈ (joined parts).head?, isSeparator byte = false := by
  intro byte hbyte
  cases parts with
  | nil => nomatch hbyte
  | cons part parts =>
    have hpart := h part mem_cons_self
    obtain ⟨first, rest, rfl⟩ := exists_cons_of_ne_nil hpart.1
    have hfirst := hpart.2 first mem_cons_self
    cases parts with
    | nil =>
      unfold joined at hbyte
      rw [intercalate_singleton] at hbyte
      cases hbyte
      exact hfirst
    | cons next parts =>
      rw [joined_cons_cons] at hbyte
      cases hbyte
      exact hfirst

/-! ## Places -/

def moveOf (component : List UInt8) : Move (List UInt8) :=
  if component = [46] then .stay else if component = [46, 46] then .up else .into component

/-- A component that is a name. -/
def IsName (component : List UInt8) : Prop :=
  IsComponent component ∧ component ≠ [46] ∧ component ≠ [46, 46]

/-- The components of a place. -/
def partsOf (place : Place (List UInt8)) : List (List UInt8) :=
  List.replicate place.ups [46, 46] ++ place.names

theorem moveOf_name (h : IsName component) : moveOf component = .into component := by
  unfold moveOf
  rw [if_neg h.2.1, if_neg h.2.2]

theorem moveOf_into {name : List UInt8} (h : moveOf component = .into name) :
    component = name ∧ component ≠ [46] ∧ component ≠ [46, 46] := by
  unfold moveOf at h
  by_cases hdot : component = [46]
  · rw [if_pos hdot] at h
    nomatch h
  by_cases hdots : component = [46, 46]
  · rw [if_neg hdot, if_pos hdots] at h
    nomatch h
  · rw [if_neg hdot, if_neg hdots] at h
    exact ⟨Move.into.inj h, hdot, hdots⟩

theorem partsOf_components {place : Place (List UInt8)} (h : ∀ name ∈ place.names, IsName name) :
    ∀ part ∈ partsOf place, IsComponent part := by
  refine forall_mem_append.mpr ⟨fun part hpart => ?_, fun name hname => (h name hname).1⟩
  rw [eq_of_mem_replicate hpart]
  exact ⟨cons_ne_nil _ _, by decide +kernel⟩

theorem moves_partsOf {place : Place (List UInt8)} (h : ∀ name ∈ place.names, IsName name) :
    (partsOf place).map moveOf = place.moves := by
  unfold partsOf Place.moves
  rw [map_append, map_replicate]
  congr 1
  exact map_congr_left fun name hname => moveOf_name (h name hname)

/-- What the components of a path come to. -/
def placeOf (rooted : Bool) (parts : List (List UInt8)) : Place (List UInt8) :=
  walk rooted .start (parts.map moveOf)

theorem placeOf_names {rooted : Bool} (h : ∀ part ∈ parts, IsComponent part) :
    ∀ name ∈ (placeOf rooted parts).names, IsName name := by
  intro name hname
  obtain hname | hname := mem_walk_names _ hname
  · nomatch hname
  · obtain ⟨part, hpart, hmove⟩ := mem_map.mp hname
    obtain ⟨rfl, hdots⟩ := moveOf_into hmove
    exact ⟨h part hpart, hdots⟩

theorem placeOf_partsOf {rooted : Bool} {place : Place (List UInt8)}
    (h : ∀ name ∈ place.names, IsName name) (hups : rooted = true → place.ups = 0) :
    placeOf rooted (partsOf place) = place := by
  unfold placeOf
  rw [moves_partsOf h, walk_moves hups]

/-! ## The normal form -/

/-- The root of a path as it is written. -/
def rootText (path : List UInt8) : List UInt8 :=
  match rootLength path with
  | 1 => [47]
  | 2 => [47, 47]
  | 3 => path.take 1 ++ [58, 47]
  | _ => []

def place (path : List UInt8) : Place (List UInt8) :=
  placeOf (0 < rootLength path) (components (path.drop (rootLength path)))

/-- The root and the components of the place; the current directory where nothing is left. -/
def normalForm (path : List UInt8) : List UInt8 :=
  let text := rootText path ++ joined (partsOf (place path))
  if text = [] ∧ path ≠ [] then [46] else text

/-- A drive letter with its colon. -/
def IsDrive (component : List UInt8) : Prop :=
  ∃ letter, driveLetter letter ∧ component = [letter, 58]

/-- A relative path whose place begins with a drive and has more behind it. -/
def TurnsDrive (path : List UInt8) : Prop :=
  rootLength path = 0 ∧ ∃ drive next others,
    partsOf (place path) = drive :: next :: others ∧ IsDrive drive

/-! ## Roots -/

theorem isAbsolute_iff (path : List UInt8) : isAbsolute path ↔ 0 < rootLength path := by
  cases path with
  | nil => exact ⟨nofun, fun h => absurd h (Nat.lt_irrefl 0)⟩
  | cons first rest =>
    unfold isAbsolute rootLength
    dsimp only
    by_cases hfirst : isSeparator first
    · rw [if_pos hfirst, if_pos hfirst]
      refine ⟨fun _ => ?_, fun _ => rfl⟩
      split <;> decide
    rw [if_neg hfirst, if_neg hfirst]
    by_cases hdrive : driveRoot (first :: rest)
    · rw [if_pos hdrive]
      exact ⟨fun _ => by decide, fun _ => hdrive⟩
    · rw [if_neg hdrive]
      exact ⟨fun h => absurd h hdrive, fun h => absurd h (Nat.lt_irrefl 0)⟩

/-- The four kinds of root, with the path as it is written and read again behind its root. -/
theorem rootLength_cases (path : List UInt8) :
    (rootLength path = 0 ∧ rootText path = []) ∨ (rootLength path = 1 ∧ rootText path = [47]) ∨
      (rootLength path = 2 ∧ rootText path = [47, 47]) ∨
      (rootLength path = 3 ∧ ∃ letter, driveLetter letter ∧ path[0]? = some letter ∧
        rootText path = [letter, 58, 47]) := by
  unfold rootText
  cases path with
  | nil => exact .inl ⟨rfl, rfl⟩
  | cons first rest =>
    unfold rootLength
    dsimp only
    by_cases hfirst : isSeparator first
    · rw [if_pos hfirst]
      by_cases hsecond : rest.head?.any isSeparator
      · rw [if_pos hsecond]
        exact .inr (.inr (.inl ⟨rfl, rfl⟩))
      · rw [if_neg hsecond]
        exact .inr (.inl ⟨rfl, rfl⟩)
    · rw [if_neg hfirst]
      by_cases hdrive : driveRoot (first :: rest)
      · rw [if_pos hdrive]
        refine .inr (.inr (.inr ⟨rfl, first, ?_, rfl, rfl⟩))
        unfold driveRoot at hdrive
        split at hdrive
        · rename_i heq
          obtain ⟨rfl, -⟩ := List.cons.inj heq
          exact (Bool.and_eq_true_iff.mp (Bool.and_eq_true_iff.mp hdrive).1).1
        · nomatch hdrive
      · rw [if_neg hdrive]
        exact .inl ⟨rfl, rfl⟩

theorem length_rootText (path : List UInt8) : (rootText path).length = rootLength path := by
  obtain ⟨hlen, htext⟩ | ⟨hlen, htext⟩ | ⟨hlen, htext⟩ | ⟨hlen, letter, -, -, htext⟩ :=
    rootLength_cases path
  all_goals rw [hlen, htext]; rfl

theorem driveLetter_separator {letter : UInt8} (h : driveLetter letter) :
    isSeparator letter = false := by
  have hall : ∀ byte < 256, driveLetter (UInt8.ofNat byte) →
      isSeparator (UInt8.ofNat byte) = false := by decide +kernel
  have hletter := hall letter.toNat letter.toNat_lt
  rw [UInt8.ofNat_toNat] at hletter
  exact hletter h

theorem rootLength_drive {letter : UInt8} (h : driveLetter letter) (rest : List UInt8) :
    rootLength (letter :: 58 :: 47 :: rest) = 3 := by
  have hroot : driveRoot (letter :: 58 :: 47 :: rest) = true := by
    change (driveLetter letter && true && true) = true
    rw [h]
    rfl
  unfold rootLength
  dsimp only
  rw [driveLetter_separator h, if_neg (by decide), if_pos hroot]

theorem rootLength_rootText {path rest : List UInt8} (hroot : rootLength path ≠ 0)
    (hrest : ∀ byte ∈ rest.head?, isSeparator byte = false) :
    rootLength (rootText path ++ rest) = rootLength path ∧
      rootText (rootText path ++ rest) = rootText path := by
  obtain ⟨hlen, -⟩ | ⟨hlen, htext⟩ | ⟨hlen, htext⟩ |
    ⟨hlen, letter, hletter, -, htext⟩ := rootLength_cases path
  · exact absurd hlen hroot
  · rw [hlen, htext]
    have hone : rootLength ([47] ++ rest) = 1 := by
      cases rest with
      | nil => rfl
      | cons byte rest =>
        have hbyte := hrest byte rfl
        change (if isSeparator byte then 2 else 1) = 1
        rw [hbyte]
        rfl
    refine ⟨hone, ?_⟩
    unfold rootText
    rw [hone]
    rfl
  · rw [hlen, htext]
    exact ⟨rfl, rfl⟩
  · rw [hlen, htext]
    have hthree := rootLength_drive hletter rest
    refine ⟨hthree, ?_⟩
    unfold rootText
    rw [cons_append, cons_append, cons_append, nil_append, hthree]
    rfl

theorem driveRoot_iff {first : UInt8} {rest : List UInt8} : driveRoot (first :: rest) ↔
    driveLetter first ∧ ∃ third others, rest = 58 :: third :: others ∧ isSeparator third := by
  match rest with
  | [] => exact ⟨nofun, fun ⟨_, _, _, heq, _⟩ => nomatch heq⟩
  | [_] => exact ⟨nofun, fun ⟨_, _, _, heq, _⟩ => nomatch heq⟩
  | second :: third :: others =>
    change (driveLetter first && decide (second = 58) && isSeparator third) = true ↔ _
    rw [Bool.and_eq_true, Bool.and_eq_true, decide_eq_true_iff]
    constructor
    · rintro ⟨⟨hletter, rfl⟩, hthird⟩
      exact ⟨hletter, third, others, rfl, hthird⟩
    rintro ⟨hletter, third', others', heq, hthird⟩
    obtain ⟨hsecond, hbehind⟩ := List.cons.inj heq
    obtain ⟨rfl, -⟩ := List.cons.inj hbehind
    exact ⟨⟨hletter, hsecond⟩, hthird⟩

theorem rootLength_relative {first : UInt8} {rest : List UInt8} (h : isSeparator first = false) :
    rootLength (first :: rest) = if driveRoot (first :: rest) then 3 else 0 := by
  unfold rootLength
  dsimp only
  rw [h, if_neg (by decide)]

/-- Components that stand first in a relative path are a drive. -/
theorem driveRoot_joined (hpart : IsComponent part) :
    driveRoot (joined (part :: parts)) ↔ IsDrive part ∧ parts ≠ [] := by
  obtain ⟨first, rest, rfl⟩ := exists_cons_of_ne_nil hpart.1
  obtain ⟨-, hrest⟩ := forall_mem_cons.mp hpart.2
  cases parts with
  | nil =>
    unfold joined
    rw [intercalate_singleton, driveRoot_iff]
    refine ⟨?_, fun h => absurd rfl h.2⟩
    rintro ⟨-, third, others, rfl, hthird⟩
    have hnot := hrest third (mem_cons_of_mem _ mem_cons_self)
    rw [hthird] at hnot
    nomatch hnot
  | cons next parts =>
    rw [joined_cons_cons, cons_append, driveRoot_iff]
    constructor
    · rintro ⟨hletter, third, others, heq, hthird⟩
      refine ⟨⟨first, hletter, ?_⟩, cons_ne_nil _ _⟩
      match rest, heq with
      | [second], heq =>
        obtain ⟨rfl, -⟩ := List.cons.inj heq
        rfl
      | second :: byte :: _, heq =>
        obtain ⟨-, heq⟩ := List.cons.inj heq
        obtain ⟨rfl, -⟩ := List.cons.inj heq
        have hnot := hrest byte (mem_cons_of_mem _ mem_cons_self)
        rw [hthird] at hnot
        nomatch hnot
    · rintro ⟨⟨letter, hletter, heq⟩, -⟩
      obtain ⟨rfl, rfl⟩ := List.cons.inj heq
      exact ⟨hletter, 47, joined (next :: parts), rfl, rfl⟩

/-- A relative path of components begins with a drive or has no root. -/
theorem rootLength_joined (hpart : IsComponent part) :
    rootLength (joined (part :: parts)) =
      if driveRoot (joined (part :: parts)) then 3 else 0 := by
  obtain ⟨first, rest, rfl⟩ := exists_cons_of_ne_nil hpart.1
  have hfirst := hpart.2 first mem_cons_self
  cases parts with
  | nil =>
    unfold joined
    rw [intercalate_singleton]
    exact rootLength_relative hfirst
  | cons next parts =>
    rw [joined_cons_cons]
    exact rootLength_relative hfirst

/-! ## Normalizing again -/

section

variable {path : List UInt8}

theorem place_names : ∀ name ∈ (place path).names, IsName name :=
  placeOf_names fun _ => isComponent_of_mem

theorem place_parts : ∀ part ∈ partsOf (place path), IsComponent part :=
  partsOf_components place_names

theorem place_ups (h : 0 < rootLength path) : (place path).ups = 0 := by
  unfold place placeOf
  rw [decide_eq_true h]
  exact walk_ups _ rfl

theorem normalForm_of_rooted (h : rootLength path ≠ 0) :
    normalForm path = rootText path ++ joined (partsOf (place path)) := by
  have hne : rootText path ++ joined (partsOf (place path)) ≠ [] := by
    refine append_ne_nil_of_left_ne_nil (ne_nil_of_length_pos ?_) _
    rw [length_rootText]
    exact Nat.pos_of_ne_zero h
  exact if_neg fun hempty => hne hempty.1

theorem rootText_relative (h : rootLength path = 0) : rootText path = [] := by
  unfold rootText
  rw [h]
  rfl

theorem normalForm_rooted (h : rootLength path ≠ 0) :
    rootLength (normalForm path) = rootLength path ∧
      normalForm (normalForm path) = normalForm path := by
  obtain ⟨hroot, htext⟩ := rootLength_rootText h (joined_head (@place_parts path))
  rw [← normalForm_of_rooted h] at hroot htext
  refine ⟨hroot, ?_⟩
  have hdrop : (normalForm path).drop (rootLength (normalForm path)) =
      joined (partsOf (place path)) := by
    rw [hroot, normalForm_of_rooted h, ← length_rootText, drop_left]
  have hplace : place (normalForm path) = place path := by
    have hagain : place (normalForm path) = placeOf (0 < rootLength (normalForm path))
        (components ((normalForm path).drop (rootLength (normalForm path)))) := rfl
    rw [hagain, hdrop, components_joined place_parts, hroot]
    exact placeOf_partsOf place_names fun hrooted => place_ups (of_decide_eq_true hrooted)
  rw [normalForm_of_rooted (by rwa [hroot]), htext, hplace, ← normalForm_of_rooted h]

section

variable (h : rootLength path = 0)

include h

theorem normalForm_relative (hparts : partsOf (place path) = part :: parts) :
    normalForm path = joined (part :: parts) := by
  have hne : joined (part :: parts) ≠ [] :=
    joined_ne_nil (by rw [← hparts]; exact place_parts) (cons_ne_nil _ _)
  unfold normalForm
  rw [rootText_relative h, hparts]
  exact if_neg fun hempty => hne hempty.1

theorem normalForm_nothing (hparts : partsOf (place path) = []) :
    normalForm path = [] ∨ normalForm path = [46] := by
  unfold normalForm
  rw [rootText_relative h, hparts]
  dsimp only
  split
  · exact .inr rfl
  · exact .inl rfl

theorem turnsDrive_iff (hparts : partsOf (place path) = part :: parts) :
    TurnsDrive path ↔ driveRoot (joined (part :: parts)) := by
  have hpart : IsComponent part := place_parts part (by rw [hparts]; exact mem_cons_self)
  rw [driveRoot_joined hpart]
  constructor
  · rintro ⟨-, drive, next, others, heq, hdrive⟩
    rw [hparts] at heq
    obtain ⟨rfl, rfl⟩ := List.cons.inj heq
    exact ⟨hdrive, cons_ne_nil _ _⟩
  · rintro ⟨hdrive, hne⟩
    obtain ⟨next, others, rfl⟩ := exists_cons_of_ne_nil hne
    exact ⟨h, part, next, others, hparts, hdrive⟩

end

/-- **The root stays**, unless a relative path turns into one with a drive. -/
theorem rootLength_normalForm :
    rootLength (normalForm path) = rootLength path ↔ ¬ TurnsDrive path := by
  by_cases h : rootLength path = 0
  · cases hparts : partsOf (place path) with
    | nil =>
      have hnot : ¬ TurnsDrive path := by
        rintro ⟨-, drive, next, others, heq, -⟩
        rw [hparts] at heq
        nomatch heq
      refine ⟨fun _ => hnot, fun _ => ?_⟩
      obtain heq | heq := normalForm_nothing h hparts
      · rw [heq, h]
        rfl
      · rw [heq, h]
        rfl
    | cons part parts =>
      have hpart : IsComponent part := place_parts part (by rw [hparts]; exact mem_cons_self)
      rw [normalForm_relative h hparts, rootLength_joined hpart, turnsDrive_iff h hparts, h]
      by_cases hdrive : driveRoot (joined (part :: parts))
      · rw [if_pos hdrive]
        exact ⟨nofun, fun hnot => absurd hdrive hnot⟩
      · rw [if_neg hdrive]
        exact ⟨fun _ => hdrive, fun _ => rfl⟩
  · exact ⟨fun _ hturns => h hturns.1, fun _ => (normalForm_rooted h).1⟩

/-- A path that turns into one with a drive is written in the same way again. -/
theorem normalForm_drive {drive next : List UInt8} {others : List (List UInt8)}
    (h : rootLength path = 0) (hparts : partsOf (place path) = drive :: next :: others)
    (hdrive : IsDrive drive) : normalForm (normalForm path) = normalForm path := by
  obtain ⟨letter, hletter, rfl⟩ := hdrive
  have hups : (place path).ups = 0 := by
    unfold partsOf at hparts
    cases hcount : (place path).ups with
    | zero => rfl
    | succ count =>
      rw [hcount] at hparts
      obtain ⟨heq, -⟩ := List.cons.inj hparts
      nomatch heq
  have hnames : (place path).names = [letter, 58] :: next :: others := by
    unfold partsOf at hparts
    rwa [hups] at hparts
  have hbehind : ∀ name ∈ next :: others, IsName name := fun name hname =>
    place_names name (by rw [hnames]; exact mem_cons_of_mem _ hname)
  have htext : normalForm path = letter :: 58 :: 47 :: joined (next :: others) := by
    rw [normalForm_relative h hparts, joined_cons_cons]
    rfl
  have hroot := rootLength_drive hletter (joined (next :: others))
  have hplace : place (letter :: 58 :: 47 :: joined (next :: others)) = ⟨0, next :: others⟩ := by
    unfold place
    rw [hroot]
    change placeOf true (components (joined (next :: others))) = _
    rw [components_joined fun part hpart => (hbehind part hpart).1]
    exact @placeOf_partsOf true ⟨0, next :: others⟩ hbehind fun _ => rfl
  rw [htext, normalForm_of_rooted (by rw [hroot]; decide), hplace]
  unfold rootText
  rw [hroot]
  rfl

/-- **Normalizing again changes nothing.** -/
theorem normalForm_normalForm : normalForm (normalForm path) = normalForm path := by
  by_cases h : rootLength path = 0
  · cases hparts : partsOf (place path) with
    | nil =>
      obtain heq | heq := normalForm_nothing h hparts
      · rw [heq]
        rfl
      · rw [heq]
        rfl
    | cons part parts =>
      by_cases hturns : TurnsDrive path
      · obtain ⟨-, drive, next, others, hdrive, hletter⟩ := hturns
        exact normalForm_drive h hdrive hletter
      have hroot : rootLength (normalForm path) = 0 := (rootLength_normalForm.mpr hturns).trans h
      have htext := normalForm_relative h hparts
      have hplace : place (normalForm path) = place path := by
        unfold place
        rw [hroot, h]
        change placeOf false (components (normalForm path)) = placeOf false (components path)
        rw [htext, ← hparts, components_joined place_parts]
        have hagain := @placeOf_partsOf false (place path) place_names nofun
        rw [hagain]
        unfold place
        rw [h]
        rfl
      rw [normalForm_relative hroot (by rw [hplace, hparts]), htext]
  · exact (normalForm_rooted h).2

end

end Raz.Path
