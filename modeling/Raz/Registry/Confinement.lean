import Raz.Registry.Store

/-!
# Confinement of the package store

Which paths are created, written or removed. The path of a record of an archive is checked, and an
archive stays inside the entry of the store that it is extracted to, if the checksum of the entry is
one plain component and the store root is there.

Result: `registryExtractArchive_safe`: what the extraction of an archive touches.
-/

namespace Raz.Registry

open List Option

variable {path : List UInt8} {line : IndexLine}

/-! ## Paths of records -/

theorem safeComponent_iff {component : List UInt8} :
    safeComponent component = true ↔ component ≠ ascii ".." ∧ component ≠ [] := by
  rw [safeComponent, Bool.and_eq_true, decide_eq_true_eq, decide_eq_true_eq]

theorem safeLoop_iff (rest : List UInt8) : ∀ component : List UInt8, 47 ∉ component →
    (safeLoop component rest = true ↔
      (∀ c ∈ (component ++ rest).splitOn 47, c ≠ ascii ".." ∧ c ≠ []) ∧ 92 ∉ rest ∧
        58 ∉ rest) := by
  induction rest with
  | nil =>
    intro component hcomp
    rw [safeLoop, append_nil, splitOn_eq_singleton hcomp, forall_mem_singleton,
      safeComponent_iff]
    exact ⟨fun h => ⟨h, not_mem_nil, not_mem_nil⟩, And.left⟩
  | cons b rest ih =>
    intro component hcomp
    rw [safeLoop]
    split
    · rename_i hslash
      subst hslash
      rw [splitOn_append_cons_self_of_not_mem hcomp, forall_mem_cons,
        Bool.and_eq_true, safeComponent_iff, ih [] not_mem_nil, nil_append]
      constructor
      · rintro ⟨hc, hall, h92, h58⟩
        exact ⟨⟨hc, hall⟩, not_mem_cons_of_ne_of_not_mem (by decide) h92,
          not_mem_cons_of_ne_of_not_mem (by decide) h58⟩
      · rintro ⟨⟨hc, hall⟩, h92, h58⟩
        exact ⟨hc, hall, not_mem_of_not_mem_cons h92, not_mem_of_not_mem_cons h58⟩
    rename_i hslash
    split
    · rename_i hbad
      rcases Bool.or_eq_true_iff.mp hbad with hbad | hbad
      · obtain rfl := of_decide_eq_true hbad
        exact ⟨nofun, fun h => absurd mem_cons_self h.2.1⟩
      · obtain rfl := of_decide_eq_true hbad
        exact ⟨nofun, fun h => absurd mem_cons_self h.2.2⟩
    · rename_i hgood
      obtain ⟨h92, h58⟩ := not_or.mp (mt Bool.or_eq_true_iff.mpr hgood)
      have hnot : 47 ∉ component ++ [b] := by
        rw [mem_append, mem_singleton]
        exact not_or.mpr ⟨hcomp, fun h => hslash h.symm⟩
      rw [ih _ hnot, append_assoc, singleton_append, mem_cons, mem_cons, not_or, not_or]
      rw [decide_eq_true_eq] at h92 h58
      exact ⟨fun ⟨hall, h1, h2⟩ => ⟨hall, ⟨fun h => h92 h.symm, h1⟩, ⟨fun h => h58 h.symm, h2⟩⟩,
        fun ⟨hall, h1, h2⟩ => ⟨hall, h1.2, h2.2⟩⟩

/-- **What the check of a path comes to**: no component is empty or `..`, and there is no backslash
and no colon. -/
theorem registrySafeArchivePath_iff :
    registrySafeArchivePath path = true ↔
      (∀ c ∈ path.splitOn 47, c ≠ ascii ".." ∧ c ≠ []) ∧ 92 ∉ path ∧ 58 ∉ path := by
  unfold registrySafeArchivePath
  cases path with
  | nil =>
    refine ⟨nofun, fun h => ?_⟩
    exact absurd rfl (h.1 [] mem_cons_self).2
  | cons b path =>
    rw [if_neg (cons_ne_nil _ _)]
    split
    · rename_i hfirst
      refine ⟨nofun, fun h => ?_⟩
      rcases Bool.or_eq_true_iff.mp hfirst with hfirst | hfirst
      · obtain rfl := some.inj (of_decide_eq_true hfirst)
        have hcomps : (47 :: path).splitOn 47 = [] :: path.splitOn (47 : UInt8) :=
          splitOn_append_cons_self_of_not_mem not_mem_nil path
        rw [hcomps] at h
        exact absurd rfl (h.1 [] mem_cons_self).2
      · obtain rfl := some.inj (of_decide_eq_true hfirst)
        exact absurd mem_cons_self h.2.1
    · exact safeLoop_iff _ [] not_mem_nil

/-! ## Paths that are touched -/

/-- What a resolution does to the file system: a path that it creates, writes or removes, or a
directory that the runtime copies a tree to, under the names that the tree has. -/
inductive Touch where
  | path (path : List UInt8)
  | tree (path : List UInt8)
  deriving DecidableEq, Repr

/-- The runtime, with a log of what it is told to touch. A directory that exists is not touched, and
what the project keeps about a package is no part of the store. -/
def Runtime.logged {σ : Type} (rt : Runtime σ) : Runtime (σ × List Touch) where
  pathExists s := rt.pathExists s.1
  treeList s := rt.treeList s.1
  read s := rt.read s.1
  createDirOne s path := ((rt.createDirOne s.1 path).1, (rt.createDirOne s.1 path).2,
    if (rt.createDirOne s.1 path).1 = .created then s.2 ++ [.path path] else s.2)
  write s path data :=
    ((rt.write s.1 path data).1, (rt.write s.1 path data).2, s.2 ++ [.path path])
  removePath s path := (rt.removePath s.1 path, s.2 ++ [.path path])
  copyTree s source output :=
    ((rt.copyTree s.1 source output).1, (rt.copyTree s.1 source output).2, s.2 ++ [.tree output])
  httpGet s := rt.httpGet s.1
  verifySignature := rt.verifySignature
  trackPackage s name version path checksum :=
    ((rt.trackPackage s.1 name version path checksum).1,
      (rt.trackPackage s.1 name version path checksum).2, s.2)

/-- One name in a directory. -/
structure PlainComponent (component : List UInt8) : Prop where
  ne : component ≠ []
  not_dot : component ≠ ascii "."
  not_parent : component ≠ ascii ".."
  slash : 47 ∉ component
  backslash : 92 ∉ component

/-- A relative path that stays below where it starts. -/
structure Below (path : List UInt8) : Prop where
  down : ∀ c ∈ path.splitOn 47, c ≠ ascii ".."
  backslash : 92 ∉ path
  colon : 58 ∉ path

/-- A path is the entry of a checksum in the store or below it. -/
inductive Inside (root checksum : List UInt8) : List UInt8 → Prop
  | entry : Inside root checksum (root ++ 47 :: checksum)
  | below {path : List UInt8} (below : Below path) :
      Inside root checksum (root ++ 47 :: checksum ++ 47 :: path)

/-- Only the entry of a plain checksum is touched. -/
def Confined (root checksum : List UInt8) : Touch → Prop
  | .path path => PlainComponent checksum ∧ Inside root checksum path
  | .tree _ => False

/-! ## States -/

section
variable {σ : Type} {rt : Runtime σ} {root checksum : List UInt8}

/-- What the calls of the runtime keep true of the file system, if they only change what is inside
entries of the store: with `stands` the store root is a directory, and no directory above it is
missing either. -/
structure Keeps (rt : Runtime σ) (root : List UInt8) (stands : Bool) (good : σ → Prop) : Prop where
  above : ∀ s path, good s → path <+: root →
    good (rt.createDirOne s path).2 ∧ (stands = true → (rt.createDirOne s path).1 ≠ .created)
  createDirOne : ∀ s checksum path, good s → PlainComponent checksum → Inside root checksum path →
    good (rt.createDirOne s path).2
  write : ∀ s checksum path data, good s → PlainComponent checksum → Inside root checksum path →
    good (rt.write s path data).2
  removePath : ∀ s checksum path, good s → PlainComponent checksum → Inside root checksum path →
    good (rt.removePath s path)

/-- The file system is as it should be, and all that was touched is allowed. -/
structure Safe (good : σ → Prop) (allowed : Touch → Prop) (s : σ × List Touch) : Prop where
  good : good s.1
  log : ∀ touch ∈ s.2, allowed touch

variable {good : σ → Prop} {allowed : Touch → Prop} {s : σ × List Touch}

theorem Safe.ite {p : Prop} [Decidable p] {α : Type} {a b : α × σ × List Touch}
    (ha : Safe good allowed a.2) (hb : Safe good allowed b.2) :
    Safe good allowed (if p then a else b).2 := by
  split
  · exact ha
  · exact hb

/-- What a safe step may touch: the entry of a plain checksum, where the store root stands. -/
structure Permits (rt : Runtime σ) (root : List UInt8) (good : σ → Prop) (allowed : Touch → Prop)
    (checksum : List UInt8) : Prop where
  keeps : Keeps rt root true good
  plain : PlainComponent checksum
  allows : ∀ touch, Confined root checksum touch → allowed touch

section

variable (h : Permits rt root good allowed checksum) (hs : Safe good allowed s)

include h hs

theorem Safe.createDirOne (hpath : path <+: root ∨ Inside root checksum path) :
    Safe good allowed (rt.logged.createDirOne s path).2 := by
  obtain habove | hinside := hpath
  · obtain ⟨hgood, hfound⟩ := h.keeps.above s.1 path hs.good habove
    refine ⟨hgood, ?_⟩
    show ∀ touch ∈ (if (rt.createDirOne s.1 path).1 = .created then _ else _), allowed touch
    rw [if_neg (hfound rfl)]
    exact hs.log
  · refine ⟨h.keeps.createDirOne s.1 checksum path hs.good h.plain hinside, ?_⟩
    show ∀ touch ∈ (if (rt.createDirOne s.1 path).1 = .created then _ else _), allowed touch
    split
    · exact forall_mem_append.mpr
        ⟨hs.log, forall_mem_singleton.mpr (h.allows _ ⟨h.plain, hinside⟩)⟩
    · exact hs.log

theorem Safe.write (hinside : Inside root checksum path) (data : List UInt8) :
    Safe good allowed (rt.logged.write s path data).2 :=
  ⟨h.keeps.write s.1 checksum path data hs.good h.plain hinside, forall_mem_append.mpr
    ⟨hs.log, forall_mem_singleton.mpr (h.allows _ ⟨h.plain, hinside⟩)⟩⟩

theorem Safe.removePath (hinside : Inside root checksum path) :
    Safe good allowed (rt.logged.removePath s path) :=
  ⟨h.keeps.removePath s.1 checksum path hs.good h.plain hinside, forall_mem_append.mpr
    ⟨hs.log, forall_mem_singleton.mpr (h.allows _ ⟨h.plain, hinside⟩)⟩⟩

end

/-! ## Directories -/

theorem parentPath_append {front back : List UInt8} (h : 47 ∉ back) :
    parentPath (front ++ 47 :: back) = front := by
  rw [parentPath, reverse_append, reverse_cons, append_assoc,
    dropWhile_append_of_pos, singleton_append, dropWhile_cons_of_neg (by decide),
    tail_cons, reverse_reverse]
  intro b hb
  exact decide_eq_true fun heq => h (heq ▸ mem_reverse.mp hb)

theorem last_component (path : List UInt8) :
    47 ∉ path ∨ ∃ front back, path = front ++ 47 :: back ∧ 47 ∉ back := by
  induction path with
  | nil => exact .inl not_mem_nil
  | cons b path ih =>
    rcases ih with hnot | ⟨front, back, rfl, hback⟩
    · rcases Classical.em (b = 47) with rfl | hb
      · exact .inr ⟨[], path, rfl, hnot⟩
      · exact .inl (not_mem_cons_of_ne_of_not_mem (fun h => hb h.symm) hnot)
    · exact .inr ⟨b :: front, back, rfl, hback⟩

theorem Below.front {front back : List UInt8} (h : Below (front ++ 47 :: back)) : Below front where
  down c hc := h.down c (by
    rw [List.splitOn_append_cons_self]
    exact List.mem_append_left _ hc)
  backslash hmem := h.backslash (List.mem_append_left _ hmem)
  colon hmem := h.colon (List.mem_append_left _ hmem)

/-- The directories of the paths below an entry are the entry itself or below it. -/
theorem Below.parent_inside (h : Below path) :
    Inside root checksum (parentPath (root ++ 47 :: checksum ++ 47 :: path)) := by
  rcases last_component path with hnot | ⟨front, back, rfl, hback⟩
  · rw [parentPath_append hnot]
    exact .entry
  have hpath : root ++ 47 :: checksum ++ 47 :: (front ++ 47 :: back) =
      (root ++ 47 :: checksum ++ 47 :: front) ++ 47 :: back := by
    rw [append_assoc (root ++ 47 :: checksum), cons_append]
  rw [hpath, parentPath_append hback]
  exact .below h.front

theorem below_nil : Below [] where
  down c hc := by
    rw [splitOn_eq_singleton not_mem_nil, mem_singleton] at hc
    subst hc
    decide
  backslash := not_mem_nil
  colon := not_mem_nil

theorem packageAppend_fits {capacity : Nat} {output data : List UInt8}
    (h : output.length + data.length ≤ capacity) :
    (packageAppend capacity output data).2 = output ++ data := by
  rw [packageAppend, if_neg (Nat.not_lt.mpr h)]

/-- Where a path is cut in front of a separator, or not at all. -/
theorem boundary_split {index : Nat} (h : boundary path index = true) :
    path.take index = path ∨
      ∃ b back, (b = 47 ∨ b = 92) ∧ path = path.take index ++ b :: back := by
  obtain hend | hsep := Bool.or_eq_true_iff.mp h
  · left
    rw [of_decide_eq_true hend, take_length]
  right
  cases hget : path[index]? with
  | none =>
    rw [hget] at hsep
    nomatch hsep
  | some b =>
    rw [hget] at hsep
    obtain ⟨hlt, rfl⟩ := List.getElem?_eq_some_iff.mp hget
    refine ⟨path[index], path.drop (index + 1), ?_, ?_⟩
    · exact (Bool.or_eq_true_iff.mp hsep).imp of_decide_eq_true of_decide_eq_true
    · rw [List.getElem_cons_drop, take_append_drop]

section

variable (hplain : PlainComponent checksum)

include hplain

theorem entry_split {front back : List UInt8} {b : UInt8} (hb : b = 47 ∨ b = 92)
    (h : root ++ 47 :: checksum = front ++ b :: back) : front <+: root := by
  obtain ⟨behind, hroot, -⟩ | ⟨behind, hfront, hbehind⟩ := append_eq_append_iff.mp h.symm
  · exact hroot ▸ prefix_append _ _
  cases behind with
  | nil =>
    exact ⟨[], by rw [append_nil, hfront, append_nil]⟩
  | cons c behind =>
    obtain ⟨-, hchecksum⟩ := cons_eq_cons.mp hbehind
    have hmem : b ∈ checksum := hchecksum ▸ mem_append_right _ mem_cons_self
    rcases hb with rfl | rfl
    · exact absurd hmem hplain.slash
    · exact absurd hmem hplain.backslash

/-- **The directories on the way to a path** are above the store root, or inside the entry too. -/
theorem take_inside (hpath : path <+: root ∨ Inside root checksum path) {index : Nat}
    (h : boundary path index = true) :
    path.take index <+: root ∨ Inside root checksum (path.take index) := by
  obtain hwhole | ⟨b, back, hb, hsplit⟩ := boundary_split h
  · rw [hwhole]
    exact hpath
  generalize path.take index = front at hsplit ⊢
  subst hsplit
  obtain habove | hinside := hpath
  · exact .inl ((prefix_append _ _).trans habove)
  generalize hwhole : front ++ b :: back = whole at hinside
  cases hinside with
  | entry => exact .inl (entry_split hplain hb hwhole.symm)
  | below hbelow =>
    obtain ⟨behind, hentry, hbehind⟩ | ⟨behind, hfront, hbehind⟩ := append_eq_append_iff.mp hwhole
    · cases behind with
      | nil =>
        rw [append_nil] at hentry
        exact .inr (hentry ▸ .entry)
      | cons c behind =>
        obtain ⟨rfl, -⟩ := cons_eq_cons.mp hbehind
        exact .inl (entry_split hplain hb hentry)
    · cases behind with
      | nil =>
        rw [append_nil] at hfront
        exact .inr (hfront ▸ .entry)
      | cons c behind =>
        obtain ⟨rfl, rfl⟩ := cons_eq_cons.mp hbehind
        rcases hb with rfl | rfl
        · exact .inr (hfront ▸ .below hbelow.front)
        · exact absurd (mem_append_right _ mem_cons_self) hbelow.backslash

end

theorem Safe.createDirectoriesLoop (h : Permits rt root good allowed checksum)
    (hpath : path <+: root ∨ Inside root checksum path) (lengths : List Nat) :
    ∀ {s : σ × List Touch}, Safe good allowed s →
      Safe good allowed (createDirectoriesLoop rt.logged path lengths s).2 := by
  induction lengths with
  | nil => exact id
  | cons index lengths ih =>
    intro s hs
    rw [Registry.createDirectoriesLoop]
    split
    · rename_i hboundary
      have hcreated := hs.createDirOne h (take_inside h.plain hpath hboundary)
      refine .ite ?_ ?_
      · exact hcreated
      · exact ih hcreated
    · exact ih hs

theorem Safe.createDir (h : Permits rt root good allowed checksum) (hs : Safe good allowed s)
    (hpath : path <+: root ∨ Inside root checksum path) :
    Safe good allowed (rt.logged.createDir s path).2 := by
  unfold Runtime.createDir
  refine .ite ?_ ?_
  · exact hs
  · exact hs.createDirectoriesLoop h hpath _

/-! ## Extraction -/

/-- The path of a record is inside of an entry that fits into the buffer, and so is its directory,
or that is the store root where nothing fits behind the entry. -/
theorem recordPath_inside (hlength : (root ++ 47 :: checksum).length ≤ 8192)
    (hplain : PlainComponent checksum) (hbelow : Below path) (hne : path ≠ []) :
    Inside root checksum (recordPath (root ++ 47 :: checksum) path) ∧
      (parentPath (recordPath (root ++ 47 :: checksum) path) <+: root ∨
        Inside root checksum (parentPath (recordPath (root ++ 47 :: checksum) path))) := by
  have hslash : ascii "/" = [47] := by decide
  have hentry : (packageAppend 8192 [] (root ++ 47 :: checksum)).2 = root ++ 47 :: checksum :=
    packageAppend_fits (by rwa [length_nil, Nat.zero_add])
  simp only [recordPath]
  rw [hentry, hslash]
  rcases Nat.eq_or_lt_of_le hlength with hfull | hlt
  · have hpos := length_pos_iff.mpr hne
    have hdrop {data : List UInt8} (hdata : 0 < data.length) :
        (packageAppend 8192 (root ++ 47 :: checksum) data).2 = root ++ 47 :: checksum := by
      rw [packageAppend, if_pos (by omega)]
    rw [hdrop (by decide), hdrop hpos, parentPath_append hplain.slash]
    exact ⟨.entry, .inl (prefix_refl _)⟩
  have hparent {rest : List UInt8} (hrest : Below rest) :
      Inside root checksum (root ++ 47 :: checksum ++ 47 :: rest) ∧
        (parentPath (root ++ 47 :: checksum ++ 47 :: rest) <+: root ∨
          Inside root checksum (parentPath (root ++ 47 :: checksum ++ 47 :: rest))) :=
    ⟨.below hrest, .inr hrest.parent_inside⟩
  rw [@packageAppend_fits _ _ [47] hlt, packageAppend]
  split
  · exact hparent below_nil
  · have hpath : root ++ 47 :: checksum ++ [47] ++ path = root ++ 47 :: checksum ++ 47 :: path := by
      rw [append_assoc _ [47], singleton_append]
    rw [hpath]
    exact hparent hbelow

theorem archiveRecord_below {line data : List UInt8} (h : archiveRecord line = some (path, data)) :
    Below path ∧ path ≠ [] := by
  unfold archiveRecord at h
  simp only at h
  split at h
  · cases h
  split at h
  · cases h
  obtain ⟨path', -, h⟩ := bind_eq_some_iff.mp h
  obtain ⟨data', -, h⟩ := bind_eq_some_iff.mp h
  split at h
  · cases h
  rename_i hsafe
  obtain ⟨rfl, rfl⟩ := Prod.mk.inj (some.inj h)
  obtain ⟨hne, hpath⟩ := not_or.mp (mt Bool.or_eq_true_iff.mpr hsafe)
  rw [Bool.not_eq_true', Bool.not_eq_false] at hpath
  obtain ⟨hall, h92, h58⟩ := registrySafeArchivePath_iff.mp hpath
  exact ⟨⟨fun c hc => (hall c hc).1, h92, h58⟩, fun hnil => hne (decide_eq_true hnil)⟩

section

variable (h : Permits rt root good allowed checksum)
  (hlength : (root ++ 47 :: checksum).length ≤ 8192)

include h hlength

theorem extractRecord_safe (line : List UInt8) (hs : Safe good allowed s) :
    Safe good allowed (extractRecord rt.logged (root ++ 47 :: checksum) line s).2 := by
  unfold extractRecord
  cases hrecord : archiveRecord line with
  | none => exact hs
  | some record =>
    obtain ⟨path, data⟩ := record
    obtain ⟨hbelow, hne⟩ := archiveRecord_below hrecord
    obtain ⟨hinside, hparent⟩ := recordPath_inside hlength h.plain hbelow hne
    -- the directory of the path comes first, then the path itself
    have hwritten {created : Bool × σ × List Touch} (hs : Safe good allowed created.2) :
        Safe good allowed
          (if !created.1 then (65, created.2)
          else if (rt.logged.write created.2 (recordPath (root ++ 47 :: checksum) path) data).1 then
            (0, (rt.logged.write created.2 (recordPath (root ++ 47 :: checksum) path) data).2)
          else
            ((65, (rt.logged.write created.2 (recordPath (root ++ 47 :: checksum) path) data).2) :
              Int × σ × List Touch)).2 := by
      refine .ite ?_ (.ite ?_ ?_)
      · exact hs
      · exact hs.write h hinside data
      · exact hs.write h hinside data
    dsimp only
    split
    · exact hwritten hs
    · exact hwritten (hs.createDir h hparent)

theorem extractLoop_safe (lines : List (List UInt8)) :
    ∀ {s : σ × List Touch}, Safe good allowed s →
      Safe good allowed (extractLoop rt.logged (root ++ 47 :: checksum) lines s).2 := by
  induction lines with
  | nil => exact id
  | cons line lines ih =>
    intro s hs
    have hrecord := extractRecord_safe h hlength line hs
    rw [extractLoop]
    split <;> rename_i heq
    · rw [heq] at hrecord
      exact ih hrecord
    · rw [heq] at hrecord
      exact hrecord

/-- **An archive stays inside the entry that it is extracted to.** -/
theorem registryExtractArchive_safe (archive : List UInt8) (hs : Safe good allowed s) :
    Safe good allowed
      (registryExtractArchive rt.logged archive (root ++ 47 :: checksum) s).2 := by
  unfold registryExtractArchive
  split
  · exact hs
  · have hs := (hs.removePath h .entry).createDir h (.inr .entry)
    refine .ite ?_ ?_
    · exact hs
    · exact extractLoop_safe h hlength _ hs

end

end

end Raz.Registry
