import Raz.Registry.Archive

/-!
# The hash of a package tree

A tree is a finite map from relative paths to contents, and the bytes that are hashed are its files
one after the other: the path, a 0, the contents and a 255. Paths that are ignored are left out, of
a file 33554432 bytes are read at most, and nothing says how long the contents are.

Result: `tree_bytes_iff`: no tree is the only one with its bytes; as long as nothing is cut off, the
files that are not ignored are determined by the bytes if and only if there is at most one of them,
and no later path can be read inside its contents.
-/

namespace Raz.Registry

open List

variable {file : File} {files : List File} {a b : List UInt8}

/-! ## Trees -/

/-- The order in which the runtime lists paths. -/
structure PathOrder where
  le : List UInt8 → List UInt8 → Bool
  trans : ∀ {a b c}, le a b = true → le b c = true → le a c = true
  total : ∀ a b, le a b = true ∨ le b a = true
  antisymm : ∀ {a b}, le a b = true → le b a = true → a = b

/-- The path comes earlier. -/
def PathOrder.Before (order : PathOrder) (a b : List UInt8) : Prop := order.le a b = true ∧ a ≠ b

/-- A relative path as the file system has them. -/
structure RelativePath (path : List UInt8) : Prop where
  components : ∀ c ∈ path.splitOn 47, c ≠ [] ∧ c ≠ ascii "." ∧ c ≠ ascii ".."
  nul : 0 ∉ path
  newline : 10 ∉ path

theorem RelativePath.ne {path : List UInt8} (h : RelativePath path) : path ≠ [] := by
  rintro rfl
  exact (h.components [] (by rw [splitOn_eq_singleton not_mem_nil]; decide)).1 rfl

/-- A file: its path and its contents. -/
abbrev File := List UInt8 × List UInt8

/-- The files of a directory in order. -/
@[ext]
structure Tree (order : PathOrder) where
  files : List File
  sorted : files.Pairwise (fun a b => order.Before a.1 b.1)
  relative : ∀ file ∈ files, RelativePath file.1

/-- The files that are packed and hashed. -/
def keptFiles (files : List File) : List File :=
  files.filter (fun file => !registryPackagePathIgnored file.1)

def fileBytes (file : File) : List UInt8 := file.1 ++ 0 :: (file.2 ++ [255])

def filesBytes (files : List File) : List UInt8 := files.flatMap fileBytes

/-- What is read of a file. -/
def readPart (file : File) : File := (file.1, file.2.take 33554432)

namespace Tree
variable {order : PathOrder}

def kept (t : Tree order) : List File := keptFiles t.files

/-- The bytes that are hashed. -/
def bytes (t : Tree order) : List UInt8 := filesBytes (t.kept.map readPart)

end Tree

/-! ## The walk -/

/-- The runtime answers with these files below a root. -/
structure Serves {σ : Type} (rt : Runtime σ) (s : σ) (root : List UInt8) (files : List File) :
    Prop where
  listing : (rt.treeList s root 4194304).map textLines = some (files.map Prod.fst)
  read : ∀ file ∈ keptFiles files, rt.read s (packagePath root file.1) 33554432 = some file.2

theorem filesBytes_cons (file : File) (files : List File) :
    filesBytes (file :: files) = file.1 ++ 0 :: (file.2 ++ 255 :: filesBytes files) := by
  rw [filesBytes, flatMap_cons, fileBytes, append_assoc, cons_append,
    append_assoc, singleton_append, filesBytes]

section
variable {σ : Type} {rt : Runtime σ} {s : σ} {root : List UInt8} {α : Type}

theorem keptFiles_cons_ignored (h : registryPackagePathIgnored file.1 = true) (files : List File) :
    keptFiles (file :: files) = keptFiles files :=
  filter_cons_of_neg (by rw [h]; exact Bool.false_ne_true)

theorem keptFiles_cons_kept (h : registryPackagePathIgnored file.1 = false) (files : List File) :
    keptFiles (file :: files) = file :: keptFiles files :=
  filter_cons_of_pos (by rw [h]; rfl)

theorem treeLoop_eq (step : α → UInt8 → α) (files : List File) :
    ∀ hash : α, (∀ file ∈ keptFiles files,
        rt.read s (packagePath root file.1) 33554432 = some file.2) →
      treeLoop rt step s root hash (files.map Prod.fst) =
        some ((filesBytes (keptFiles files)).foldl step hash) := by
  induction files with
  | nil => exact fun _ _ => rfl
  | cons file files ih =>
    intro hash hread
    rw [map_cons, treeLoop]
    cases hignored : registryPackagePathIgnored file.1 with
    | true =>
      rw [keptFiles_cons_ignored hignored] at hread ⊢
      rw [if_pos rfl]
      exact ih _ hread
    | false =>
      rw [keptFiles_cons_kept hignored] at hread ⊢
      obtain ⟨hfile, hread⟩ := forall_mem_cons.mp hread
      rw [if_neg Bool.false_ne_true, hfile]
      simp only
      rw [ih _ hread, filesBytes_cons, foldl_append, foldl_cons, foldl_append, foldl_cons]

theorem Serves.treeFold_eq (h : Serves rt s root files) (step : α → UInt8 → α) (start : α) :
    treeFold rt step start s root = some ((filesBytes (keptFiles files)).foldl step start) := by
  obtain ⟨listing, hlisting, hlines⟩ := Option.map_eq_some_iff.mp h.listing
  rw [treeFold, hlisting]
  simp only
  rw [hlines]
  exact treeLoop_eq step files start h.read

theorem foldl_concat (bytes : List UInt8) : ∀ front : List UInt8,
    bytes.foldl (fun bytes b => bytes ++ [b]) front = front ++ bytes := by
  induction bytes with
  | nil => exact fun front => (append_nil front).symm
  | cons b bytes ih =>
    intro front
    rw [foldl_cons, ih, append_assoc, singleton_append]

variable {order : PathOrder} {t : Tree order}

theorem keptFiles_map_readPart (files : List File) :
    keptFiles (files.map readPart) = (keptFiles files).map readPart := filter_map

/-- **The bytes that are fed to the hash.** -/
theorem registryTreeBytes_eq (h : Serves rt s root (t.files.map readPart)) :
    registryTreeBytes rt s root = some t.bytes := by
  rw [registryTreeBytes, h.treeFold_eq, foldl_concat, nil_append, keptFiles_map_readPart]
  rfl

/-- **The hash of files that are read as a whole.** -/
theorem registryTreeHash_eq (h : Serves rt s root t.files) :
    registryTreeHash rt s root = (filesBytes t.kept).foldl hashByte 1469598103934665603 := by
  rw [registryTreeHash, h.treeFold_eq]
  rfl

end

/-! ## Ignored paths -/

namespace PathOrder
variable (order : PathOrder)

theorem Before.trans {c : List UInt8} (hab : order.Before a b) (hbc : order.Before b c) :
    order.Before a c := by
  refine ⟨order.trans hab.1 hbc.1, ?_⟩
  rintro rfl
  exact hab.2 (order.antisymm hab.1 hbc.1)

theorem Before.asymm (hab : order.Before a b) : ¬ order.Before b a :=
  fun hba => hab.2 (order.antisymm hab.1 hba.1)

theorem before_or (hne : a ≠ b) : order.Before a b ∨ order.Before b a :=
  (order.total a b).imp (fun h => ⟨h, hne⟩) (fun h => ⟨h, hne.symm⟩)

instance (a b : List UInt8) : Decidable (order.Before a b) := inferInstanceAs (Decidable (_ ∧ _))

end PathOrder

namespace Tree
variable {order : PathOrder} (t : Tree order)

theorem contents_unique {t : Tree order} {path : List UInt8} (ha : (path, a) ∈ t.files)
    (hb : (path, b) ∈ t.files) : a = b := by
  have hdist := List.Pairwise.forall_of_forall_of_flip
    (R := fun x y : File => x.1 = y.1 → x = y) (fun _ _ _ => rfl)
    (t.sorted.imp fun h heq => absurd heq h.2) (t.sorted.imp fun h heq => absurd heq.symm h.2)
  exact (Prod.mk.inj (hdist ha hb rfl)).2

theorem kept_sorted : t.kept.Pairwise (fun a b => order.Before a.1 b.1) := t.sorted.filter _

/-- The files in front of a path and those behind it are all the files but the one at the path. -/
theorem files_split (path : List UInt8) : ∀ files : List File,
    files.Pairwise (fun a b => order.Before a.1 b.1) → path ∉ files.map Prod.fst →
      files.filter (fun file => order.Before file.1 path) ++
        files.filter (fun file => order.Before path file.1) = files := by
  intro files
  induction files with
  | nil => exact fun _ _ => rfl
  | cons file files ih =>
    intro hsorted hpath
    obtain ⟨hfirst, hsorted⟩ := pairwise_cons.mp hsorted
    rw [map_cons, mem_cons, not_or] at hpath
    rcases order.before_or hpath.1 with hbefore | hbefore
    · -- all the other files are behind the path, too
      have hall : ∀ other ∈ files, order.Before path other.1 :=
        fun other hother => hbefore.trans order (hfirst other hother)
      rw [filter_cons, filter_cons,
        if_neg (fun h => hbefore.asymm order (of_decide_eq_true h)),
        if_pos (decide_eq_true hbefore), filter_eq_nil_iff.mpr, nil_append,
        filter_eq_self.mpr]
      · exact fun other hother => decide_eq_true (hall other hother)
      · intro other hother h
        exact (hall other hother).asymm order (of_decide_eq_true h)
    · rw [filter_cons, filter_cons, if_pos (decide_eq_true hbefore),
        if_neg (fun h => hbefore.asymm order (of_decide_eq_true h)), cons_append,
        ih hsorted hpath.2]

/-- The tree with an empty file at a path where it has none. -/
def withFile (path : List UInt8) (hpath : RelativePath path) : Tree order where
  files := t.files.filter (fun file => order.Before file.1 path) ++
    (path, []) :: t.files.filter (fun file => order.Before path file.1)
  sorted := by
    refine List.pairwise_append.mpr ⟨t.sorted.filter _,
      List.pairwise_cons.mpr ⟨?_, t.sorted.filter _⟩, ?_⟩
    · exact fun file hfile => of_decide_eq_true (List.mem_filter.mp hfile).2
    · intro a ha b hb
      have ha := of_decide_eq_true (List.mem_filter.mp ha).2
      rcases List.mem_cons.mp hb with rfl | hb
      · exact ha
      · exact ha.trans order (of_decide_eq_true (List.mem_filter.mp hb).2)
  relative := by
    intro file hfile
    rcases List.mem_append.mp hfile with hfile | hfile
    · exact t.relative _ (List.mem_filter.mp hfile).1
    · rcases List.mem_cons.mp hfile with rfl | hfile
      · exact hpath
      · exact t.relative _ (List.mem_filter.mp hfile).1

/-- The tree without the file at a path. -/
def withoutFile (path : List UInt8) : Tree order where
  files := t.files.filter (fun file => file.1 ≠ path)
  sorted := t.sorted.filter _
  relative _ hfile := t.relative _ (List.mem_filter.mp hfile).1

variable {t} {path : List UInt8}

theorem kept_withFile (hpath : RelativePath path)
    (hignored : registryPackagePathIgnored path = true) (hnew : path ∉ t.files.map Prod.fst) :
    (t.withFile path hpath).kept = t.kept := by
  have hsplit := files_split path t.files t.sorted hnew
  rw [kept, kept, withFile, keptFiles, keptFiles, filter_append, filter_cons_of_neg]
  · rw [← filter_append, hsplit]
  · rw [hignored]
    exact Bool.false_ne_true

theorem kept_withoutFile (hignored : registryPackagePathIgnored path = true) :
    (t.withoutFile path).kept = t.kept := by
  rw [kept, kept, withoutFile, keptFiles, keptFiles, filter_filter]
  refine filter_congr fun file _ => ?_
  rcases Classical.em (file.1 = path) with heq | hne
  · rw [heq, hignored]
    rfl
  · rw [decide_eq_true hne, Bool.and_true]

theorem relative_git : RelativePath (ascii ".git/x") where
  components := by decide
  nul := by decide
  newline := by decide

/-- **No tree is the only one with its bytes.** -/
theorem exists_same_kept (t : Tree order) : ∃ t', t' ≠ t ∧ t'.kept = t.kept := by
  have hignored : registryPackagePathIgnored (ascii ".git/x") = true := by decide
  rcases Classical.em (ascii ".git/x" ∈ t.files.map Prod.fst) with hold | hnew
  · refine ⟨t.withoutFile (ascii ".git/x"), fun heq => ?_, kept_withoutFile hignored⟩
    obtain ⟨file, hfile, hpath⟩ := mem_map.mp hold
    rw [← heq] at hfile
    exact of_decide_eq_true (mem_filter.mp hfile).2 hpath
  · refine ⟨t.withFile (ascii ".git/x") relative_git, fun heq => hnew ?_,
      kept_withFile relative_git hignored hnew⟩
    rw [← heq]
    exact mem_map_of_mem (mem_append_right _ mem_cons_self)

/-! ## Contents -/

/-- There is one file at most, and no later path can be read inside its contents: behind a 255, and
in front of a 0. -/
def Alone (t : Tree order) : Prop :=
  t.kept = [] ∨ ∃ path contents, t.kept = [(path, contents)] ∧
    ∀ front later back, contents = front ++ 255 :: (later ++ 0 :: back) →
      ¬ (RelativePath later ∧ registryPackagePathIgnored later = false ∧
        order.Before path later)

theorem filesBytes_ends (file : File) (files : List File) :
    ∃ bytes, filesBytes (file :: files) = file.1 ++ 0 :: (bytes ++ [255]) := by
  induction files generalizing file with
  | nil => exact ⟨file.2, filesBytes_cons file []⟩
  | cons next files ih =>
    obtain ⟨bytes, hbytes⟩ := ih next
    refine ⟨file.2 ++ 255 :: (next.1 ++ 0 :: bytes), ?_⟩
    rw [filesBytes_cons, hbytes, append_assoc, cons_append, append_assoc, cons_append]

/-- Files that are the kept ones of a tree. -/
structure IsKept (order : PathOrder) (files : List File) : Prop where
  sorted : files.Pairwise (fun a b => order.Before a.1 b.1)
  relative : ∀ file ∈ files, RelativePath file.1
  kept : ∀ file ∈ files, registryPackagePathIgnored file.1 = false

def ofKept {files : List File} (h : IsKept order files) : Tree order :=
  ⟨files, h.sorted, h.relative⟩

theorem kept_ofKept (h : IsKept order files) : (ofKept h).kept = files :=
  filter_eq_self.mpr fun file hfile => by rw [h.kept file hfile]; rfl

theorem isKept_one (hrelative : RelativePath file.1)
    (hkept : registryPackagePathIgnored file.1 = false) : IsKept order [file] where
  sorted := List.pairwise_singleton _ _
  relative := List.forall_mem_singleton.mpr hrelative
  kept := List.forall_mem_singleton.mpr hkept

theorem isKept_cons {next : File} (hrelative : RelativePath file.1)
    (hkept : registryPackagePathIgnored file.1 = false) (hbefore : order.Before file.1 next.1)
    (h : IsKept order (next :: files)) : IsKept order (file :: next :: files) where
  sorted := by
    refine pairwise_cons.mpr ⟨forall_mem_cons.mpr ⟨hbefore, ?_⟩, h.sorted⟩
    exact fun other hother => hbefore.trans order ((pairwise_cons.mp h.sorted).1 other hother)
  relative := forall_mem_cons.mpr ⟨hrelative, h.relative⟩
  kept := forall_mem_cons.mpr ⟨hkept, h.kept⟩

theorem kept_relative (h : file ∈ t.kept) : RelativePath file.1 :=
  t.relative _ (mem_filter.mp h).1

theorem kept_not_ignored (h : file ∈ t.kept) : registryPackagePathIgnored file.1 = false := by
  have hkept := (mem_filter.mp h).2
  rwa [Bool.not_eq_true'] at hkept

theorem isKept (t : Tree order) : IsKept order t.kept :=
  ⟨t.kept_sorted, fun _ h => kept_relative h, fun _ h => kept_not_ignored h⟩

/-- The bytes of two files or more are those of one file, and a path inside contents makes two of
one. -/
theorem Alone.of_unique
    (h : ∀ t' : Tree order, filesBytes t'.kept = filesBytes t.kept → t'.kept = t.kept) :
    t.Alone := by
  have hunique {files : List File} (hfiles : IsKept order files)
      (hbytes : filesBytes files = filesBytes t.kept) : files = t.kept := by
    have hsame := h (ofKept hfiles)
    rw [kept_ofKept] at hsame
    exact hsame hbytes
  have hisKept := t.isKept
  rcases hkept : t.kept with _ | ⟨⟨path, contents⟩, files⟩
  · exact .inl hkept
  rw [hkept] at hunique hisKept
  obtain ⟨hrelative, -⟩ := forall_mem_cons.mp hisKept.relative
  obtain ⟨hignored, -⟩ := forall_mem_cons.mp hisKept.kept
  rcases files with _ | ⟨next, files⟩
  · refine .inr ⟨path, contents, hkept, ?_⟩
    rintro front later back rfl ⟨hlater, hkeep, hbefore⟩
    have htwo : [(path, front), (later, back)] =
        [(path, front ++ 255 :: (later ++ 0 :: back))] := by
      refine hunique (isKept_cons hrelative hignored hbefore (isKept_one hlater hkeep)) ?_
      rw [filesBytes_cons, filesBytes_cons, filesBytes_cons, append_assoc, cons_append,
        append_assoc, cons_append]
    exact absurd (List.cons.inj htwo).2 (cons_ne_nil _ _)
  · obtain ⟨rest, hrest⟩ := filesBytes_ends next files
    have hone : [(path, contents ++ 255 :: (next.1 ++ 0 :: rest))] =
        (path, contents) :: next :: files := by
      refine hunique (isKept_one hrelative hignored) ?_
      rw [filesBytes_cons, filesBytes_cons, hrest, append_assoc, cons_append,
        append_assoc, cons_append]
      rfl
    exact absurd (List.cons.inj hone).2.symm (cons_ne_nil _ _)

/-- Two texts whose first 0 comes behind different fronts are different. -/
theorem front_eq {x y : List UInt8} (ha : 0 ∉ a) (hb : 0 ∉ b) (h : a ++ 0 :: x = b ++ 0 :: y) :
    a = b ∧ x = y := by
  have hsplit := congrArg (List.splitOn 0) h
  rw [splitOn_append_cons_self_of_not_mem ha, splitOn_append_cons_self_of_not_mem hb] at hsplit
  obtain rfl := (List.cons.inj hsplit).1
  exact ⟨rfl, (List.cons.inj (append_cancel_left h)).2⟩

theorem filesBytes_ne (file : File) (files : List File) : filesBytes (file :: files) ≠ [] := by
  rw [filesBytes_cons]
  exact append_ne_nil_of_right_ne_nil _ (cons_ne_nil _ _)

theorem Alone.unique (h : t.Alone) {t' : Tree order}
    (hbytes : filesBytes t'.kept = filesBytes t.kept) : t'.kept = t.kept := by
  have hisKept' := t'.isKept
  have hisKept := t.isKept
  rcases h with hnil | ⟨path, contents, hone, halone⟩
  · rw [hnil] at hbytes ⊢
    cases hkept' : t'.kept with
    | nil => rfl
    | cons file files =>
      rw [hkept'] at hbytes
      exact absurd hbytes (filesBytes_ne file files)
  rw [hone] at hbytes hisKept ⊢
  rcases hkept' : t'.kept with _ | ⟨⟨path', contents'⟩, files⟩
  · rw [hkept'] at hbytes
    exact absurd hbytes.symm (filesBytes_ne _ _)
  rw [hkept'] at hbytes hisKept'
  rw [filesBytes_cons, filesBytes_cons] at hbytes
  obtain ⟨rfl, hrest⟩ := front_eq (hisKept'.relative _ mem_cons_self).nul
    (hisKept.relative _ mem_cons_self).nul hbytes
  rcases files with _ | ⟨⟨later, back⟩, files⟩
  · have hcontents : contents' = contents := append_cancel_right hrest
    rw [hcontents]
  -- the second file is a path inside the contents
  obtain ⟨rest, hlast⟩ := filesBytes_ends (later, back) files
  rw [hlast] at hrest
  have hcontents : contents' ++ 255 :: (later ++ 0 :: rest) ++ [255] = contents ++ [255] := by
    rw [append_assoc, cons_append, append_assoc, cons_append]
    exact hrest
  have hcontents := append_cancel_right hcontents
  obtain ⟨hbefore, -⟩ := forall_mem_cons.mp (pairwise_cons.mp hisKept'.sorted).1
  obtain ⟨-, hrelative⟩ := forall_mem_cons.mp hisKept'.relative
  obtain ⟨-, hkeep⟩ := forall_mem_cons.mp hisKept'.kept
  have hrelative := hrelative (later, back) mem_cons_self
  have hkeep := hkeep (later, back) mem_cons_self
  exact absurd ⟨hrelative, hkeep, hbefore⟩ (halone _ _ _ hcontents.symm)

/-! ## Files that are cut off -/

theorem readPart_files {files : List File}
    (h : (filesBytes (files.map readPart)).length ≤ 33554432) : files.map readPart = files := by
  refine (map_congr_left fun file hfile => ?_).trans (map_id files)
  have hmem : fileBytes (readPart file) ∈ (files.map readPart).map fileBytes :=
    mem_map_of_mem (mem_map_of_mem hfile)
  have hlen := (sublist_flatten_of_mem hmem).length_le.trans h
  rw [fileBytes, length_append, length_cons, length_append, length_singleton] at hlen
  have hshort : (readPart file).2.length < 33554432 := by omega
  rw [readPart, length_take] at hshort
  exact Prod.ext rfl (take_of_length_le (by omega))

theorem bytes_of_le (h : t.bytes.length ≤ 33554432) : t.bytes = filesBytes t.kept := by
  rw [bytes] at h ⊢
  rw [readPart_files h]

theorem bytes_of_kept_le (h : (filesBytes t.kept).length ≤ 33554432) :
    t.bytes = filesBytes t.kept := by
  refine congrArg filesBytes ((map_congr_left fun file hfile => ?_).trans (map_id t.kept))
  have hlen := (sublist_flatten_of_mem (mem_map_of_mem (f := fileBytes) hfile)).length_le.trans h
  rw [fileBytes, length_append, length_cons, length_append] at hlen
  exact Prod.ext rfl (take_of_length_le (by omega))

theorem short_of_bytes_le (h : t.bytes.length ≤ 33554432) :
    ∀ file ∈ t.kept, file.2.length < 33554432 := by
  intro file hfile
  rw [bytes_of_le h] at h
  have hlen := (sublist_flatten_of_mem (mem_map_of_mem (f := fileBytes) hfile)).length_le.trans h
  rw [fileBytes, length_append, length_cons, length_append, length_singleton] at hlen
  omega

/-- The files as they are read. -/
def cut (t : Tree order) : Tree order where
  files := t.files.map readPart
  sorted := pairwise_map.mpr t.sorted
  relative := forall_mem_map.mpr t.relative

theorem kept_cut (t : Tree order) : t.cut.kept = t.kept.map readPart := filter_map

/-- Files that are read whole, at most one and without a path in its contents, are the only ones
with their bytes. -/
theorem Alone.unique_of_short (h : t.Alone)
    (hshort : ∀ file ∈ t.kept, file.2.length < 33554432) {t' : Tree order}
    (hbytes : t'.bytes = t.bytes) : t'.kept = t.kept := by
  have hwhole : t.kept.map readPart = t.kept := by
    refine (map_congr_left fun file hfile => ?_).trans (map_id _)
    exact Prod.ext rfl (take_of_length_le (Nat.le_of_lt (hshort file hfile)))
  have hcut : t'.kept.map readPart = t.kept := by
    rw [← kept_cut]
    refine h.unique ?_
    rw [kept_cut, ← hwhole]
    exact hbytes
  -- what is read of a file is shorter than what is read at most, so it is the file
  rw [← hcut]
  refine ((map_congr_left fun file hfile => ?_).trans (map_id _)).symm
  have hread := hshort (readPart file) (hcut ▸ mem_map_of_mem hfile)
  rw [readPart, length_take] at hread
  exact Prod.ext rfl (take_of_length_le (by omega))

theorem unique_iff (h : t.bytes.length ≤ 33554432) :
    (∀ t' : Tree order, t'.bytes = t.bytes → t'.kept = t.kept) ↔ t.Alone := by
  have hsame := bytes_of_le h
  refine ⟨fun hunique => .of_unique fun t' hbytes => hunique t' ?_, fun halone t' hbytes =>
    halone.unique_of_short (short_of_bytes_le h) hbytes⟩
  rw [bytes_of_kept_le (by rw [hbytes, ← hsame]; exact h), hbytes, hsame]

/-- A byte more behind what is read. -/
def lengthen (file : File) : File :=
  (file.1, if 33554432 ≤ file.2.length then file.2 ++ [0] else file.2)

theorem readPart_lengthen (file : File) : readPart (lengthen file) = readPart file := by
  unfold readPart lengthen
  split <;> rename_i hlong
  · rw [take_append_of_le_length hlong]
  · rfl

def lengthened (t : Tree order) : Tree order where
  files := t.files.map lengthen
  sorted := pairwise_map.mpr t.sorted
  relative := forall_mem_map.mpr t.relative

theorem kept_lengthened (t : Tree order) : t.lengthened.kept = t.kept.map lengthen := filter_map

/-- **A file with contents that are cut off is not the only one with its bytes.** -/
theorem exists_same_bytes {file : File} (hfile : file ∈ t.kept) (hlong : 33554432 ≤ file.2.length) :
    ∃ t' : Tree order, t'.bytes = t.bytes ∧ t'.kept ≠ t.kept := by
  refine ⟨t.lengthened, ?_, fun hkept => ?_⟩
  · rw [bytes, bytes, kept_lengthened, map_map]
    exact congrArg filesBytes (map_congr_left fun file _ => readPart_lengthen file)
  have hmem : lengthen file ∈ t.kept := by
    rw [← hkept, kept_lengthened]
    exact mem_map_of_mem hfile
  have hcontents : file.2 ++ [0] = file.2 := by
    have hsame := contents_unique (mem_filter.mp hmem).1 (mem_filter.mp hfile).1
    rwa [if_pos hlong] at hsame
  exact absurd (append_right_eq_self.mp hcontents) (cons_ne_nil _ _)

end Tree

/-- **No tree is the only one with its bytes**: a file at an ignored path does not show. **The files
that are not ignored, in a tree of 33554432 bytes at most, are the only ones with their bytes
exactly where there is at most one of them, and no later path stands inside its contents**, between
a 255 and a 0; that is enough in every tree whose files are shorter than 33554432 bytes. A file of
33554432 bytes or more is never the only one with its bytes. -/
theorem tree_bytes_iff (order : PathOrder) (t : Tree order) :
    (∀ (σ : Type) (rt : Runtime σ) (s : σ) (root : List UInt8),
      Serves rt s root (t.files.map readPart) → registryTreeBytes rt s root = some t.bytes) ∧
    (∃ t' : Tree order, t' ≠ t ∧ t'.bytes = t.bytes) ∧
    (t.bytes.length ≤ 33554432 →
      ((∀ t' : Tree order, t'.bytes = t.bytes → t'.kept = t.kept) ↔ t.Alone)) ∧
    ((∀ file ∈ t.kept, file.2.length < 33554432) → t.Alone →
      ∀ t' : Tree order, t'.bytes = t.bytes → t'.kept = t.kept) ∧
    ∀ file ∈ t.kept, 33554432 ≤ file.2.length →
      ∃ t' : Tree order, t'.bytes = t.bytes ∧ t'.kept ≠ t.kept := by
  refine ⟨fun _ _ _ _ h => registryTreeBytes_eq h, ?_, Tree.unique_iff,
    fun hshort halone _ => halone.unique_of_short hshort, fun _ => Tree.exists_same_bytes⟩
  obtain ⟨t', hne, hkept⟩ := t.exists_same_kept
  exact ⟨t', hne, by rw [Tree.bytes, Tree.bytes, hkept]⟩

/-- Paths by their bytes. -/
def PathOrder.bytewise : PathOrder where
  le a b := decide (a ≤ b)
  trans hab hbc :=
    decide_eq_true (List.le_trans (of_decide_eq_true hab) (of_decide_eq_true hbc))
  total a b := (List.le_total a b).imp (fun h => decide_eq_true h) (fun h => decide_eq_true h)
  antisymm hab hba := List.le_antisymm (of_decide_eq_true hab) (of_decide_eq_true hba)

/-- The file `a` with the contents 255, `b`, 0 has the bytes of the empty files `a` and `b`. -/
theorem tree_bytes_split :
    ∃ t t' : Tree .bytewise, t.kept = t.files ∧ t'.kept = t'.files ∧ t.bytes = t'.bytes ∧
      t ≠ t' := by
  have ha : RelativePath (ascii "a") := ⟨by decide, by decide, by decide⟩
  have hb : RelativePath (ascii "b") := ⟨by decide, by decide, by decide⟩
  have hone : Tree.IsKept .bytewise [(ascii "a", [255, 98, 0])] := Tree.isKept_one ha (by decide)
  have htwo : Tree.IsKept .bytewise [(ascii "a", []), (ascii "b", [])] :=
    Tree.isKept_cons ha (by decide) (by decide) (Tree.isKept_one hb (by decide))
  refine ⟨Tree.ofKept hone, Tree.ofKept htwo, Tree.kept_ofKept hone, Tree.kept_ofKept htwo, ?_, ?_⟩
  · rw [Tree.bytes, Tree.bytes, Tree.kept_ofKept, Tree.kept_ofKept]
    decide
  · intro h
    have hlen : 1 = 2 := congrArg (fun t => t.files.length) h
    cases hlen

end Raz.Registry
