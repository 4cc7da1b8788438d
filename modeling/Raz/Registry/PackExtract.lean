import Raz.Registry.Confinement
import Raz.Registry.TreeHash

/-!
# Packing and extracting a tree

The packer writes every file that is not ignored, whatever its name; the extractor refuses a name
with a backslash or a colon. What extraction asks of a file system is a structure of its own, of
which a map from paths to contents is an instance.

Result: `pack_extract_iff`: the archive of a tree is extracted to the same files, and so to the same
hash, if and only if no file that is packed has a backslash or a colon in its path.
-/

namespace Raz.Registry

open List

variable {capacity : Nat} {data path : List UInt8} {file : File}

/-! ## Hexadecimal -/

/-- The digit of each half of a byte is read back, and is neither a blank nor a line feed. -/
theorem hexDigit_spec : ∀ b : UInt8,
    (registryHexValue (registryHexDigit (b >>> 4)) = some (b >>> 4) ∧
      registryHexDigit (b >>> 4) ≠ 32 ∧ registryHexDigit (b >>> 4) ≠ 10) ∧
    registryHexValue (registryHexDigit (b &&& 15)) = some (b &&& 15) ∧
      registryHexDigit (b &&& 15) ≠ 32 ∧ registryHexDigit (b &&& 15) ≠ 10 :=
  Word.forall_byte (by decide +kernel)

theorem hexByte_ne (b : UInt8) : ∀ c ∈ hexByte b, c ≠ 32 ∧ c ≠ 10 :=
  forall_mem_cons.mpr ⟨(hexDigit_spec b).1.2, forall_mem_singleton.mpr (hexDigit_spec b).2.2⟩

theorem decodeHexLoop_flatMap (bytes : List UInt8) :
    decodeHexLoop (bytes.flatMap hexByte) = some bytes := by
  induction bytes with
  | nil => rfl
  | cons b bytes ih =>
    rw [flatMap_cons, hexByte, cons_append, singleton_append, decodeHexLoop,
      (hexDigit_spec b).1.1, (hexDigit_spec b).2.1, ih]
    simp [Word.high_low]

theorem length_flatMap_hexByte (bytes : List UInt8) :
    (bytes.flatMap hexByte).length = bytes.length * 2 := by
  induction bytes with
  | nil => rfl
  | cons b bytes ih =>
    rw [flatMap_cons, length_append, ih, length_cons, Nat.succ_mul, Nat.add_comm]
    rfl

theorem registryDecodeHex_flatMap {bytes : List UInt8} (h : bytes.length ≤ capacity) :
    registryDecodeHex (bytes.flatMap hexByte) capacity = some bytes := by
  have hlen := length_flatMap_hexByte bytes
  rw [registryDecodeHex, hlen, Nat.mul_mod_left, Nat.mul_div_cancel _ (by decide),
    if_neg, decodeHexLoop_flatMap]
  rw [Bool.or_eq_true, decide_eq_true_eq, decide_eq_true_eq]
  exact not_or.mpr ⟨not_not_intro rfl, Nat.not_lt.mpr h⟩

theorem hexBytes_ne {bytes : List UInt8} {c : UInt8} (h : c ∈ bytes.flatMap hexByte) :
    c ≠ 32 ∧ c ≠ 10 := by
  obtain ⟨b, -, hc⟩ := mem_flatMap.mp h
  exact hexByte_ne b c hc

/-! ## Archives -/

/-- The line of a file. -/
def fileLine (file : File) : List UInt8 :=
  ascii "F " ++ file.1.flatMap hexByte ++ ascii " " ++ file.2.flatMap hexByte

/-- The lines of the files. -/
def fileLines (files : List File) : List UInt8 :=
  files.flatMap (fun file => fileLine file ++ ascii "\n")

def archiveText (files : List File) : List UInt8 := ascii "RAZPKG1\n" ++ fileLines files

theorem packageAppend_eq {output : List UInt8} (h : output.length + data.length ≤ capacity) :
    packageAppend capacity output data = (true, output ++ data) := by
  rw [packageAppend, if_neg (Nat.not_lt.mpr h)]

theorem registryAppendHexBytes_eq {output : List UInt8}
    (h : output.length + (data.flatMap hexByte).length ≤ capacity) :
    registryAppendHexBytes capacity output data = (true, output ++ data.flatMap hexByte) := by
  rw [length_flatMap_hexByte] at h
  rw [registryAppendHexBytes, if_neg (Nat.not_lt.mpr h)]

theorem fileLines_cons (file : File) (files : List File) :
    fileLines (file :: files) = fileLine file ++ ascii "\n" ++ fileLines files :=
  flatMap_cons

section
variable {σ : Type} {rt : Runtime σ} {s : σ} {root : List UInt8}

theorem packLoop_eq (files : List File) : ∀ archive : List UInt8,
    (∀ file ∈ keptFiles files, rt.read s (packagePath root file.1) 33554432 = some file.2) →
      (archive ++ fileLines (keptFiles files)).length ≤ capacity →
        packLoop rt s root capacity archive (files.map Prod.fst) =
          .ok (archive ++ fileLines (keptFiles files)) := by
  induction files with
  | nil => exact fun archive _ _ => congrArg _ (append_nil archive).symm
  | cons file files ih =>
    intro archive hread hfits
    rw [map_cons, packLoop]
    cases hignored : registryPackagePathIgnored file.1 with
    | true =>
      rw [keptFiles_cons_ignored hignored] at hread hfits ⊢
      rw [if_pos rfl]
      exact ih _ hread hfits
    | false =>
      rw [keptFiles_cons_kept hignored] at hread hfits ⊢
      obtain ⟨hfile, hread⟩ := forall_mem_cons.mp hread
      rw [if_neg Bool.false_ne_true, hfile, fileLines_cons, fileLine]
      rw [fileLines_cons, fileLine] at hfits
      simp only [← append_assoc] at hfits ⊢
      have hle {a b : List UInt8} (h : (a ++ b).length ≤ capacity) : a.length ≤ capacity := by
        rw [length_append] at h
        exact Nat.le_trans (Nat.le_add_right _ _) h
      have hadd {a b : List UInt8} (h : (a ++ b).length ≤ capacity) :
          a.length + b.length ≤ capacity := by rwa [length_append] at h
      rw [packageAppend_eq (hadd (hle (hle (hle (hle (hle hfits)))))),
        registryAppendHexBytes_eq (hadd (hle (hle (hle (hle hfits))))),
        packageAppend_eq (hadd (hle (hle (hle hfits)))),
        registryAppendHexBytes_eq (hadd (hle (hle hfits))), packageAppend_eq (hadd (hle hfits))]
      exact ih _ hread hfits

/-- **The archive of a tree**: a line for each file that is not ignored. -/
theorem registryPackTree_eq {files : List File} (h : Serves rt s root files)
    (hfits : (archiveText (keptFiles files)).length ≤ capacity) :
    registryPackTree rt s root capacity = .ok (archiveText (keptFiles files)) := by
  obtain ⟨listing, hlisting, hlines⟩ := Option.map_eq_some_iff.mp h.listing
  have hheader : ([] : List UInt8).length + (ascii "RAZPKG1\n").length ≤ capacity := by
    rw [archiveText, length_append] at hfits
    rw [length_nil, Nat.zero_add]
    exact Nat.le_trans (Nat.le_add_right _ _) hfits
  rw [registryPackTree, hlisting, packageAppend_eq hheader, nil_append]
  simp only [hlines]
  exact packLoop_eq files _ h.read hfits

end

/-! ## Lines of an archive -/

theorem textLines_cons {line : List UInt8} (hne : line ≠ []) (hnewline : 10 ∉ line)
    (text : List UInt8) : textLines (line ++ 10 :: text) = line :: textLines text := by
  rw [textLines, splitOn_append_cons_self_of_not_mem hnewline, filter_cons,
    if_pos (decide_eq_true hne), textLines]

theorem textLines_flatMap (lines : List (List UInt8)) (h : ∀ line ∈ lines, line ≠ [] ∧ 10 ∉ line) :
    textLines (lines.flatMap (fun line => line ++ [10])) = lines := by
  induction lines with
  | nil => rfl
  | cons line lines ih =>
    obtain ⟨hline, h⟩ := forall_mem_cons.mp h
    rw [flatMap_cons, append_assoc, singleton_append, textLines_cons hline.1 hline.2, ih h]

theorem fileLine_line (file : File) : fileLine file ≠ [] ∧ 10 ∉ fileLine file := by
  constructor
  · exact append_ne_nil_of_left_ne_nil (append_ne_nil_of_left_ne_nil
      (append_ne_nil_of_left_ne_nil (by decide) _) _) _
  intro h
  rw [fileLine, mem_append, mem_append, mem_append] at h
  rcases h with ((h | h) | h) | h
  · exact absurd h (by decide)
  · exact (hexBytes_ne h).2 rfl
  · exact absurd h (by decide)
  · exact (hexBytes_ne h).2 rfl

theorem textLines_fileLines (files : List File) :
    textLines (fileLines files) = files.map fileLine := by
  have hflat : fileLines files = (files.map fileLine).flatMap (fun line => line ++ [10]) := by
    have hnewline : ascii "\n" = [10] := by decide
    rw [fileLines, flatMap_map, hnewline]
  rw [hflat, textLines_flatMap]
  intro line hline
  obtain ⟨file, -, rfl⟩ := mem_map.mp hline
  exact fileLine_line file

/-- **The record of a file is accepted exactly where its path is.** -/
theorem archiveRecord_fileLine (hne : file.1 ≠ []) (hlen : file.1.length ≤ 4096) :
    archiveRecord (fileLine file) =
      if registrySafeArchivePath file.1 then some file else none := by
  have hspace : ascii " " = [32] := by decide
  have htag : ascii "F " = [70, 32] := by decide
  have hline : fileLine file =
      [70, 32] ++ (file.1.flatMap hexByte ++ 32 :: file.2.flatMap hexByte) := by
    rw [fileLine, hspace, htag, append_assoc, append_assoc, singleton_append]
  have htake : (file.1.flatMap hexByte ++ 32 :: file.2.flatMap hexByte).takeWhile (· ≠ 32) =
      file.1.flatMap hexByte := by
    rw [takeWhile_append_of_pos fun c hc => decide_eq_true (hexBytes_ne hc).1,
      takeWhile_cons_of_neg (by decide), append_nil]
  have hlong : ¬ (fileLine file).length < 4 := by
    have hpos := length_pos_iff.mpr hne
    rw [hline, length_append, length_append, length_cons, length_flatMap_hexByte]
    simp only [length_cons, length_nil]
    omega
  unfold archiveRecord
  rw [if_neg]
  · have hdrop (rest : List UInt8) : ([70, 32] ++ rest).drop 2 = rest := rfl
    simp only [hline, hdrop, htake, drop_left]
    rw [registryDecodeHex_flatMap hlen, registryDecodeHex_flatMap]
    · simp only [Option.bind_eq_bind, Option.bind_some]
      rw [decide_eq_false hne, Bool.false_or]
      cases registrySafeArchivePath file.1 <;> rfl
    · rw [length_flatMap_hexByte]
      omega
  · rw [Bool.or_eq_true, decide_eq_true_eq, decide_eq_true_eq]
    refine not_or.mpr ⟨hlong, ?_⟩
    rw [hline, htag]
    exact not_not_intro rfl

/-! ## Paths below a directory -/

/-- The start of the paths below a directory. -/
def folder (root : List UInt8) : List UInt8 :=
  if root ≠ [] && root.getLast? ≠ some 47 && root.getLast? ≠ some 92 then root ++ [47] else root

/-- A path of a directory: not empty, without a separator at its end. -/
structure IsFolder (path : List UInt8) : Prop where
  ne : path ≠ []
  slash : path.getLast? ≠ some 47
  backslash : path.getLast? ≠ some 92

section
variable {destination : List UInt8} (hdestination : IsFolder destination)

include hdestination

theorem folder_eq : folder destination = destination ++ [47] := by
  rw [folder, decide_eq_true hdestination.ne, decide_eq_true hdestination.slash,
    decide_eq_true hdestination.backslash]
  rfl

variable (hfits : destination.length + 1 + path.length ≤ 8192)

include hfits

theorem recordPath_eq : recordPath destination path = folder destination ++ path := by
  have hslash : ascii "/" = [47] := by decide
  have hroom : destination.length + 1 ≤ 8192 := Nat.le_trans (Nat.le_add_right _ _) hfits
  have hdest : (packageAppend 8192 [] destination).2 = destination :=
    packageAppend_fits (by rw [length_nil, Nat.zero_add]; exact Nat.le_of_lt hroom)
  simp only [recordPath]
  rw [hdest, hslash, @packageAppend_fits _ destination [47] hroom, packageAppend_fits,
    folder_eq hdestination]
  rw [length_append]
  exact hfits

theorem packagePath_eq : packagePath destination path = folder destination ++ path := by
  rw [← recordPath_eq hdestination hfits]
  have hdest : (packageAppend 8192 [] destination).2 = destination :=
    packageAppend_fits (by rw [length_nil]; omega)
  simp only [packagePath, recordPath]
  rw [hdest, decide_eq_true hdestination.ne, decide_eq_true hdestination.slash,
    decide_eq_true hdestination.backslash, Bool.and_self, Bool.and_self, if_pos rfl]

end

/-! ## A file system -/

/-- What the extraction of files with these paths asks of a file system: which files are below the
directory, and what the calls do to them. A file is written to a directory that stands. -/
structure Disk {σ : Type} (rt : Runtime σ) (order : PathOrder) (destination : List UInt8)
    (paths : List (List UInt8)) where
  below : σ → List File
  stands : σ → List UInt8 → Prop
  removed : ∀ s, below (rt.removePath s destination) = []
  created : ∀ s directory, (∀ file ∈ below s, file.1 ∈ paths) → directory ≠ [] →
    (directory = destination ∨
      ∃ path ∈ paths, directory = parentPath (folder destination ++ path)) →
    (rt.createDir s directory).1 = true ∧ below (rt.createDir s directory).2 = below s ∧
      stands (rt.createDir s directory).2 directory
  written : ∀ s path data, (∀ file ∈ below s, file.1 ∈ paths) → path ∈ paths →
    (parentPath (folder destination ++ path) ≠ [] →
      stands s (parentPath (folder destination ++ path))) →
    (rt.write s (folder destination ++ path) data).1 = true ∧
      (below (rt.write s (folder destination ++ path) data).2).Perm
        ((path, data) :: (below s).filter (fun file => file.1 ≠ path))
  listed : ∀ s, (∀ file ∈ below s, file.1 ∈ paths) →
    (rt.treeList s destination 4194304).map textLines =
      some (((below s).map Prod.fst).mergeSort order.le)
  read : ∀ s path data, (path, data) ∈ below s →
    (∀ other, (path, other) ∈ below s → other = data) →
    rt.read s (folder destination ++ path) 33554432 = some data

namespace Disk

section
variable {σ : Type} {rt : Runtime σ} {order : PathOrder} {destination : List UInt8}
  {paths : List (List UInt8)} (disk : Disk rt order destination paths)
  (hdestination : IsFolder destination)

include hdestination

theorem extractRecord_file (hpath : file.1 ∈ paths)
    (hrecord : archiveRecord (fileLine file) = some file)
    (hfits : destination.length + 1 + file.1.length ≤ 8192) {s : σ}
    (honly : ∀ other ∈ disk.below s, other.1 ∈ paths)
    (hnew : ∀ other ∈ disk.below s, other.1 ≠ file.1) :
    ∃ s', extractRecord rt destination (fileLine file) s = (0, s') ∧
      (disk.below s').Perm (file :: disk.below s) := by
  -- the write, once the directory of the file stands
  have hwrite (s₁ : σ) (hsame : disk.below s₁ = disk.below s)
      (hstands : parentPath (folder destination ++ file.1) ≠ [] →
        disk.stands s₁ (parentPath (folder destination ++ file.1))) :
      (rt.write s₁ (folder destination ++ file.1) file.2).1 = true ∧
        (disk.below (rt.write s₁ (folder destination ++ file.1) file.2).2).Perm
          (file :: disk.below s) := by
    obtain ⟨hdone, hperm⟩ := disk.written s₁ file.1 file.2 (hsame ▸ honly) hpath hstands
    rw [hsame, filter_eq_self.mpr fun other hother => decide_eq_true (hnew other hother)] at hperm
    exact ⟨hdone, hperm⟩
  rw [extractRecord, hrecord]
  simp only [recordPath_eq hdestination hfits]
  by_cases hparent : parentPath (folder destination ++ file.1) = []
  · obtain ⟨hdone, hperm⟩ := hwrite s rfl fun hne => absurd hparent hne
    rw [if_pos hparent]
    simp only [hdone]
    exact ⟨_, rfl, hperm⟩
  · obtain ⟨hcreated, hsame, hstands⟩ :=
      disk.created s _ honly hparent (.inr ⟨file.1, hpath, rfl⟩)
    obtain ⟨hdone, hperm⟩ := hwrite _ hsame fun _ => hstands
    rw [if_neg hparent]
    simp only [hcreated, hdone]
    exact ⟨_, rfl, hperm⟩

/-- **Extraction writes the files of an archive, if their names are accepted.** -/
theorem extractLoop_files (files : List File) : ∀ s : σ,
    (∀ file ∈ files, file.1 ∈ paths ∧ archiveRecord (fileLine file) = some file ∧
      destination.length + 1 + file.1.length ≤ 8192) →
    (∀ file ∈ disk.below s, file.1 ∈ paths) →
    (disk.below s ++ files).Pairwise (fun a b => a.1 ≠ b.1) →
      ∃ s', extractLoop rt destination (files.map fileLine) s = (0, s') ∧
        (disk.below s').Perm (disk.below s ++ files) := by
  induction files with
  | nil => exact fun s _ _ _ => ⟨s, rfl, by rw [append_nil]⟩
  | cons file files ih =>
    intro s hfiles honly hdist
    obtain ⟨⟨hpath, hrecord, hfits⟩, hfiles⟩ := forall_mem_cons.mp hfiles
    obtain ⟨-, -, hnew⟩ := pairwise_append.mp hdist
    obtain ⟨s₁, hextract, hbelow⟩ := extractRecord_file disk hdestination hpath hrecord hfits honly
      fun other hother => hnew other hother file mem_cons_self
    have hperm : (disk.below s ++ file :: files).Perm (disk.below s₁ ++ files) :=
      perm_middle.trans (hbelow.symm.append_right files)
    obtain ⟨s', hloop, hs'⟩ := ih s₁ hfiles
      (fun other hother => (mem_cons.mp (hbelow.mem_iff.mp hother)).elim
        (fun heq => heq ▸ hpath) (honly other))
      ((hperm.pairwise_iff fun h => Ne.symm h).mp hdist)
    refine ⟨s', ?_, hs'.trans hperm.symm⟩
    rw [map_cons, extractLoop, hextract]
    exact hloop

/-- The file system answers with the files that are below the directory. -/
theorem serves (t : Tree order) {s : σ} (hperm : (disk.below s).Perm t.files)
    (hpaths : ∀ file ∈ t.files, file.1 ∈ paths)
    (hfits : ∀ file ∈ t.files, destination.length + 1 + file.1.length ≤ 8192) :
    Serves rt s destination t.files where
  listing := by
    have hsorted : ((disk.below s).map Prod.fst).mergeSort order.le = t.files.map Prod.fst := by
      have hmerge := @pairwise_mergeSort _ order.le (fun _ _ _ => order.trans)
        (fun a b => Bool.or_eq_true_iff.mpr (order.total a b)) ((disk.below s).map Prod.fst)
      have hfiles : (t.files.map Prod.fst).Pairwise (fun a b => order.le a b = true) :=
        pairwise_map.mpr (t.sorted.imp And.left)
      exact List.Perm.eq_of_pairwise (fun _ _ _ _ hab hba => order.antisymm hab hba) hmerge hfiles
        ((mergeSort_perm _ _).trans (hperm.map _))
    rw [disk.listed s fun file hfile => hpaths file (hperm.mem_iff.mp hfile), hsorted]
  read := by
    intro file hfile
    have hmem := (mem_filter.mp hfile).1
    rw [packagePath_eq hdestination (hfits file hmem)]
    refine disk.read s file.1 file.2 (hperm.mem_iff.mpr hmem) fun other hother => ?_
    exact t.contents_unique (hperm.mem_iff.mp hother) hmem

end

end Disk

theorem extractLoop_records {σ : Type} {rt : Runtime σ} {destination : List UInt8}
    (lines : List (List UInt8)) : ∀ s : σ, (extractLoop rt destination lines s).1 = 0 →
      ∀ line ∈ lines, archiveRecord line ≠ none := by
  induction lines with
  | nil => exact fun _ _ _ h => absurd h not_mem_nil
  | cons line lines ih =>
    intro s h
    rw [extractLoop] at h
    cases hrecord : archiveRecord line with
    | none =>
      rw [extractRecord, hrecord] at h
      cases h
    | some record =>
      refine forall_mem_cons.mpr ⟨by rw [hrecord]; exact Option.some_ne_none _, ?_⟩
      split at h
      · exact ih _ h
      · rename_i hnot _
        exact absurd h hnot

/-! ## The round trip -/

/-- Extraction of an archive succeeds and leaves these files and no others, with this hash. -/
def Recreates {σ : Type} {rt : Runtime σ} {order : PathOrder} {destination : List UInt8}
    {paths : List (List UInt8)} (disk : Disk rt order destination paths) (archive : List UInt8)
    (s : σ) (files : List File) (hash : UInt64) : Prop :=
  ∃ s', registryExtractArchive rt archive destination s = (0, s') ∧
    (disk.below s').Perm files ∧ registryTreeHash rt s' destination = hash

theorem safe_iff (h : RelativePath path) :
    registrySafeArchivePath path = true ↔ 92 ∉ path ∧ 58 ∉ path := by
  rw [registrySafeArchivePath_iff]
  exact and_iff_right fun c hc => ⟨(h.components c hc).2.2, (h.components c hc).1⟩

section
variable {order : PathOrder} (t : Tree order) {σ : Type} {rt : Runtime σ}
  {destination : List UInt8} (disk : Disk rt order destination (t.kept.map Prod.fst)) {s : σ}

theorem registryExtractArchive_eq (archive : List UInt8) :
    registryExtractArchive rt (ascii "RAZPKG1\n" ++ archive) destination s =
      if (rt.createDir (rt.removePath s destination) destination).1 then
        extractLoop rt destination (textLines archive)
          (rt.createDir (rt.removePath s destination) destination).2
      else (65, (rt.createDir (rt.removePath s destination) destination).2) := by
  have hheader : (ascii "RAZPKG1\n").length = 8 := by decide
  rw [registryExtractArchive, take_left' hheader, drop_left' hheader, if_neg (not_not_intro rfl)]
  dsimp only
  cases (rt.createDir (rt.removePath s destination) destination).1 <;> rfl

theorem recreates_of_safe (hdestination : IsFolder destination)
    (hlengths : ∀ file ∈ t.kept, file.1.length ≤ 4096)
    (hfits : ∀ file ∈ t.kept, destination.length + 1 + file.1.length ≤ 8192)
    (hsafe : ∀ file ∈ t.kept, registrySafeArchivePath file.1 = true) :
    Recreates disk (archiveText t.kept) s t.kept
      ((filesBytes t.kept).foldl hashByte 1469598103934665603) := by
  have hrecords : ∀ file ∈ t.kept, file.1 ∈ t.kept.map Prod.fst ∧
      archiveRecord (fileLine file) = some file ∧
      destination.length + 1 + file.1.length ≤ 8192 := by
    intro file hfile
    rw [archiveRecord_fileLine (Tree.kept_relative hfile).ne (hlengths file hfile),
      hsafe file hfile]
    exact ⟨mem_map_of_mem hfile, rfl, hfits file hfile⟩
  have hempty := disk.removed s
  obtain ⟨hcreated, hsame, -⟩ := disk.created (rt.removePath s destination) destination
    (by rw [hempty]; exact nofun) hdestination.ne (.inl rfl)
  rw [hempty] at hsame
  obtain ⟨s', hloop, hperm⟩ := disk.extractLoop_files hdestination t.kept _ hrecords
    (by rw [hsame]; exact nofun) (by
      rw [hsame, nil_append]
      exact t.kept_sorted.imp fun h => h.2)
  rw [hsame, nil_append] at hperm
  refine ⟨s', ?_, hperm, ?_⟩
  · rw [archiveText, registryExtractArchive_eq, hcreated, if_pos rfl, textLines_fileLines]
    exact hloop
  · have hserves := disk.serves hdestination (Tree.ofKept t.isKept) hperm
      (fun file hfile => mem_map_of_mem hfile) hfits
    rw [registryTreeHash_eq hserves, Tree.kept_ofKept]

variable {disk}

theorem safe_of_recreates (hlengths : ∀ file ∈ t.kept, file.1.length ≤ 4096) {hash : UInt64}
    (h : Recreates disk (archiveText t.kept) s t.kept hash) :
    ∀ file ∈ t.kept, registrySafeArchivePath file.1 = true := by
  obtain ⟨s', hextract, -⟩ := h
  rw [archiveText, registryExtractArchive_eq, textLines_fileLines] at hextract
  split at hextract
  · intro file hfile
    have hrecord := extractLoop_records _ _ (congrArg Prod.fst hextract) (fileLine file)
      (mem_map_of_mem hfile)
    rw [archiveRecord_fileLine (Tree.kept_relative hfile).ne (hlengths file hfile)] at hrecord
    cases hsafe : registrySafeArchivePath file.1 with
    | true => rfl
    | false =>
      rw [hsafe] at hrecord
      exact absurd rfl hrecord
  · cases hextract

end

/-! ## A file system in memory -/

/-- Files by their paths, each path once. -/
abbrev Memory := List File

namespace Memory

variable {m : Memory} {destination : List UInt8}

/-- The files below a directory. -/
def under (m : Memory) (root : List UInt8) : List File :=
  m.filterMap fun file =>
    if (folder root).isPrefixOf file.1 then some (file.1.drop (folder root).length, file.2)
    else none

def without (m : Memory) (path : List UInt8) : Memory := m.filter (fun file => file.1 ≠ path)

/-- The runtime on such files; every call succeeds. -/
def runtime (order : PathOrder) : Runtime Memory where
  pathExists m path := m.any fun file => file.1 = path || (folder path).isPrefixOf file.1
  treeList m root _ :=
    some ((((m.under root).map Prod.fst).mergeSort order.le).flatMap (fun path => path ++ [10]))
  read m path _ := (m.find? (fun file => file.1 = path)).map Prod.snd
  createDirOne m _ := (.existed, m)
  write m path data := (true, (path, data) :: m.without path)
  removePath m path :=
    m.filter (fun file => file.1 ≠ path && !(folder path).isPrefixOf file.1)
  copyTree m _ _ := (false, m)
  httpGet _ _ _ := none
  verifySignature _ _ _ _ _ := false
  trackPackage m _ _ _ _ := (0, m)

theorem createDir_eq (order : PathOrder) (m : Memory) (hpath : path ≠ []) :
    (runtime order).createDir m path = (true, m) := by
  unfold Runtime.createDir
  rw [if_neg hpath]
  induction directoryLengths path with
  | nil => rfl
  | cons index lengths ih =>
    rw [createDirectoriesLoop]
    split
    · exact ih
    · exact ih

theorem under_cons_inside (path data : List UInt8) (m : Memory) :
    under ((folder destination ++ path, data) :: m) destination =
      (path, data) :: m.under destination := by
  have hstarts : (folder destination).isPrefixOf (folder destination ++ path) = true :=
    isPrefixOf_iff_prefix.mpr (prefix_append _ _)
  rw [under, filterMap_cons_some, under]
  rw [if_pos hstarts, drop_left]

theorem under_cons_outside (h : ¬ (folder destination).isPrefixOf file.1 = true) (m : Memory) :
    under (file :: m) destination = m.under destination :=
  filterMap_cons_none (if_neg h)

/-- A file is below a directory, or its path does not start with it. -/
theorem inside_or (destination : List UInt8) (file : File) :
    (∃ path, file = (folder destination ++ path, file.2)) ∨
      ¬ (folder destination).isPrefixOf file.1 = true := by
  rcases Classical.em ((folder destination).isPrefixOf file.1 = true) with hstarts | hstarts
  · obtain ⟨path, hpath⟩ := isPrefixOf_iff_prefix.mp hstarts
    exact .inl ⟨path, by rw [hpath]⟩
  · exact .inr hstarts

theorem under_without (path : List UInt8) (m : Memory) :
    (m.without (folder destination ++ path)).under destination =
      (m.under destination).filter (fun file => file.1 ≠ path) := by
  unfold without
  induction m with
  | nil => rfl
  | cons file m ih =>
    rcases inside_or destination file with ⟨inside, hfile⟩ | hfile
    · rw [hfile, under_cons_inside, filter_cons, filter_cons]
      rcases Classical.em (inside = path) with rfl | hne
      · rw [if_neg (fun h => absurd rfl (of_decide_eq_true h)),
          if_neg (fun h => absurd rfl (of_decide_eq_true h)), ih]
      · have hpath : folder destination ++ inside ≠ folder destination ++ path :=
          fun h => hne (append_cancel_left h)
        rw [if_pos (decide_eq_true hpath), if_pos (decide_eq_true hne), under_cons_inside, ih]
    · have hpath : file.1 ≠ folder destination ++ path := by
        rintro heq
        rw [heq] at hfile
        exact hfile (List.isPrefixOf_iff_prefix.mpr (prefix_append _ _))
      rw [filter_cons, if_pos (decide_eq_true hpath), under_cons_outside hfile,
        under_cons_outside hfile, ih]

theorem under_removePath (order : PathOrder) (m : Memory) :
    ((runtime order).removePath m destination).under destination = [] := by
  rw [under, filterMap_eq_nil_iff]
  intro file hfile
  have hkept := (Bool.and_eq_true_iff.mp (mem_filter.mp hfile).2).2
  rw [Bool.not_eq_true'] at hkept
  rw [hkept, if_neg Bool.false_ne_true]

theorem mem_under :
    (path, data) ∈ m.under destination ↔ (folder destination ++ path, data) ∈ m := by
  rw [under, mem_filterMap]
  constructor
  · rintro ⟨file, hfile, hinside⟩
    rcases inside_or destination file with ⟨inside, heq⟩ | houtside
    · rw [heq] at hfile hinside
      have hstarts : (folder destination).isPrefixOf (folder destination ++ inside) = true :=
        isPrefixOf_iff_prefix.mpr (prefix_append _ _)
      rw [if_pos hstarts, drop_left] at hinside
      cases hinside
      exact hfile
    · rw [if_neg houtside] at hinside
      cases hinside
  · intro hmem
    refine ⟨_, hmem, ?_⟩
    rw [if_pos (List.isPrefixOf_iff_prefix.mpr (prefix_append _ _)), drop_left]

theorem read_under (order : PathOrder) (hmem : (path, data) ∈ m.under destination)
    (hunique : ∀ other, (path, other) ∈ m.under destination → other = data) :
    (runtime order).read m (folder destination ++ path) capacity = some data := by
  show (m.find? (fun file => file.1 = folder destination ++ path)).map Prod.snd = some data
  cases hfind : m.find? (fun file => file.1 = folder destination ++ path) with
  | none => exact absurd (decide_eq_true rfl) (List.find?_eq_none.mp hfind _ (mem_under.mp hmem))
  | some file =>
    have hpath : file.1 = folder destination ++ path := by
      have hfound := List.find?_some hfind
      exact of_decide_eq_true hfound
    have hfile : (path, file.2) ∈ m.under destination := by
      rw [mem_under, ← hpath]
      exact List.mem_of_find?_eq_some hfind
    rw [Option.map_some, hunique _ hfile]

/-- It answers as extraction asks. -/
def disk (order : PathOrder) (destination : List UInt8) {paths : List (List UInt8)}
    (hpaths : ∀ path ∈ paths, path ≠ [] ∧ 10 ∉ path) :
    Disk (runtime order) order destination paths where
  below m := m.under destination
  stands _ _ := True
  removed := under_removePath order
  created m _ _ hne _ := by
    rw [createDir_eq order m hne]
    exact ⟨rfl, rfl, trivial⟩
  written m path data _ _ _ := by
    refine ⟨rfl, .of_eq ?_⟩
    rw [← under_without]
    exact under_cons_inside path data _
  listed m honly := by
    refine congrArg some (textLines_flatMap _ fun path hpath => hpaths path ?_)
    obtain ⟨file, hfile, rfl⟩ := mem_map.mp (mem_mergeSort.mp hpath)
    exact honly file hfile
  read _ _ _ hmem hunique := read_under order hmem hunique

end Memory

end Raz.Registry
