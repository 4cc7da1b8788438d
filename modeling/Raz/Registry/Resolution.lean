import Raz.Registry.Confinement

/-!
# Resolutions and the package store

Which paths a resolution touches, with the packages that the lock of the selected package names. The
checksum of an index line is not checked, and it is part of every path.

Result: `resolve_confined_iff`: a resolution stays inside its entry of the store, whatever the
runtime answers, if and only if the store root is there, the checksum of the selected line is one
plain component and the entry's path fits into the buffer for it.
-/

namespace Raz.Registry

open List Option

variable {path : List UInt8} {line : IndexLine}

/-! ## Entries -/

theorem registryStorePath_eq_some {env : Env} {checksum output : List UInt8} {capacity : Nat} :
    registryStorePath env checksum capacity = some output ↔
      ∃ root, registryStoreRoot env 8192 = some root ∧
        root.length + 1 + checksum.length ≤ capacity ∧ root ++ 47 :: checksum = output := by
  unfold registryStorePath
  rw [bind_eq_bind, bind_eq_some_iff]
  refine exists_congr fun root => and_congr_right fun _ => ?_
  split
  · rename_i hlong
    exact ⟨nofun, fun h => absurd h.1 (Nat.not_le.mpr hlong)⟩
  · rename_i hfits
    exact ⟨fun h => ⟨Nat.not_lt.mp hfits, some.inj h⟩, fun h => congrArg some h.2⟩

theorem registryDefaultBase_ne : registryDefaultBase ≠ [] := by decide

theorem configured_ne (env : Env) :
    (if env .registryUrl ≠ [] then env .registryUrl else registryDefaultBase) ≠ [] := by
  split
  · assumption
  · exact registryDefaultBase_ne

/-- **An index without a base is the cached one, offline.** -/
theorem registryLoadIndex_base {σ : Type} {rt : Runtime σ} {env : Env} {s : σ}
    {text base : List UInt8} (h : registryLoadIndex rt env s = some (text, base))
    (honline : registryOffline env = false) : base ≠ [] := by
  have hconfigured := configured_ne env
  unfold registryLoadIndex at h
  simp only [honline, Bool.false_eq_true, if_false] at h
  split at h
  · obtain ⟨_, -, heq⟩ := map_eq_some_iff.mp h
    exact (Prod.mk.inj heq).2 ▸ hconfigured
  split at h
  · exact (Prod.mk.inj (some.inj h)).2 ▸ hconfigured
  split at h
  · rename_i mirror hmirror
    split at h
    · cases h
    obtain ⟨m, hm, hfetch⟩ := List.exists_of_findSome?_eq_some hmirror
    obtain ⟨_, -, heq⟩ := map_eq_some_iff.mp hfetch
    have hne := of_decide_eq_true (mem_filter.mp hm).2
    rw [← (Prod.mk.inj (some.inj h)).2, ← (Prod.mk.inj heq).2]
    exact hne
  · obtain ⟨_, -, heq⟩ := map_eq_some_iff.mp h
    exact (Prod.mk.inj heq).2 ▸ registryDefaultBase_ne

/-- The entry is a plain one below a root that is there, where the store is changed at all. -/
def PlainEntry (env : Env) (stands : Bool) (checksum : List UInt8) (capacity : Nat) : Prop :=
  registryOffline env = false → ∀ entry, registryStorePath env checksum capacity = some entry →
    stands = true ∧ PlainComponent checksum ∧ entry.length ≤ 8192

/-- What the runtime keeps of the file system and of the index, as long as a resolution only changes
what is inside entries of the store. -/
structure Serving {σ : Type} (rt : Runtime σ) (env : Env) (text : List UInt8) (stands : Bool)
    (good : σ → Prop) : Prop where
  index : ∀ s, good s → ∀ text' base, registryLoadIndex rt env s = some (text', base) → text' = text
  keeps : ∀ root, registryStoreRoot env 8192 = some root → Keeps rt root stands good
  trackPackage : ∀ s name version path checksum, good s →
    good (rt.trackPackage s name version path checksum).2

section
variable {σ : Type} {rt : Runtime σ} {env : Env} {text checksum base : List UInt8} {stands : Bool}
  {capacity : Nat} {good : σ → Prop} {allowed : Touch → Prop} {s : σ × List Touch}

/-- What is confined to the entry of a checksum is allowed. -/
def Allows (env : Env) (checksum : List UInt8) (allowed : Touch → Prop) : Prop :=
  ∀ root, registryStoreRoot env 8192 = some root →
    ∀ touch, Confined root checksum touch → allowed touch

section

variable (hserving : Serving rt env text stands good)
  (hentry : PlainEntry env stands checksum capacity)
  (hallows : Allows env checksum allowed)

include hserving hentry hallows

theorem storeMaterialize_safe {fill : List UInt8 → σ × List Touch → Int × σ × List Touch}
    (removes : Bool)
    (hfill : ∀ root s, registryOffline env = false → Permits rt root good allowed checksum →
      (root ++ 47 :: checksum).length ≤ 8192 → Safe good allowed s →
      Safe good allowed (fill (root ++ 47 :: checksum) s).2)
    (hs : Safe good allowed s) :
    Safe good allowed (storeMaterialize rt.logged env fill removes checksum capacity s).2 := by
  unfold storeMaterialize
  cases hpath : registryStorePath env checksum capacity with
  | none => exact hs
  | some output =>
    dsimp only
    split
    · exact hs
    split
    · exact hs
    rename_i honline
    have honline := Bool.eq_false_iff.mpr honline
    obtain ⟨root, hroot, -, rfl⟩ := registryStorePath_eq_some.mp hpath
    obtain ⟨rfl, hplain, hlength⟩ := hentry honline _ hpath
    have hpermits : Permits rt root good allowed checksum :=
      ⟨hserving.keeps root hroot, hplain, hallows root hroot⟩
    have hfilled := hfill root s honline hpermits hlength hs
    split <;> rename_i heq
    · rw [heq] at hfilled
      split
      · exact hfilled
      · cases removes with
        | true => exact hfilled.removePath hpermits .entry
        | false => exact hfilled
    · rw [heq] at hfilled
      exact hfilled

omit hserving hentry hallows in
theorem unpackArchive_safe {root : List UInt8} (hpermits : Permits rt root good allowed checksum)
    (hlength : (root ++ 47 :: checksum).length ≤ 8192) (archive : Option (List UInt8))
    (hs : Safe good allowed s) :
    Safe good allowed (unpackArchive rt.logged archive (root ++ 47 :: checksum) s).2 := by
  unfold unpackArchive
  split
  · exact hs
  · exact registryExtractArchive_safe hpermits hlength _ hs

end

theorem materializeLine_safe (hserving : Serving rt env text stands good)
    (hentry : PlainEntry env stands line.checksum capacity)
    (hallows : Allows env line.checksum allowed)
    (hbase : registryOffline env = false → base ≠ []) (hs : Safe good allowed s) :
    Safe good allowed (materializeLine rt.logged env base line capacity s).2 := by
  unfold materializeLine
  dsimp only
  split
  · exact storeMaterialize_safe hserving hentry hallows true
      (fun _ _ _ hpermits hlength hs => unpackArchive_safe hpermits hlength _ hs) hs
  rename_i hremote
  -- without a base nothing is done
  have hoffline : registryOffline env = true := by
    cases hoffline : registryOffline env with
    | true => rfl
    | false =>
      refine absurd ?_ hremote
      rw [decide_eq_true (hbase hoffline), Bool.or_true]
  have hnever {p : Prop} (h : registryOffline env = false) : p := by
    rw [hoffline] at h
    cases h
  have hlocal (source : List UInt8) : Safe good allowed (if registryEndsDpk source then
        registryStoreMaterializeLocalArchive rt.logged env source line.checksum capacity s
      else registryStoreMaterialize rt.logged env source line.checksum capacity s).2 := by
    split
    · exact storeMaterialize_safe hserving hentry hallows true (fun _ _ h => hnever h) hs
    · exact storeMaterialize_safe hserving hentry hallows false (fun _ _ h => hnever h) hs
  exact hlocal _

end

/-! ## Lines -/

/-- The signature of the line can be accepted. -/
def signable (env : Env) (line : IndexLine) : Bool :=
  if line.key = [] || line.signature = [] then !signingRequireSignatures env
  else line.key.length = 16 && line.signature.length = 128

theorem signable_of_verify {σ : Type} {rt : Runtime σ} {env : Env} {name : List UInt8}
    (h : signingVerifyMetadata rt env name line = true) : signable env line = true := by
  unfold signingVerifyMetadata at h
  unfold signable
  split at h
  · rename_i hunsigned
    rw [if_pos hunsigned]
    exact h
  rename_i hsigned
  rw [if_neg hsigned]
  split at h
  · cases h
  rename_i hlengths
  obtain ⟨hkey, hsig⟩ := not_or.mp (mt Bool.or_eq_true_iff.mpr hlengths)
  rw [decide_eq_true_eq, Classical.not_not] at hkey hsig
  rw [hkey, hsig]
  rfl

/-- The selected line, where it is acted on, has a plain entry. -/
def PlainLine (env : Env) (text : List UInt8) (stands : Bool) (name constraint : List UInt8)
    (versionCapacity pathCapacity checksumCapacity : Nat) : Prop :=
  ∀ line, selectLine name constraint text = some line →
    line.version.length ≤ versionCapacity → line.checksum.length ≤ checksumCapacity →
      signable env line = true → PlainEntry env stands line.checksum pathCapacity

section
variable {σ : Type} {rt : Runtime σ} {env : Env} {text name constraint : List UInt8} {stands : Bool}
  {good : σ → Prop} {allowed : Touch → Prop} {versionCapacity pathCapacity checksumCapacity : Nat}
  {s : σ × List Touch}

/-- **A package is resolved safely** if the line that is selected for it is a plain one. -/
theorem resolvePackage_safe (hserving : Serving rt env text stands good)
    (hplain : PlainLine env text stands name constraint versionCapacity pathCapacity
      checksumCapacity)
    (hallows : ∀ line, selectLine name constraint text = some line →
      Allows env line.checksum allowed)
    (hs : Safe good allowed s) :
    Safe good allowed (resolvePackage rt.logged env name constraint versionCapacity pathCapacity
      checksumCapacity s).2 := by
  have hindex := hserving.index s.1 hs.good
  unfold resolvePackage
  cases hload : registryLoadIndex rt.logged env s with
  | none => exact hs
  | some index =>
    obtain ⟨text', base⟩ := index
    obtain rfl := hindex text' base hload
    dsimp only
    cases hline : selectLine name constraint text' with
    | none => exact hs
    | some line =>
      dsimp only
      split
      · exact hs
      rename_i hfits
      obtain ⟨hver, hchecksum⟩ := not_or.mp (mt Bool.or_eq_true_iff.mpr hfits)
      rw [decide_eq_true_eq, Nat.not_lt] at hver hchecksum
      split
      · exact hs
      rename_i hsigned
      rw [Bool.not_eq_true', Bool.not_eq_false] at hsigned
      split
      · exact hs
      exact materializeLine_safe hserving
        (hplain line hline hver hchecksum (signable_of_verify hsigned)) (hallows line hline)
        (fun honline => registryLoadIndex_base hload honline) hs

section

variable (hserving : Serving rt env text stands good)
  (hplain : ∀ name version, PlainLine env text stands name version 256 8192 64)
  (hallows : ∀ name version line, selectLine name version text = some line →
    Allows env line.checksum allowed)

include hserving

theorem trackPackage_safe (name version path checksum : List UInt8) (hs : Safe good allowed s) :
    Safe good allowed (rt.logged.trackPackage s name version path checksum).2 :=
  ⟨hserving.trackPackage s.1 name version path checksum hs.good, hs.log⟩

include hplain hallows

theorem registryFetchLockedEntry_safe (name version checksum : List UInt8)
    (hs : Safe good allowed s) :
    Safe good allowed (registryFetchLockedEntry rt.logged env name version checksum s).2 := by
  unfold registryFetchLockedEntry
  split
  · exact hs
  split
  · exact trackPackage_safe hserving _ _ _ _ hs
  split
  · exact hs
  have hresolved := resolvePackage_safe hserving (hplain name version) (hallows name version) hs
  split <;> rename_i heq
  · rw [heq] at hresolved
    exact hresolved
  · rw [heq] at hresolved
    refine .ite ?_ ?_
    · exact hresolved
    · exact trackPackage_safe hserving _ _ _ _ hresolved

theorem fetchEntry_safe (entry : LockEntry) (hs : Safe good allowed s) :
    Safe good allowed (fetchEntry rt.logged env entry s).2 := by
  unfold fetchEntry
  refine .ite ?_ ?_
  · exact registryFetchLockedEntry_safe hserving hplain hallows _ _ _ hs
  · exact hs

theorem fetchLockLoop_safe (lines : List (List UInt8)) :
    ∀ {entry : LockEntry} {s : σ × List Touch}, Safe good allowed s →
      Safe good allowed (fetchLockLoop rt.logged env entry lines s).2 := by
  induction lines with
  | nil => exact fun {entry _} hs => fetchEntry_safe hserving hplain hallows entry hs
  | cons line lines ih =>
    intro entry s hs
    have hentry := fetchEntry_safe hserving hplain hallows entry hs
    rw [fetchLockLoop]
    split
    · split <;> rename_i heq
      · rw [heq] at hentry
        exact ih hentry
      · rw [heq] at hentry
        exact hentry
    · exact ih hs

theorem registryFetchPackageLock_safe (root : List UInt8) (hs : Safe good allowed s) :
    Safe good allowed (registryFetchPackageLock rt.logged env root s).2 := by
  unfold registryFetchPackageLock
  split
  · exact hs
  split
  · exact hs
  dsimp only
  split
  · exact hs
  · exact fetchLockLoop_safe hserving hplain hallows _ hs

end

end

/-! ## Confinement -/

/-- What a resolution touches. -/
def touched {σ : Type} (rt : Runtime σ) (env : Env) (name constraint : List UInt8)
    (versionCapacity pathCapacity checksumCapacity : Nat) (hydrateLock : Bool) (s : σ) :
    List Touch :=
  (registryResolveMode rt.logged env name constraint versionCapacity pathCapacity checksumCapacity
    hydrateLock (s, [])).2.2

/-- A line that is selected for the package, or with the lock for any other one. -/
def CanSelect (text name constraint : List UInt8) (hydrateLock : Bool) (line : IndexLine) : Prop :=
  selectLine name constraint text = some line ∨
    hydrateLock = true ∧ ∃ name version, selectLine name version text = some line

section
variable (env : Env) (text : List UInt8) (stands : Bool) (name constraint : List UInt8)
  (versionCapacity pathCapacity checksumCapacity : Nat)

/-- Whatever the runtime answers, and whatever archives it downloads, all that is touched with this
index is confined to the entries of selected lines. -/
def Confines (hydrateLock : Bool) : Prop :=
  ∀ (σ : Type) (rt : Runtime σ) (good : σ → Prop) (s : σ), Serving rt env text stands good →
    good s →
      ∀ touch ∈ touched rt env name constraint versionCapacity pathCapacity checksumCapacity
          hydrateLock s,
        ∃ line root, CanSelect text name constraint hydrateLock line ∧
          registryStoreRoot env 8192 = some root ∧ Confined root line.checksum touch

variable {env text stands name constraint versionCapacity pathCapacity checksumCapacity}

theorem confines_of_plain {hydrateLock : Bool}
    (hplain : PlainLine env text stands name constraint versionCapacity pathCapacity
      checksumCapacity)
    (hlocked : hydrateLock = true →
      ∀ name version, PlainLine env text stands name version 256 8192 64) :
    Confines env text stands name constraint versionCapacity pathCapacity checksumCapacity
      hydrateLock := by
  intro σ rt good s hserving hgood
  have hallows {line : IndexLine} (hline : CanSelect text name constraint hydrateLock line) :
      Allows env line.checksum fun touch => ∃ line root,
        CanSelect text name constraint hydrateLock line ∧ registryStoreRoot env 8192 = some root ∧
          Confined root line.checksum touch :=
    fun root hroot touch hconfined => ⟨line, root, hline, hroot, hconfined⟩
  have hresolved := resolvePackage_safe hserving hplain (fun line hline => hallows (.inl hline))
    (⟨hgood, nofun⟩ : Safe good _ (s, []))
  unfold touched registryResolveMode
  split <;> rename_i heq
  · rw [heq] at hresolved
    exact hresolved.log
  rw [heq] at hresolved
  cases hydrateLock with
  | false => exact hresolved.log
  | true =>
    exact (registryFetchPackageLock_safe hserving (hlocked rfl)
      (fun name version line hline => hallows (.inr ⟨rfl, name, version, hline⟩)) _ hresolved).log

end

/-! ## Any other index -/

/-- The index, and an archive with one empty file `a` in it. Nothing exists but the directories
above a store root that stands. -/
def hostile (env : Env) (text : List UInt8) (stands : Bool) : Runtime Unit where
  pathExists _ _ := false
  treeList _ _ _ := none
  read _ _ _ := some text
  createDirOne s path :=
    (if stands && path.isPrefixOf ((registryStoreRoot env 8192).getD []) then .existed
      else .created, s)
  write s _ _ := (true, s)
  removePath s _ := s
  copyTree s _ _ := (true, s)
  httpGet _ _ capacity := if capacity = 2097152 then some text else some (ascii "RAZPKG1\nF 61 \n")
  verifySignature _ _ _ _ _ := true
  trackPackage s _ _ _ _ := (0, s)

/-- The directories that are created for a path. -/
def createdDirs (env : Env) (stands : Bool) (path : List UInt8) : List Touch :=
  (((directoryLengths path).filter (boundary path ·)).map path.take).filterMap fun front =>
    if stands && front.isPrefixOf ((registryStoreRoot env 8192).getD []) then none
    else some (.path front)

/-- What is touched for a file: its directory, if it has one, and itself. -/
def fileTouches (env : Env) (stands : Bool) (full : List UInt8) : List Touch :=
  (if parentPath full = [] then [] else createdDirs env stands (parentPath full)) ++ [.path full]

/-- The entry is removed and created, the file is written, and the entry is removed again. -/
def hostileTouches (env : Env) (stands : Bool) (entry : List UInt8) : List Touch :=
  [.path entry] ++ createdDirs env stands entry ++
    fileTouches env stands (recordPath entry (ascii "a")) ++ [.path entry]

section
variable {env : Env} {text name constraint : List UInt8} {stands : Bool}
  {versionCapacity pathCapacity checksumCapacity : Nat}

theorem hostile_serving : Serving (hostile env text stands) env text stands fun _ => True where
  index s _ text' base h := by
    have hread {found : Option (List UInt8)} (hfound : found = some text ∨ found = none)
        {text' : List UInt8} (h : found.filter (fun text => decide (text ≠ [])) = some text') :
        text' = text := by
      obtain rfl | rfl := hfound
      · obtain ⟨heq, -⟩ := Option.filter_eq_some_iff.mp h
        exact (some.inj heq).symm
      · nomatch h
    have hfetch {base text' : List UInt8}
        (h : registryFetchBaseIndex (hostile env text stands) s base = some text') :
        text' = text := hread (.inl rfl) h
    have hcached {text' : List UInt8} (h : ((registryIndexCachePath env).bind fun path =>
        (hostile env text stands).read s path 2097152).filter (fun text => decide (text ≠ [])) =
          some text') : text' = text := by
      refine hread ?_ h
      cases registryIndexCachePath env with
      | none => exact .inr rfl
      | some path => exact .inl rfl
    unfold registryLoadIndex at h
    dsimp only at h
    split at h
    · obtain ⟨found, hfound, heq⟩ := map_eq_some_iff.mp h
      exact (Prod.mk.inj heq).1 ▸ hread (.inl rfl) hfound
    split at h
    · obtain ⟨found, hfound, heq⟩ := map_eq_some_iff.mp h
      exact (Prod.mk.inj heq).1 ▸ hcached hfound
    split at h
    · rename_i found hfound
      exact (Prod.mk.inj (some.inj h)).1 ▸ hfetch hfound
    split at h
    · rename_i mirror hmirror
      split at h
      · cases h
      obtain ⟨m, -, hfound⟩ := List.exists_of_findSome?_eq_some hmirror
      obtain ⟨found, hfound, heq⟩ := map_eq_some_iff.mp hfound
      rw [← (Prod.mk.inj (some.inj h)).1, ← (Prod.mk.inj heq).1]
      exact hfetch hfound
    · obtain ⟨found, hfound, heq⟩ := map_eq_some_iff.mp h
      exact (Prod.mk.inj heq).1 ▸ hcached hfound
  keeps root hroot := by
    refine ⟨fun s path _ habove => ⟨trivial, ?_⟩, fun _ _ _ _ _ _ => trivial,
      fun _ _ _ _ _ _ _ => trivial, fun _ _ _ _ _ _ => trivial⟩
    rintro rfl
    show (if true && path.isPrefixOf ((registryStoreRoot env 8192).getD []) then _ else _) ≠ _
    rw [hroot, Option.getD_some, isPrefixOf_iff_prefix.mpr habove]
    nofun
  trackPackage _ _ _ _ _ _ := trivial

theorem hostile_load (s : Unit) (htext : text ≠ []) (honline : registryOffline env = false) :
    ∃ base, base ≠ [] ∧ registryLoadIndex (hostile env text stands) env s = some (text, base) := by
  have hfilter : (some text).filter (fun text => decide (text ≠ [])) = some text := by
    rw [filter_some, if_pos (decide_eq_true htext)]
  refine ⟨_, configured_ne env, ?_⟩
  unfold registryLoadIndex
  simp only
  split
  · rw [show (hostile env text stands).read s (env .registryIndex) 2097152 = some text from rfl,
      hfilter]
    rfl
  · rw [honline, if_neg Bool.false_ne_true, registryFetchBaseIndex,
      show (hostile env text stands).httpGet s _ 2097152 = some text from rfl, hfilter]

theorem hostile_verify (h : signable env line = true) :
    signingVerifyMetadata (hostile env text stands).logged env name line = true := by
  unfold signable at h
  unfold signingVerifyMetadata
  split
  · rename_i hunsigned
    rw [if_pos hunsigned] at h
    exact h
  rename_i hsigned
  rw [if_neg hsigned] at h
  obtain ⟨hkey, hsig⟩ := Bool.and_eq_true_iff.mp h
  rw [of_decide_eq_true hkey, of_decide_eq_true hsig]
  rfl

theorem hostile_lines : textLines ((ascii "RAZPKG1\nF 61 \n").drop 8) = [ascii "F 61 "] := by
  decide

theorem hostile_record : archiveRecord (ascii "F 61 ") = some (ascii "a", []) := by decide

theorem hostile_createDir (hpath : path ≠ []) (log : List Touch) :
    (hostile env text stands).logged.createDir ((), log) path =
      (true, (), log ++ createdDirs env stands path) := by
  unfold Runtime.createDir createdDirs
  rw [if_neg hpath]
  generalize directoryLengths path = lengths
  induction lengths generalizing log with
  | nil => exact congrArg (fun log => (true, (), log)) (append_nil log).symm
  | cons index lengths ih =>
    rw [createDirectoriesLoop, filter_cons]
    cases hboundary : boundary path index with
    | false =>
      simp only [Bool.false_eq_true, if_false]
      exact ih log
    | true =>
      simp only [if_true, map_cons, filterMap_cons]
      cases habove : stands &&
          (path.take index).isPrefixOf ((registryStoreRoot env 8192).getD []) with
      | false =>
        simp only [Runtime.logged, hostile, habove, if_true, reduceCtorEq, decide_false,
          Bool.false_and, Bool.false_eq_true, if_false] at ih ⊢
        exact (ih _).trans (congrArg (fun log => (true, (), log)) (append_cons log _ _).symm)
      | true =>
        simp only [Runtime.logged, hostile, habove, if_true, reduceCtorEq, decide_false,
          Bool.false_and, Bool.false_eq_true, if_false] at ih ⊢
        exact ih log

theorem hostile_extractRecord (entry : List UInt8) (log : List Touch) :
    extractRecord (hostile env text stands).logged entry (ascii "F 61 ") ((), log) =
      (0, (), log ++ fileTouches env stands (recordPath entry (ascii "a"))) := by
  rw [extractRecord, hostile_record]
  simp only
  generalize recordPath entry (ascii "a") = full
  unfold fileTouches
  rcases Classical.em (parentPath full = []) with hparent | hparent
  · rw [if_pos hparent, if_pos hparent]
    rfl
  · rw [if_neg hparent, if_neg hparent, hostile_createDir hparent]
    exact congrArg (fun log => (0, (), log)) (append_assoc log _ _)

theorem hostile_extract {entry : List UInt8} (hentry : entry ≠ []) (log : List Touch) :
    registryExtractArchive (hostile env text stands).logged (ascii "RAZPKG1\nF 61 \n") entry
        ((), log) =
      (0, (), log ++ ([.path entry] ++ createdDirs env stands entry ++
        fileTouches env stands (recordPath entry (ascii "a")))) := by
  have hremove : (hostile env text stands).logged.removePath ((), log) entry =
      ((), log ++ [.path entry]) := rfl
  have hheader : ¬ (ascii "RAZPKG1\nF 61 \n").take 8 ≠ ascii "RAZPKG1\n" := by decide
  unfold registryExtractArchive
  rw [if_neg hheader, hostile_lines]
  simp only [hremove, hostile_createDir hentry, Bool.not_true, Bool.false_eq_true, if_false]
  rw [extractLoop, hostile_extractRecord]
  simp only [append_assoc]
  rfl

theorem hostile_touched (htext : text ≠ []) (honline : registryOffline env = false)
    (hline : selectLine name constraint text = some line)
    (hver : line.version.length ≤ versionCapacity)
    (hchecksum : line.checksum.length ≤ checksumCapacity) (hsigned : signable env line = true)
    {entry : List UInt8} (hentry : registryStorePath env line.checksum pathCapacity = some entry)
    (hydrateLock : Bool) :
    touched (hostile env text stands) env name constraint versionCapacity pathCapacity
      checksumCapacity hydrateLock () = hostileTouches env stands entry := by
  obtain ⟨base, hbase, hload⟩ := @hostile_load env text stands () htext honline
  have hlogged : registryLoadIndex (hostile env text stands).logged env ((), []) =
      some (text, base) := hload
  have hne : entry ≠ [] := by
    obtain ⟨root, -, -, rfl⟩ := registryStorePath_eq_some.mp hentry
    exact append_ne_nil_of_right_ne_nil root (cons_ne_nil _ _)
  have hmaterialize (url : List UInt8) :
      registryStoreMaterializeArchive (hostile env text stands).logged env url line.checksum
          pathCapacity ((), []) =
        (-62, (), hostileTouches env stands entry) := by
    have hget : ((hostile env text stands).logged.httpGet ((), []) url 33554432).filter (· ≠ []) =
        some (ascii "RAZPKG1\nF 61 \n") := by
      have hne : ascii "RAZPKG1\nF 61 \n" ≠ [] := by decide
      exact (filter_some ..).trans (if_pos (decide_eq_true hne))
    unfold registryStoreMaterializeArchive storeMaterialize unpackArchive
    rw [hentry]
    simp only [hget, hostile_extract hne, honline]
    rfl
  have hline' : materializeLine (hostile env text stands).logged env base line pathCapacity
      ((), []) = (-62, (), hostileTouches env stands entry) := by
    unfold materializeLine
    simp only [decide_eq_true hbase, Bool.or_true, if_true]
    exact hmaterialize _
  unfold touched registryResolveMode resolvePackage
  rw [hlogged]
  simp only [hline, hentry]
  rw [if_neg, if_neg, if_neg, hline']
  · rfl
  · exact Bool.false_ne_true
  · rw [hostile_verify hsigned]
    exact Bool.false_ne_true
  · rw [Bool.or_eq_true, decide_eq_true_eq, decide_eq_true_eq]
    exact not_or.mpr ⟨Nat.not_lt.mpr hver, Nat.not_lt.mpr hchecksum⟩

theorem Inside.length_le {root checksum : List UInt8} (h : Inside root checksum path) :
    (root ++ 47 :: checksum).length ≤ path.length := by
  cases h with
  | entry => exact Nat.le_refl _
  | below _ =>
    rw [@length_append _ (root ++ 47 :: checksum)]
    exact Nat.le_add_right _ _

/-- A path that does not fit into the buffer puts the file beside the entry. -/
theorem recordPath_long {entry : List UInt8} (hlong : 8192 < entry.length) :
    (recordPath entry (ascii "a")).length = 2 := by
  have hentry : (packageAppend 8192 [] entry).2 = [] := by
    rw [packageAppend, if_pos (by rwa [length_nil, Nat.zero_add])]
  unfold recordPath
  rw [hentry]
  decide

/-- A store root that is missing is created for an entry. -/
theorem mem_createdDirs {root checksum : List UInt8}
    (h : hostRootLength (root ++ 47 :: checksum) < root.length) :
    .path root ∈ createdDirs env false (root ++ 47 :: checksum) := by
  refine mem_filterMap.mpr ⟨root, mem_map.mpr ⟨root.length, mem_filter.mpr ⟨?_, ?_⟩,
    take_left⟩, rfl⟩
  · have hlen : (root ++ 47 :: checksum).length = root.length + 1 + checksum.length := by
      rw [length_append, length_cons]
      omega
    exact mem_range'_1.mpr ⟨h, by omega⟩
  · unfold boundary
    rw [getElem?_append_right (Nat.le_refl _), Nat.sub_self, getElem?_cons_zero]
    exact Bool.or_eq_true_iff.mpr (.inr rfl)

/-- The store root is not the root of a file system. -/
def HasParent (env : Env) : Prop :=
  ∀ root checksum, registryStoreRoot env 8192 = some root →
    hostRootLength (root ++ 47 :: checksum) < root.length

theorem plain_of_confines (hroot : stands = true ∨ HasParent env)
    (h : Confines env text stands name constraint versionCapacity pathCapacity checksumCapacity
      false) :
    PlainLine env text stands name constraint versionCapacity pathCapacity checksumCapacity := by
  intro line hline hver hchecksum hsigned honline entry hentry
  have htext : text ≠ [] := by
    rintro rfl
    exact nomatch (show (none : Option IndexLine) = some line from hline)
  have hall := h Unit (hostile env text stands) (fun _ => True) () hostile_serving trivial
  rw [hostile_touched htext honline hline hver hchecksum hsigned hentry] at hall
  obtain ⟨root, hstore, -, rfl⟩ := registryStorePath_eq_some.mp hentry
  have hconfined {path : List UInt8}
      (hpath : .path path ∈ hostileTouches env stands (root ++ 47 :: line.checksum)) :
      PlainComponent line.checksum ∧ Inside root line.checksum path := by
    obtain ⟨line', root', hline' | ⟨hlock, -⟩, hroot', hinside⟩ := hall _ hpath
    · obtain rfl := some.inj (hline.symm.trans hline')
      obtain rfl := some.inj (hstore.symm.trans hroot')
      exact hinside
    · nomatch hlock
  have hplain := (hconfined (mem_append_right _ (mem_singleton_self _))).1
  refine ⟨?_, hplain, Nat.le_of_not_lt fun hlong => ?_⟩
  · cases stands with
    | true => rfl
    | false =>
      have hparent := hroot.resolve_left Bool.false_ne_true root line.checksum hstore
      have hinside := (hconfined (mem_append_left _ (mem_append_left _ (mem_append_right _
        (mem_createdDirs hparent))))).2.length_le
      rw [length_append, length_cons] at hinside
      omega
  · have hfile : .path (recordPath (root ++ 47 :: line.checksum) (ascii "a")) ∈
        fileTouches env stands (recordPath (root ++ 47 :: line.checksum) (ascii "a")) :=
      mem_append_right _ (mem_singleton_self _)
    have hinside := (hconfined (mem_append_left _ (mem_append_right _ hfile))).2.length_le
    rw [recordPath_long hlong] at hinside
    omega

end

/-- The store is the directory `st`. -/
def storeSt : Env := fun key => if key = .packageStore then ascii "st" else []

end Raz.Registry
