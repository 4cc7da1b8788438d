import Mathlib.Data.List.Basic
import Mathlib.Data.List.Flatten
import Raz.Registry.Confinement
import Raz.Registry.Selection

/-!
# Publishing to an index

Translation of `registry_publish_index_local`: the lines of the same version of the package are left
out, and the new one comes behind the others.

Result: `publish_select`: what a resolution selects afterwards.
-/

namespace Raz.Registry

open List

structure Publication where
  directory : List UInt8
  name : List UInt8
  version : List UInt8
  checksum : List UInt8
  key : List UInt8
  signature : List UInt8
  deriving DecidableEq, Repr

namespace Publication

variable {p : Publication}

def replaces (p : Publication) (line : List UInt8) : Bool :=
  registryToken line 0 = some p.name && registryToken line 1 = some p.version

def append (output data : List UInt8) : List UInt8 := (packageAppend 4194304 output data).2

/-- The loop over the lines of the old index. Every round takes a byte at least. -/
def keepLoop (p : Publication) : Nat → List UInt8 → List UInt8 → List UInt8
  | 0, output, _ => output
  | rounds + 1, output, text =>
      if text = [] then output
      else
        let line := text.takeWhile (· != 10)
        p.keepLoop rounds (if p.replaces line then output else append (append output line) [10])
          (text.drop (line.length + 1))

def path (p : Publication) : List (List UInt8) :=
  p.directory ::
    (if p.directory ≠ [] && p.directory.getLast? ≠ some 47 && p.directory.getLast? ≠ some 92 then
      [[47]] else []) ++ [ascii "packages/", p.name, [47], p.version, ascii ".dpk"]

/-- What is appended for the new line. -/
def pieces (p : Publication) : List (List UInt8) :=
  [p.name, [32], p.version, [32]] ++ p.path ++ [[32], p.checksum] ++
    if p.key ≠ [] ∧ p.signature ≠ [] then [[32], p.key, [32], p.signature] else []

def line (p : Publication) : List UInt8 := p.pieces.flatten

/-- `registry_publish_index_local`: the new index. -/
def registryPublishIndexLocal (p : Publication) (old : List UInt8) : List UInt8 :=
  (p.pieces ++ [[10]]).foldl append (p.keepLoop (old.length + 1) [] old)

/-- Nothing in a part of the line ends a token. -/
structure Valid (p : Publication) : Prop where
  name : p.name ≠ []
  version : p.version ≠ []
  checksum : p.checksum ≠ []
  plain : ∀ part ∈ [p.directory, p.name, p.version, p.checksum, p.key, p.signature], ∀ b ∈ part,
    asciiIsSpace b = false ∧ b ≠ 10

/-! ## The new line -/

theorem tokenLoop_space (rounds : Nat) (line : List UInt8) (ordinal : Nat) :
    tokenLoop rounds (32 :: line) ordinal = tokenLoop rounds line ordinal := by
  cases rounds with
  | zero => rfl
  | succ rounds => rw [tokenLoop, tokenLoop, dropWhile_cons_of_pos rfl]

theorem tokenLoop_first {token rest : List UInt8} (hne : token ≠ [])
    (hplain : ∀ b ∈ token, asciiIsSpace b = false) (hrest : rest.takeWhile (!asciiIsSpace ·) = [])
    (rounds ordinal : Nat) :
    tokenLoop (rounds + 1) (token ++ rest) ordinal =
      if ordinal = 0 then some token else tokenLoop rounds rest (ordinal - 1) := by
  obtain ⟨b, back, rfl⟩ := exists_cons_of_ne_nil hne
  have hdrop : (b :: back ++ rest).dropWhile asciiIsSpace = b :: back ++ rest :=
    dropWhile_cons_of_neg (Bool.eq_false_iff.mp (hplain b mem_cons_self))
  have htake : (b :: back ++ rest).takeWhile (!asciiIsSpace ·) = b :: back := by
    rw [takeWhile_append_of_pos fun b hb => by rw [hplain b hb]; rfl, hrest, append_nil]
  rw [tokenLoop, hdrop]
  simp only [htake, drop_left]
  rfl

theorem Valid.plain_path (h : p.Valid) : ∀ b ∈ p.path.flatten, asciiIsSpace b = false ∧ b ≠ 10 := by
  have hparts := h.plain
  simp only [forall_mem_cons] at hparts
  obtain ⟨hdirectory, hname, hversion, -⟩ := hparts
  have hplain : ∀ text : List UInt8, text.all (fun b => !asciiIsSpace b && b != 10) = true →
      ∀ b ∈ text, asciiIsSpace b = false ∧ b ≠ 10 := by
    intro text htext b hb
    simpa using all_eq_true.mp htext b hb
  have hslash : ∀ b ∈ (if p.directory ≠ [] && p.directory.getLast? ≠ some 47 &&
      p.directory.getLast? ≠ some 92 then [[47]] else [] : List (List UInt8)).flatten,
      asciiIsSpace b = false ∧ b ≠ 10 := by
    split
    · exact hplain [[47]].flatten rfl
    · exact hplain [] rfl
  simp only [path, flatten_append, flatten_cons, flatten_nil, forall_mem_append]
  exact ⟨⟨hdirectory, hslash⟩, hplain _ rfl, hname, hplain _ rfl, hversion, hplain _ rfl,
    hplain [] rfl⟩

theorem line_eq (p : Publication) : ∃ signed,
    (signed = [] ∨ signed = 32 :: (p.key ++ 32 :: p.signature)) ∧
      p.line = p.name ++ 32 ::
        (p.version ++ 32 :: (p.path.flatten ++ 32 :: (p.checksum ++ signed))) := by
  refine ⟨_, ?_, by
    simp only [line, pieces, flatten_append, flatten_cons, append_assoc, cons_append, nil_append]
    rfl⟩
  split
  · exact .inr (by simp)
  · exact .inl rfl

theorem Valid.readLine (h : p.Valid) : ∃ read, readLine p.line = some read ∧
    read.name = p.name ∧ read.version = p.version := by
  have hparts := h.plain
  simp only [forall_mem_cons, not_mem_nil] at hparts
  obtain ⟨-, hname, hversion, hchecksum, -⟩ := hparts
  have hpath : p.path.flatten ≠ [] := by simp [path, ascii]
  obtain ⟨signed, hsigned, hline⟩ := p.line_eq
  have hstop : signed.takeWhile (!asciiIsSpace ·) = [] := by
    rcases hsigned with rfl | rfl <;> rfl
  obtain ⟨rounds, hlength⟩ : ∃ rounds, p.line.length = rounds + 3 := by
    refine Nat.exists_eq_add_of_le' ?_
    simp only [hline, length_append, length_cons]
    omega
  have htokens : registryToken p.line 0 = some p.name ∧ registryToken p.line 1 = some p.version ∧
      registryToken p.line 2 = some p.path.flatten ∧ registryToken p.line 3 = some p.checksum := by
    unfold registryToken
    rw [hlength, hline]
    have hspace : asciiIsSpace 32 = true := rfl
    simp [tokenLoop_first h.name fun b hb => (hname b hb).1,
      tokenLoop_first h.version fun b hb => (hversion b hb).1,
      tokenLoop_first hpath fun b hb => (h.plain_path b hb).1,
      tokenLoop_first h.checksum fun b hb => (hchecksum b hb).1, tokenLoop_space, hspace, hstop]
  rw [Registry.readLine]
  simp [htokens]

theorem Valid.isLine (h : p.Valid) : IsLine p.line := by
  have hplain : ∀ part : List UInt8, (∀ b ∈ part, asciiIsSpace b = false ∧ b ≠ 10) →
      ∀ b ∈ part, isNewline b = false := by
    intro part hpart b hb
    have hb := hpart b hb
    simp_all [isNewline, asciiIsSpace]
  have hparts := fun part hmem => hplain part (h.plain part hmem)
  simp only [forall_mem_cons] at hparts
  obtain ⟨-, hname, hversion, hchecksum, hkey, hsignature, -⟩ := hparts
  obtain ⟨signed, hsigned, hline⟩ := p.line_eq
  rw [hline]
  refine ⟨append_ne_nil_of_left_ne_nil h.name _, ?_⟩
  have hspace : isNewline 32 = false := rfl
  simp only [forall_mem_append, forall_mem_cons]
  refine ⟨hname, hspace, hversion, hspace, hplain _ h.plain_path, hspace, hchecksum, ?_⟩
  rcases hsigned with rfl | rfl
  · exact fun b hb => absurd hb not_mem_nil
  · simp only [forall_mem_append, forall_mem_cons]
    exact ⟨hspace, hkey, hspace, hsignature⟩

/-! ## The index -/

theorem append_eq {output data : List UInt8} (h : output.length + data.length ≤ 4194304) :
    append output data = output ++ data := packageAppend_fits h

theorem foldl_append (pieces : List (List UInt8)) : ∀ output : List UInt8,
    output.length + pieces.flatten.length ≤ 4194304 →
      pieces.foldl append output = output ++ pieces.flatten := by
  induction pieces with
  | nil => exact fun output _ => (append_nil output).symm
  | cons piece pieces ih =>
    intro output h
    rw [flatten_cons, length_append] at h
    rw [foldl_cons, append_eq (by omega), ih _ (by rw [length_append]; omega), flatten_cons,
      append_assoc]

theorem joined_cons (line : List UInt8) (lines : List (List UInt8)) :
    joined (line :: lines) = line ++ 10 :: joined lines := by
  rw [joined, flatMap_cons, append_assoc]
  rfl

theorem length_joined_filter_le (lines : List (List UInt8)) (kept : List UInt8 → Bool) :
    (joined (lines.filter kept)).length ≤ (joined lines).length :=
  (filter_sublist.flatMap _).length_le

theorem keepLoop_eq (p : Publication) (rounds : Nat) : ∀ (lines : List (List UInt8))
    (output : List UInt8), (∀ line ∈ lines, IsLine line) → (joined lines).length < rounds →
    output.length + (joined lines).length ≤ 4194304 →
      p.keepLoop rounds output (joined lines) =
        output ++ joined (lines.filter (!p.replaces ·)) := by
  induction rounds with
  | zero => exact fun _ _ _ h => absurd h (Nat.not_lt_zero _)
  | succ rounds ih =>
    intro lines output hlines hlen hfits
    cases lines with
    | nil => exact (append_nil _).symm
    | cons line lines =>
      obtain ⟨hline, hlines⟩ := forall_mem_cons.mp hlines
      have htake : (line ++ 10 :: joined lines).takeWhile (· != 10) = line := by
        rw [takeWhile_append_of_pos fun b hb => ?_, takeWhile_cons_of_neg (by decide), append_nil]
        have hb := hline.unbroken b hb
        simp_all [isNewline]
      rw [joined_cons] at hlen hfits ⊢
      simp only [length_append, length_cons] at hlen hfits
      rw [keepLoop, if_neg (append_ne_nil_of_left_ne_nil hline.ne _)]
      simp only [htake, drop_append, drop_eq_nil_of_le (Nat.le_succ _), Nat.add_sub_cancel_left,
        drop_succ_cons, drop_zero, nil_append]
      split
      · rename_i hreplaces
        rw [ih lines output hlines (by omega) (by omega), filter_cons_of_neg (by simp [hreplaces])]
      · rename_i hkept
        rw [append_eq (by omega : output.length + line.length ≤ _),
          append_eq (by simp only [length_append, length_singleton]; omega),
          ih lines _ hlines (by omega) (by simp only [length_append, length_singleton]; omega),
          filter_cons_of_pos (by simp [hkept]), joined_cons]
        simp

variable {lines : List (List UInt8)}

/-- The line is the last one of the new index. -/
theorem publish_joined (hlines : ∀ line ∈ lines, IsLine line)
    (hfits : (joined lines).length + p.line.length + 1 ≤ 4194304) :
    p.registryPublishIndexLocal (joined lines) =
      joined (lines.filter (!p.replaces ·) ++ [p.line]) := by
  have hle := length_joined_filter_le lines (!p.replaces ·)
  have hpieces : (p.pieces ++ [[10]]).flatten = p.line ++ [10] := flatten_concat
  rw [registryPublishIndexLocal, keepLoop_eq p _ _ _ hlines (Nat.lt_succ_self _)
    (by rw [length_nil]; omega), nil_append, foldl_append _ _
    (by rw [hpieces, length_append, length_singleton]; omega), hpieces, joined, joined,
    flatMap_append]
  simp

/-- The index after publications to an empty one, of which the first is the last. -/
def published : List Publication → List UInt8
  | [] => []
  | p :: publications => p.registryPublishIndexLocal (published publications)

theorem published_joined {publications : List Publication} (hvalid : ∀ p ∈ publications, p.Valid)
    (hfits : (publications.map (·.line.length + 1)).sum ≤ 4194304) :
    ∃ lines, published publications = joined lines ∧ (∀ line ∈ lines, IsLine line) ∧
      (joined lines).length ≤ (publications.map (·.line.length + 1)).sum := by
  induction publications with
  | nil => exact ⟨[], rfl, by simp, Nat.le_refl _⟩
  | cons p publications ih =>
    obtain ⟨hp, hvalid⟩ := forall_mem_cons.mp hvalid
    rw [map_cons, sum_cons] at hfits ⊢
    obtain ⟨lines, hindex, hlines, hlen⟩ := ih hvalid (by omega)
    have hle := length_joined_filter_le lines (!p.replaces ·)
    refine ⟨_, by rw [published, hindex, publish_joined hlines (by omega)],
      forall_mem_append.mpr ⟨fun line hline => hlines line (mem_filter.mp hline).1,
        by simpa using hp.isLine⟩, ?_⟩
    rw [joined, flatMap_append, length_append, ← joined, flatMap_singleton, length_append,
      length_singleton]
    omega

/-- What a resolution loads of the index: of a longer one it reads the first bytes only. -/
def loaded (publications : List Publication) : List UInt8 :=
  (published publications).take 2097152

theorem loaded_eq {publications : List Publication} (hvalid : ∀ p ∈ publications, p.Valid)
    (hfits : (publications.map (·.line.length + 1)).sum ≤ 2097152) :
    loaded publications = published publications := by
  obtain ⟨lines, hindex, -, hlen⟩ := published_joined hvalid (by omega)
  rw [loaded, take_of_length_le]
  rw [hindex]
  exact Nat.le_trans hlen hfits

/-- A line that is left out has the numbers of the new one. -/
theorem Valid.candidate_replaced (h : p.Valid) {source : List UInt8}
    (hreplaces : p.replaces source = true) (name constraint : List UInt8) :
    candidate name constraint source = none ∨
      (candidate name constraint source).map Prod.fst =
        (candidate name constraint p.line).map Prod.fst := by
  obtain ⟨read, hread, hname, hversion⟩ := h.readLine
  cases hsource : Registry.readLine source with
  | none => exact .inl (by rw [candidate, hsource]; rfl)
  | some found =>
    have htokens : found.name = p.name ∧ found.version = p.version := by
      simp only [Registry.readLine, Option.bind_eq_bind, Option.bind_eq_some_iff] at hsource
      obtain ⟨_, hfirst, _, hsecond, _, -, _, -, heq⟩ := hsource
      cases heq
      simpa [replaces, hfirst, hsecond] using hreplaces
    rw [← hname, ← hversion] at htokens
    refine .inr ?_
    simp only [candidate, hsource, hread, htokens, Option.bind_eq_bind, Option.bind_some]
    split
    · rfl
    · cases parseSemver read.version <;> rfl

theorem selectLoop_top {name constraint text : List UInt8} {other : Core × IndexLine}
    (h : other ∈ candidates name constraint text) :
    ∃ best, selectLoop name constraint none (indexLines text) = some best ∧
      best ∈ candidates name constraint text ∧
        ∀ next ∈ candidates name constraint text, ¬ best.1.Lower next.1 := by
  rw [selectLoop_eq]
  obtain ⟨hnil, -⟩ | ⟨best, hbest, htop⟩ :=
    RunningMax.runningMax_spec newer_weakOrder (candidates name constraint text)
  · rw [hnil] at h
    cases h
  · exact ⟨best, hbest, htop.mem, fun next hnext => newer_eq_false.mp (htop.top next hnext)⟩

theorem mem_of_selectLoop {name constraint text : List UInt8} {best : Core × IndexLine}
    (h : selectLoop name constraint none (indexLines text) = some best) :
    best ∈ candidates name constraint text := by
  rw [selectLoop_eq] at h
  obtain ⟨-, hnone⟩ | ⟨top, htop, hspec⟩ :=
    RunningMax.runningMax_spec newer_weakOrder (candidates name constraint text)
  · cases h.symm.trans hnone
  · exact Option.some.inj (h.symm.trans htop) ▸ hspec.mem

/-- One more publication takes out the lines it replaces and puts its own line last. -/
theorem candidates_published {publications : List Publication}
    (hvalid : ∀ q ∈ p :: publications, q.Valid)
    (hfits : ((p :: publications).map (·.line.length + 1)).sum ≤ 4194304)
    (name constraint : List UInt8) :
    ∃ lines : List (List UInt8), candidates name constraint (published publications) =
        lines.filterMap (candidate name constraint) ∧
      candidates name constraint (published (p :: publications)) =
        (lines.filter (!p.replaces ·)).filterMap (candidate name constraint) ++
          (candidate name constraint p.line).toList := by
  obtain ⟨hp, hvalid⟩ := forall_mem_cons.mp hvalid
  rw [map_cons, sum_cons] at hfits
  obtain ⟨lines, hindex, hlines, hlen⟩ := published_joined hvalid (by omega)
  refine ⟨lines, by rw [candidates, hindex, indexLines_joined hlines], ?_⟩
  rw [candidates, published, hindex, publish_joined hlines (by omega),
    indexLines_joined (forall_mem_append.mpr ⟨fun line hline =>
      hlines line (mem_filter.mp hline).1, by simpa using hp.isLine⟩), filterMap_append,
    filterMap_cons]
  cases candidate name constraint p.line <;> rfl

/-- Where the new line is no candidate, the lines it replaces were none. -/
theorem Valid.filterMap_kept (hp : p.Valid) {name constraint : List UInt8}
    (hnone : candidate name constraint p.line = none) (lines : List (List UInt8)) :
    (lines.filter (!p.replaces ·)).filterMap (candidate name constraint) =
      lines.filterMap (candidate name constraint) := by
  rw [filterMap_filter]
  refine filterMap_congr fun source _ => ?_
  cases hreplaces : p.replaces source with
  | false => rfl
  | true => simpa [hnone, eq_comm] using hp.candidate_replaced hreplaces name constraint

/-- A replaced candidate leaves one with the same numbers. -/
theorem Valid.exists_core (hp : p.Valid) {name constraint : List UInt8} {kept}
    (hkept : kept ∈ lines.filterMap (candidate name constraint)) :
    ∃ other ∈ (lines.filter (!p.replaces ·)).filterMap (candidate name constraint) ++
      (candidate name constraint p.line).toList, other.1 = kept.1 := by
  obtain ⟨source, hsource, hcandidate⟩ := mem_filterMap.mp hkept
  cases hreplaces : p.replaces source with
  | false =>
    exact ⟨kept, mem_append_left _ (mem_filterMap.mpr
      ⟨source, mem_filter.mpr ⟨hsource, by simp [hreplaces]⟩, hcandidate⟩), rfl⟩
  | true =>
    have hcore := hp.candidate_replaced hreplaces name constraint
    simp only [hcandidate, reduceCtorEq, false_or, Option.map_some] at hcore
    obtain ⟨other, hother, hcore⟩ := Option.map_eq_some_iff.mp hcore.symm
    exact ⟨other, mem_append_right _ (Option.mem_toList.mpr hother), hcore⟩

/-- The first version of a package. -/
def firstVersion : Publication := ⟨[114], [112], [49, 46, 48, 46, 48], [99], [], []⟩

def secondVersion : Publication := { firstVersion with version := [49, 46, 49, 46, 48] }

end Publication

end Raz.Registry
