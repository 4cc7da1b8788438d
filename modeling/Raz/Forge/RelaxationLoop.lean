import Raz.Forge.Relaxation
import Raz.Lib.Relayout
import Mathlib.Data.List.Pairwise

/-!
# The shortening loop

The branches of a function are marked one after the other as short. The more are marked, the
closer a branch comes to its target, from whichever side.

Result: `shortened_iff`: the branches shortened are the least set closed under the loop's own test.
-/

namespace Raz.Forge.Relaxation

open Relayout List

variable {cs' : List RelaxationCandidate} {i limit offset k : Nat} {c c' : RelaxationCandidate}

/-! ## Positions -/

/-- The size of a branch in the relaxed code. -/
def RelaxationCandidate.size (candidate : RelaxationCandidate) : Nat :=
  if candidate.shortened then 2 else candidate.originalSize

/-- The pieces of a function's code. -/
def codePieces (f : Unrelaxed) (cs : List RelaxationCandidate) :
    List (Piece UInt8 RelaxationCandidate) :=
  pieces (·.instructionOffset) (·.originalSize) f.function.code 0 cs

/-- Where a piece begins in the original code. -/
def originalPosition (f : Unrelaxed) (cs : List RelaxationCandidate) (k : Nat) : Nat :=
  position (·.originalSize) (codePieces f cs) k

/-- Where a piece begins in the relaxed code. -/
def relaxedPosition (f : Unrelaxed) (cs : List RelaxationCandidate) (k : Nat) : Nat :=
  position (·.size) (codePieces f cs) k

/-! ## Marking branches -/

/-- The same branches, with at least those marked that were. -/
def Grows (cs cs' : List RelaxationCandidate) : Prop :=
  List.Forall₂ (fun c c' => c' = { c with shortened := c'.shortened } ∧
    (c.shortened = true → c'.shortened = true)) cs cs'

theorem Grows.refl (cs : List RelaxationCandidate) : Grows cs cs := by
  induction cs with
  | nil => exact .nil
  | cons c cs ih => exact .cons ⟨rfl, id⟩ ih

theorem Grows.trans {cs cs'' : List RelaxationCandidate} (h : Grows cs cs') (h' : Grows cs' cs'') :
    Grows cs cs'' := by
  induction h generalizing cs'' with
  | nil => exact h'
  | @cons a b _ _ hab _ ih =>
    cases h' with
    | @cons _ c _ _ hbc hrest =>
      refine .cons ⟨?_, hbc.2 ∘ hab.2⟩ (ih hrest)
      rw [hbc.1, hab.1]

theorem Grows.length_eq {cs : List RelaxationCandidate} (h : Grows cs cs') :
    cs.length = cs'.length := List.Forall₂.length_eq h

theorem Grows.getElem {cs : List RelaxationCandidate} (h : Grows cs cs') (hc : cs[i]? = some c) :
    ∃ c', cs'[i]? = some c' ∧ c' = { c with shortened := c'.shortened } ∧
      (c.shortened = true → c'.shortened = true) := by
  induction h generalizing i with
  | nil => simp at hc
  | @cons a b _ _ hab _ ih =>
    cases i with
    | zero =>
      obtain rfl : a = c := by simpa using hc
      exact ⟨b, rfl, hab⟩
    | succ i => exact ih (by simpa using hc)

theorem Grows.getElem_back {cs : List RelaxationCandidate} (h : Grows cs cs')
    (hc : cs'[i]? = some c') :
    ∃ c, cs[i]? = some c ∧ c' = { c with shortened := c'.shortened } ∧
      (c.shortened = true → c'.shortened = true) := by
  obtain ⟨hlt, -⟩ := List.getElem?_eq_some_iff.mp hc
  have hlt : i < cs.length := by rw [h.length_eq]; exact hlt
  obtain ⟨c'', hc'', hsame, hmarks⟩ := h.getElem (List.getElem?_eq_getElem hlt)
  obtain rfl := Option.some.inj (hc''.symm.trans hc)
  exact ⟨_, List.getElem?_eq_getElem hlt, hsame, hmarks⟩

theorem Grows.set (cs : List RelaxationCandidate) (h : cs[i]? = some c) :
    Grows cs (cs.set i { c with shortened := true }) := by
  induction cs generalizing i with
  | nil => simp at h
  | cons first cs ih =>
    cases i with
    | zero =>
      obtain rfl : first = c := by simpa using h
      exact .cons ⟨rfl, fun _ => rfl⟩ (Grows.refl cs)
    | succ i => exact .cons ⟨rfl, id⟩ (ih (by simpa using h))

theorem Grows.of_marks {start cs : List RelaxationCandidate} (h : Grows start cs)
    (h' : Grows start cs') (hmarks : ∀ (i : Nat) c d, cs[i]? = some c → cs'[i]? = some d →
      c.shortened = true → d.shortened = true) : Grows cs cs' := by
  induction h generalizing cs' with
  | nil => exact h'
  | @cons a b _ _ hab _ ih =>
    cases h' with
    | @cons _ c _ _ hac hrest =>
      refine .cons ⟨?_, hmarks 0 b c rfl rfl⟩ (ih hrest fun i => hmarks (i + 1))
      rw [hac.1, hab.1]

/-- What the spans of branches have to be for their positions to make sense. -/
structure Spans (limit : Nat) (cs : List RelaxationCandidate) : Prop where
  inOrder : InOrder (·.instructionOffset) (·.originalSize) limit 0 cs
  sizes : ∀ c ∈ cs, c.originalSize = match c.kind with | .jump => 5 | .conditional => 6
  targets : ∀ c ∈ cs, c.targetOffset ≤ limit ∧
    Boundary (·.instructionOffset) (·.originalSize) cs c.targetOffset

section

variable {cs : List RelaxationCandidate} (h : Grows cs cs')

include h

theorem Grows.mem_back (hc : c' ∈ cs') : ∃ c ∈ cs, c' = { c with shortened := c'.shortened } := by
  obtain ⟨i, hi⟩ := mem_iff_getElem?.mp hc
  obtain ⟨c, hc, hsame, -⟩ := h.getElem_back hi
  exact ⟨c, mem_of_getElem? hc, hsame⟩

theorem Grows.inOrder {cursor : Nat}
    (horder : InOrder (·.instructionOffset) (·.originalSize) limit cursor cs) :
    InOrder (·.instructionOffset) (·.originalSize) limit cursor cs' := by
  induction h generalizing cursor with
  | nil => exact horder
  | @cons a b _ _ hab _ ih =>
    obtain ⟨hstart, hsize, hrest⟩ := horder
    rw [hab.1]
    exact ⟨hstart, hsize, ih hrest⟩

theorem Grows.boundary (hoff : Boundary (·.instructionOffset) (·.originalSize) cs offset) :
    Boundary (·.instructionOffset) (·.originalSize) cs' offset := by
  intro c' hc'
  obtain ⟨c, hc, hsame⟩ := h.mem_back hc'
  rw [hsame]
  exact hoff c hc

end

theorem Spans.grows {cs : List RelaxationCandidate} (h : Spans limit cs) (hgrows : Grows cs cs') :
    Spans limit cs' where
  inOrder := hgrows.inOrder h.inOrder
  sizes := by
    intro c' hc'
    obtain ⟨c, hc, hsame⟩ := hgrows.mem_back hc'
    rw [hsame]
    exact h.sizes c hc
  targets := by
    intro c' hc'
    obtain ⟨c, hc, hsame⟩ := hgrows.mem_back hc'
    rw [hsame]
    exact ⟨(h.targets c hc).1, hgrows.boundary (h.targets c hc).2⟩

/-! ## Offsets -/

section
variable {f : Unrelaxed} {cs : List RelaxationCandidate}

theorem Spans.size_add_removed (h : Spans limit cs) :
    ∀ c ∈ cs, c.size + c.removed = c.originalSize := by
  intro c hc
  rw [h.sizes c hc, RelaxationCandidate.size, RelaxationCandidate.removed, h.sizes c hc]
  cases c.shortened <;> cases c.kind <;> rfl

section

variable (h : Spans f.function.code.length cs)

include h

theorem relaxedPosition_add (hk : k ≤ (codePieces f cs).length) :
    relaxedPosition f cs k + removedBefore cs (originalPosition f cs k) =
      originalPosition f cs k := by
  have hmoved := position_add_removed h.inOrder h.size_add_removed hk
  rwa [Nat.zero_add] at hmoved

theorem adjustedOffset_position (hk : k ≤ (codePieces f cs).length) :
    adjustedOffset cs (originalPosition f cs k) = relaxedPosition f cs k := by
  have hmoved := relaxedPosition_add h hk
  rw [adjustedOffset]
  omega

theorem exists_originalPosition (hlimit : offset ≤ f.function.code.length)
    (hbound : Boundary (·.instructionOffset) (·.originalSize) cs offset) :
    ∃ k ≤ (codePieces f cs).length, originalPosition f cs k = offset := by
  obtain ⟨k, hk, hoff⟩ := exists_position h.inOrder (Nat.zero_le _) hlimit hbound
  rw [Nat.zero_add] at hoff
  exact ⟨k, hk, hoff⟩

theorem originalPosition_lt {j : Nat} (hjk : j < k) (hk : k ≤ (codePieces f cs).length) :
    originalPosition f cs j < originalPosition f cs k :=
  position_lt h.inOrder hjk hk

theorem exists_branch (hc : c ∈ cs) :
    ∃ k : Nat, (codePieces f cs)[k]? = some (.replaced c) ∧
      originalPosition f cs k = c.instructionOffset := by
  have hpiece : ∃ k : Nat, (codePieces f cs)[k]? = some (.replaced c) ∧
      0 + originalPosition f cs k = c.instructionOffset := exists_replaced h.inOrder hc
  obtain ⟨k, hk, hoff⟩ := hpiece
  rw [Nat.zero_add] at hoff
  exact ⟨k, hk, hoff⟩

theorem adjustedOffset_add (hlimit : offset ≤ f.function.code.length)
    (hbound : Boundary (·.instructionOffset) (·.originalSize) cs offset) :
    adjustedOffset cs offset + removedBefore cs offset = offset := by
  obtain ⟨k, hk, rfl⟩ := exists_originalPosition h hlimit hbound
  rw [adjustedOffset_position h hk]
  exact relaxedPosition_add h hk

theorem adjustedOffset_start (hc : c ∈ cs) :
    adjustedOffset cs c.instructionOffset + removedBefore cs c.instructionOffset =
      c.instructionOffset := by
  obtain ⟨k, hk, hstart⟩ := exists_branch h hc
  have hlt := (List.getElem?_eq_some_iff.mp hk).1
  rw [← hstart, adjustedOffset_position h hlt.le]
  exact relaxedPosition_add h hlt.le

/-- A branch goes forward over itself, or backward, and so does the relaxed one. -/
theorem forward_or_backward (hc : c ∈ cs) :
    c.instructionOffset ≤ c.targetOffset ∧
        adjustedOffset cs c.instructionOffset + c.size ≤ adjustedOffset cs c.targetOffset ∨
      c.targetOffset ≤ c.instructionOffset ∧
        adjustedOffset cs c.targetOffset ≤ adjustedOffset cs c.instructionOffset := by
  obtain ⟨k, hk, hstart⟩ := exists_branch h hc
  have hlt := (List.getElem?_eq_some_iff.mp hk).1
  obtain ⟨hlimit, hbound⟩ := h.targets c hc
  obtain ⟨t, ht, htarget⟩ := exists_originalPosition h hlimit hbound
  have hnext : originalPosition f cs (k + 1) = c.instructionOffset + c.originalSize := by
    rw [← hstart]
    exact position_succ _ hk
  have hsides : c.targetOffset ≤ c.instructionOffset ∨
      c.instructionOffset + c.originalSize ≤ c.targetOffset := hbound c hc
  rw [← hstart, adjustedOffset_position h hlt.le, ← htarget, adjustedOffset_position h ht]
  rcases hsides with hbackward | hforward
  · refine .inr ⟨by omega, position_mono _ _ (Nat.le_of_not_lt fun hkt => ?_)⟩
    have hpos := originalPosition_lt h hkt ht
    omega
  have hkt : k + 1 ≤ t := Nat.le_of_not_lt fun htk => by
    have hpos := originalPosition_lt h htk hlt
    omega
  refine .inl ⟨by omega, ?_⟩
  have hrelaxed : relaxedPosition f cs (k + 1) = relaxedPosition f cs k + c.size :=
    position_succ _ hk
  rw [← hrelaxed]
  exact position_mono _ _ hkt

end

theorem fitsShort_iff (c : RelaxationCandidate) (cs : List RelaxationCandidate) :
    fitsShort cs c = true ↔ -128 ≤ delta cs c 2 ∧ delta cs c 2 ≤ 127 := by
  simp [fitsShort]

theorem removedBefore_mono (h : Grows cs cs') {first second : Nat} (hle : first ≤ second) :
    removedBefore cs second + removedBefore cs' first ≤
      removedBefore cs' second + removedBefore cs first := by
  refine removed_mono ?_ hle
  refine List.Forall₂.imp (fun c c' hsame => ?_) h
  obtain ⟨heq, hmarks⟩ := hsame
  rw [heq]
  refine ⟨rfl, ?_⟩
  unfold RelaxationCandidate.removed
  cases hc : c.shortened with
  | false => simp
  | true => rw [hmarks hc]

/-- **A branch that fits 8 bits still does when more branches are shortened**: those between it
and its target bring them closer, and it cannot pass its target. -/
theorem fitsShort_grows (h : Spans f.function.code.length cs) (hgrows : Grows cs cs')
    (hc : cs[i]? = some c) (hc' : cs'[i]? = some c') (hfits : fitsShort cs c = true) :
    fitsShort cs' c' = true := by
  have h' := h.grows hgrows
  have hmem := mem_of_getElem? hc
  have hmem' := mem_of_getElem? hc'
  obtain ⟨c'', hc'', hsame, -⟩ := hgrows.getElem hc
  obtain rfl := Option.some.inj (hc''.symm.trans hc')
  have hstart : c''.instructionOffset = c.instructionOffset := by rw [hsame]
  have htarget : c''.targetOffset = c.targetOffset := by rw [hsame]
  have hsize : 2 ≤ c''.size := by
    rw [RelaxationCandidate.size, h'.sizes c'' hmem']
    split
    · exact le_rfl
    · split <;> decide
  have hsrc := adjustedOffset_start h hmem
  have hsrc' := adjustedOffset_start h' hmem'
  have hdst := adjustedOffset_add h (h.targets c hmem).1 (h.targets c hmem).2
  have hdst' := adjustedOffset_add h' (h'.targets c'' hmem').1 (h'.targets c'' hmem').2
  rw [fitsShort_iff, delta] at hfits ⊢
  have hsides := forward_or_backward h' hmem'
  rw [hstart, htarget] at *
  rcases hsides with ⟨hle, hside⟩ | ⟨hle, hside⟩
  · have hcloser := removedBefore_mono hgrows hle
    omega
  · have hcloser := removedBefore_mono hgrows hle
    omega

end

/-! ## The shortening loop -/

/-- The least set of branches, by their indices, that is closed under the loop's test: a branch
that fits 8 bits when some branches of the set are shortened is in the set. -/
inductive Shortens (start : List RelaxationCandidate) : Nat → Prop
  | fits {marked : List RelaxationCandidate} {i : Nat} {c : RelaxationCandidate} :
      Grows start marked →
      (∀ (j : Nat) d, marked[j]? = some d → d.shortened = true → Shortens start j) →
      marked[i]? = some c → fitsShort marked c = true → Shortens start i

/-- What a step of the loop does: nothing, or it shortens a branch that fits 8 bits. -/
theorem tryShorten_cases (i : Nat) (cs : List RelaxationCandidate) :
    tryShorten i cs = cs ∧
        (∀ c, cs[i]? = some c → c.shortened = true ∨ fitsShort cs c = false) ∨
      ∃ c, cs[i]? = some c ∧ c.shortened = false ∧ fitsShort cs c = true ∧
        tryShorten i cs = cs.set i { c with shortened := true } := by
  unfold tryShorten
  cases hc : cs[i]? with
  | none => exact .inl ⟨rfl, nofun⟩
  | some c =>
    cases hshort : c.shortened with
    | true => exact .inl ⟨by simp [hshort], fun d hd => .inl (Option.some.inj hd ▸ hshort)⟩
    | false =>
      cases hfits : fitsShort cs c with
      | false => exact .inl ⟨by simp [hshort, hfits], fun d hd => .inr (Option.some.inj hd ▸ hfits)⟩
      | true => exact .inr ⟨c, rfl, hshort, hfits, by simp [hshort, hfits]⟩

/-- What holds while the loop runs. -/
structure LoopInv (start cs : List RelaxationCandidate) : Prop where
  grows : Grows start cs
  short : ∀ c ∈ cs, c.shortened = true → fitsShort cs c = true
  least : ∀ (i : Nat) c, cs[i]? = some c → c.shortened = true → Shortens start i

/-- The branches that are still long. -/
def longBranches (cs : List RelaxationCandidate) : Nat := cs.countP (!·.shortened)

theorem longBranches_set {cs : List RelaxationCandidate} (hc : cs[i]? = some c)
    (hlong : c.shortened = false) :
    longBranches (cs.set i { c with shortened := true }) < longBranches cs := by
  induction cs generalizing i with
  | nil => simp at hc
  | cons first cs ih =>
    cases i with
    | zero =>
      obtain rfl : first = c := by simpa using hc
      simp [longBranches, hlong]
    | succ i =>
      have hrest := ih (i := i) (by simpa using hc)
      simp only [longBranches, set_cons_succ, countP_cons] at hrest ⊢
      omega

section
variable {f : Unrelaxed} {start : List RelaxationCandidate}

theorem LoopInv.step (h : Spans f.function.code.length start) {cs : List RelaxationCandidate}
    (hinv : LoopInv start cs) {i : Nat} {c : RelaxationCandidate} (hc : cs[i]? = some c)
    (hfits : fitsShort cs c = true) :
    LoopInv start (cs.set i { c with shortened := true }) := by
  have hset := Grows.set cs hc
  have hspans := h.grows hinv.grows
  refine ⟨hinv.grows.trans hset, ?_, ?_⟩
  · intro d hd hshort
    obtain ⟨j, hj⟩ := mem_iff_getElem?.mp hd
    obtain ⟨e, he, hsame, -⟩ := hset.getElem_back hj
    refine fitsShort_grows hspans hset he hj ?_
    by_cases hij : i = j
    · obtain rfl := hij
      obtain rfl := Option.some.inj (hc.symm.trans he)
      exact hfits
    · rw [List.getElem?_set_ne hij] at hj
      obtain rfl := Option.some.inj (he.symm.trans hj)
      exact hinv.short _ (mem_of_getElem? he) hshort
  · intro j d hj hshort
    by_cases hij : i = j
    · exact hij ▸ .fits hinv.grows hinv.least hc hfits
    · rw [List.getElem?_set_ne hij] at hj
      exact hinv.least j d hj hshort

theorem descends (h : Spans f.function.code.length start) (count : Nat) :
    Sweep.Descends (LoopInv start) longBranches (shortenUpdates count) where
  keeps := by
    rintro update hupdate cs hinv
    obtain ⟨i, -, rfl⟩ := mem_map.mp hupdate
    rcases tryShorten_cases i cs with ⟨hsame, -⟩ | ⟨c, hc, -, hfits, hset⟩
    · rwa [hsame]
    · rw [hset]
      exact hinv.step h hc hfits
  lowers := by
    rintro update hupdate cs -
    obtain ⟨i, -, rfl⟩ := mem_map.mp hupdate
    rcases tryShorten_cases i cs with ⟨hsame, -⟩ | ⟨c, hc, hlong, -, hset⟩
    · exact .inl hsame
    · exact .inr (hset ▸ longBranches_set hc hlong)

theorem loopInv_start (hlong : ∀ c ∈ start, c.shortened = false) : LoopInv start start where
  grows := Grows.refl start
  short := fun c hc hshort => nomatch (hlong c hc).symm.trans hshort
  least := fun _ c hc hshort => nomatch (hlong c (mem_of_getElem? hc)).symm.trans hshort

theorem loopInv_shorten (h : Spans f.function.code.length start)
    (hlong : ∀ c ∈ start, c.shortened = false) : LoopInv start (shorten start) :=
  (descends h _).settle_inv _ _ (loopInv_start hlong)

theorem longBranches_le (cs : List RelaxationCandidate) : longBranches cs ≤ cs.length :=
  countP_le_length

section

variable (h : Spans f.function.code.length start) (hlong : ∀ c ∈ start, c.shortened = false)

include h hlong

/-- **The shortening loop ends**, after at most one pass for every branch. -/
theorem shortenLoop_eq {passes : Nat} (hpasses : start.length ≤ passes) :
    shortenLoop passes start = shorten start :=
  (descends h _).settle_eq _ _ _ (loopInv_start hlong) (longBranches_le start) hpasses

/-- **No long branch fits 8 bits in the end.** -/
theorem shorten_settled :
    ∀ c ∈ shorten start, c.shortened = false → fitsShort (shorten start) c = false := by
  intro c hc hlongc
  obtain ⟨i, hi⟩ := mem_iff_getElem?.mp hc
  have hlen := (loopInv_shorten h hlong).grows.length_eq
  have hlt : i < start.length := hlen ▸ (List.getElem?_eq_some_iff.mp hi).1
  have hfixed := (descends h _).settle_fixed _ _ (loopInv_start hlong) (longBranches_le start)
    (tryShorten i) (mem_map_of_mem (List.mem_range.mpr hlt))
  rcases tryShorten_cases i (shorten start) with ⟨-, hnot⟩ | ⟨d, hd, hlongd, -, hset⟩
  · rcases hnot c hi with hshort | hfits
    · nomatch hlongc.symm.trans hshort
    · exact hfits
  -- the step would still mark a branch
  have hlower := longBranches_set hd hlongd
  rw [← hset, show tryShorten i (shorten start) = shorten start from hfixed] at hlower
  exact absurd hlower (Nat.lt_irrefl _)

/-- **The branches shortened are the least set closed under the loop's test.** -/
theorem shortened_iff (hc : (shorten start)[i]? = some c) :
    c.shortened = true ↔ Shortens start i := by
  have hinv := loopInv_shorten h hlong
  refine ⟨hinv.least i c hc, fun hshortens => ?_⟩
  induction hshortens generalizing c with
  | @fits marked i d hgrows _ hd hfits ih =>
    -- what is marked is shortened in the end, so the branch fits in the end as well
    have hmarked : Grows marked (shorten start) :=
      hgrows.of_marks hinv.grows fun j d e hd he hshort => ih j d hd hshort he
    cases hshort : c.shortened with
    | true => rfl
    | false =>
      have hend := fitsShort_grows (h.grows hgrows) hmarked hd hc hfits
      nomatch hend.symm.trans (shorten_settled h hlong c (mem_of_getElem? hc) hshort)

end

end

end Raz.Forge.Relaxation
