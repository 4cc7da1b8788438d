import Raz.Forge.EdgeMoves
import Raz.Lib.Rotations
import Raz.Lib.Sweep
import Mathlib.Data.List.GetD

/-!
# How the copies of an edge are planned

The rounds over the copies end, since each but the last one emits a copy; no copy that they leave
out reads what an emitted one has written. Each copy left out writes what another one reads. As the
copies write distinct places, those left out permute theirs, and the search splits them into
rotations.

Result: `emitCycle_spec`: each rotation is copied at once.
-/

namespace Raz.Forge.EdgeCopies

open Rotations List Nat

/-! ## Copies one by one -/

section
variable (allocation : RegisterAllocation) (function : Function)

/-- Copies to distinct places, each from another place than it writes. -/
structure Planned (copies : List PendingCopy) : Prop where
  scalar : ∀ copy ∈ copies, copy.IsScalar allocation function
  moved : ∀ copy ∈ copies, copy.target? allocation ≠ copy.origin? allocation
  targets : (copies.map (·.target? allocation)).Nodup

/-- A copy that is not emitted yet reads the place. -/
def IsRead (copies : List PendingCopy) (place : Option Cell) : Prop :=
  ∃ other ∈ copies, other.emitted = false ∧ other.origin? allocation = place

/-- The emitted copies have happened at once, and none of the others reads what they wrote. -/
structure Advanced (pending : List PendingCopy) (emission : Emission) : Prop where
  planned : Planned allocation function emission.copies
  same : emission.copies.map ({ · with emitted := false }) = pending
  done : ∀ m, Copies allocation function (emission.copies.filter (·.emitted)) m
    (run emission.steps m)
  free : ∀ copy ∈ emission.copies, copy.emitted = true →
    ¬ IsRead allocation emission.copies (copy.target? allocation)

def unemitted (emission : Emission) : Nat := emission.copies.countP fun copy => !copy.emitted

def emitCopy (copy : PendingCopy) : List Step :=
  emitLocationCopy allocation function copy.source copy.destination .eax .xmm0

end

section
variable {allocation : RegisterAllocation} {function : Function} {copies pending : List PendingCopy}
  {emission : Emission} {copy : PendingCopy} {index : Nat}

/-- Two locations are the same if a copy from the one could follow one to the other. -/
theorem PendingCopy.IsScalar.same_iff (h : copy.IsScalar allocation function)
    (location : AllocationLocation) :
    sameAllocationLocation (allocation.location copy.destination) location = true ↔
      copy.target? allocation = location.cell? := by
  obtain ⟨cell, hcell⟩ := h.target
  rw [sameAllocationLocation_iff hcell, hcell, eq_comm]

theorem isLiveSource_iff (h : Planned allocation function copies)
    (hidx : copies[index]? = some copy) :
    isLiveSource allocation copies index = true ↔
      IsRead allocation copies (copy.target? allocation) := by
  have hcopy : copy ∈ copies := mem_of_getElem? hidx
  have hat : copies.getD index default = copy := by rw [getD_eq_getElem?_getD, hidx]; rfl
  unfold isLiveSource
  rw [any_eq_true, hat]
  constructor
  · rintro ⟨other, hother, htest⟩
    have hlt : other < copies.length := List.mem_range.mp hother
    have hget : copies.getD other default = copies[other] := getD_eq_getElem _ _ hlt
    rw [hget] at htest
    simp only [Bool.and_eq_true, bne_iff_ne, ne_eq, Bool.not_eq_true'] at htest
    exact ⟨copies[other], getElem_mem hlt, htest.1.2,
      (((h.scalar copy hcopy).same_iff _).mp htest.2).symm⟩
  · rintro ⟨other, hother, hpend, horigin⟩
    obtain ⟨position, hlt, rfl⟩ := mem_iff_getElem.mp hother
    refine ⟨position, List.mem_range.mpr hlt, ?_⟩
    rw [getD_eq_getElem _ _ hlt]
    simp only [Bool.and_eq_true, bne_iff_ne, ne_eq, Bool.not_eq_true']
    refine ⟨⟨fun heq => ?_, hpend⟩, ((h.scalar copy hcopy).same_iff _).mpr horigin.symm⟩
    -- a copy does not read the place it writes
    have hself : copies[position] = copy :=
      Option.some.inj ((List.getElem?_eq_getElem hlt).symm.trans (heq ▸ hidx))
    exact h.moved copy hcopy (hself ▸ horigin.symm)

/-- **What a step of a round can do.** -/
theorem acyclicStep_cases (h : Planned allocation function emission.copies) (index : Nat) :
    (acyclicStep (isLiveSource allocation) (emitCopy allocation function) emission index =
        emission ∧
      ∀ copy, emission.copies[index]? = some copy → copy.emitted = false →
        IsRead allocation emission.copies (copy.target? allocation)) ∨
    ∃ copy, emission.copies[index]? = some copy ∧ copy.emitted = false ∧
      ¬ IsRead allocation emission.copies (copy.target? allocation) ∧
      acyclicStep (isLiveSource allocation) (emitCopy allocation function) emission index =
        { copies := emission.copies.set index { copy with emitted := true }
          steps := emission.steps ++ emitCopy allocation function copy } := by
  unfold acyclicStep
  cases hidx : emission.copies[index]? with
  | none => exact .inl ⟨rfl, fun _ heq => nomatch heq⟩
  | some copy =>
    have hlive := isLiveSource_iff h hidx
    simp only [Bool.or_eq_true]
    split <;> rename_i hskip
    · refine .inl ⟨rfl, fun other heq hpend => ?_⟩
      cases heq
      exact hlive.mp (hskip.resolve_left (by simp [hpend]))
    · rw [not_or, Bool.not_eq_true] at hskip
      exact .inr ⟨copy, rfl, hskip.1, fun hread => hskip.2 (hlive.mpr hread), rfl⟩

theorem Planned.set (h : Planned allocation function copies) (hidx : copies[index]? = some copy) :
    Planned allocation function (copies.set index { copy with emitted := true }) := by
  have hcopy : copy ∈ copies := mem_of_getElem? hidx
  refine ⟨fun other hother => ?_, fun other hother => ?_, ?_⟩
  · rcases mem_or_eq_of_mem_set hother with hmem | rfl
    · exact h.scalar other hmem
    · have hscalar := h.scalar copy hcopy
      exact ⟨hscalar.source, hscalar.destination, hscalar.floating, hscalar.wide, hscalar.target⟩
  · rcases mem_or_eq_of_mem_set hother with hmem | rfl
    · exact h.moved other hmem
    · exact h.moved copy hcopy
  · have hsame : (copies.set index { copy with emitted := true }).map (·.target? allocation) =
        copies.map (·.target? allocation) := by
      rw [map_set]
      obtain ⟨hlt, hget⟩ := List.getElem?_eq_some_iff.mp hidx
      refine ext_getElem (by simp) fun position hpos hpos' => ?_
      rw [getElem_set]
      split
      · rename_i heq
        subst heq
        rw [getElem_map, hget]
        rfl
      · rfl
    rw [hsame]
    exact h.targets

theorem mem_set_of_emitted (hidx : copies[index]? = some copy) (hpend : copy.emitted = false)
    {other : PendingCopy} (hother : other ∈ copies) (hemitted : other.emitted = true) :
    other ∈ copies.set index { copy with emitted := true } := by
  obtain ⟨position, hlt, rfl⟩ := mem_iff_getElem.mp hother
  have hne : index ≠ position := by
    rintro rfl
    rw [List.getElem?_eq_getElem hlt] at hidx
    rw [Option.some.inj hidx, hpend] at hemitted
    nomatch hemitted
  refine mem_iff_getElem.mpr ⟨position, by simpa using hlt, ?_⟩
  exact getElem_set_ne hne _

theorem IsRead.of_set {place : Option Cell}
    (h : IsRead allocation (copies.set index { copy with emitted := true }) place) :
    IsRead allocation copies place := by
  obtain ⟨other, hother, hpend, horigin⟩ := h
  rcases mem_or_eq_of_mem_set hother with hmem | rfl
  · exact ⟨other, hmem, hpend, horigin⟩
  · nomatch hpend

/-- **A step of a round** emits a copy that no other one is in the way of. -/
theorem Advanced.step (h : Advanced allocation function pending emission)
    (hidx : emission.copies[index]? = some copy) (hpend : copy.emitted = false)
    (hfree : ¬ IsRead allocation emission.copies (copy.target? allocation)) :
    Advanced allocation function pending
      { copies := emission.copies.set index { copy with emitted := true }
        steps := emission.steps ++ emitCopy allocation function copy } := by
  have hcopy : copy ∈ emission.copies := mem_of_getElem? hidx
  have hplanned := h.planned.set hidx
  obtain ⟨hlt, hget⟩ := List.getElem?_eq_some_iff.mp hidx
  have hmarked : { copy with emitted := true } ∈
      emission.copies.set index { copy with emitted := true } := mem_set hlt _
  refine ⟨hplanned, ?_, fun m => ?_, fun other hother hemitted hread => ?_⟩
  · rw [← h.same, map_set]
    refine ext_getElem (by simp) fun position hpos hpos' => ?_
    rw [getElem_set]
    split
    · rename_i heq
      subst heq
      rw [getElem_map, hget]
    · rfl
  · rw [run_append]
    refine ((h.done m).emit (hplanned.scalar _ hmarked) .eax .xmm0 (.inl rfl) (.inl rfl)
      (fun other hother heq => ?_) fun other hother heq => ?_).congr fun other => ?_
    · -- an emitted copy has not written what this one reads
      rw [mem_filter] at hother
      exact h.free other hother.1 hother.2 ⟨copy, hcopy, hpend, heq.symm⟩
    · rw [mem_filter] at hother
      have hsame : other = copy := inj_on_of_nodup_map h.planned.targets hother.1 hcopy heq
      rw [hsame, hpend] at hother
      nomatch hother.2
    · rw [mem_filter, mem_cons, mem_filter]
      refine ⟨fun hmem => ?_, fun hmem => ?_⟩
      · exact (mem_or_eq_of_mem_set hmem.1).symm.imp_right fun hmem' => ⟨hmem', hmem.2⟩
      · rcases hmem with rfl | hmem
        · exact ⟨hmarked, rfl⟩
        · exact ⟨mem_set_of_emitted hidx hpend hmem.1 hmem.2, hmem.2⟩
  · rcases mem_or_eq_of_mem_set hother with hmem | rfl
    · exact h.free other hmem hemitted hread.of_set
    · exact hfree hread.of_set

theorem unemitted_set (hidx : emission.copies[index]? = some copy)
    (hpend : copy.emitted = false) (steps : List Step) :
    unemitted { copies := emission.copies.set index { copy with emitted := true }
                steps := steps } < unemitted emission := by
  obtain ⟨hlt, hget⟩ := List.getElem?_eq_some_iff.mp hidx
  have hpos : 0 < emission.copies.countP fun copy => !copy.emitted :=
    countP_pos_iff.mpr ⟨copy, hget ▸ getElem_mem hlt, by simp [hpend]⟩
  unfold unemitted
  rw [countP_set hlt, hget]
  simp only [hpend]
  exact Nat.sub_lt hpos Nat.one_pos

/-- The updates of a round. -/
def roundUpdates (allocation : RegisterAllocation) (function : Function) (count : Nat) :
    List (Emission → Emission) :=
  (List.range count).map fun index emission =>
    acyclicStep (isLiveSource allocation) (emitCopy allocation function) emission index

theorem round_descends (count : Nat) :
    Sweep.Descends (Advanced allocation function pending) unemitted
      (roundUpdates allocation function count) where
  keeps update hupdate emission h := by
    obtain ⟨index, -, rfl⟩ := mem_map.mp hupdate
    rcases acyclicStep_cases h.planned index with
      ⟨hsame, -⟩ | ⟨copy, hidx, hpend, hfree, hstep⟩
    · change Advanced allocation function pending (acyclicStep _ _ emission index)
      rw [hsame]
      exact h
    · change Advanced allocation function pending (acyclicStep _ _ emission index)
      rw [hstep]
      exact h.step hidx hpend hfree
  lowers update hupdate emission h := by
    obtain ⟨index, -, rfl⟩ := mem_map.mp hupdate
    rcases acyclicStep_cases h.planned index with
      ⟨hsame, -⟩ | ⟨copy, hidx, hpend, hfree, hstep⟩
    · exact .inl hsame
    right
    change unemitted (acyclicStep _ _ emission index) < unemitted emission
    rw [hstep]
    exact unemitted_set hidx hpend _

/-- In a state that a round leaves as it is, each copy left writes what another one reads. -/
theorem Advanced.stuck (h : Advanced allocation function pending emission)
    (hfixed : ∀ update ∈ roundUpdates allocation function emission.copies.length,
      update emission = emission) (hcopy : copy ∈ emission.copies)
    (hpend : copy.emitted = false) :
    IsRead allocation emission.copies (copy.target? allocation) := by
  obtain ⟨index, hlt, hget⟩ := mem_iff_getElem.mp hcopy
  have hidx : emission.copies[index]? = some copy := List.getElem?_eq_some_iff.mpr ⟨hlt, hget⟩
  have hsame := hfixed _ (mem_map_of_mem (List.mem_range.mpr hlt))
  rcases acyclicStep_cases h.planned index with ⟨-, hread⟩ | ⟨other, hother, hnot, -, hstep⟩
  · exact hread copy hidx hpend
  -- a copy emitted would be one less to emit
  have hlower := unemitted_set hother hnot (emission.steps ++ emitCopy allocation function other)
  rw [← hstep, hsame] at hlower
  exact absurd hlower (lt_irrefl _)

theorem round_eq (emission : Emission) : (List.range emission.copies.length).foldl
        (acyclicStep (isLiveSource allocation) (emitCopy allocation function)) emission =
      Sweep.sweep (roundUpdates allocation function emission.copies.length) emission := by
  rw [Sweep.sweep, roundUpdates, foldl_map]

theorem Advanced.round (h : Advanced allocation function pending emission) :
    ((∀ rounds, emitAcyclicParallelCopies (isLiveSource allocation) (emitCopy allocation function)
        (rounds + 1) emission = some emission) ∧
      ∀ copy ∈ emission.copies, copy.emitted = false →
        IsRead allocation emission.copies (copy.target? allocation)) ∨
    ∃ next, Advanced allocation function pending next ∧ unemitted next < unemitted emission ∧
      ∀ rounds, emitAcyclicParallelCopies (isLiveSource allocation) (emitCopy allocation function)
          (rounds + 1) emission =
        emitAcyclicParallelCopies (isLiveSource allocation) (emitCopy allocation function) rounds
          next := by
  have hround : Sweep.Descends (Advanced allocation function pending) unemitted
    (roundUpdates allocation function emission.copies.length) := round_descends _
  rcases hround.sweep_cases h with ⟨hsweep, hfixed⟩ | hlower
  · refine .inl ⟨fun rounds => ?_, fun copy => h.stuck hfixed⟩
    rw [emitAcyclicParallelCopies, round_eq, hsweep]
    exact if_pos rfl
  refine .inr ⟨_, hround.sweep_inv h, hlower, fun rounds => ?_⟩
  rw [emitAcyclicParallelCopies, round_eq]
  refine if_neg fun hsame => ?_
  unfold unemitted at hlower
  rw [hsame] at hlower
  exact lt_irrefl _ hlower

/-- **The rounds end**, and each copy that they leave writes what another one reads. -/
theorem emitAcyclicParallelCopies_spec (bound : Nat) :
    ∀ {emission : Emission}, Advanced allocation function pending emission →
      unemitted emission ≤ bound →
      ∃ final, (∀ rounds, bound < rounds →
          emitAcyclicParallelCopies (isLiveSource allocation) (emitCopy allocation function) rounds
            emission = some final) ∧
        Advanced allocation function pending final ∧
        ∀ copy ∈ final.copies, copy.emitted = false →
          IsRead allocation final.copies (copy.target? allocation) := by
  induction bound with
  | zero =>
    intro emission h hbound
    rcases h.round with ⟨hlast, hread⟩ | ⟨next, -, hlower, -⟩
    · refine ⟨emission, fun rounds hrounds => ?_, h, hread⟩
      obtain ⟨rounds, rfl⟩ := exists_eq_succ_of_ne_zero (ne_of_gt hrounds)
      exact hlast rounds
    · exact absurd (lt_of_lt_of_le hlower hbound) (not_lt_zero _)
  | succ bound ih =>
    intro emission h hbound
    rcases h.round with ⟨hlast, hread⟩ | ⟨next, hnext, hlower, hmore⟩
    · refine ⟨emission, fun rounds hrounds => ?_, h, hread⟩
      obtain ⟨rounds, rfl⟩ := exists_eq_succ_of_ne_zero (ne_of_gt
        (lt_of_le_of_lt (zero_le _) hrounds))
      exact hlast rounds
    · have hnextBound := le_of_lt_succ (lt_of_lt_of_le hlower hbound)
      obtain ⟨final, hfinal, hrest⟩ := ih hnext hnextBound
      refine ⟨final, fun rounds hrounds => ?_, hrest⟩
      obtain ⟨rounds, rfl⟩ := exists_eq_succ_of_ne_zero (ne_of_gt
        (lt_of_le_of_lt (zero_le _) hrounds))
      exact (hmore rounds).trans (hfinal rounds (lt_of_succ_lt_succ hrounds))

end

/-! ## Rotations -/

section
variable {emitted : Nat → Bool} {destinationMatchesSource : Nat → Nat → Bool} {count : Nat}

/-- The copies that are left. -/
def IsLeft (emitted : Nat → Bool) (count index : Nat) : Prop :=
  index < count ∧ emitted index = false

/-- A copy writes what another one reads. -/
def Precedes (destinationMatchesSource : Nat → Nat → Bool) (current candidate : Nat) : Prop :=
  destinationMatchesSource candidate current = true

variable (h : Permutes (IsLeft emitted count) (Precedes destinationMatchesSource))
include h

theorem nextMember_spec {current : Nat} (hcur : IsLeft emitted count current)
    (visited : List Nat) : ∃ next, IsLeft emitted count next ∧
      Precedes destinationMatchesSource current next ∧
      (next ∈ visited → nextMember emitted destinationMatchesSource count visited current = none) ∧
      (next ∉ visited →
        nextMember emitted destinationMatchesSource count visited current = some next) := by
  obtain ⟨next, hnext, hprecedes⟩ := h.next_exists current hcur
  have hunique : ∀ candidate ∈ List.range count,
      (!emitted candidate && !visited.contains candidate &&
        destinationMatchesSource candidate current) = true →
      candidate = next ∧ candidate ∉ visited := by
    intro candidate hcandidate htest
    simp only [Bool.and_eq_true, Bool.not_eq_true', contains_eq_mem,
      decide_eq_false_iff_not] at htest
    exact ⟨h.next_unique hcur ⟨List.mem_range.mp hcandidate, htest.1.1⟩ hnext htest.2 hprecedes,
      htest.1.2⟩
  refine ⟨next, hnext, hprecedes, fun hvisited => ?_, fun hvisited => ?_⟩
  · refine List.find?_eq_none.mpr fun candidate hcandidate htest => ?_
    have hsame := hunique candidate hcandidate htest
    exact hsame.2 (hsame.1 ▸ hvisited)
  refine find?_eq_some_of_unique (List.mem_range.mpr hnext.1) ?_
    fun candidate hcandidate htest => (hunique candidate hcandidate htest).1
  simp only [Bool.and_eq_true, Bool.not_eq_true', contains_eq_mem, decide_eq_false_iff_not]
  exact ⟨⟨hnext.2, hvisited⟩, hprecedes⟩

/-- **The walk from a copy** ends with the rotation that it is in. -/
theorem followCycle_spec (left : Nat) : ∀ {front members : List Nat} {current : Nat},
    Closed (IsLeft emitted count) (Precedes destinationMatchesSource) members →
    (current :: front ++ members).Nodup →
    (∀ member ∈ current :: front ++ members, IsLeft emitted count member) →
    (front.reverse ++ [current]).IsChain (Precedes destinationMatchesSource) →
    count < left + (front ++ members).length →
    ∃ cycle, (∀ limit, left ≤ limit →
        followCycle emitted destinationMatchesSource count limit (front ++ members) current =
          some (current :: cycle, cycle.reverse ++ (current :: front ++ members))) ∧
      IsRotation (Precedes destinationMatchesSource) (front.reverse ++ current :: cycle) ∧
      (cycle.reverse ++ (current :: front ++ members)).Nodup ∧
      ∀ member ∈ cycle, IsLeft emitted count member := by
  induction left with
  | zero =>
    intro front members current _ hnodup hleft _ hlimit
    -- there are no more members visited than copies
    have hsub : (front ++ members) ⊆ List.range count := fun member hmember =>
      List.mem_range.mpr (hleft member (mem_cons_of_mem _ hmember)).1
    have hlen := (subperm_of_subset (nodup_cons.mp hnodup).2 hsub).length_le
    rw [List.length_range] at hlen
    rw [Nat.zero_add] at hlimit
    exact absurd hlimit (not_lt.mpr hlen)
  | succ left ih =>
    intro front members current hclosed hnodup hleft hchain hlimit
    have hcur := hleft current mem_cons_self
    have hnew : current ∉ front ++ members := (nodup_cons.mp hnodup).1
    obtain ⟨next, hnext, hprecedes, hnone, hsome⟩ :=
      nextMember_spec h hcur (current :: front ++ members)
    have htest : (emitted current || (front ++ members).contains current) = false := by
      rw [hcur.2, contains_eq_mem, Bool.false_or]
      exact decide_eq_false hnew
    by_cases hvisited : next ∈ current :: front ++ members
    · refine ⟨[], fun limit hle => ?_, ⟨hchain, fun last hlast first hfirst => ?_⟩, hnodup,
        fun _ hmember => absurd hmember not_mem_nil⟩
      · obtain ⟨limit, rfl⟩ := exists_eq_succ_of_ne_zero
          (ne_of_gt (lt_of_lt_of_le (succ_pos left) hle))
        rw [followCycle, htest, if_neg Bool.false_ne_true]
        rw [cons_append] at hnone
        rw [hnone hvisited]
        rfl
      · -- the next member is on the path, so it is the start of the path
        have hmember : next ∉ members := fun hmem =>
          hnew (mem_append_right _ ((hclosed hcur hnext hprecedes).mpr hmem))
        have hpath : next ∈ front.reverse ++ [current] := by
          rcases mem_append.mp hvisited with hmem | hmem
          · rcases mem_cons.mp hmem with rfl | hmem
            · exact mem_append_right _ mem_cons_self
            · exact mem_append_left _ (mem_reverse.mpr hmem)
          · exact absurd hmem hmember
        have hreverse : front.reverse ++ [current] = (current :: front).reverse := reverse_cons.symm
        have hpathNodup : (front.reverse ++ [current]).Nodup := by
          rw [hreverse, nodup_reverse]
          exact (nodup_append.mp hnodup).1
        have hpathLeft : ∀ member ∈ front.reverse ++ [current], IsLeft emitted count member := by
          intro member hmem
          rw [hreverse, mem_reverse] at hmem
          exact hleft member (mem_append_left _ hmem)
        obtain rfl : last = current := by simpa using hlast.symm
        cases hlist : front.reverse ++ [last] with
        | nil => simp at hlist
        | cons head path =>
          rw [hlist] at hchain hpath hpathNodup hpathLeft hfirst hlast
          cases hfirst
          have hhead := eq_head_of_next h hchain hpathNodup hpathLeft hlast hprecedes hpath
          exact hhead ▸ hprecedes
    · have hnodup' : (next :: (current :: front) ++ members).Nodup :=
        nodup_cons.mpr ⟨hvisited, hnodup⟩
      obtain ⟨cycle, hfollow, hrotation, hnodupCycle, hleftCycle⟩ := ih hclosed hnodup'
        (forall_mem_cons.mpr ⟨hnext, hleft⟩)
        (by
          rw [reverse_cons]
          exact hchain.append (isChain_singleton next) (by simpa using hprecedes))
        (by simpa [Nat.add_comm, Nat.add_left_comm, Nat.add_assoc] using hlimit)
      refine ⟨next :: cycle, fun limit hle => ?_, ?_, ?_, forall_mem_cons.mpr ⟨hnext, hleftCycle⟩⟩
      · obtain ⟨limit, rfl⟩ := exists_eq_succ_of_ne_zero
          (ne_of_gt (lt_of_lt_of_le (succ_pos left) hle))
        have hmore := hfollow limit (le_of_succ_le_succ hle)
        rw [followCycle, htest, if_neg Bool.false_ne_true]
        rw [cons_append] at hsome hvisited hmore
        rw [hsome hvisited]
        simp [hmore]
      · simpa using hrotation
      · simpa using hnodupCycle

/-- **The rotations of a permutation**: they are disjoint, and hold all that is left. -/
theorem cyclesFrom_spec : ∀ {starts members : List Nat}, (∀ start ∈ starts, start < count) →
    Closed (IsLeft emitted count) (Precedes destinationMatchesSource) members → members.Nodup →
    (∀ member ∈ members, IsLeft emitted count member) →
    ∃ cycles, (∀ limit, count < limit →
        cyclesFrom emitted destinationMatchesSource count limit starts members = some cycles) ∧
      (∀ cycle ∈ cycles, IsRotation (Precedes destinationMatchesSource) cycle) ∧
      (cycles.flatten ++ members).Nodup ∧
      (∀ member ∈ cycles.flatten, IsLeft emitted count member) ∧
      ∀ start ∈ starts, emitted start = false → start ∈ cycles.flatten ++ members
  | [], members, _, _, hnodup, _ =>
    ⟨[], fun _ _ => rfl, fun _ hcycle => absurd hcycle not_mem_nil, hnodup,
      fun _ hmember => absurd hmember not_mem_nil,
      fun _ hstart => absurd hstart not_mem_nil⟩
  | start :: starts, members, hstarts, hclosed, hnodup, hleft => by
    have hrest : ∀ other ∈ starts, other < count := fun other hother =>
      hstarts other (mem_cons_of_mem _ hother)
    by_cases hskip : emitted start = true ∨ start ∈ members
    · -- a start that is emitted or visited
      obtain ⟨cycles, hcycles, hrotations, hflat, hleftFlat, hcover⟩ :=
        cyclesFrom_spec hrest hclosed hnodup hleft
      refine ⟨cycles, fun limit hlimit => ?_, hrotations, hflat, hleftFlat,
        forall_mem_cons.mpr ⟨fun hpend => ?_, hcover⟩⟩
      · rw [cyclesFrom, contains_eq_mem, if_pos (by simpa using hskip)]
        exact hcycles limit hlimit
      · exact mem_append_right _ (hskip.resolve_left (by simp [hpend]))
    · rw [not_or, Bool.not_eq_true] at hskip
      have hstart : IsLeft emitted count start := ⟨hstarts start mem_cons_self, hskip.1⟩
      have hlen : count < count + 1 + ([] ++ members).length :=
        lt_of_lt_of_le (lt_succ_self count) (le_add_right _ _)
      have hnodup' : (start :: [] ++ members).Nodup := nodup_cons.mpr ⟨hskip.2, hnodup⟩
      obtain ⟨cycle, hfollow, hrotation, hnodupCycle, hleftCycle⟩ :=
        followCycle_spec h (count + 1) hclosed hnodup'
          (forall_mem_cons.mpr ⟨hstart, hleft⟩) (isChain_singleton start) hlen
      have hperm : (cycle.reverse ++ (start :: [] ++ members)).Perm
          ((start :: cycle) ++ members) := by
        rw [cons_append, nil_append, cons_append]
        exact perm_middle.trans ((reverse_perm cycle).append_right members |>.cons start)
      have hleftAll : ∀ member ∈ start :: cycle, IsLeft emitted count member :=
        forall_mem_cons.mpr ⟨hstart, hleftCycle⟩
      have hclosed' : Closed (IsLeft emitted count) (Precedes destinationMatchesSource)
          (cycle.reverse ++ (start :: [] ++ members)) := by
        intro member other hmember hother hnext
        rw [hperm.mem_iff, hperm.mem_iff]
        exact hrotation.closed_append h hleftAll hclosed hmember hother hnext
      have hleftVisited : ∀ member ∈ cycle.reverse ++ (start :: [] ++ members),
          IsLeft emitted count member := by
        intro member hmember
        rcases mem_append.mp (hperm.mem_iff.mp hmember) with hmem | hmem
        · exact hleftAll member hmem
        · exact hleft member hmem
      obtain ⟨cycles, hcycles, hrotations, hflat, hleftFlat, hcover⟩ :=
        cyclesFrom_spec hrest hclosed' hnodupCycle hleftVisited
      have hpermAll : (cycles.flatten ++ (cycle.reverse ++ (start :: [] ++ members))).Perm
          (((start :: cycle) :: cycles).flatten ++ members) := by
        refine (hperm.append_left _).trans ?_
        rw [flatten_cons, ← append_assoc]
        exact perm_append_comm.append_right members
      refine ⟨(start :: cycle) :: cycles, fun limit hlimit => ?_,
        forall_mem_cons.mpr ⟨hrotation, hrotations⟩, hpermAll.nodup_iff.mp hflat, ?_, ?_⟩
      · have htest : (emitted start || members.contains start) = false := by
          rw [hskip.1, contains_eq_mem, Bool.false_or]
          exact decide_eq_false hskip.2
        have hfollow' := hfollow limit hlimit
        rw [nil_append] at hfollow'
        rw [cyclesFrom, htest, if_neg Bool.false_ne_true]
        simp only [hfollow', hcycles limit hlimit, Option.bind_eq_bind, Option.bind_some,
          isEmpty_cons, Bool.false_eq_true, if_false]
      · intro member hmember
        rcases mem_append.mp hmember with hmem | hmem
        · exact hleftAll member hmem
        · exact hleftFlat member hmem
      · refine forall_mem_cons.mpr ⟨fun _ => by simp, fun other hother hpend => ?_⟩
        exact hpermAll.mem_iff.mp (hcover other hother hpend)

end

/-! ## The copies of a rotation -/

section
variable (allocation : RegisterAllocation) (function : Function)

/-- Copies each of which writes what the one before it reads, and the first what the last reads. -/
structure IsCycle (cycle : List PendingCopy) : Prop where
  scalar : ∀ copy ∈ cycle, copy.IsScalar allocation function
  targets : (cycle.map (·.target? allocation)).Nodup
  origins : (cycle.map (·.origin? allocation)).Nodup
  rotation : IsRotation (Follows allocation) cycle

end

section
variable {allocation : RegisterAllocation} {function : Function} {first : PendingCopy}
  {rest cycle : List PendingCopy}

/-- The member of a rotation that writes a place is found by the place. -/
theorem find?_member (htargets : (cycle.map (·.target? allocation)).Nodup)
    (hscalar : ∀ copy ∈ cycle, copy.IsScalar allocation function) {front back : List PendingCopy}
    {copy next : PendingCopy} (hcycle : cycle = front ++ copy :: next :: back)
    (hfollows : Follows allocation copy next) :
    ((List.range cycle.length).find? fun index =>
        index != 0 && !((List.range (front.length + 1)).reverse).contains index &&
          sameAllocationLocation (allocation.location (cycle.getD index default).destination)
            (allocation.location copy.source)) = some (front.length + 1) := by
  have hlt : front.length + 1 < cycle.length := by
    rw [hcycle, length_append, length_cons, length_cons]
    exact Nat.add_lt_add_left (Nat.succ_lt_succ (Nat.succ_pos _)) _
  have hnext : cycle[front.length + 1] = next := by
    subst hcycle
    simp
  refine find?_eq_some_of_unique (List.mem_range.mpr hlt) ?_ fun index hidx htest => ?_
  · rw [getD_eq_getElem _ _ hlt, hnext]
    have hmem : next ∈ cycle := hnext ▸ getElem_mem hlt
    simpa using ((hscalar next hmem).same_iff _).mpr hfollows
  have hlt' := List.mem_range.mp hidx
  rw [getD_eq_getElem _ _ hlt'] at htest
  simp only [Bool.and_eq_true] at htest
  have hsame := ((hscalar _ (getElem_mem hlt')).same_iff _).mp htest.2
  have hltMap : front.length + 1 < (cycle.map (·.target? allocation)).length := by simpa using hlt
  have hltMap' : index < (cycle.map (·.target? allocation)).length := by simpa using hlt'
  -- both write the same place
  have hplace : (cycle.map (·.target? allocation))[index] =
      (cycle.map (·.target? allocation))[front.length + 1] := by
    rw [getElem_map, getElem_map, hnext]
    exact hsame.trans hfollows.symm
  exact htargets.getElem_inj_iff.mp hplace

/-- **The loop of a rotation** copies along the whole cycle. -/
theorem rotate_spec (htargets : (cycle.map (·.target? allocation)).Nodup)
    (hscalar : ∀ copy ∈ cycle, copy.IsScalar allocation function) :
    ∀ {back front : List PendingCopy} {copy : PendingCopy} {limit : Nat},
      cycle = front ++ copy :: back → (copy :: back).IsChain (Follows allocation) →
      back.length < limit →
      rotate allocation function cycle limit (List.range (front.length + 1)).reverse
          (allocation.location copy.source) =
        some (rotationSteps allocation function back, (List.range cycle.length).reverse,
          allocation.location ((copy :: back).getLast (List.cons_ne_nil _ _)).source)
  | _, _, _, 0, _, _, hlimit => absurd hlimit (Nat.not_lt_zero _)
  | [], front, copy, limit + 1, hcycle, _, _ => by
    have hlen : cycle.length = front.length + 1 := by simp [hcycle]
    rw [rotate, length_reverse, List.length_range, if_pos (le_of_eq hlen), hlen]
    rfl
  | next :: back, front, copy, limit + 1, hcycle, hchain, hlimit => by
    have ⟨hfollows, hchain'⟩ := isChain_cons_cons.mp hchain
    have hlen : cycle.length = front.length + 1 + (back.length + 1) := by
      rw [hcycle, length_append, length_cons, length_cons]
      omega
    have hfind := find?_member htargets hscalar hcycle hfollows
    have hget : cycle.getD (front.length + 1) default = next := by
      subst hcycle
      simp [getD_eq_getElem?_getD]
    have hcycle' : cycle = (front ++ [copy]) ++ next :: back := by simp [hcycle]
    have hrest := rotate_spec htargets hscalar hcycle' hchain' (lt_of_succ_lt_succ hlimit)
    rw [length_append, length_singleton] at hrest
    have hrotated : (front.length + 1) :: (List.range (front.length + 1)).reverse =
        (List.range (front.length + 1 + 1)).reverse := by
      rw [range_succ (n := front.length + 1), reverse_append]
      rfl
    rw [rotate, length_reverse, List.length_range, if_neg (by rw [hlen]; simp), hfind]
    simp only [hget, hrotated, hrest, Option.bind_eq_bind, Option.bind_some]
    rfl

theorem isSwap_spec {second : PendingCopy}
    (hswap : isSwap allocation function first second = true) :
    first.origin? allocation =
        some (.register (physicalRegister (allocation.location first.source).physical)) ∧
      second.origin? allocation =
        some (.register (physicalRegister (allocation.location second.source).physical)) ∧
      function.isWide second.source = function.isWide first.source := by
  unfold isSwap at hswap
  simp only [Bool.and_eq_true, beq_iff_eq] at hswap
  obtain ⟨⟨⟨-, ⟨⟨hfirst, -⟩, hsecond⟩, -⟩, -⟩, ⟨-, hwidth⟩, -⟩ := hswap
  refine ⟨?_, ?_, ?_⟩
  · rw [PendingCopy.origin?, AllocationLocation.cell?, hfirst]
  · rw [PendingCopy.origin?, AllocationLocation.cell?, hsecond]
  · rw [Function.isWide, Function.isWide, hwidth]

theorem isHomogeneous_spec (h : isHomogeneous function first cycle = true) {copy : PendingCopy}
    (hcopy : copy ∈ cycle) :
    function.isFloating copy.source = function.isFloating first.source := by
  have htest := all_eq_true.mp h copy hcopy
  simp only [Bool.and_eq_true, beq_iff_eq] at htest
  exact htest.1.1.1

/-- **Each cycle is copied at once**, by an exchange, a rotation or a snapshot. -/
theorem emitCycle_spec (h : IsCycle allocation function cycle) :
    ∃ steps, (∀ limit, cycle.length < limit →
        emitCycle allocation function limit cycle = some steps) ∧
      ∀ m, Copies allocation function cycle m (run steps m) := by
  cases cycle with
  | nil => exact ⟨[], fun _ _ => rfl, Copies.nil⟩
  | cons first rest =>
    by_cases hswap : (rest.length = 1 &&
        isSwap allocation function first (rest.getD 0 default)) = true
    · rw [Bool.and_eq_true, decide_eq_true_iff] at hswap
      obtain ⟨second, rfl⟩ := length_eq_one_iff.mp hswap.1
      have hexchange : isSwap allocation function first second = true := hswap.2
      obtain ⟨hfirst, hsecond, hwide⟩ := isSwap_spec hexchange
      have hfirstTarget := (h.rotation.closed second rfl first rfl).trans hsecond
      have hsecondTarget := (isChain_cons_cons.mp h.rotation.chain).1.trans hfirst
      refine ⟨_, fun limit _ => ?_,
        exchange_spec (fun heq => ?_) hfirst hsecond hfirstTarget hsecondTarget hwide⟩
      · exact if_pos (by simpa using hexchange)
      -- the registers are distinct as both are written
      have htargets := h.targets
      rw [map_cons, nodup_cons] at htargets
      refine htargets.1 (mem_singleton.mpr ?_)
      change first.target? allocation = second.target? allocation
      rw [hfirstTarget, hsecondTarget, heq]
    · by_cases hhomogeneous : isHomogeneous function first (first :: rest) = true
      · refine ⟨_, fun limit hlimit => ?_, rotation_spec (fun copy hcopy => ⟨h.scalar copy hcopy,
          isHomogeneous_spec hhomogeneous hcopy⟩) rfl h.rotation.chain h.origins h.targets⟩
        have hrotate : rotate allocation function (first :: rest) limit [0]
            (allocation.location first.source) = some (rotationSteps allocation function rest,
              (List.range (first :: rest).length).reverse,
              allocation.location ((first :: rest).getLast (cons_ne_nil _ _)).source) :=
          rotate_spec h.targets h.scalar (nil_append _).symm h.rotation.chain
            (lt_of_succ_lt hlimit)
        have hlast := h.rotation.closed _
          (List.getLast?_eq_some_getLast (cons_ne_nil first rest)) first rfl
        have hhole : sameAllocationLocation
            (allocation.location ((first :: rest).getLast (cons_ne_nil _ _)).source)
            (allocation.location first.destination) = true := by
          rw [sameAllocationLocation_comm]
          exact ((h.scalar first mem_cons_self).same_iff _).mpr hlast
        refine (if_neg hswap).trans ((if_pos hhomogeneous).trans ?_)
        simp [hrotate, hhole]
      · refine ⟨_, fun limit _ => ?_, snapshot_spec h.scalar h.targets⟩
        exact (if_neg hswap).trans (if_neg hhomogeneous)

end

/-! ## What is left is a permutation -/

section
variable {allocation : RegisterAllocation} {function : Function} {copies : List PendingCopy}

theorem getD_mem {index : Nat} (h : index < copies.length) :
    copies.getD index default ∈ copies := by
  rw [getD_eq_getElem _ _ h]
  exact getElem_mem h

theorem Planned.index_inj (h : Planned allocation function copies) {i j : Nat}
    (hi : i < copies.length) (hj : j < copies.length)
    (hsame : (copies.getD i default).target? allocation =
      (copies.getD j default).target? allocation) : i = j := by
  have hiMap : i < (copies.map (·.target? allocation)).length := by simpa using hi
  have hjMap : j < (copies.map (·.target? allocation)).length := by simpa using hj
  have hplace : (copies.map (·.target? allocation))[i] =
      (copies.map (·.target? allocation))[j] := by
    rw [getElem_map, getElem_map]
    rwa [getD_eq_getElem _ _ hi, getD_eq_getElem _ _ hj] at hsame
  exact h.targets.getElem_inj_iff.mp hplace

/-- The copies of a phase that are left, by their indices. -/
abbrev Left (copies : List PendingCopy) : Nat → Prop :=
  IsLeft (fun index => (copies.getD index default).emitted) copies.length

/-- One copy writes what another one reads, by their indices. -/
abbrev LeadsTo (allocation : RegisterAllocation) (copies : List PendingCopy) : Nat → Nat → Prop :=
  Precedes fun candidate current => sameAllocationLocation
    (allocation.location (copies.getD candidate default).destination)
    (allocation.location (copies.getD current default).source)

section

variable (h : Planned allocation function copies)

include h

theorem Planned.leadsTo_iff {current candidate : Nat}
    (hcandidate : candidate < copies.length) :
    LeadsTo allocation copies current candidate ↔
      Follows allocation (copies.getD current default) (copies.getD candidate default) :=
  (h.scalar _ (getD_mem hcandidate)).same_iff _

/-- **The copies that the rounds leave** permute their places. -/
theorem Planned.permutes (hread : ∀ copy ∈ copies, copy.emitted = false →
      IsRead allocation copies (copy.target? allocation)) :
    Permutes (Left copies) (LeadsTo allocation copies) ∧
      ∀ i j, Left copies i → Left copies j →
        (copies.getD i default).origin? allocation = (copies.getD j default).origin? allocation →
        i = j := by
  classical
  have hmem : ∀ index, index ∈ (Finset.range copies.length).filter (Left copies) ↔
      Left copies index := fun index => by
    rw [Finset.mem_filter, Finset.mem_range]
    exact and_iff_right_of_imp fun hleft => hleft.1
  obtain ⟨htargets, horigins⟩ := origins_of_targets
    ((Finset.range copies.length).filter (Left copies))
    (fun index => (copies.getD index default).target? allocation)
    (fun index => (copies.getD index default).origin? allocation)
    (fun i hi j hj hsame => h.index_inj ((hmem i).mp hi).1 ((hmem j).mp hj).1 hsame)
    (fun i hi => by
      have hleft := (hmem i).mp hi
      obtain ⟨other, hother, hpend, horigin⟩ := hread _ (getD_mem hleft.1) hleft.2
      obtain ⟨j, hj, rfl⟩ := mem_iff_getElem.mp hother
      rw [← getD_eq_getElem _ default hj] at hpend horigin
      exact ⟨j, (hmem j).mpr ⟨hj, hpend⟩, horigin.symm⟩)
  have hinjective : ∀ i j, Left copies i → Left copies j →
      (copies.getD i default).origin? allocation = (copies.getD j default).origin? allocation →
      i = j := fun i j hi hj hsame => horigins ((hmem i).mpr hi) ((hmem j).mpr hj) hsame
  refine ⟨⟨fun i hi => ?_, fun hi hj hj' hnext hnext' => ?_, fun hi hi' hj hnext hnext' => ?_⟩,
    hinjective⟩
  · obtain ⟨j, hj, hsame⟩ := htargets i ((hmem i).mpr hi)
    have hleft := (hmem j).mp hj
    exact ⟨j, hleft, (h.leadsTo_iff hleft.1).mpr hsame⟩
  · exact h.index_inj hj.1 hj'.1 (((h.leadsTo_iff hj.1).mp hnext).trans
      ((h.leadsTo_iff hj'.1).mp hnext').symm)
  · exact hinjective _ _ hi hi' (((h.leadsTo_iff hj.1).mp hnext).symm.trans
      ((h.leadsTo_iff hj.1).mp hnext'))

theorem Planned.isCycle (horigins : ∀ i j, Left copies i → Left copies j →
      (copies.getD i default).origin? allocation = (copies.getD j default).origin? allocation →
      i = j) {cycle : List Nat} (hleft : ∀ index ∈ cycle, Left copies index)
    (hnodup : cycle.Nodup) (hrotation : IsRotation (LeadsTo allocation copies) cycle) :
    IsCycle allocation function (cycle.map fun index => copies.getD index default) := by
  refine ⟨fun copy hcopy => ?_, ?_, ?_, hrotation.map fun i _ j hj hnext =>
    (h.leadsTo_iff (hleft j hj).1).mp hnext⟩
  · obtain ⟨index, hidx, rfl⟩ := mem_map.mp hcopy
    exact h.scalar _ (getD_mem (hleft index hidx).1)
  · rw [map_map]
    exact hnodup.map_on fun i hi j hj hsame => h.index_inj (hleft i hi).1 (hleft j hj).1 hsame
  · rw [map_map]
    exact hnodup.map_on fun i hi j hj hsame => horigins i j (hleft i hi) (hleft j hj) hsame

end

/-- **Cycles one behind the other** are copied at once, as they are disjoint. -/
theorem cycles_spec : ∀ {cycles : List (List PendingCopy)},
    (∀ cycle ∈ cycles, IsCycle allocation function cycle) →
    (cycles.flatten.map (·.target? allocation)).Nodup →
    ∃ steps, (∀ limit, (∀ cycle ∈ cycles, cycle.length < limit) →
        cycles.mapM (emitCycle allocation function limit) = some steps) ∧
      ∀ m, Copies allocation function cycles.flatten m (run steps.flatten m)
  | [], _, _ => ⟨[], fun _ _ => rfl, Copies.nil⟩
  | cycle :: cycles, hcycles, htargets => by
    rw [flatten_cons, map_append, nodup_append] at htargets
    obtain ⟨first, hfirst, hfirstCopies⟩ := emitCycle_spec (hcycles cycle mem_cons_self)
    have hrestCycles : ∀ other ∈ cycles, IsCycle allocation function other := fun other hother =>
      hcycles other (mem_cons_of_mem _ hother)
    obtain ⟨rest, hrest, hrestCopies⟩ := cycles_spec hrestCycles htargets.2.1
    refine ⟨first :: rest, fun limit hlimit => ?_, fun m => ?_⟩
    · rw [mapM_cons, hfirst limit (hlimit cycle mem_cons_self),
        hrest limit fun other hother => hlimit other (mem_cons_of_mem _ hother)]
      rfl
    rw [flatten_cons, flatten_cons, run_append]
    refine (hfirstCopies m).append (hrestCopies _) fun earlier hearlier later hlater => ?_
    have hapart : ∀ other ∈ cycles.flatten,
        earlier.target? allocation ≠ other.target? allocation := fun other hother =>
      htargets.2.2 _ (mem_map_of_mem hearlier) _ (mem_map_of_mem hother)
    refine ⟨hapart later hlater, fun heq => ?_⟩
    -- what the later copy reads, a copy of its own cycle writes
    obtain ⟨other, hother, hmem⟩ := mem_flatten.mp hlater
    obtain ⟨next, hnext, hfollows⟩ := (hrestCycles other hother).rotation.next_of_mem hmem
    exact hapart next (mem_flatten.mpr ⟨other, hother, hnext⟩) (heq.trans hfollows.symm)

/-- The rotations of the copies that are left are copied at once. -/
theorem Planned.cycles_spec (h : Planned allocation function copies)
    (horigins : ∀ i j, Left copies i → Left copies j →
      (copies.getD i default).origin? allocation = (copies.getD j default).origin? allocation →
      i = j) {cycles : List (List Nat)}
    (hrotations : ∀ cycle ∈ cycles, IsRotation (LeadsTo allocation copies) cycle)
    (hnodup : cycles.flatten.Nodup) (hleft : ∀ index ∈ cycles.flatten, Left copies index) :
    ∃ steps, (∀ limit, copies.length < limit →
        (cycles.map (·.map (copies.getD · default))).mapM (emitCycle allocation function limit) =
          some steps) ∧
      ∀ m, Copies allocation function (cycles.flatten.map (copies.getD · default)) m
        (run steps.flatten m) := by
  have hsublist : ∀ cycle ∈ cycles, cycle.Sublist cycles.flatten := fun cycle hcycle =>
    sublist_flatten_of_mem hcycle
  have hcycles : ∀ group ∈ cycles.map (·.map (copies.getD · default)),
      IsCycle allocation function group := by
    intro group hgroup
    obtain ⟨cycle, hcycle, rfl⟩ := mem_map.mp hgroup
    have hleftCycle : ∀ index ∈ cycle, Left copies index := fun index hidx =>
      hleft index ((hsublist cycle hcycle).subset hidx)
    exact h.isCycle horigins hleftCycle
      (hnodup.sublist (hsublist cycle hcycle)) (hrotations cycle hcycle)
  have htargets : ((cycles.map (·.map (copies.getD · default))).flatten.map
      (·.target? allocation)).Nodup := by
    rw [← map_flatten, map_map]
    exact hnodup.map_on fun i hi j hj hsame => h.index_inj (hleft i hi).1 (hleft j hj).1 hsame
  obtain ⟨steps, hsteps, hcopies⟩ := EdgeCopies.cycles_spec hcycles htargets
  refine ⟨steps, fun limit hlimit => hsteps limit fun group hgroup => ?_, fun m => ?_⟩
  · obtain ⟨cycle, hcycle, rfl⟩ := mem_map.mp hgroup
    have hsub : cycle ⊆ List.range copies.length := fun index hidx =>
      List.mem_range.mpr (hleft index ((hsublist cycle hcycle).subset hidx)).1
    have hle := (subperm_of_subset (hnodup.sublist (hsublist cycle hcycle)) hsub).length_le
    rw [List.length_range] at hle
    rw [length_map]
    exact lt_of_le_of_lt hle hlimit
  · rw [map_flatten]
    exact hcopies m

end

end Raz.Forge.EdgeCopies
