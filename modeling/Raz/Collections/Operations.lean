import Raz.Collections.Table
import Raz.Lib.FiniteMap

/-!
# The operations of a hash map

A hash map stands for a finite map. Every operation keeps the invariant of the table, the counts
of entries and tombstones, and a load below the capacity, so that there always is an empty cell.

Result: `collect_eq`: what an iterator yields.
-/

namespace Raz.Collections

open List
open Probing (Cell)
open FiniteMap (update Enumerates)

variable {slot : Nat}

namespace HashMap

section
variable {K V : Type} {cells : List (Cell (Entry K V))}

/-! ## Counts -/

def liveCount (cells : List (Cell (Entry K V))) : Nat := cells.countP Cell.isFull

def deadCount (cells : List (Cell (Entry K V))) : Nat := cells.countP Cell.isTombstone

theorem growthThreshold_lt {capacity : Nat} (h : 0 < capacity) :
    growthThreshold capacity < capacity := by
  unfold growthThreshold
  omega

/-- Fewer entries and tombstones than cells leave an empty cell. -/
theorem empty_mem_of_count (cells : List (Cell (Entry K V))) :
    liveCount cells + deadCount cells < cells.length → .empty ∈ cells := by
  induction cells with
  | nil => exact nofun
  | cons cell cells ih =>
    intro h
    cases cell with
    | empty => exact mem_cons_self
    | tombstone =>
      have hlive : liveCount (.tombstone :: cells) = liveCount cells := countP_cons_of_neg nofun
      have hdead : deadCount (.tombstone :: cells) = deadCount cells + 1 := countP_cons_of_pos rfl
      rw [hlive, hdead, length_cons] at h
      exact mem_cons_of_mem _ (ih (Nat.lt_of_succ_lt_succ h))
    | full entry =>
      have hlive : liveCount (.full entry :: cells) = liveCount cells + 1 := countP_cons_of_pos rfl
      have hdead : deadCount (.full entry :: cells) = deadCount cells := countP_cons_of_neg nofun
      rw [hlive, hdead, length_cons, Nat.add_right_comm] at h
      exact mem_cons_of_mem _ (ih (Nat.lt_of_succ_lt_succ h))

theorem count_set (p : Cell (Entry K V) → Bool) {old : Cell (Entry K V)}
    (hslot : cells[slot]? = some old) (cell : Cell (Entry K V)) :
    (cells.set slot cell).countP p + (if p old then 1 else 0) =
      cells.countP p + (if p cell then 1 else 0) := by
  obtain ⟨hlt, rfl⟩ := List.getElem?_eq_some_iff.mp hslot
  rw [countP_set hlt]
  have hpos : p cells[slot] = true → 0 < cells.countP p := fun hold =>
    countP_pos_iff.mpr ⟨_, getElem_mem hlt, hold⟩
  cases hold : p cells[slot] with
  | false => rfl
  | true =>
    have hpos := hpos hold
    simp only [if_true]
    omega

/-! ## The finite map -/

/-- The pairs in a table. -/
def pairs (cells : List (Cell (Entry K V))) : List (K × V) :=
  cells.filterMap fun cell => cell.contents.map fun entry => (entry.key, entry.value)

theorem mem_pairs {pair : K × V} :
    pair ∈ pairs cells ↔ ∃ entry : Entry K V, .full entry ∈ cells ∧
      (entry.key, entry.value) = pair := by
  unfold pairs
  rw [mem_filterMap]
  constructor
  · rintro ⟨cell, hcell, hpair⟩
    cases cell with
    | empty => cases hpair
    | tombstone => cases hpair
    | full entry => exact ⟨entry, hcell, Option.some.inj hpair⟩
  · rintro ⟨entry, hentry, rfl⟩
    exact ⟨.full entry, hentry, rfl⟩

theorem length_pairs (cells : List (Cell (Entry K V))) :
    (pairs cells).length = liveCount cells := by
  unfold pairs liveCount
  rw [length_filterMap_eq_countP]
  congr 1
  funext cell
  cases cell <;> rfl

variable [BEq K]

/-- The table has an entry of the key, with this value. -/
def Holds (cells : List (Cell (Entry K V))) (key : K) (value : V) : Prop :=
  ∃ (slot : Nat) (entry : Entry K V), cells[slot]? = some (.full entry) ∧
    (entry.key == key) = true ∧ entry.value = value

/-- The finite map that a table stands for. -/
def Represents (cells : List (Cell (Entry K V))) (map : K → Option V) : Prop :=
  ∀ key value, map key = some value ↔ Holds cells key value

theorem represents_replicate (capacity : Nat) :
    Represents (List.replicate capacity (.empty : Cell (Entry K V))) fun _ => none := by
  refine fun key value => ⟨nofun, ?_⟩
  rintro ⟨slot, entry, hslot, -⟩
  rw [List.getElem?_replicate] at hslot
  split at hslot <;> cases hslot

theorem holds_append {done : List (Cell (Entry K V))} {cell : Cell (Entry K V)} {key : K}
    {value : V} : Holds (done ++ [cell]) key value ↔
      (∃ entry, cell = .full entry ∧ (entry.key == key) = true ∧ entry.value = value) ∨
        Holds done key value := by
  constructor
  · rintro ⟨slot, entry, hslot, hentry⟩
    rcases mem_append.mp (mem_of_getElem? hslot) with hmem | hmem
    · obtain ⟨slot, hslot⟩ := mem_iff_getElem?.mp hmem
      exact .inr ⟨slot, entry, hslot, hentry⟩
    · exact .inl ⟨entry, (mem_singleton.mp hmem).symm, hentry⟩
  · rintro (⟨entry, rfl, hentry⟩ | ⟨slot, entry, hslot, hentry⟩)
    · exact ⟨done.length, entry, List.getElem?_concat_length, hentry⟩
    · obtain ⟨hlt, -⟩ := List.getElem?_eq_some_iff.mp hslot
      exact ⟨slot, entry, (List.getElem?_append_left hlt).trans hslot, hentry⟩

theorem holds_append_free {done : List (Cell (Entry K V))} {cell : Cell (Entry K V)}
    (hcell : ∀ entry, cell ≠ .full entry) {key : K} {value : V} :
    Holds (done ++ [cell]) key value ↔ Holds done key value :=
  holds_append.trans
    ⟨fun h => h.resolve_left fun ⟨entry, hentry, _⟩ => hcell entry hentry, .inr⟩

theorem Absent.content {content : K → Option V} (hcontent : Represents cells content) {key : K}
    (h : Absent cells key) : content key = none := by
  refine Option.eq_none_iff_forall_ne_some.mpr fun value hval => ?_
  obtain ⟨slot, entry, hslot, hkey, -⟩ := (hcontent key value).mp hval
  have hmiss := h entry (mem_of_getElem? hslot)
  rw [hkey] at hmiss
  cases hmiss

variable [Hashable K]

theorem Represents.enumerates {map : K → Option V} (h : Represents cells map)
    (hprobed : Probed cells) : Enumerates map (pairs cells) := by
  refine ⟨?_, fun key value => (h key value).trans ?_⟩
  · rw [pairs, pairwise_filterMap, pairwise_iff_getElem]
    intro slot other hslot hother hlt first hfirst second hsecond
    obtain ⟨entry, hentry, rfl⟩ := Option.map_eq_some_iff.mp hfirst
    obtain ⟨entry', hentry', rfl⟩ := Option.map_eq_some_iff.mp hsecond
    refine Bool.eq_false_iff.mpr fun hkey => Nat.ne_of_lt hlt ?_
    exact hprobed.distinct slot other entry entry'
      (List.getElem?_eq_some_iff.mpr ⟨hslot, Cell.contents_eq_some.mp hentry⟩)
      (List.getElem?_eq_some_iff.mpr ⟨hother, Cell.contents_eq_some.mp hentry'⟩) hkey
  · constructor
    · rintro ⟨slot, entry, hslot, hkey, hval⟩
      exact ⟨_, mem_pairs.mpr ⟨entry, mem_of_getElem? hslot, rfl⟩, hkey, hval⟩
    rintro ⟨_, hpair, hkey, hval⟩
    obtain ⟨entry, hentry, rfl⟩ := mem_pairs.mp hpair
    obtain ⟨slot, hslot⟩ := mem_iff_getElem?.mp hentry
    exact ⟨slot, entry, hslot, hkey, hval⟩

omit [Hashable K]
variable [EquivBEq K]

omit [EquivBEq K] in
theorem holds_set_free (hslot : slot < cells.length)
    (hfree : ∀ entry : Entry K V, cells[slot]? ≠ some (.full entry)) (entry : Entry K V) (key : K)
    (value : V) :
    Holds (cells.set slot (.full entry)) key value ↔
      (entry.key == key) = true ∧ entry.value = value ∨ Holds cells key value := by
  constructor
  · rintro ⟨other, entry', hother, hkey, hval⟩
    rcases Probing.full_of_set hother with ⟨rfl, heq⟩ | ⟨-, hold⟩
    · cases heq
      exact .inl ⟨hkey, hval⟩
    · exact .inr ⟨other, entry', hold, hkey, hval⟩
  · rintro (⟨hkey, hval⟩ | ⟨other, entry', hother, hentry⟩)
    · exact ⟨slot, entry, List.getElem?_set_self hslot, hkey, hval⟩
    refine ⟨other, entry', ?_, hentry⟩
    rw [List.getElem?_set_ne]
    · exact hother
    · rintro rfl
      exact hfree entry' hother

theorem Represents.set_free {map : K → Option V} (h : Represents cells map) {entry : Entry K V}
    (habsent : Absent cells entry.key) {slot : Nat} (hslot : slot < cells.length)
    (hfree : ∀ entry : Entry K V, cells[slot]? ≠ some (.full entry)) :
    Represents (cells.set slot (.full entry)) (update map entry.key (some entry.value)) := by
  intro key value
  rw [holds_set_free hslot hfree, ← h key value, update]
  split <;> rename_i hkey
  · constructor
    · exact fun hval => .inl ⟨hkey, Option.some.inj hval⟩
    rintro (⟨-, rfl⟩ | hval)
    · rfl
    obtain ⟨other, entry', hother, hkey', -⟩ := (h key value).mp hval
    have hmiss := habsent entry' (mem_of_getElem? hother)
    rw [BEq.trans hkey' (BEq.symm hkey)] at hmiss
    cases hmiss
  · exact ⟨.inr, fun h => h.resolve_left fun h => hkey h.1⟩

variable [Hashable K]

theorem Represents.set_entry {map : K → Option V} (h : Represents cells map)
    (hprobed : Probed cells) {key : K} {entry : Entry K V}
    (hslot : cells[slot]? = some (.full entry)) (hkey : (entry.key == key) = true)
    {cell : Cell (Entry K V)} {value : Option V} (hcell : ∀ entry' : Entry K V, cell = .full entry'
      → entry'.key = entry.key ∧ value = some entry'.value)
    (hnone : (∀ entry' : Entry K V, cell ≠ .full entry') → value = none) :
    Represents (cells.set slot cell) (update map key value) := by
  obtain ⟨hlt, -⟩ := List.getElem?_eq_some_iff.mp hslot
  intro key' value'
  unfold update
  constructor
  · intro hval
    split at hval <;> rename_i hequal
    · cases cell with
      | full entry' =>
        obtain ⟨hsame, rfl⟩ := hcell entry' rfl
        cases hval
        exact ⟨slot, entry', List.getElem?_set_self hlt, hsame ▸ BEq.trans hkey hequal, rfl⟩
      | empty => rw [hnone nofun] at hval; cases hval
      | tombstone => rw [hnone nofun] at hval; cases hval
    · obtain ⟨other, old, hother, hkey', hval'⟩ := (h key' value').mp hval
      refine ⟨other, old, ?_, hkey', hval'⟩
      rw [List.getElem?_set_ne]
      · exact hother
      rintro rfl
      rw [hslot] at hother
      cases hother
      exact hequal (BEq.trans (BEq.symm hkey) hkey')
  · rintro ⟨other, old, hother, hkey', hval'⟩
    rcases Probing.full_of_set hother with ⟨rfl, rfl⟩ | ⟨hne, hold⟩
    · obtain ⟨hsame, rfl⟩ := hcell old rfl
      rw [hsame] at hkey'
      rw [if_pos (BEq.trans (BEq.symm hkey) hkey'), hval']
    rw [if_neg]
    · exact (h key' value').mpr ⟨other, old, hold, hkey', hval'⟩
    · intro hequal
      exact hne (hprobed.distinct other slot old entry hold hslot
        (BEq.trans hkey' (BEq.trans (BEq.symm hequal) (BEq.symm hkey))))

/-! ## The invariant -/

omit [EquivBEq K]

structure Valid (map : HashMap K V) : Prop where
  size : map.cells = [] ∨ ∃ bits, 3 ≤ bits ∧ bits ≤ 62 ∧ map.cells.length = 2 ^ bits
  live : map.length = liveCount map.cells
  dead : map.tombstones = deadCount map.cells
  load : map.length + map.tombstones ≤ growthThreshold map.cells.length
  probed : Probed map.cells

/-- **A table has an empty cell.** -/
theorem Valid.empty_mem {map : HashMap K V} (h : Valid map) (hne : map.cells ≠ []) :
    .empty ∈ map.cells := by
  refine empty_mem_of_count map.cells ?_
  rw [← h.live, ← h.dead]
  exact Nat.lt_of_le_of_lt h.load (growthThreshold_lt (length_pos_iff.mpr hne))

theorem valid_new : Valid (new : HashMap K V) where
  size := .inl rfl
  live := rfl
  dead := rfl
  load := Nat.zero_le _
  probed := probed_replicate 0

theorem Valid.set {map : HashMap K V} (h : Valid map) {old : Cell (Entry K V)}
    (hslot : map.cells[slot]? = some old) {cell : Cell (Entry K V)}
    (hprobed : Probed (map.cells.set slot cell)) {length tombstones : Nat}
    (hlive : length + (if old.isFull then 1 else 0) = map.length + (if cell.isFull then 1 else 0))
    (hdead : tombstones + (if old.isTombstone then 1 else 0) = map.tombstones + (if cell.isTombstone
      then 1 else 0)) (hload : length + tombstones ≤ growthThreshold map.cells.length) :
    Valid ⟨map.cells.set slot cell, length, tombstones⟩ where
  size := by
    rcases h.size with hnil | ⟨bits, hlow, hhigh, hsize⟩
    · rw [hnil] at hslot
      cases hslot
    · exact .inr ⟨bits, hlow, hhigh, List.length_set.trans hsize⟩
  live := by
    have hcount := count_set Cell.isFull hslot cell
    rw [h.live, liveCount] at hlive
    exact Nat.add_right_cancel (hlive.trans hcount.symm)
  dead := by
    have hcount := count_set Cell.isTombstone hslot cell
    rw [h.dead, deadCount] at hdead
    exact Nat.add_right_cancel (hdead.trans hcount.symm)
  load := by
    rw [List.length_set]
    exact hload
  probed := hprobed

theorem clear_spec {map : HashMap K V} (h : Valid map) :
    Valid (clear map) ∧ Represents (clear map).cells fun _ => none := by
  refine ⟨⟨?_, ?_, ?_, Nat.zero_le _, probed_replicate _⟩, represents_replicate _⟩
  · rcases h.size with hnil | ⟨bits, hlow, hhigh, hsize⟩
    · exact .inl (by rw [clear, capacity, hnil]; rfl)
    · exact .inr ⟨bits, hlow, hhigh, length_replicate.trans hsize⟩
  · simp [clear, liveCount, countP_replicate, Cell.isFull]
  · simp [clear, deadCount, countP_replicate, Cell.isTombstone]

/-! ## Rehashing -/

/-- What a change of the table may return: failure and the same map, or a table with the same
pairs. -/
structure Resized (map : HashMap K V) (result : Bool × HashMap K V) : Prop where
  failed : result.1 = false → result.2 = map
  valid : Valid result.2
  length : result.2.length = map.length
  holds : ∀ key value, Holds result.2.cells key value ↔ Holds map.cells key value

theorem resized_same {map : HashMap K V} (h : Valid map) (done : Bool) :
    Resized map (done, map) :=
  ⟨fun _ => rfl, h, rfl, fun _ _ => Iff.rfl⟩

/-- The new table once the cells before were moved. -/
structure Moved (bits : Nat) (map : HashMap K V) (done : List (Cell (Entry K V))) : Prop where
  size : map.cells.length = 2 ^ bits
  length : map.length = liveCount done
  tombstones : map.tombstones = 0
  live : liveCount map.cells = liveCount done
  dead : deadCount map.cells = 0
  probed : Probed map.cells
  holds : ∀ key value, Holds map.cells key value ↔ Holds done key value

theorem moved_nil (bits : Nat) :
    Moved bits (⟨List.replicate (2 ^ bits) .empty, 0, 0⟩ : HashMap K V) [] where
  size := List.length_replicate
  length := rfl
  tombstones := rfl
  live := by simp [liveCount, countP_replicate, Cell.isFull]
  dead := by simp [deadCount, countP_replicate, Cell.isTombstone]
  probed := probed_replicate _
  holds := fun key value => ((represents_replicate (2 ^ bits) key value).symm.trans
    (represents_replicate 0 key value))

variable [LawfulHashable K] [EquivBEq K]

theorem Moved.step {bits : Nat} {map : HashMap K V} {done : List (Cell (Entry K V))}
    (h : Moved bits map done) {cell : Cell (Entry K V)}
    (habsent : ∀ entry, cell = .full entry → Absent done entry.key)
    (hroom : liveCount done < 2 ^ bits) : Moved bits (moveEntry map cell) (done ++ [cell]) := by
  have hskip (hcell : ∀ entry, cell ≠ .full entry) (hfull : cell.isFull = false) :
      Moved bits map (done ++ [cell]) := by
    have hcount : liveCount (done ++ [cell]) = liveCount done := by
      simp [liveCount, hfull]
    exact ⟨h.size, by rw [hcount]; exact h.length, h.tombstones, by rw [hcount]; exact h.live,
      h.dead, h.probed, fun key value => (h.holds key value).trans (holds_append_free hcell).symm⟩
  cases cell with
  | empty => exact hskip nofun rfl
  | tombstone => exact hskip nofun rfl
  | full entry =>
    have hempty : .empty ∈ map.cells :=
      empty_mem_of_count map.cells (by rw [h.live, h.dead, h.size]; exact hroom)
    have hnew : Absent map.cells entry.key := by
      intro other hmem
      refine Bool.eq_false_iff.mpr fun hkey => ?_
      obtain ⟨slot, hslot⟩ := mem_iff_getElem?.mp hmem
      obtain ⟨slot', old, hold, hkey', -⟩ :=
        (h.holds entry.key other.value).mp ⟨slot, other, hslot, hkey, rfl⟩
      have hmiss := habsent entry rfl old (mem_of_getElem? hold)
      rw [hkey'] at hmiss
      cases hmiss
    rcases findSlotHashed_spec h.probed h.size hempty entry.key true with
      ⟨slot, old, hslot, hkey, -⟩ | ⟨-, -, hfind⟩
    · have hmiss := hnew old (mem_of_getElem? hslot)
      rw [hkey] at hmiss
      cases hmiss
    obtain ⟨slot, hfind, hfree⟩ := hfind rfl
    obtain ⟨cell, hcell, hcellFree⟩ := hfree.cell
    have hlive := count_set Cell.isFull hcell
      (.full ⟨hashControl (hash entry.key), entry.key, entry.value⟩)
    have hdead := count_set Cell.isTombstone hcell
      (.full ⟨hashControl (hash entry.key), entry.key, entry.value⟩)
    have hlive₀ := h.live
    have hdead₀ := h.dead
    have hdone : liveCount (done ++ [.full entry]) = liveCount done + 1 := by
      simp [liveCount, Cell.isFull]
    have hnotFull : cell.isFull = false := by
      rcases hcellFree with rfl | rfl <;> rfl
    rw [hnotFull] at hlive
    unfold moveEntry
    simp only
    rw [hfind]
    refine ⟨?_, ?_, h.tombstones, ?_, ?_, h.probed.set_free hnew hfree _, fun key value => ?_⟩
    · exact List.length_set.trans h.size
    · rw [hdone, ← h.length]
    · rw [hdone, ← hlive₀]
      exact hlive
    · exact Nat.eq_zero_of_add_eq_zero_right (hdead.trans hdead₀)
    · rw [holds_set_free (hfree.lt) hfree.ne_full, holds_append, h.holds key value]
      exact or_congr_left ⟨fun hentry => ⟨entry, rfl, hentry⟩,
        fun ⟨entry', heq, hentry⟩ => by cases heq; exact hentry⟩

theorem moved_foldl {bits : Nat} {old : List (Cell (Entry K V))} (hold : Probed old)
    (hroom : liveCount old < 2 ^ bits) (rest : List (Cell (Entry K V))) :
    ∀ {done : List (Cell (Entry K V))} {map : HashMap K V}, done ++ rest = old →
      Moved bits map done → Moved bits (rest.foldl moveEntry map) old := by
  induction rest with
  | nil =>
    intro done map hdone h
    rw [append_nil] at hdone
    exact hdone ▸ h
  | cons cell rest ih =>
    intro done map hdone h
    refine ih (by rw [append_assoc]; exact hdone) (h.step ?_ ?_)
    · rintro entry rfl other hmem
      refine Bool.eq_false_iff.mpr fun hkey => ?_
      obtain ⟨slot, hslot⟩ := mem_iff_getElem?.mp hmem
      obtain ⟨hlt, -⟩ := List.getElem?_eq_some_iff.mp hslot
      have hcell : old[done.length]? = some (.full entry) := by
        rw [← hdone, List.getElem?_append_right (Nat.le_refl _), Nat.sub_self]
        rfl
      have hother : old[slot]? = some (.full other) := by
        rw [← hdone, List.getElem?_append_left hlt]
        exact hslot
      exact Nat.ne_of_lt hlt (hold.distinct slot done.length other entry hother hcell hkey)
    · refine Nat.lt_of_le_of_lt ?_ hroom
      rw [← hdone, liveCount, liveCount, countP_append]
      exact Nat.le_add_right _ _

/-- **A new table has the same pairs**, and a failure leaves the old one. -/
theorem rehash_spec {map : HashMap K V} (h : Valid map) {bits : Nat} (hlow : 3 ≤ bits)
    (hhigh : bits ≤ 62) (hload : map.length ≤ growthThreshold (2 ^ bits)) (layout : Layout)
    (grants : Grants) :
    Resized map (rehash layout grants map (2 ^ bits)) ∧
      ((rehash layout grants map (2 ^ bits)).1 = true →
        (rehash layout grants map (2 ^ bits)).2.cells.length = 2 ^ bits ∧
          (rehash layout grants map (2 ^ bits)).2.tombstones = 0) := by
  have hpos : 8 ≤ 2 ^ bits := Nat.pow_le_pow_right (Nat.zero_lt_succ 1) hlow
  have hroom : liveCount map.cells < 2 ^ bits := by
    rw [← h.live]
    exact Nat.lt_of_le_of_lt hload (growthThreshold_lt (Nat.zero_lt_of_lt hpos))
  have hmoved := moved_foldl h.probed hroom map.cells (nil_append _) (moved_nil bits)
  have hsame : Resized map (false, map) ∧ (false = true → map.cells.length = 2 ^ bits ∧
      map.tombstones = 0) := ⟨resized_same h false, nofun⟩
  unfold rehash
  simp only
  rw [if_neg (Nat.not_lt.mpr hpos)]
  split
  · exact hsame
  split
  · exact hsame
  split
  · exact hsame
  split
  · exact hsame
  refine ⟨⟨nofun, ⟨.inr ⟨bits, hlow, hhigh, hmoved.size⟩, ?_, ?_, ?_, hmoved.probed⟩, ?_,
    hmoved.holds⟩, fun _ => ⟨hmoved.size, hmoved.tombstones⟩⟩
  · exact hmoved.length.trans hmoved.live.symm
  · exact hmoved.tombstones.trans hmoved.dead.symm
  · rw [hmoved.tombstones, hmoved.size, hmoved.length, ← h.live]
    exact hload
  · exact hmoved.length.trans h.live.symm

theorem growthThreshold_mono {capacity next : Nat} (h : capacity ≤ next) :
    growthThreshold capacity ≤ growthThreshold next := by
  unfold growthThreshold
  omega

theorem growLoop_spec {entries : Nat} (rounds : Nat) :
    ∀ {bits next : Nat}, bits ≤ 62 → growLoop entries rounds (2 ^ bits) = some next →
      ∃ bits', bits ≤ bits' ∧ bits' ≤ 62 ∧ next = 2 ^ bits' ∧ entries ≤ growthThreshold next := by
  induction rounds with
  | zero => exact fun _ h => nomatch h
  | succ rounds ih =>
    intro bits next hbits h
    rw [growLoop] at h
    split at h
    · split at h
      · cases h
      rename_i hle
      have hlt : bits < 62 := by
        refine Nat.lt_of_le_of_ne hbits ?_
        rintro rfl
        exact hle (by decide)
      obtain ⟨bits', hlow, hspec⟩ := ih hlt (show growLoop entries rounds (2 ^ (bits + 1)) = _ by
        rw [Nat.pow_succ]
        exact h)
      exact ⟨bits', Nat.le_of_succ_le hlow, hspec⟩
    · rename_i hload
      cases h
      exact ⟨bits, Nat.le_refl _, hbits, rfl, Nat.not_lt.mp hload⟩

theorem reserve_spec {map : HashMap K V} (h : Valid map) (layout : Layout) (grants : Grants)
    (entries : Int) : Resized map (reserve layout grants map entries) := by
  -- the capacity at which the loop starts
  have hstart : ∃ bits, 3 ≤ bits ∧ bits ≤ 62 ∧
      (if map.capacity > 8 then map.capacity else 8) = 2 ^ bits ∧ map.capacity ≤ 2 ^ bits := by
    split
    · rename_i hlarge
      rcases h.size with hnil | ⟨bits, hlow, hhigh, hsize⟩
      · rw [capacity, hnil] at hlarge
        cases hlarge
      · exact ⟨bits, hlow, hhigh, hsize, Nat.le_of_eq hsize⟩
    · rename_i hsmall
      exact ⟨3, Nat.le_refl _, by decide, rfl, Nat.not_lt.mp hsmall⟩
  obtain ⟨bits, hlow, hhigh, hstart, hcap⟩ := hstart
  unfold reserve
  rw [hstart]
  split
  · exact resized_same h false
  split
  · exact resized_same h false
  rename_i next hgrow
  obtain ⟨bits', hle, hhigh', rfl, -⟩ := growLoop_spec 64 hhigh hgrow
  split
  · exact resized_same h true
  · refine (rehash_spec h (Nat.le_trans hlow hle) hhigh' ?_ layout grants).1
    refine Nat.le_trans (Nat.le_of_add_right_le h.load) (growthThreshold_mono ?_)
    exact Nat.le_trans hcap (Nat.pow_le_pow_right (Nat.zero_lt_succ 1) hle)

theorem shrinkToFit_spec {map : HashMap K V} (h : Valid map) (layout : Layout) (grants : Grants) :
    Resized map (shrinkToFit layout grants map) := by
  unfold shrinkToFit
  split
  · exact resized_same h false
  rename_i next hgrow
  obtain ⟨bits, hlow, hhigh, rfl, hload⟩ := @growLoop_spec map.length 64 3 next (by decide) hgrow
  split
  · exact resized_same h true
  split
  · exact resized_same h true
  · exact (rehash_spec h hlow hhigh hload layout grants).1

theorem ensureInsertCapacity_spec {map : HashMap K V} (h : Valid map) (layout : Layout)
    (grants : Grants) :
    Resized map (ensureInsertCapacity layout grants map) ∧
      ((ensureInsertCapacity layout grants map).1 = true →
        (ensureInsertCapacity layout grants map).2.length +
            (ensureInsertCapacity layout grants map).2.tombstones + 1 ≤
          growthThreshold (ensureInsertCapacity layout grants map).2.cells.length) := by
  have hrehash {bits : Nat} (hlow : 3 ≤ bits) (hhigh : bits ≤ 62)
      (hload : map.length + 1 ≤ growthThreshold (2 ^ bits)) :
      Resized map (rehash layout grants map (2 ^ bits)) ∧
        ((rehash layout grants map (2 ^ bits)).1 = true →
          (rehash layout grants map (2 ^ bits)).2.length +
              (rehash layout grants map (2 ^ bits)).2.tombstones + 1 ≤
            growthThreshold (rehash layout grants map (2 ^ bits)).2.cells.length) := by
    obtain ⟨hresized, hsize⟩ := rehash_spec h hlow hhigh (Nat.le_of_succ_le hload) layout grants
    refine ⟨hresized, fun hdone => ?_⟩
    rw [(hsize hdone).1, (hsize hdone).2, hresized.length]
    exact hload
  unfold ensureInsertCapacity
  split
  · rename_i hnil
    have hlen : map.length = 0 := by
      rw [h.live, eq_nil_of_length_eq_zero hnil]
      rfl
    exact hrehash (Nat.le_refl 3) (by decide) (by rw [hlen]; decide)
  · rename_i hne
    obtain ⟨bits, hlow, hhigh, hsize⟩ :=
      h.size.resolve_left fun hnil => hne (congrArg List.length hnil)
    have hload := h.load
    have hcap : map.capacity = 2 ^ bits := hsize
    have hpos : 8 ≤ 2 ^ bits := Nat.pow_le_pow_right (Nat.zero_lt_succ 1) hlow
    simp only
    split
    · exact ⟨resized_same h true, fun _ => ‹_›⟩
    split
    · rename_i hroom
      rw [hcap] at hroom ⊢
      exact hrehash hlow hhigh hroom
    split
    · exact ⟨resized_same h false, nofun⟩
    rename_i hle
    have hlt : bits < 62 := by
      refine Nat.lt_of_le_of_ne hhigh ?_
      rintro rfl
      exact hle (by rw [hcap]; decide)
    have hdouble : growthThreshold (2 ^ bits) + 1 ≤ growthThreshold (2 ^ bits * 2) := by
      unfold growthThreshold
      omega
    rw [hsize] at hload
    rw [hcap, ← Nat.pow_succ]
    refine hrehash (Nat.le_succ_of_le hlow) hlt (Nat.le_trans (Nat.succ_le_succ ?_) hdouble)
    exact Nat.le_of_add_right_le hload

/-! ## Insertion -/

/-- **An insertion that is done is one in the finite map**, and one that fails changes nothing. -/
theorem insert_spec {map : HashMap K V} (h : Valid map) {content : K → Option V}
    (hcontent : Represents map.cells content) (layout : Layout) (grants : Grants) (key : K)
    (value : V) :
    Valid (insert layout grants map key value).2 ∧
      Represents (insert layout grants map key value).2.cells
        (if (insert layout grants map key value).1 then update content key (some value)
          else content) ∧
      ((insert layout grants map key value).1 = false →
        (insert layout grants map key value).2 = map) ∧
      (insert layout grants map key value).1 = (ensureInsertCapacity layout grants map).1 := by
  obtain ⟨hresized, hroom⟩ := ensureInsertCapacity_spec h layout grants
  unfold insert
  generalize ensureInsertCapacity layout grants map = ensured at hresized hroom
  obtain ⟨done, next⟩ := ensured
  have hnext : Represents next.cells content := fun key value =>
    (hcontent key value).trans (hresized.holds key value).symm
  have hvalid := hresized.valid
  cases done with
  | false =>
    cases hresized.failed rfl
    exact ⟨h, hcontent, fun _ => rfl, rfl⟩
  | true =>
    have hroom : next.length + next.tombstones + 1 ≤ growthThreshold next.cells.length := hroom rfl
    have hne : next.cells ≠ [] := by
      intro hnil
      have hzero : growthThreshold next.cells.length = 0 := by
        rw [hnil, length_nil]
        decide
      rw [hzero] at hroom
      exact Nat.not_succ_le_zero _ hroom
    obtain ⟨bits, -, -, hsize⟩ := hvalid.size.resolve_left hne
    rcases findSlotHashed_spec hvalid.probed hsize (hvalid.empty_mem hne) key true with
      ⟨slot, entry, hslot, hkey, hfind⟩ | ⟨habsent, -, hfind⟩
    · -- another value for the key
      simp only [hfind, insertAt, hslot]
      refine ⟨hvalid.set hslot (hvalid.probed.set_value hslot value) rfl rfl hvalid.load, ?_, nofun,
        trivial⟩
      exact hnext.set_entry hvalid.probed hslot hkey
        (fun entry' hentry => by cases hentry; exact ⟨rfl, rfl⟩)
        (fun hnone => absurd rfl (hnone _))
    · obtain ⟨slot, hfind, hfree⟩ := hfind rfl
      have hprobed := hvalid.probed.set_free habsent hfree value
      have hset := @Represents.set_free _ _ _ _ _ _ hnext ⟨hashControl (hash key), key, value⟩
        habsent slot hfree.lt hfree.ne_full
      obtain ⟨cell, hcell, rfl | rfl⟩ := hfree.cell
      · have hpos : 0 < next.tombstones := by
          rw [hvalid.dead]
          exact countP_pos_iff.mpr ⟨_, mem_of_getElem? hcell, rfl⟩
        simp only [hfind, insertAt, hcell]
        refine ⟨hvalid.set hcell hprobed rfl ?_ ?_, hset, nofun, trivial⟩
        · exact Nat.sub_add_cancel hpos
        · show next.length + 1 + (next.tombstones - 1) ≤ growthThreshold next.cells.length
          omega
      · simp only [hfind, insertAt, hcell]
        refine ⟨hvalid.set hcell hprobed rfl rfl ?_, hset, nofun, trivial⟩
        rw [Nat.add_right_comm]
        exact hroom

/-! ## Lookup and removal -/

omit [EquivBEq K] in
theorem findSlot_spec {map : HashMap K V} (h : Valid map) (key : K) :
    (∃ slot entry, map.cells[slot]? = some (.full entry) ∧ (entry.key == key) = true ∧
      findSlot map key false = some slot) ∨
      Absent map.cells key ∧ findSlot map key false = none := by
  rcases h.size with hnil | ⟨bits, -, -, hsize⟩
  · refine .inr ⟨fun entry hmem => ?_, ?_⟩
    · rw [hnil] at hmem
      cases hmem
    · rw [findSlot, hnil]
      rfl
  · have hne : map.cells ≠ [] := by
      intro hnil
      rw [hnil] at hsize
      exact Nat.ne_of_lt (Nat.two_pow_pos bits) hsize
    exact (findSlotHashed_spec h.probed hsize (h.empty_mem hne) key false).imp id
      fun ⟨habsent, hnone, _⟩ => ⟨habsent, hnone rfl⟩

omit [EquivBEq K] in
/-- **A lookup reads the finite map.** -/
theorem get_spec {map : HashMap K V} (h : Valid map) {content : K → Option V}
    (hcontent : Represents map.cells content) (key : K) : get map key = content key := by
  unfold get
  rcases findSlot_spec h key with ⟨slot, entry, hslot, hkey, hfind⟩ | ⟨habsent, hfind⟩
  · rw [hfind, Option.bind_some, valueAt, hslot]
    exact ((hcontent key entry.value).mpr ⟨slot, entry, hslot, hkey, rfl⟩).symm
  · rw [hfind, habsent.content hcontent]
    rfl

omit [EquivBEq K] in
theorem containsKey_spec {map : HashMap K V} (h : Valid map) {content : K → Option V}
    (hcontent : Represents map.cells content) (key : K) :
    containsKey map key = (content key).isSome := by
  unfold containsKey
  rcases findSlot_spec h key with ⟨slot, entry, hslot, hkey, hfind⟩ | ⟨habsent, hfind⟩
  · rw [hfind, (hcontent key entry.value).mpr ⟨slot, entry, hslot, hkey, rfl⟩]
    rfl
  · rw [hfind, habsent.content hcontent]
    rfl

/-- **A removal is one in the finite map.** -/
theorem remove_spec {map : HashMap K V} (h : Valid map) {content : K → Option V}
    (hcontent : Represents map.cells content) (key : K) :
    (remove map key).1 = content key ∧ Valid (remove map key).2 ∧
      Represents (remove map key).2.cells (update content key none) := by
  unfold remove
  rcases findSlot_spec h key with ⟨slot, entry, hslot, hkey, hfind⟩ | ⟨habsent, hfind⟩
  · have hpos : 0 < map.length := by
      rw [h.live]
      exact countP_pos_iff.mpr ⟨_, mem_of_getElem? hslot, rfl⟩
    have hload := h.load
    simp only [hfind]
    refine ⟨?_, h.set hslot (h.probed.set_tombstone slot) (Nat.sub_add_cancel hpos) rfl ?_, ?_⟩
    · rw [valueAt, hslot]
      exact ((hcontent key entry.value).mpr ⟨slot, entry, hslot, hkey, rfl⟩).symm
    · omega
    · exact hcontent.set_entry h.probed hslot hkey nofun (fun _ => rfl)
  · have hnone := habsent.content hcontent
    simp only [hfind]
    refine ⟨hnone.symm, h, fun key' value => ?_⟩
    rw [← hcontent key' value, update]
    split
    · rename_i hkey
      refine ⟨nofun, fun hval => ?_⟩
      obtain ⟨slot, entry, hslot, hkey', -⟩ := (hcontent key' value).mp hval
      have hmiss := habsent entry (mem_of_getElem? hslot)
      rw [BEq.trans hkey' (BEq.symm hkey)] at hmiss
      cases hmiss
    · exact Iff.rfl

omit [EquivBEq K] in
theorem tryRemove_eq {map : HashMap K V} (h : Valid map) (key : K) (output : V) :
    tryRemove map key output =
      ((remove map key).1.isSome, (remove map key).1.getD output, (remove map key).2) := by
  unfold tryRemove remove
  rcases findSlot_spec h key with ⟨slot, entry, hslot, -, hfind⟩ | ⟨-, hfind⟩
  · simp only [hfind, valueAt, hslot]
    rfl
  · simp only [hfind]
    rfl

end

/-! ## Refusals -/

/-- A table of so many slots is not to be had: a block of it would be too large, or is refused. -/
def Withheld (layout : Layout) (grants : Grants) (capacity : Nat) : Prop :=
  layout.keySize = 0 ∨ layout.valueSize = 0 ∨
    capacity > 9223372036854775807 / layout.keySize ∨
    capacity > 9223372036854775807 / layout.valueSize ∨
    (grants.keys && grants.values && grants.states) = false

theorem Withheld.mono {layout : Layout} {grants : Grants} {capacity next : Nat}
    (h : Withheld layout grants capacity) (hle : capacity ≤ next) : Withheld layout grants next :=
  h.imp_right fun h => h.imp_right fun h => h.imp (fun h => Nat.lt_of_lt_of_le h hle) fun h =>
    h.imp_left fun h => Nat.lt_of_lt_of_le h hle

/-- No block is as large as the greatest length. -/
theorem withheld_of_large {capacity : Nat} (h : 9223372036854775807 < capacity) (layout : Layout)
    (grants : Grants) : Withheld layout grants capacity :=
  .inr (.inr (.inl (Nat.lt_of_le_of_lt (Nat.div_le_self _ _) h)))

/-- The loop doubles while the entries are more than the threshold: it ends below three slots for
an entry. -/
theorem growLoop_le {entries : Nat} (rounds : Nat) : ∀ {next last : Nat},
    growLoop entries rounds next = some last → last ≤ max next (3 * entries) := by
  induction rounds with
  | zero => exact fun h => nomatch h
  | succ rounds ih =>
    intro next last h
    rw [growLoop] at h
    split at h
    · rename_i hfew
      split at h
      · nomatch h
      have hle := ih h
      unfold growthThreshold at hfew
      omega
    · cases h
      exact Nat.le_max_left _ _

/-- It gives up where the entries are more than the largest table takes. -/
theorem growLoop_none {entries : Nat} (rounds : Nat) : ∀ {bits : Nat}, bits ≤ 62 →
    63 ≤ bits + rounds → growLoop entries rounds (2 ^ bits) = none →
      9223372036854775807 < 3 * entries := by
  induction rounds with
  | zero => exact fun hbits hrounds => absurd hrounds (Nat.not_le_of_lt (Nat.lt_succ_of_le hbits))
  | succ rounds ih =>
    intro bits hbits hrounds h
    rw [growLoop] at h
    split at h
    · rename_i hfew
      split at h
      · rename_i hlarge
        unfold growthThreshold at hfew
        omega
      · rename_i hle
        have hlt : bits < 62 := by
          refine Nat.lt_of_le_of_ne hbits ?_
          rintro rfl
          exact hle (by decide)
        refine @ih (bits + 1) hlt (by omega) ?_
        rw [Nat.pow_succ]
        exact h
    · nomatch h

section
variable {K V : Type} [BEq K] [Hashable K]

theorem rehash_refused {map : HashMap K V} {layout : Layout} {grants : Grants} {requested : Nat}
    (h : (rehash layout grants map requested).1 = false) :
    Withheld layout grants (max 8 requested) := by
  unfold rehash at h
  simp only at h
  have hnext : (if requested < 8 then 8 else requested) = max 8 requested := by
    split <;> omega
  rw [hnext] at h
  split at h
  · rename_i hsize
    exact hsize.imp_right fun h => h.imp_right fun h => h.imp_right .inl
  refine .inr (.inr (.inr (.inr ?_)))
  split at h
  · rw [‹grants.keys = false›]
    rfl
  split at h
  · rw [‹grants.values = false›, Bool.and_false]
    rfl
  split at h
  · rw [‹grants.states = false›, Bool.and_false]
  · nomatch h

theorem reserve_refused {map : HashMap K V} (h : Valid map) {layout : Layout} {grants : Grants}
    {entries : Int} (hrefused : (reserve layout grants map entries).1 = false) :
    entries < 0 ∨ Withheld layout grants (max (max 8 map.capacity) (3 * entries.toNat)) := by
  unfold reserve at hrefused
  split at hrefused
  · exact .inl ‹_›
  refine .inr ?_
  have hstart : (if map.capacity > 8 then map.capacity else 8) = max 8 map.capacity := by
    split <;> omega
  rw [hstart] at hrefused
  split at hrefused
  · rename_i hnone
    obtain ⟨bits, hlow, hhigh, hsize⟩ : ∃ bits, 3 ≤ bits ∧ bits ≤ 62 ∧
        max 8 map.capacity = 2 ^ bits := by
      rcases h.size with hnil | ⟨bits, hlow, hhigh, hsize⟩
      · exact ⟨3, Nat.le_refl _, by decide, by rw [capacity, hnil]; rfl⟩
      · have hle : 8 ≤ 2 ^ bits := Nat.pow_le_pow_right (Nat.zero_lt_succ 1) hlow
        exact ⟨bits, hlow, hhigh, by rw [capacity, hsize, Nat.max_eq_right hle]⟩
    rw [hsize] at hnone
    refine (withheld_of_large ?_ layout grants).mono (Nat.le_max_right _ _)
    exact growLoop_none 64 hhigh (by omega) hnone
  · rename_i next hgrow
    split at hrefused
    · nomatch hrefused
    have hle := growLoop_le 64 hgrow
    refine (rehash_refused hrefused).mono ?_
    omega

theorem shrinkToFit_refused {map : HashMap K V} {layout : Layout} {grants : Grants}
    (hrefused : (shrinkToFit layout grants map).1 = false) :
    Withheld layout grants (max 8 (3 * map.length)) := by
  unfold shrinkToFit at hrefused
  split at hrefused
  · rename_i hnone
    refine (withheld_of_large ?_ layout grants).mono (Nat.le_max_right _ _)
    exact @growLoop_none map.length 64 3 (by decide) (by decide) hnone
  · rename_i next hgrow
    split at hrefused
    · nomatch hrefused
    split at hrefused
    · nomatch hrefused
    have hle := growLoop_le 64 hgrow
    refine (rehash_refused hrefused).mono ?_
    omega

theorem ensureInsertCapacity_refused {map : HashMap K V} {layout : Layout} {grants : Grants}
    (hrefused : (ensureInsertCapacity layout grants map).1 = false) :
    Withheld layout grants (max 8 (2 * map.capacity)) := by
  unfold ensureInsertCapacity at hrefused
  split at hrefused
  · exact (rehash_refused hrefused).mono (by omega)
  simp only at hrefused
  split at hrefused
  · nomatch hrefused
  split at hrefused
  · exact (rehash_refused hrefused).mono (by omega)
  split at hrefused
  · exact withheld_of_large (by omega) layout grants
  · exact (rehash_refused hrefused).mono (by omega)

end

/-! ## Iteration -/

section
variable {K V : Type}

theorem pairs_cons (cell : Cell (Entry K V)) (cells : List (Cell (Entry K V))) :
    pairs (cell :: cells) = (cell.contents.map fun entry => (entry.key, entry.value)).toList ++
      pairs cells := by
  unfold pairs
  rw [filterMap_cons]
  cases cell <;> rfl

theorem nextLoop_spec (left : Nat) : ∀ iter : Iter K V, iter.cells.length - iter.index = left →
    (pairs (iter.cells.drop iter.index) = [] ∧ (iter.nextLoop left).1 = false) ∨
    ∃ slot entry, iter.cells[slot]? = some (.full entry) ∧ iter.index ≤ slot ∧
      pairs (iter.cells.drop iter.index) =
        (entry.key, entry.value) :: pairs (iter.cells.drop (slot + 1)) ∧
      iter.nextLoop left = (true, ⟨iter.cells, slot + 1, some slot⟩) := by
  induction left with
  | zero =>
    intro iter hleft
    refine .inl ⟨?_, rfl⟩
    rw [drop_eq_nil_of_le (Nat.le_of_sub_eq_zero hleft)]
    rfl
  | succ left ih =>
    intro iter hleft
    have hlt : iter.index < iter.cells.length := Nat.lt_of_sub_eq_succ hleft
    have hcell := List.getElem?_eq_getElem hlt
    have hdrop := drop_eq_getElem_cons hlt
    generalize iter.cells[iter.index] = cell at hcell hdrop
    have hrest := ih { iter with index := iter.index + 1 }
      (show iter.cells.length - (iter.index + 1) = left by omega)
    rw [hdrop, pairs_cons, Iter.nextLoop]
    simp only [hcell]
    cases cell with
    | full entry => exact .inr ⟨iter.index, entry, hcell, Nat.le_refl _, rfl, rfl⟩
    | empty =>
      refine hrest.imp id fun ⟨slot, entry, hslot, hle, hnext⟩ => ?_
      exact ⟨slot, entry, hslot, Nat.le_of_succ_le hle, hnext⟩
    | tombstone =>
      refine hrest.imp id fun ⟨slot, entry, hslot, hle, hnext⟩ => ?_
      exact ⟨slot, entry, hslot, Nat.le_of_succ_le hle, hnext⟩

theorem collect_eq {α : Type} (item : K × V → α) (rounds : Nat) : ∀ iter : Iter K V,
    iter.cells.length - iter.index < rounds →
      iter.collect (fun iter => iter.currentEntry.map item) rounds =
        (pairs (iter.cells.drop iter.index)).map (some ∘ item) := by
  induction rounds with
  | zero => exact fun _ h => nomatch h
  | succ rounds ih =>
    intro iter hrounds
    rw [Iter.collect, Iter.next]
    rcases nextLoop_spec _ iter rfl with ⟨hpairs, hnext⟩ | ⟨slot, entry, hslot, hle, hpairs, hnext⟩
    · rw [hpairs]
      generalize iter.nextLoop _ = next at hnext
      obtain ⟨done, next⟩ := next
      cases hnext
      rfl
    · have hlt := (List.getElem?_eq_some_iff.mp hslot).1
      rw [hnext, hpairs]
      simp only [map_cons, List.cons.injEq]
      refine ⟨?_, ih _ (show iter.cells.length - (slot + 1) < rounds by omega)⟩
      simp [Iter.currentEntry, hslot, Cell.contents]

/-- **The iterators yield the keys, the values and the pairs of the table.** -/
theorem iterators_eq (map : HashMap K V) :
    map.keys.collect Iter.currentKey (map.capacity + 1) =
        (pairs map.cells).map (some ∘ Prod.fst) ∧
      map.values.collect Iter.currentValue (map.capacity + 1) =
        (pairs map.cells).map (some ∘ Prod.snd) ∧
      map.entries.collect Iter.currentEntry (map.capacity + 1) = (pairs map.cells).map some := by
  refine ⟨collect_eq Prod.fst _ _ (Nat.lt_succ_self _), collect_eq Prod.snd _ _
    (Nat.lt_succ_self _), ?_⟩
  have hentries : map.entries.collect (fun iter => iter.currentEntry.map id) (map.capacity + 1) =
      (pairs map.cells).map (some ∘ id) := collect_eq id _ _ (Nat.lt_succ_self _)
  simpa only [Option.map_id_fun, id_eq, Function.comp_id] using hentries

end

end HashMap

end Raz.Collections
