import Mathlib.Algebra.Order.Ring.Int
import Raz.Collections.HashMap

/-!
# The table of a hash map

The search of `find_slot_hashed` walks the path of a key through the table. Every entry stands on
the path from its home, in front of the first empty cell.

Result: `Probed.set_free`, `Probed.set_value`, `Probed.set_tombstone`: what a change keeps.
-/

namespace Raz.Collections

open Probing (Cell)

/-! ## The search -/

namespace HashMap

section
open Probing (slotAt StopsAt Passes)

variable {K V : Type} {cells : List (Cell (Entry K V))}

theorem slot_zero {bits : Nat} (hsize : cells.length = 2 ^ bits) (hash : Nat) :
    hash &&& (cells.length - 1) = slotAt cells.length hash 0 := by
  rw [hsize, Nat.and_two_pow_sub_one_eq_mod]
  rfl

theorem slot_next {bits : Nat} (hsize : cells.length = 2 ^ bits) (start scanned : Nat) :
    (slotAt cells.length start scanned + 1) &&& (cells.length - 1) =
      slotAt cells.length start (scanned + 1) := by
  rw [hsize, Nat.and_two_pow_sub_one_eq_mod]
  exact Nat.mod_add_mod _ _ _

/-- The slots that an entry may be put into: no empty cell stands before them. -/
def Free (cells : List (Cell (Entry K V))) (start slot : Nat) : Prop :=
  ∃ distance < cells.length, slot = slotAt cells.length start distance ∧
    (cells[slot]? = some .tombstone ∨ cells[slot]? = some .empty) ∧
    ∀ before < distance, cells[slotAt cells.length start before]? ≠ some .empty

theorem Free.cell {start slot : Nat} (h : Free cells start slot) :
    ∃ cell, cells[slot]? = some cell ∧ (cell = .tombstone ∨ cell = .empty) := by
  obtain ⟨-, -, -, hcell | hcell, -⟩ := h
  · exact ⟨_, hcell, .inl rfl⟩
  · exact ⟨_, hcell, .inr rfl⟩

theorem Free.lt {start slot : Nat} (h : Free cells start slot) : slot < cells.length := by
  obtain ⟨cell, hcell, -⟩ := h.cell
  exact (List.getElem?_eq_some_iff.mp hcell).1

theorem Free.ne_full {start slot : Nat} (h : Free cells start slot) (entry : Entry K V) :
    cells[slot]? ≠ some (.full entry) := by
  obtain ⟨cell, hcell, hfree⟩ := h.cell
  rw [hcell]
  rcases hfree with rfl | rfl <;> exact nofun

variable [BEq K]

/-- The entry that the search for a key stops at. -/
def wanted (key : K) (control : Nat) (entry : Entry K V) : Bool :=
  decide (entry.control = control) && entry.key == key

theorem wanted_eq_true {key : K} {control : Nat} {entry : Entry K V} :
    wanted key control entry = true ↔ entry.control = control ∧ (entry.key == key) = true := by
  simp [wanted]

variable {key : K} {control start distance : Nat}

theorem findLoop_pass {bits : Nat} (hsize : cells.length = 2 ^ bits) {scanned : Nat}
    (hpass : Passes cells (wanted key control) (slotAt cells.length start scanned))
    (insertion : Bool) (scans : Nat) (firstTombstone : Option Nat) :
    ∃ firstTombstone', findLoop cells key insertion control (scans + 1)
        (slotAt cells.length start scanned) firstTombstone =
          findLoop cells key insertion control scans (slotAt cells.length start (scanned + 1))
            firstTombstone' ∧
      (firstTombstone' = firstTombstone ∨ insertion = true ∧
        cells[slotAt cells.length start scanned]? = some .tombstone ∧
        firstTombstone' = some (slotAt cells.length start scanned)) := by
  obtain ⟨cell, hcell, hne, hmiss⟩ := hpass
  rw [findLoop, slot_next hsize, hcell]
  cases cell with
  | empty => exact absurd rfl hne
  | tombstone =>
    refine ⟨_, rfl, ?_⟩
    cases insertion with
    | false => exact .inl rfl
    | true =>
      cases firstTombstone with
      | none => exact .inr ⟨rfl, rfl, rfl⟩
      | some first => exact .inl rfl
  | full entry =>
    refine ⟨firstTombstone, ?_, .inl rfl⟩
    exact if_neg fun hboth => Bool.false_ne_true (hmiss.symm.trans (wanted_eq_true.mpr hboth))

/-- What the search returns at the end of the path. -/
inductive Answer (cells : List (Cell (Entry K V))) (hit : Entry K V → Bool)
    (start distance : Nat) : Bool → Option Nat → Prop
  | found {insertion : Bool} {entry : Entry K V}
      (cell : cells[slotAt cells.length start distance]? = some (.full entry))
      (wanted : hit entry = true) :
      Answer cells hit start distance insertion (some (slotAt cells.length start distance))
  | absent (cell : cells[slotAt cells.length start distance]? = some .empty) :
      Answer cells hit start distance false none
  | free {slot : Nat} (cell : cells[slotAt cells.length start distance]? = some .empty)
      (free : Free cells start slot) : Answer cells hit start distance true (some slot)

theorem findLoop_spec {bits : Nat} (hsize : cells.length = 2 ^ bits)
    (hstop : StopsAt cells (wanted key control) start distance) (insertion : Bool) (left : Nat) :
    ∀ {scanned : Nat} {firstTombstone : Option Nat}, scanned + left = distance →
      (∀ slot ∈ firstTombstone, insertion = true ∧ Free cells start slot) →
      Answer cells (wanted key control) start distance insertion
        (findLoop cells key insertion control (cells.length - scanned)
          (slotAt cells.length start scanned) firstTombstone) := by
  have hlt := hstop.lt
  induction left with
  | zero =>
    intro scanned firstTombstone hscanned hfirst
    rw [Nat.add_zero] at hscanned
    subst hscanned
    obtain ⟨cell, hcell, hend⟩ := hstop.stop
    obtain ⟨scans, hscans⟩ : ∃ scans, cells.length - scanned = scans + 1 :=
      ⟨cells.length - scanned - 1, by omega⟩
    rw [hscans, findLoop, hcell]
    rcases hend with rfl | hend
    · cases insertion with
      | false => exact .absent hcell
      | true =>
        cases firstTombstone with
        | none =>
          exact .free hcell ⟨_, hlt, rfl, .inr hcell, fun before hbefore => hstop.ne_empty hbefore⟩
        | some first => exact .free hcell (hfirst first rfl).2
    · obtain ⟨entry, rfl, hentry⟩ := Probing.Cell.hits_eq_true.mp hend
      simp only
      rw [if_pos (wanted_eq_true.mp hentry)]
      exact .found hcell hentry
  | succ left ih =>
    intro scanned firstTombstone hscanned hfirst
    have hbefore : scanned < distance := by omega
    obtain ⟨scans, hscans⟩ : ∃ scans, cells.length - scanned = scans + 1 :=
      ⟨cells.length - scanned - 1, by omega⟩
    obtain ⟨firstTombstone', hnext, hfirst'⟩ :=
      findLoop_pass hsize (hstop.passes scanned hbefore) insertion scans firstTombstone
    have hrest : scans = cells.length - (scanned + 1) := by omega
    rw [hscans, hnext, hrest]
    refine ih (by omega) fun slot hslot => ?_
    rcases hfirst' with rfl | ⟨hinsertion, htomb, rfl⟩
    · exact hfirst slot hslot
    · cases hslot
      exact ⟨hinsertion, scanned, Nat.lt_trans hbefore hlt, rfl, .inl htomb,
        fun before hlt => hstop.ne_empty (Nat.lt_trans hlt hbefore)⟩

variable [Hashable K]

/-- The table of a map: every entry is found from its home, and no two have one key. -/
structure Probed (cells : List (Cell (Entry K V))) : Prop where
  control : ∀ (slot : Nat) (entry : Entry K V), cells[slot]? = some (.full entry) →
    entry.control = hashControl (hash entry.key)
  reach : Probing.Reachable (fun entry => (hash entry.key).toNat) cells
  distinct : ∀ (slot other : Nat) (entry entry' : Entry K V), cells[slot]? = some (.full entry) →
    cells[other]? = some (.full entry') → (entry.key == entry'.key) = true → slot = other

/-- No entry has the key. -/
def Absent (cells : List (Cell (Entry K V))) (key : K) : Prop :=
  ∀ entry : Entry K V, .full entry ∈ cells → (entry.key == key) = false

variable [LawfulHashable K]

/-- **The search finds the entry of the key.** Without one it returns no slot, or for an insertion
a free one. -/
theorem findSlotHashed_spec (h : Probed cells) {bits : Nat} (hsize : cells.length = 2 ^ bits)
    (hempty : .empty ∈ cells) (key : K) (insertion : Bool) :
    (∃ slot entry, cells[slot]? = some (.full entry) ∧ (entry.key == key) = true ∧
      findSlotHashed cells key insertion (hash key) = some slot) ∨
    (Absent cells key ∧
      (insertion = false → findSlotHashed cells key insertion (hash key) = none) ∧
      (insertion = true → ∃ slot, findSlotHashed cells key insertion (hash key) = some slot ∧
        Free cells (hash key).toNat slot)) := by
  obtain ⟨distance, hstop⟩ :=
    Probing.exists_stop hempty (wanted key (hashControl (hash key))) (hash key).toNat
  have hanswer := @findLoop_spec _ _ _ _ _ _ _ _ _ hsize hstop insertion distance 0 none
    (Nat.zero_add _) (fun slot hslot => nomatch hslot)
  have hfind : findSlotHashed cells key insertion (hash key) =
      findLoop cells key insertion (hashControl (hash key)) (cells.length - 0)
        (slotAt cells.length (hash key).toNat 0) none := by
    unfold findSlotHashed
    rw [if_neg (Nat.ne_of_gt (Nat.zero_lt_of_lt hstop.lt)), slot_zero hsize, Nat.sub_zero]
  rw [← hfind] at hanswer
  -- at an empty cell no entry has the key
  have habsent (hcell : cells[slotAt cells.length (hash key).toNat distance]? = some .empty) :
      Absent cells key := by
    intro entry hmem
    refine Bool.eq_false_iff.mpr fun hkey => ?_
    obtain ⟨slot, hslot⟩ := List.mem_iff_getElem?.mp hmem
    have hhash : hash entry.key = hash key := hash_eq hkey
    obtain ⟨found, hfound, -⟩ := h.reach.stop_hit hstop hslot
      (wanted_eq_true.mpr ⟨by rw [h.control slot entry hslot, hhash], hkey⟩) (by rw [hhash])
    rw [hfound] at hcell
    cases hcell
  generalize findSlotHashed cells key insertion (hash key) = result at hanswer
  cases hanswer with
  | found hcell hwanted => exact .inl ⟨_, _, hcell, (wanted_eq_true.mp hwanted).2, rfl⟩
  | absent hcell => exact .inr ⟨habsent hcell, fun _ => rfl, nofun⟩
  | free hcell hfree => exact .inr ⟨habsent hcell, nofun, fun _ => ⟨_, rfl, hfree⟩⟩

/-! ## The table -/

omit [LawfulHashable K]
variable [EquivBEq K]

theorem Probed.set_free (h : Probed cells) {key : K} (habsent : Absent cells key) {slot : Nat}
    (hfree : Free cells (hash key).toNat slot) (value : V) :
    Probed (cells.set slot (.full ⟨hashControl (hash key), key, value⟩)) := by
  obtain ⟨distance, hlt, rfl, -, hfilled⟩ := hfree
  refine ⟨fun other entry hentry => ?_,
    @Probing.Reachable.set_full _ cells _ h.reach ⟨hashControl (hash key), key, value⟩ distance hlt
      hfilled,
    fun other other' entry entry' hentry hentry' hkey => ?_⟩
  · rcases Probing.full_of_set hentry with ⟨-, heq⟩ | ⟨-, hold⟩
    · cases heq
      rfl
    · exact h.control other entry hold
  · rcases Probing.full_of_set hentry with ⟨rfl, heq⟩ | ⟨-, hold⟩ <;>
      rcases Probing.full_of_set hentry' with ⟨rfl, heq'⟩ | ⟨-, hold'⟩
    · rfl
    · cases heq
      have hmiss := habsent entry' (List.mem_of_getElem? hold')
      rw [BEq.symm hkey] at hmiss
      cases hmiss
    · cases heq'
      have hmiss := habsent entry (List.mem_of_getElem? hold)
      rw [hkey] at hmiss
      cases hmiss
    · exact h.distinct other other' entry entry' hold hold' hkey

omit [EquivBEq K]

theorem Probed.set_value (h : Probed cells) {slot : Nat} {entry : Entry K V}
    (hentry : cells[slot]? = some (.full entry)) (value : V) :
    Probed (cells.set slot (.full { entry with value := value })) := by
  obtain ⟨distance, hlt, hslot, hfilled⟩ := h.reach slot entry hentry
  have hreach := @Probing.Reachable.set_full _ cells _ h.reach { entry with value := value }
    distance hlt hfilled
  rw [hslot] at hreach
  have hold {other : Nat} {entry' : Entry K V} (hentry' : (cells.set slot (.full
      { entry with value := value }))[other]? = some (.full entry')) :
      ∃ old : Entry K V, cells[other]? = some (.full old) ∧ old.key = entry'.key ∧
        old.control = entry'.control := by
    rcases Probing.full_of_set hentry' with ⟨rfl, heq⟩ | ⟨-, hold⟩
    · cases heq
      exact ⟨entry, hentry, rfl, rfl⟩
    · exact ⟨entry', hold, rfl, rfl⟩
  refine ⟨fun other entry' hentry' => ?_, hreach,
    fun other other' first second hfirst hsecond hkey => ?_⟩
  · obtain ⟨old, hcell, hkey, hcontrol⟩ := hold hentry'
    rw [← hcontrol, ← hkey]
    exact h.control other old hcell
  obtain ⟨old, hcell, hkey₁, -⟩ := hold hfirst
  obtain ⟨old', hcell', hkey₂, -⟩ := hold hsecond
  rw [← hkey₁, ← hkey₂] at hkey
  exact h.distinct other other' old old' hcell hcell' hkey

theorem Probed.set_tombstone (h : Probed cells) (slot : Nat) :
    Probed (cells.set slot .tombstone) := by
  have hold {other : Nat} {entry : Entry K V}
      (hentry : (cells.set slot .tombstone)[other]? = some (.full entry)) :
      cells[other]? = some (.full entry) := by
    rcases Probing.full_of_set hentry with ⟨-, heq⟩ | ⟨-, hold⟩
    · cases heq
    · exact hold
  exact ⟨fun other entry hentry => h.control other entry (hold hentry),
    h.reach.set_tombstone slot, fun other other' first second hfirst hsecond hkey =>
      h.distinct other other' first second (hold hfirst) (hold hsecond) hkey⟩

theorem probed_replicate (capacity : Nat) :
    Probed (List.replicate capacity (.empty : Cell (Entry K V))) := by
  have hnone {slot : Nat} {entry : Entry K V}
      (hentry : (List.replicate capacity (.empty : Cell (Entry K V)))[slot]? =
        some (.full entry)) : False := by
    rw [List.getElem?_replicate] at hentry
    split at hentry <;> cases hentry
  exact ⟨fun _ _ hentry => (hnone hentry).elim, Probing.reachable_replicate _ _,
    fun _ _ _ _ hentry => (hnone hentry).elim⟩

end

end HashMap

end Raz.Collections
