/-!
# Linear probing

A table of cells, in which an entry stands at the first free cell on its path: its home, the next
slot, and on around the end of the table. A removed entry leaves a tombstone, so that the paths
through it stay whole.

Results:
1. `Reachable.stop_hit`: it ends at the entry that it looks for, if the table has one.
2. `Reachable.set_full`, `Reachable.set_tombstone`: entries stay reachable.
-/

namespace Probing

/-- A cell of a table. -/
inductive Cell (α : Type) where
  | empty
  | tombstone
  | full (entry : α)
  deriving DecidableEq, Repr

namespace Cell

variable {α : Type}

def contents : Cell α → Option α
  | .full entry => some entry
  | _ => none

def isTombstone : Cell α → Bool
  | .tombstone => true
  | _ => false

def isFull : Cell α → Bool
  | .full _ => true
  | _ => false

/-- The cell is full, with an entry of this kind. -/
def hits (hit : α → Bool) : Cell α → Bool
  | .full entry => hit entry
  | _ => false

theorem hits_eq_true {hit : α → Bool} {cell : Cell α} :
    cell.hits hit = true ↔ ∃ entry, cell = .full entry ∧ hit entry = true := by
  cases cell <;> simp [hits]

theorem contents_eq_some {cell : Cell α} {entry : α} :
    cell.contents = some entry ↔ cell = .full entry := by
  cases cell <;> simp [contents]

end Cell

section
variable {α : Type} {cells : List (Cell α)} {hit : α → Bool} {home : α → Nat}

/-- The slot that a path from `start` comes to. -/
def slotAt (capacity start distance : Nat) : Nat := (start + distance) % capacity

theorem slotAt_lt {capacity start distance : Nat} (h : 0 < capacity) :
    slotAt capacity start distance < capacity := Nat.mod_lt _ h

/-- Every slot is on a path. -/
theorem exists_slotAt {capacity start slot : Nat} (h : slot < capacity) :
    ∃ distance < capacity, slotAt capacity start distance = slot := by
  have hstart := Nat.mod_lt start (Nat.zero_lt_of_lt h)
  unfold slotAt
  rcases Nat.lt_or_ge slot (start % capacity) with hlt | hge
  · refine ⟨slot + capacity - start % capacity, by omega, ?_⟩
    rw [← Nat.mod_add_mod, Nat.add_sub_cancel' (by omega), Nat.add_mod_right, Nat.mod_eq_of_lt h]
  · refine ⟨slot - start % capacity, by omega, ?_⟩
    rw [← Nat.mod_add_mod, Nat.add_sub_cancel' hge, Nat.mod_eq_of_lt h]

/-- The path goes on at this distance: the cell is not empty and does not hit. -/
def Passes (cells : List (Cell α)) (hit : α → Bool) (slot : Nat) : Prop :=
  ∃ cell, cells[slot]? = some cell ∧ cell ≠ .empty ∧ cell.hits hit = false

/-- The path from `start` ends at this distance: at an entry that is looked for or at an empty
cell. -/
structure StopsAt (cells : List (Cell α)) (hit : α → Bool) (start distance : Nat) : Prop where
  lt : distance < cells.length
  stop : ∃ cell, cells[slotAt cells.length start distance]? = some cell ∧
    (cell = .empty ∨ cell.hits hit = true)
  passes : ∀ before < distance, Passes cells hit (slotAt cells.length start before)

theorem StopsAt.ne_empty {start distance before : Nat} (h : StopsAt cells hit start distance)
    (hbefore : before < distance) : cells[slotAt cells.length start before]? ≠ some .empty := by
  obtain ⟨cell, hcell, hne, -⟩ := h.passes before hbefore
  rw [hcell]
  exact fun heq => hne (Option.some.inj heq)

/-- **A path ends if there is an empty cell.** -/
theorem exists_stop (h : .empty ∈ cells) (hit : α → Bool) (start : Nat) :
    ∃ distance, StopsAt cells hit start distance := by
  obtain ⟨slot, hslot⟩ := List.mem_iff_getElem?.mp h
  obtain ⟨hlt, -⟩ := List.getElem?_eq_some_iff.mp hslot
  obtain ⟨last, hlast, hpath⟩ := @exists_slotAt _ start _ hlt
  -- the first distance that does not pass, by induction on the distances before it
  have hfirst : ∀ distance ≤ last, (∀ before < distance,
      Passes cells hit (slotAt cells.length start before)) ∨
        ∃ distance, StopsAt cells hit start distance := by
    intro distance
    induction distance with
    | zero => exact fun _ => .inl nofun
    | succ distance ih =>
      intro hle
      refine (ih (Nat.le_of_succ_le hle)).elim (fun hpasses => ?_) .inr
      have hbound : slotAt cells.length start distance < cells.length :=
        slotAt_lt (Nat.zero_lt_of_lt hlt)
      have hcell := List.getElem?_eq_getElem hbound
      rcases Classical.em (Passes cells hit (slotAt cells.length start distance)) with hpass | hstop
      · refine .inl fun before hbefore => ?_
        rcases Nat.lt_succ_iff_lt_or_eq.mp hbefore with hbefore | rfl
        · exact hpasses before hbefore
        · exact hpass
      · refine .inr ⟨distance, Nat.lt_of_lt_of_le hle (Nat.le_of_lt hlast), ⟨_, hcell, ?_⟩, hpasses⟩
        refine Classical.byContradiction fun hnot => hstop ⟨_, hcell, ?_, ?_⟩
        · exact fun hempty => hnot (.inl hempty)
        · exact Bool.eq_false_iff.mpr fun hhit => hnot (.inr hhit)
  refine (hfirst last (Nat.le_refl _)).elim (fun hpasses => ?_) id
  exact ⟨last, hlast, ⟨.empty, by rw [hpath]; exact hslot, .inl rfl⟩, hpasses⟩

/-- Every entry is found from its home: no cell on the path before it is empty. -/
def Reachable (home : α → Nat) (cells : List (Cell α)) : Prop :=
  ∀ (slot : Nat) (entry : α), cells[slot]? = some (.full entry) →
    ∃ distance < cells.length, slotAt cells.length (home entry) distance = slot ∧
      ∀ before < distance, cells[slotAt cells.length (home entry) before]? ≠ some .empty

/-- **The path ends at an entry that it looks for, if there is one with this home.** -/
theorem Reachable.stop_hit (h : Reachable home cells) {start distance slot : Nat}
    (hstop : StopsAt cells hit start distance) {entry : α}
    (hentry : cells[slot]? = some (.full entry)) (hhit : hit entry = true)
    (hhome : slotAt cells.length (home entry) = slotAt cells.length start) :
    ∃ found, cells[slotAt cells.length start distance]? = some (.full found) ∧
      hit found = true := by
  obtain ⟨cell, hcell, hend⟩ := hstop.stop
  obtain ⟨place, hplace, hslot, hfilled⟩ := h slot entry hentry
  rw [hhome] at hslot hfilled
  rcases Nat.lt_trichotomy place distance with hlt | rfl | hgt
  · -- the path would have ended at the entry
    obtain ⟨other, hother, -, hmiss⟩ := hstop.passes place hlt
    rw [hslot, hentry] at hother
    cases hother
    rw [Cell.hits, hhit] at hmiss
    cases hmiss
  · exact ⟨entry, by rw [hslot]; exact hentry, hhit⟩
  · rcases hend with rfl | hend
    · exact absurd hcell (hfilled distance hgt)
    · obtain ⟨found, rfl, hfound⟩ := Cell.hits_eq_true.mp hend
      exact ⟨found, hcell, hfound⟩

/-- A cell that is filled empties no path. -/
theorem ne_empty_set {slot other : Nat} {cell : Cell α} (hcell : cell ≠ .empty)
    (h : cells[other]? ≠ some .empty) : (cells.set slot cell)[other]? ≠ some .empty := by
  rw [List.getElem?_set]
  split
  · split
    · exact fun heq => hcell (Option.some.inj heq)
    · exact nofun
  · exact h

/-- An entry after a cell was set is the one in it or an old one. -/
theorem full_of_set {slot other : Nat} {cell : Cell α} {entry : α}
    (h : (cells.set slot cell)[other]? = some (.full entry)) :
    other = slot ∧ cell = .full entry ∨ other ≠ slot ∧ cells[other]? = some (.full entry) := by
  rw [List.getElem?_set] at h
  split at h
  · rename_i heq
    split at h
    · exact .inl ⟨heq.symm, Option.some.inj h⟩
    · cases h
  · rename_i hne
    exact .inr ⟨Ne.symm hne, h⟩

/-- A tombstone in the place of an entry. -/
theorem Reachable.set_tombstone (h : Reachable home cells) (slot : Nat) :
    Reachable home (cells.set slot .tombstone) := by
  intro other entry hentry
  rw [List.length_set]
  obtain ⟨-, heq⟩ | ⟨-, hold⟩ := full_of_set hentry
  · cases heq
  obtain ⟨distance, hlt, hslot, hfilled⟩ := h other entry hold
  exact ⟨distance, hlt, hslot, fun before hbefore => ne_empty_set nofun (hfilled before hbefore)⟩

/-- An entry at the end of a path without an empty cell. -/
theorem Reachable.set_full (h : Reachable home cells) {entry : α} {distance : Nat}
    (hlt : distance < cells.length)
    (hfilled : ∀ before < distance, cells[slotAt cells.length (home entry) before]? ≠ some .empty) :
    Reachable home (cells.set (slotAt cells.length (home entry) distance) (.full entry)) := by
  intro other entry' hentry
  rw [List.length_set]
  rcases full_of_set hentry with ⟨rfl, heq⟩ | ⟨-, hold⟩
  · cases heq
    exact ⟨distance, hlt, rfl, fun before hbefore => ne_empty_set nofun (hfilled before hbefore)⟩
  · obtain ⟨place, hplace, hslot, hbefore⟩ := h other entry' hold
    exact ⟨place, hplace, hslot, fun before hlt => ne_empty_set nofun (hbefore before hlt)⟩

theorem reachable_replicate (home : α → Nat) (capacity : Nat) :
    Reachable home (List.replicate capacity (.empty : Cell α)) := by
  intro slot entry hentry
  rw [List.getElem?_replicate] at hentry
  split at hentry <;> cases hentry

end

end Probing
