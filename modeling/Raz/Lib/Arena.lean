/-!
# Checked arenas

An arena is a zero-filled table with checked access by a signed index: a read outside the
table yields the default cell, a write outside it is ignored.

Results:
1. `get_scatter`: a table filled by a loop.
2. `Flags.get_zip`, `Flags.get_mapWith`: tables of flags, cell by cell.
-/

namespace Arena

open List

variable {index other start stop : Int} {k : Nat} {β ι : Type}

variable {α : Type} [Inhabited α]

/-- The cell at `index`, the default one outside the table. -/
def get (cells : List α) (index : Int) : α :=
  if 0 ≤ index then cells.getD index.toNat default else default

/-- Write the cell at `index`, ignored outside the table. -/
def set (cells : List α) (index : Int) (value : α) : List α :=
  if 0 ≤ index then cells.set index.toNat value else cells

/-- Change the cell at `index`, ignored outside the table. -/
def modify (cells : List α) (index : Int) (change : α → α) : List α :=
  set cells index (change (get cells index))

omit [Inhabited α] in
@[simp] theorem length_set (cells : List α) (index : Int) (value : α) :
    (set cells index value).length = cells.length := by
  unfold set
  split <;> simp

@[simp] theorem length_modify (cells : List α) (index : Int) (change : α → α) :
    (modify cells index change).length = cells.length := by
  simp [modify]

theorem get_of_neg {cells : List α} (h : index < 0) : get cells index = default := by
  unfold get
  rw [if_neg (by omega)]

theorem get_of_ge {cells : List α} (h : (cells.length : Int) ≤ index) :
    get cells index = default := by
  unfold get
  rw [if_pos (by omega), getD_eq_getElem?_getD, List.getElem?_eq_none (by omega)]
  rfl

@[simp] theorem get_natCast (cells : List α) (index : Nat) :
    get cells index = cells.getD index default := by
  simp [get]

theorem get_eq_getElem {cells : List α} (h0 : 0 ≤ index) (h : index.toNat < cells.length) :
    get cells index = cells[index.toNat] := by
  simp [get, h0, getD_eq_getElem?_getD, List.getElem?_eq_getElem h]

theorem get_mem_or_default (cells : List α) (index : Int) :
    get cells index ∈ cells ∨ get cells index = default := by
  by_cases h : 0 ≤ index ∧ index.toNat < cells.length
  · exact .inl (get_eq_getElem h.1 h.2 ▸ getElem_mem h.2)
  by_cases h0 : index < 0
  · exact .inr (get_of_neg h0)
  · exact .inr (get_of_ge (by omega))

theorem get_eq_some {cells : List α} {value : α} (h0 : 0 ≤ index)
    (h : cells[index.toNat]? = some value) : get cells index = value := by
  simp [get, h0, getD_eq_getElem?_getD, h]

theorem get_set_self {cells : List α} {value : α} (h0 : 0 ≤ index) (h : index < cells.length) :
    get (set cells index value) index = value := by
  have hlt : index.toNat < cells.length := by omega
  simp [get, set, h0, getD_eq_getElem?_getD, hlt]

theorem get_set_ne {cells : List α} {value : α} (h : index ≠ other) :
    get (set cells index value) other = get cells other := by
  unfold get set
  split
  · split
    · have hne : index.toNat ≠ other.toNat := by omega
      simp [getD_eq_getElem?_getD, hne]
    · rfl
  · rfl

theorem get_set {cells : List α} {value : α} (h0 : 0 ≤ index) (h : index < cells.length) :
    get (set cells index value) other = if other = index then value else get cells other := by
  by_cases heq : other = index
  · subst heq
    rw [if_pos rfl, get_set_self h0 h]
  · rw [if_neg heq, get_set_ne (fun h => heq h.symm)]

/-- A table of default cells reads the same everywhere. -/
@[simp] theorem get_replicate_default (count : Nat) (index : Int) :
    get (List.replicate count (default : α)) index = default := by
  unfold get
  split
  · rw [getD_eq_getElem?_getD, List.getElem?_replicate]
    split <;> rfl
  · rfl

/-- Appending does not move the cells. -/
theorem get_of_isPrefix {cells longer : List α} (h : cells <+: longer) (h0 : 0 ≤ index)
    (h1 : index < cells.length) : get longer index = get cells index := by
  obtain ⟨rest, rfl⟩ := h
  rw [get_eq_getElem h0 (by simp; omega), get_eq_getElem h0 (by omega),
    getElem_append_left (by omega)]

/-- The integers of a half-open range, in order: the counter of a `while` loop. -/
def range (start stop : Int) : List Int :=
  (List.range (stop - start).toNat).map (fun (offset : Nat) => start + (offset : Int))

@[simp] theorem mem_range : index ∈ range start stop ↔ start ≤ index ∧ index < stop := by
  simp only [range, mem_map, List.mem_range]
  constructor
  · rintro ⟨offset, hlt, rfl⟩
    omega
  · rintro ⟨hge, hlt⟩
    exact ⟨(index - start).toNat, by omega, by omega⟩

@[simp] theorem length_range (start stop : Int) :
    (range start stop).length = (stop - start).toNat := by
  simp [range]

@[simp] theorem getElem_range (h : k < (range start stop).length) :
    (range start stop)[k] = start + (k : Int) := by
  simp [range]

theorem range_eq_nil (h : stop ≤ start) : range start stop = [] := by
  simp [range, show (stop - start).toNat = 0 by omega]

theorem range_cons (h : start < stop) : range start stop = start :: range (start + 1) stop := by
  unfold range
  rw [show (stop - start).toNat = (stop - (start + 1)).toNat + 1 by omega, range_succ_eq_map]
  simp only [map_cons, map_map]
  congr 1
  · simp
  apply map_congr_left
  intro offset _
  simp only [Function.comp_apply, Nat.succ_eq_add_one]
  omega

theorem range_append {middle : Int} (h1 : start ≤ middle) (h2 : middle ≤ stop) :
    range start stop = range start middle ++ range middle stop := by
  unfold range
  rw [show (stop - start).toNat = (middle - start).toNat + (stop - middle).toNat by omega,
    range_add, map_append, map_map]
  congr 1
  apply map_congr_left
  intro offset _
  simp only [Function.comp_apply]
  omega

theorem range_snoc (h : start ≤ stop) : range start (stop + 1) = range start stop ++ [stop] := by
  rw [range_append h (show stop ≤ stop + 1 by omega), range_cons (show stop < stop + 1 by omega),
    range_eq_nil (show stop + 1 ≤ stop + 1 by omega)]

theorem range_singleton (start : Int) : range start (start + 1) = [start] := by
  rw [range_snoc (Int.le_refl start), range_eq_nil (Int.le_refl start), nil_append]

omit [Inhabited α] in
/-- A loop that emits two items a round. -/
theorem length_flatMap_pair (first second : α → β) (items : List α) :
    (items.flatMap (fun k => [first k, second k])).length = 2 * items.length := by
  induction items with
  | nil => rfl
  | cons item rest ih =>
    rw [flatMap_cons, length_append, ih, length_cons]
    exact Nat.add_comm 2 _

/-- The items of round `index`. -/
theorem flatMap_pair_getElem? {count : Int} (first second : Int → β) (h0 : 0 ≤ index)
    (h1 : index < count) :
    ((range 0 count).flatMap (fun k => [first k, second k]))[2 * index.toNat]? =
        some (first index) ∧
      ((range 0 count).flatMap (fun k => [first k, second k]))[2 * index.toNat + 1]? =
        some (second index) := by
  have hfront := length_flatMap_pair first second (range 0 index)
  rw [length_range] at hfront
  rw [range_append h0 (Int.le_of_lt h1), flatMap_append, range_cons h1, flatMap_cons]
  constructor
  · rw [List.getElem?_append_right (by omega), hfront,
      show 2 * index.toNat - 2 * (index - 0).toNat = 0 by omega]
    rfl
  · rw [List.getElem?_append_right (by omega), hfront,
      show 2 * index.toNat + 1 - 2 * (index - 0).toNat = 1 by omega]
    rfl

/-- `raz_compiler_rt_arena_create` of `count` cells of eight bytes: it refuses a table without
cells, and one whose size is no `i64`. -/
def creates (count : Int) : Bool := 0 < count ∧ count ≤ (9223372036854775807 - 24) / 8

theorem creates_iff {count : Int} :
    creates count = true ↔ 0 < count ∧ count < 1152921504606846973 := by
  unfold creates
  rw [decide_eq_true_eq]
  omega

/-! ## Tables filled by a loop -/

/-- A table computed item by item has the length of the items and their values. -/
theorem mapM_getElem? {f : ι → Option β} (items : List ι) :
    ∀ {table : List β}, items.mapM f = some table →
      table.length = items.length ∧
        ∀ {k : Nat} {item : ι}, items[k]? = some item → f item = table[k]? := by
  induction items with
  | nil =>
    intro table h
    cases h
    exact ⟨rfl, fun h => by simp at h⟩
  | cons first rest ih =>
    intro table h
    rw [mapM_cons] at h
    obtain ⟨value, hval, h⟩ := Option.bind_eq_some_iff.mp h
    obtain ⟨values, hvals, h⟩ := Option.bind_eq_some_iff.mp h
    cases h
    obtain ⟨hlen, hget⟩ := ih hvals
    refine ⟨by simp [hlen], ?_⟩
    intro k item hk
    cases k with
    | zero =>
      cases hk
      simpa using hval
    | succ k => simpa using hget (by simpa using hk)

/-- A table computed for the indices `0 ≤ index < count`. -/
theorem get_of_mapM_range [Inhabited β] {f : Int → Option β} {count : Int} {table : List β}
    (h : (range 0 count).mapM f = some table) (h0 : 0 ≤ index) (h1 : index < count) :
    f index = some (get table index) := by
  obtain ⟨hlen, hget⟩ := mapM_getElem? _ h
  rw [length_range] at hlen
  have hitem : (range 0 count)[index.toNat]? = some index := by
    rw [List.getElem?_eq_getElem (by rw [length_range]; omega), getElem_range]
    congr 1
    omega
  have hlt : index.toNat < table.length := by omega
  rw [hget hitem, List.getElem?_eq_getElem hlt, get_eq_getElem h0 hlt]

/-- Every item writes its value at its key, in order: a later item wins. -/
def scatter {ι : Type} (items : List ι) (key : ι → Int) (value : ι → α) (table : List α) :
    List α :=
  items.foldl (fun table item => set table (key item) (value item)) table

omit [Inhabited α] in
@[simp] theorem length_scatter (items : List ι) (key : ι → Int) (value : ι → α) :
    ∀ table : List α, (scatter items key value table).length = table.length := by
  induction items with
  | nil => exact fun _ => rfl
  | cons item rest ih => exact fun table => (ih _).trans (length_set _ _ _)

/-- A cell holds the value of one of the items with its key, or what it held before. -/
theorem get_scatter (items : List ι) (key : ι → Int) (value : ι → α) (h0 : 0 ≤ index) :
    ∀ (table : List α), index < table.length →
      (∃ item ∈ items, key item = index ∧
        get (scatter items key value table) index = value item) ∨
      ((∀ item ∈ items, key item ≠ index) ∧
        get (scatter items key value table) index = get table index) := by
  induction items with
  | nil => intro table _; exact .inr ⟨by simp, rfl⟩
  | cons item rest ih =>
    intro table hlt
    rcases ih (set table (key item) (value item)) (by rw [length_set]; exact hlt) with
      ⟨other, hmem, hkey, hget⟩ | ⟨hnone, hget⟩
    · exact .inl ⟨other, mem_cons_of_mem _ hmem, hkey, hget⟩
    by_cases hkey : key item = index
    · refine .inl ⟨item, mem_cons_self, hkey, hget.trans ?_⟩
      rw [hkey, get_set_self h0 hlt]
    refine .inr ⟨?_, hget.trans (get_set_ne hkey)⟩
    intro other hmem
    rcases mem_cons.mp hmem with rfl | hmem
    · exact hkey
    · exact hnone other hmem

/-! ## Tables of flags -/

/-- A table of `width` flags, the state of a dataflow analysis. -/
structure Flags (width : Nat) where
  cells : List Bool
  length_eq : cells.length = width
  deriving DecidableEq, Repr

variable {width : Nat}

def Flags.get (flags : Flags width) (index : Int) : Bool := Arena.get flags.cells index

def Flags.set (flags : Flags width) (index : Int) (value : Bool) : Flags width :=
  ⟨Arena.set flags.cells index value, by rw [length_set, flags.length_eq]⟩

def Flags.clear (width : Nat) : Flags width :=
  ⟨List.replicate width false, List.length_replicate⟩

/-- The same operation on every pair of cells. -/
def Flags.zip (f : Bool → Bool → Bool) (left right : Flags width) : Flags width :=
  ⟨List.zipWith f left.cells right.cells, by
    rw [List.length_zipWith, left.length_eq, right.length_eq, Nat.min_self]⟩

/-- Change the flags item by item. -/
def Flags.mapWith {ι : Type} (f : ι → Bool → Bool) (items : List ι)
    (flags : Flags items.length) : Flags items.length :=
  ⟨List.zipWith f items flags.cells, by
    rw [List.length_zipWith, flags.length_eq, Nat.min_self]⟩

/-- Some item whose flag is set passes the test. -/
def Flags.anyWith {ι : Type} (test : ι → Bool) (items : List ι) (flags : Flags items.length) :
    Bool :=
  (List.zip items flags.cells).any (fun entry => entry.2 && test entry.1)

theorem Flags.get_set_self (flags : Flags width) {index : Int} (value : Bool) (h0 : 0 ≤ index)
    (h : index < width) : (flags.set index value).get index = value :=
  Arena.get_set_self h0 (by rw [flags.length_eq]; exact h)

theorem Flags.get_set_ne (flags : Flags width) (value : Bool) (h : index ≠ other) :
    (flags.set index value).get other = flags.get other :=
  Arena.get_set_ne h

theorem Flags.get_set (flags : Flags width) (value : Bool) (h0 : 0 ≤ index) (h : index < width) :
    (flags.set index value).get other = if other = index then value else flags.get other :=
  Arena.get_set h0 (by rw [flags.length_eq]; exact h)

@[simp] theorem Flags.get_clear (width : Nat) (index : Int) :
    (Flags.clear width).get index = false := by
  unfold Flags.get Flags.clear Arena.get
  split
  · simp only [getD_eq_getElem?_getD, List.getElem?_replicate]
    split <;> rfl
  · rfl

theorem Flags.get_zip (f : Bool → Bool → Bool) (hf : f false false = false)
    (left right : Flags width) (index : Int) :
    (Flags.zip f left right).get index = f (left.get index) (right.get index) := by
  have hlen : left.cells.length = right.cells.length := left.length_eq.trans right.length_eq.symm
  unfold Flags.get Flags.zip Arena.get
  split
  · simp only [getD_eq_getElem?_getD, List.getElem?_zipWith]
    by_cases hlt : index.toNat < left.cells.length
    · rw [List.getElem?_eq_getElem hlt, List.getElem?_eq_getElem (hlen ▸ hlt)]
      rfl
    · rw [List.getElem?_eq_none (by omega), List.getElem?_eq_none (by omega)]
      exact hf.symm
  · exact hf.symm

theorem Flags.get_of_lt (flags : Flags width) (h : k < width) :
    flags.get k = flags.cells.get ⟨k, by rw [flags.length_eq]; exact h⟩ := by
  have hlt : k < flags.cells.length := by rw [flags.length_eq]; exact h
  rw [Flags.get, Arena.get_natCast, getD_eq_getElem?_getD, List.getElem?_eq_getElem hlt]
  rfl

theorem Flags.get_mapWith (f : ι → Bool → Bool) (items : List ι) (flags : Flags items.length)
    (h : k < items.length) :
    (Flags.mapWith f items flags).get k = f items[k] (flags.get k) := by
  rw [Flags.get_of_lt _ h, Flags.get_of_lt _ h]
  simp [Flags.mapWith]

theorem Flags.anyWith_eq_true {test : ι → Bool} {items : List ι} {flags : Flags items.length}
    (h : k < items.length) (hflag : flags.get k = true) (htest : test items[k] = true) :
    Flags.anyWith test items flags = true := by
  have hlt : k < flags.cells.length := by rw [flags.length_eq]; exact h
  have hmem : (items[k], flags.cells[k]) ∈ List.zip items flags.cells := by
    rw [mem_iff_getElem]
    exact ⟨k, by rw [length_zip]; omega, getElem_zip⟩
  rw [Flags.get_of_lt _ h] at hflag
  exact any_eq_true.mpr ⟨_, hmem, by rw [Bool.and_eq_true]; exact ⟨hflag, htest⟩⟩

/-- The number of cells with a value. -/
def Flags.count (flags : Flags width) (value : Bool) : Nat := flags.cells.count value

theorem Flags.count_le (flags : Flags width) (value : Bool) : flags.count value ≤ width :=
  Nat.le_trans count_le_length (Nat.le_of_eq flags.length_eq)

/-- Cells that have a value in one table have it in the other: the counts are ordered, and equal
only if the tables are. -/
theorem count_le_of_imp {value : Bool} (left : List Bool) :
    ∀ {right : List Bool}, left.length = right.length →
      (∀ k : Nat, left[k]? = some value → right[k]? = some value) →
      left.count value ≤ right.count value ∧
        (left.count value = right.count value → left = right) := by
  induction left with
  | nil =>
    intro right hlen _
    rw [length_eq_zero_iff.mp hlen.symm]
    exact ⟨Nat.le_refl _, fun _ => rfl⟩
  | cons first left ih =>
    intro right hlen himp
    cases right with
    | nil => cases hlen
    | cons second right =>
      obtain ⟨hle, heq⟩ := ih (Nat.succ.inj hlen) (fun k => himp (k + 1))
      have hhead : first = value → second = value :=
        fun h => Option.some.inj (himp 0 (congrArg some h))
      rw [count_cons, count_cons]
      simp only [beq_iff_eq]
      by_cases hfirst : first = value
      · rw [if_pos hfirst, if_pos (hhead hfirst), hfirst, hhead hfirst]
        exact ⟨Nat.succ_le_succ hle, fun h => congrArg _ (heq (Nat.succ.inj h))⟩
      rw [if_neg hfirst]
      by_cases hsecond : second = value
      · rw [if_pos hsecond]
        exact ⟨Nat.le_succ_of_le hle, fun h => absurd h (by omega)⟩
      rw [if_neg hsecond]
      have hsame : first = second :=
        (Bool.eq_not.mpr hfirst).trans (Bool.eq_not.mpr hsecond).symm
      exact ⟨hle, fun h => hsame ▸ congrArg _ (heq h)⟩

theorem Flags.get_eq_iff (flags : Flags width) {value : Bool} (h : k < width) :
    flags.get k = value ↔ flags.cells[k]? = some value := by
  have hlt : k < flags.cells.length := by rw [flags.length_eq]; exact h
  rw [Flags.get, Arena.get_natCast, getD_eq_getElem?_getD, List.getElem?_eq_getElem hlt]
  exact ⟨congrArg some, Option.some.inj⟩

theorem Flags.count_le_of_imp {value : Bool} {left right : Flags width}
    (h : ∀ index, left.get index = value → right.get index = value) :
    left.count value ≤ right.count value ∧
      (left.count value = right.count value → left = right) := by
  obtain ⟨hle, heq⟩ := @Arena.count_le_of_imp value left.cells right.cells
    (left.length_eq.trans right.length_eq.symm) (fun k hk => by
      have hlt : k < width := left.length_eq ▸ (List.getElem?_eq_some_iff.mp hk).1
      exact (right.get_eq_iff hlt).mp (h k ((left.get_eq_iff hlt).mpr hk)))
  refine ⟨hle, fun hcount => ?_⟩
  obtain ⟨leftCells, hleft⟩ := left
  obtain ⟨rightCells, hright⟩ := right
  obtain rfl : leftCells = rightCells := heq hcount
  rfl

/-- Tables with the same flags are the same. -/
theorem Flags.ext_get {left right : Flags width}
    (h : ∀ index, left.get index = right.get index) : left = right := by
  obtain ⟨hle, heq⟩ := @Flags.count_le_of_imp width true left right (fun index hl => h index ▸ hl)
  obtain ⟨hge, -⟩ := @Flags.count_le_of_imp width true right left
    (fun index hr => (h index).trans hr)
  exact heq (Nat.le_antisymm hle hge)

end Arena
