import Mathlib.Data.List.Induction
import Raz.Lib.Arena

/-!
# Items grouped by a key

A counting sort in three loops over tables: count the items of each key, add the counts up to the
place where the group of each key begins, and put every item behind those of its group that are
there already.

Results:
1. `get_offsets`: the beginnings are the numbers of items with a smaller key.
2. `group_distribute`: the group of a key holds its items, in their order.
-/

namespace Buckets

open Arena

variable {ι α : Type} [Inhabited α]

/-- The number of items of each key, added to `counts`. -/
def tally (key : ι → Int) (items : List ι) (counts : List Int) : List Int :=
  items.foldl (fun counts item => set counts (key item) (get counts (key item) + 1)) counts

/-- The loop that writes the running sum of the counts; the last cell receives the whole sum. -/
def offsets (counts : List Int) : Nat → Int → Int → List Int → List Int
  | 0, k, cursor, starts => set starts k cursor
  | remaining + 1, k, cursor, starts =>
      offsets counts remaining (k + 1) (cursor + get counts k) (set starts k cursor)

/-- One item goes behind those of its group. -/
def place (starts : List Int) (key : ι → Int) (value : ι → α) (tables : List α × List Int)
    (item : ι) : List α × List Int :=
  let fill := get tables.2 (key item)
  (set tables.1 (get starts (key item) + fill) (value item), set tables.2 (key item) (fill + 1))

def distribute (starts : List Int) (key : ι → Int) (value : ι → α) (items : List ι)
    (tables : List α × List Int) : List α × List Int :=
  items.foldl (place starts key value) tables

/-- The cells of the group of `k`. -/
def group (cells : List α) (starts counts : List Int) (k : Int) : List α :=
  (range 0 (get counts k)).map (fun j => get cells (get starts k + j))

/-- The items of a key. -/
def ofKey (key : ι → Int) (items : List ι) (k : Int) : List ι :=
  items.filter (fun item => key item = k)

/-- The number of items with a smaller key. -/
def below (key : ι → Int) (items : List ι) (k : Int) : Nat :=
  items.countP (fun item => key item < k)

variable {key : ι → Int} {value : ι → α} {items : List ι}

theorem ofKey_append (front back : List ι) (k : Int) :
    ofKey key (front ++ back) k = ofKey key front k ++ ofKey key back k :=
  List.filter_append _ _

theorem ofKey_singleton (item : ι) (k : Int) :
    ofKey key [item] k = if key item = k then [item] else [] := by
  unfold ofKey
  rw [List.filter_cons, List.filter_nil]
  split <;> split <;> simp_all

theorem below_succ (items : List ι) (k : Int) :
    below key items (k + 1) = below key items k + (ofKey key items k).length := by
  unfold below ofKey
  rw [← List.countP_eq_length_filter]
  induction items with
  | nil => rfl
  | cons item items ih =>
    rw [List.countP_cons, List.countP_cons, List.countP_cons, ih]
    simp only [decide_eq_true_eq]
    split <;> split <;> split <;> omega

theorem below_zero (hkey : ∀ item ∈ items, 0 ≤ key item) : below key items 0 = 0 := by
  unfold below
  rw [List.countP_eq_zero]
  intro item hitem hlt
  have := hkey item hitem
  rw [decide_eq_true_eq] at hlt
  omega

theorem below_mono (items : List ι) {k m : Int} (h : k ≤ m) :
    below key items k ≤ below key items m := by
  unfold below
  refine List.countP_mono_left (fun item _ hlt => ?_)
  rw [decide_eq_true_eq] at hlt ⊢
  exact Int.lt_of_lt_of_le hlt h

theorem below_le_length (items : List ι) (k : Int) : below key items k ≤ items.length :=
  List.countP_le_length

/-- **The counts.** -/
theorem get_tally {k : Int} (h0 : 0 ≤ k) (items : List ι) :
    ∀ (counts : List Int), k < counts.length →
      get (tally key items counts) k = get counts k + (ofKey key items k).length := by
  induction items with
  | nil => intro counts _; exact (Int.add_zero _).symm
  | cons item items ih =>
    intro counts hlt
    have hnext := ih (set counts (key item) (get counts (key item) + 1))
      (by rw [length_set]; exact hlt)
    rw [tally, List.foldl_cons]
    refine hnext.trans ?_
    rw [← List.singleton_append, ofKey_append, List.length_append, ofKey_singleton]
    by_cases heq : key item = k
    · rw [if_pos heq, heq, get_set_self h0 hlt, List.length_singleton]
      omega
    · rw [if_neg heq, get_set_ne heq, List.length_nil, Nat.zero_add]

/-- **The beginnings of the groups.** -/
theorem get_offsets {counts : List Int} {n : Nat} (hcounts : ∀ k : Int, 0 ≤ k → k < n →
      get counts k = (ofKey key items k).length) (remaining : Nat) :
    ∀ {k : Int} {starts : List Int}, 0 ≤ k → k + remaining = n → n < starts.length →
      (∀ m : Int, 0 ≤ m → m < k → get starts m = below key items m) →
      ∀ m : Int, 0 ≤ m → m ≤ n →
        get (offsets counts remaining k (below key items k) starts) m = below key items m := by
  induction remaining with
  | zero =>
    intro k starts h0 hn hlen hdone m hm0 hm
    rw [offsets]
    by_cases heq : k = m
    · rw [← heq, get_set_self h0 (by omega)]
    · rw [get_set_ne heq]
      exact hdone m hm0 (by omega)
  | succ remaining ih =>
    intro k starts h0 hn hlen hdone m hm0 hm
    rw [offsets, hcounts k h0 (by omega), ← Int.natCast_add, ← below_succ]
    refine ih (by omega) (by omega) (by rw [length_set]; exact hlen) ?_ m hm0 hm
    intro m hm0 hm
    by_cases heq : k = m
    · rw [← heq, get_set_self h0 (by omega)]
    · rw [get_set_ne heq]
      exact hdone m hm0 (by omega)

/-! ## The groups -/

/-- The tables once the items `done` are in their places. -/
structure Placed (starts : List Int) (key : ι → Int) (value : ι → α) (n : Nat) (done : List ι)
    (tables : List α × List Int) : Prop where
  fills : ∀ k : Int, 0 ≤ k → k < n → get tables.2 k = (ofKey key done k).length
  cells : ∀ k : Int, 0 ≤ k → k < n → ∀ (j : Nat) (item : ι), (ofKey key done k)[j]? = some item →
    get tables.1 (get starts k + j) = value item

variable {starts : List Int} {n : Nat} {tables : List α × List Int}

/-- The groups do not overlap, so that an item leaves those in front of it alone. -/
theorem Placed.place {done rest : List ι} {item : ι}
    (h : Placed starts key value n done tables) (hitems : items = done ++ item :: rest)
    (hkey : 0 ≤ key item ∧ key item < n) (hfills : n ≤ tables.2.length)
    (hcells : items.length ≤ tables.1.length)
    (hstarts : ∀ m : Int, 0 ≤ m → m ≤ n → get starts m = below key items m) :
    Placed starts key value n (done ++ [item]) (place starts key value tables item) := by
  have hwhole : ∀ k, (ofKey key items k).length =
      (ofKey key done k).length + (ofKey key (item :: rest) k).length := by
    intro k
    rw [hitems, ofKey_append, List.length_append]
  have hown : 0 < (ofKey key (item :: rest) (key item)).length := by
    rw [← List.singleton_append, ofKey_append, ofKey_singleton, if_pos rfl]
    exact Nat.succ_pos _
  have hgroup := hwhole (key item)
  have hnext := @below_succ _ key items (key item)
  have htotal := @below_le_length _ key items (key item + 1)
  have hfill := h.fills (key item) hkey.1 hkey.2
  have hstart := hstarts (key item) hkey.1 (Int.le_of_lt hkey.2)
  refine ⟨fun k hk0 hk => ?_, fun k hk0 hk j other hother => ?_⟩
  · rw [ofKey_append, List.length_append, ofKey_singleton]
    change get (set tables.2 (key item) (get tables.2 (key item) + 1)) k = _
    by_cases heq : key item = k
    · rw [if_pos heq, ← heq, get_set_self hkey.1 (by omega), hfill]
      rfl
    · rw [if_neg heq, get_set_ne heq, h.fills k hk0 hk]
      rfl
  · change get (set tables.1 (get starts (key item) + get tables.2 (key item)) (value item))
      (get starts k + j) = _
    rw [ofKey_append, ofKey_singleton] at hother
    have hmine := hstarts k hk0 (Int.le_of_lt hk)
    by_cases heq : key item = k
    · subst heq
      rw [if_pos rfl] at hother
      by_cases hlt : j < (ofKey key done (key item)).length
      · rw [List.getElem?_append_left hlt] at hother
        rw [get_set_ne (by omega)]
        exact h.cells _ hk0 hk j other hother
      rw [List.getElem?_append_right (Nat.le_of_not_lt hlt)] at hother
      have hidx := (List.getElem?_eq_some_iff.mp hother).1
      rw [List.length_singleton] at hidx
      obtain rfl : j = (ofKey key done (key item)).length := by omega
      rw [Nat.sub_self] at hother
      cases hother
      rw [hfill, get_set_self (by omega) (by omega)]
    · rw [if_neg heq, List.append_nil] at hother
      have hlt := (List.getElem?_eq_some_iff.mp hother).1
      have hother' := h.cells k hk0 hk j other hother
      have hmid := hwhole k
      have hsucc := @below_succ _ key items k
      rw [get_set_ne ?_, hother']
      -- One of the groups ends before the other begins.
      rcases Int.lt_or_gt_of_ne heq with hless | hgreater
      · have := @below_mono _ key items _ _ (show key item + 1 ≤ k by omega)
        omega
      · have := @below_mono _ key items _ _ (show k + 1 ≤ key item by omega)
        omega

omit [Inhabited α] in
theorem length_place (item : ι) : (place starts key value tables item).1.length = tables.1.length ∧
      (place starts key value tables item).2.length = tables.2.length :=
  ⟨length_set _ _ _, length_set _ _ _⟩

section

variable (hkeys : ∀ item ∈ items, 0 ≤ key item ∧ key item < n)
  (hstarts : ∀ m : Int, 0 ≤ m → m ≤ n → get starts m = below key items m)

include hkeys hstarts

theorem placed_distribute (rest : List ι) :
    ∀ {done : List ι} {tables : List α × List Int}, items = done ++ rest →
      n ≤ tables.2.length → items.length ≤ tables.1.length →
      Placed starts key value n done tables →
      Placed starts key value n items (distribute starts key value rest tables) := by
  induction rest with
  | nil =>
    intro done tables hitems _ _ h
    rw [hitems, List.append_nil]
    exact h
  | cons item rest ih =>
    intro done tables hitems hfills hcells h
    obtain ⟨hlength1, hlength2⟩ := @length_place _ _ key value starts tables item
    have hmem : item ∈ items := by
      rw [hitems]
      exact List.mem_append_right _ List.mem_cons_self
    rw [distribute, List.foldl_cons]
    refine @ih (done ++ [item]) _ ?_ (by omega) (by omega) ?_
    · rw [hitems, List.append_assoc]
      rfl
    exact h.place hitems (hkeys item hmem) hfills hcells hstarts

/-- **The group of a key holds its items, in their order.** -/
theorem group_distribute {counts fills : List Int} {cells : List α}
    (hcounts : ∀ k : Int, 0 ≤ k → k < n → get counts k = (ofKey key items k).length)
    (hempty : ∀ k : Int, get fills k = 0) (hfills : n ≤ fills.length)
    (hcells : items.length ≤ cells.length) {k : Int} (h0 : 0 ≤ k) (h1 : k < n) :
    group (distribute starts key value items (cells, fills)).1 starts counts k =
      (ofKey key items k).map value := by
  have hplaced : Placed starts key value n items
      (distribute starts key value items (cells, fills)) :=
    placed_distribute hkeys hstarts items (List.nil_append items).symm hfills hcells
      ⟨fun k _ _ => hempty k, fun k _ _ j item h => nomatch h⟩
  unfold group
  rw [hcounts k h0 h1]
  refine List.ext_getElem (by simp) (fun j hj1 hj2 => ?_)
  rw [List.length_map] at hj2
  rw [List.getElem_map, List.getElem_map, getElem_range, Int.zero_add]
  exact hplaced.cells k h0 h1 j _ (List.getElem?_eq_getElem hj2)

end

end Buckets
