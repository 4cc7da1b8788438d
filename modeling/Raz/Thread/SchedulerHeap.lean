import Mathlib.Data.Prod.Lex
import Raz.Lib.Heap
import Raz.Thread.Scheduler

/-!
# The heap of the timer scheduler

The four arrays are one list of entries: a cell of each is read and written with the others. On this
list both loops are a hole that moves, up for a new entry and down from the top for the last one.

Result: `pops_least`: what is popped and what is pending, along every run.
-/

namespace Raz.Thread.Scheduler

open Transition Heap List

/-! ## Entries -/

/-- The entries in all cells of the arrays. -/
def Arrays.entries (arrays : Arrays) : List Entry :=
  List.zipWith (fun times handles => ⟨times.1, times.2, handles.1, handles.2⟩)
    (arrays.deadlines.zip arrays.sequences) (arrays.callables.zip arrays.results)

/-- The entries of the heap. -/
def TimerScheduler.entries (scheduler : TimerScheduler) : List Entry :=
  scheduler.arrays.entries.take scheduler.count

/-- What the entries are ordered by. -/
def entryKey (entry : Entry) : Int ×ₗ Int := toLex (entry.deadline, entry.sequence)

theorem earlier_iff {first second : Entry} :
    earlier first.deadline first.sequence second.deadline second.sequence = true ↔
      entryKey first < entryKey second := by
  unfold earlier entryKey
  rw [Prod.Lex.toLex_lt_toLex]
  split
  · rename_i hlt
    exact iff_of_true rfl (.inl hlt)
  · rename_i hge
    rw [Bool.and_eq_true, beq_iff_eq, decide_eq_true_iff]
    exact ⟨.inr, fun h => h.resolve_left hge⟩

theorem not_earlier_iff {first second : Entry} :
    (!earlier first.deadline first.sequence second.deadline second.sequence) = true ↔
      entryKey second ≤ entryKey first := by
  rw [Bool.not_eq_true', ← Bool.not_eq_true, earlier_iff, not_lt]

section

variable {arrays after : Arrays} {size index : Nat} {entry : Entry}

theorem arrayGet_of {array : List Int} {value : Int} (h : array[index]? = some value) :
    arrayGet array index = some value := h

theorem entries_length (h : arrays.Sized size) : arrays.entries.length = size := by
  unfold Arrays.entries
  rw [length_zipWith, length_zip, length_zip, h.deadlines, h.sequences,
    h.callables, h.results, Nat.min_self, Nat.min_self]

theorem cells_of_entry (h : arrays.entries[index]? = some entry) :
    arrays.deadlines[index]? = some entry.deadline ∧
      arrays.sequences[index]? = some entry.sequence ∧
      arrays.callables[index]? = some entry.callable ∧
      arrays.results[index]? = some entry.result := by
  unfold Arrays.entries at h
  rw [List.getElem?_zipWith_eq_some] at h
  obtain ⟨times, handles, htimes, hhandles, rfl⟩ := h
  obtain ⟨hdeadline, hsequence⟩ := List.getElem?_zip_eq_some.mp htimes
  obtain ⟨hcallable, hres⟩ := List.getElem?_zip_eq_some.mp hhandles
  exact ⟨hdeadline, hsequence, hcallable, hres⟩

theorem getEntry_eq (h : arrays.entries[index]? = some entry) :
    arrays.getEntry index = some entry := by
  obtain ⟨hdeadline, hsequence, hcallable, hres⟩ := cells_of_entry h
  unfold Arrays.getEntry
  rw [arrayGet_of hdeadline, arrayGet_of hsequence, arrayGet_of hcallable, arrayGet_of hres]
  rfl

theorem setEntry_eq (h : arrays.Sized size) (hidx : index < size) (entry : Entry) :
    ∃ after, arrays.setEntry index entry = some after ∧ after.Sized size ∧
      after.entries = arrays.entries.set index entry := by
  have hset {array : List Int} (hlen : array.length = size) (value : Int) :
      arraySet array index value = some (array.set index value) := by
    unfold arraySet
    rw [if_pos (hlen.symm ▸ hidx)]
  refine ⟨⟨arrays.deadlines.set index entry.deadline, arrays.sequences.set index entry.sequence,
    arrays.callables.set index entry.callable, arrays.results.set index entry.result⟩, ?_, ?_, ?_⟩
  · unfold Arrays.setEntry
    rw [hset h.deadlines, hset h.sequences, hset h.callables, hset h.results]
    rfl
  · constructor <;> rw [List.length_set]
    · exact h.deadlines
    · exact h.sequences
    · exact h.callables
    · exact h.results
  · unfold Arrays.entries
    refine ext_getElem? fun position => ?_
    simp only [List.getElem?_zipWith, List.zip, List.getElem?_set, length_zipWith,
      h.deadlines, h.sequences, h.callables, h.results, Nat.min_self, hidx, if_true]
    by_cases hpos : index = position
    · simp only [if_pos hpos]
    · simp only [if_neg hpos]

end

/-! ## Insertion -/

theorem insertLoop_succ {arrays : Arrays} {deadline sequence : Int} {rounds index : Nat}
    {parent : Entry} (hpos : 0 < index) (hparent : arrays.entries[above index]? = some parent) :
    insertLoop deadline sequence (rounds + 1) arrays index =
      if !earlier deadline sequence parent.deadline parent.sequence then some (arrays, index)
      else (arrays.setEntry index parent).bind fun arrays =>
        insertLoop deadline sequence rounds arrays (above index) := by
  unfold above at *
  obtain ⟨hdeadline, hsequence, hcallable, hres⟩ := cells_of_entry hparent
  rw [insertLoop, if_pos hpos]
  dsimp only
  rw [arrayGet_of hdeadline, arrayGet_of hsequence, arrayGet_of hcallable, arrayGet_of hres]
  rfl

/-- The hole that begins behind the last entry moves up to where the entry may be put. -/
theorem insertLoop_spec {size count : Nat} {entry : Entry} (hcount : count ≤ size) :
    ∀ {rounds index : Nat} {arrays : Arrays}, index ≤ rounds → arrays.Sized size →
      UpReady entryKey (arrays.entries.take count) index entry →
      ∃ after place,
        insertLoop entry.deadline entry.sequence rounds arrays index = some (after, place) ∧
        after.Sized size ∧ place < size ∧
        Ordered entryKey ((after.entries.take count).set place entry) ∧
        ((after.entries.take count).set place entry).Perm
          ((arrays.entries.take count).set index entry) := by
  intro rounds
  induction rounds with
  | zero =>
    intro index arrays hrounds hsized hready
    obtain rfl : index = 0 := Nat.le_zero.mp hrounds
    have hlt := hready.lt
    rw [length_take, entries_length hsized, Nat.min_eq_left hcount] at hlt
    exact ⟨arrays, 0, rfl, hsized, Nat.lt_of_lt_of_le hlt hcount,
      hready.ordered fun hzero => absurd hzero (Nat.lt_irrefl 0), List.Perm.refl _⟩
  | succ rounds ih =>
    intro index arrays hrounds hsized hready
    have hlt := hready.lt
    rw [length_take, entries_length hsized, Nat.min_eq_left hcount] at hlt
    by_cases hpos : 0 < index
    · have habove : above index < index := above_lt hpos
      have hbound : above index < arrays.entries.length := by
        rw [entries_length hsized]
        omega
      have hget := List.getElem?_eq_getElem hbound
      have htake : (arrays.entries.take count)[above index]? =
          some arrays.entries[above index] := by
        rw [List.getElem?_take_of_lt (Nat.lt_trans habove hlt), hget]
      generalize arrays.entries[above index] = parent at *
      rw [insertLoop_succ hpos hget]
      by_cases hstay : entryKey parent ≤ entryKey entry
      · rw [if_pos (not_earlier_iff.mpr hstay)]
        refine ⟨arrays, index, rfl, hsized, Nat.lt_of_lt_of_le hlt hcount,
          hready.ordered fun _ higher hhigher => ?_, List.Perm.refl _⟩
        obtain rfl := Option.some.inj (htake.symm.trans hhigher)
        exact hstay
      · rw [if_neg (mt not_earlier_iff.mp hstay)]
        obtain ⟨next, hnext, hsized', hentries⟩ :=
          setEntry_eq hsized (Nat.lt_of_lt_of_le hlt hcount) parent
        have hmoved : next.entries.take count = (arrays.entries.take count).set index parent := by
          rw [hentries, take_set]
        have hready' := hready.step hpos htake (not_le.mp hstay)
        rw [← hmoved] at hready'
        obtain ⟨after, place, hloop, hafter, hplace, hordered, hperm⟩ :=
          ih (by omega) hsized' hready'
        rw [hnext]
        refine ⟨after, place, hloop, hafter, hplace, hordered, hperm.trans ?_⟩
        rw [hmoved]
        exact set_set_perm hready.lt htake
    · obtain rfl : index = 0 := Nat.eq_zero_of_not_pos hpos
      rw [insertLoop, if_neg (Nat.lt_irrefl 0)]
      exact ⟨arrays, 0, rfl, hsized, Nat.lt_of_lt_of_le hlt hcount,
        hready.ordered fun hzero => absurd hzero (Nat.lt_irrefl 0), List.Perm.refl _⟩

/-- The state between two sections: the arrays have the size of the capacity, and the entries are a
heap. -/
structure Sound (scheduler : TimerScheduler) : Prop where
  sized : scheduler.arrays.Sized scheduler.capacity
  count_le : scheduler.count ≤ scheduler.capacity
  ordered : Ordered entryKey scheduler.entries

variable {scheduler : TimerScheduler}

theorem Sound.length_entries (h : Sound scheduler) :
    scheduler.entries.length = scheduler.count := by
  unfold TimerScheduler.entries
  rw [length_take, entries_length h.sized, Nat.min_eq_left h.count_le]

theorem entries_getElem? {position : Nat} {entry : Entry}
    (h : scheduler.entries[position]? = some entry) :
    scheduler.arrays.entries[position]? = some entry := by
  unfold TimerScheduler.entries at h
  rw [List.getElem?_take] at h
  split at h
  · exact h
  · cases h

/-- **Insertion** adds the entry and nothing else. -/
theorem heapInsert_spec (h : Sound scheduler) (hroom : scheduler.count < scheduler.capacity)
    (entry : Entry) :
    ∃ arrays, heapInsert scheduler entry =
        some { scheduler with arrays, count := scheduler.count + 1 } ∧
      Sound { scheduler with arrays, count := scheduler.count + 1 } ∧
      (arrays.entries.take (scheduler.count + 1)).Perm (scheduler.entries ++ [entry]) := by
  have hlt : scheduler.count < scheduler.arrays.entries.length := by
    rw [entries_length h.sized]
    exact hroom
  have hbegin : scheduler.arrays.entries.take (scheduler.count + 1) =
      scheduler.entries ++ [scheduler.arrays.entries[scheduler.count]] :=
    take_succ_eq_append_getElem hlt
  have hready := h.ordered.upReady (scheduler.arrays.entries[scheduler.count]) entry
  rw [h.length_entries, ← hbegin] at hready
  obtain ⟨moved, place, hloop, hmoved, hplace, hordered, hperm⟩ :=
    insertLoop_spec (Nat.succ_le_of_lt hroom) le_rfl h.sized hready
  obtain ⟨arrays, hset, hsized, hentries⟩ := setEntry_eq hmoved hplace entry
  have htake : arrays.entries.take (scheduler.count + 1) =
      (moved.entries.take (scheduler.count + 1)).set place entry := by
    rw [hentries, take_set]
  refine ⟨arrays, ?_, ⟨hsized, Nat.succ_le_of_lt hroom, ?_⟩, ?_⟩
  · unfold heapInsert
    rw [hloop]
    dsimp only [bind, Option.bind]
    rw [hset]
    rfl
  · unfold TimerScheduler.entries
    rw [htake]
    exact hordered
  · rw [htake]
    refine hperm.trans ?_
    rw [hbegin, set_append_right _ _ (Nat.le_of_eq h.length_entries), h.length_entries,
      Nat.sub_self]
    exact List.Perm.refl _

/-! ## Removal -/

theorem childOf_eq {arrays : Arrays} {count left : Nat} {entry : Entry}
    (hleft : arrays.entries[left]? = some entry) (hcount : count ≤ arrays.entries.length) :
    ∃ child least, childOf arrays count left = some child ∧ (child = left ∨ child = left + 1) ∧
      arrays.entries[child]? = some least ∧ (child = left ∨ child < count) ∧
      entryKey least ≤ entryKey entry ∧
      ∀ other, left + 1 < count → arrays.entries[left + 1]? = some other →
        entryKey least ≤ entryKey other := by
  unfold childOf
  by_cases hright : left + 1 < count
  · rw [if_pos hright]
    have hget := List.getElem?_eq_getElem (Nat.lt_of_lt_of_le hright hcount)
    generalize arrays.entries[left + 1] = other at hget
    obtain ⟨hld, hls, -, -⟩ := cells_of_entry hleft
    obtain ⟨hrd, hrs, -, -⟩ := cells_of_entry hget
    rw [arrayGet_of hrd, arrayGet_of hrs, arrayGet_of hld, arrayGet_of hls]
    dsimp only [bind, Option.bind, pure]
    by_cases hearlier : entryKey other < entryKey entry
    · rw [if_pos (earlier_iff.mpr hearlier)]
      refine ⟨left + 1, other, rfl, .inr rfl, hget, .inr hright, le_of_lt hearlier, ?_⟩
      intro found _ hfound
      rw [Option.some.inj (hget.symm.trans hfound)]
    · rw [if_neg (mt earlier_iff.mp hearlier)]
      refine ⟨left, entry, rfl, .inl rfl, hleft, .inl rfl, le_refl _, ?_⟩
      intro found _ hfound
      rw [← Option.some.inj (hget.symm.trans hfound)]
      exact not_lt.mp hearlier
  · rw [if_neg hright]
    exact ⟨left, entry, rfl, .inl rfl, hleft, .inl rfl, le_refl _, fun _ hlt _ => absurd hlt hright⟩

/-- The hole that begins at the top moves down to where the last entry may be put. -/
theorem popLoop_spec {size count : Nat} {entry : Entry} (hcount : count ≤ size) :
    ∀ {rounds index : Nat} {arrays : Arrays}, count ≤ index + rounds → arrays.Sized size →
      DownReady entryKey (arrays.entries.take count) index entry →
      ∃ after place,
        popLoop count entry.deadline entry.sequence rounds arrays index = some (after, place) ∧
        after.Sized size ∧ place < size ∧
        Ordered entryKey ((after.entries.take count).set place entry) ∧
        ((after.entries.take count).set place entry).Perm
          ((arrays.entries.take count).set index entry) := by
  intro rounds
  induction rounds with
  | zero =>
    intro index arrays hrounds hsized hready
    have hlt := hready.lt
    rw [length_take, entries_length hsized, Nat.min_eq_left hcount] at hlt
    exact absurd hlt (Nat.not_lt.mpr hrounds)
  | succ rounds ih =>
    intro index arrays hrounds hsized hready
    have hlt := hready.lt
    rw [length_take, entries_length hsized, Nat.min_eq_left hcount] at hlt
    have hstop (hbelow : ∀ position, 0 < position → above position = index →
        ∀ lower ∈ (arrays.entries.take count)[position]?, entryKey entry ≤ entryKey lower) :
        ∃ after place, some (arrays, index) = some (after, place) ∧
          after.Sized size ∧ place < size ∧
          Ordered entryKey ((after.entries.take count).set place entry) ∧
          ((after.entries.take count).set place entry).Perm
            ((arrays.entries.take count).set index entry) :=
      ⟨arrays, index, rfl, hsized, Nat.lt_of_lt_of_le hlt hcount, hready.ordered hbelow,
        List.Perm.refl _⟩
    rw [popLoop]
    by_cases hend : count ≤ index * 2 + 1
    · rw [if_pos hend]
      refine hstop fun position hpos habove lower hlower => ?_
      have hbound := (List.getElem?_eq_some_iff.mp hlower).1
      have hplace := (above_eq_iff hpos).mp habove
      rw [length_take] at hbound
      omega
    · rw [if_neg hend]
      have hlen := entries_length hsized
      have hleft := List.getElem?_eq_getElem (show index * 2 + 1 < arrays.entries.length by omega)
      generalize arrays.entries[index * 2 + 1] = first at hleft
      obtain ⟨child, least, hchild, hplace, hget, hinside, hfirst, hsecond⟩ :=
        childOf_eq hleft (hcount.trans_eq hlen.symm)
      have hpos : 0 < child := by omega
      have habove : above child = index := (above_eq_iff hpos).mpr (by omega)
      have htake : (arrays.entries.take count)[child]? = some least := by
        rw [List.getElem?_take_of_lt (by omega), hget]
      have hleast : ∀ position, 0 < position → above position = index →
          ∀ lower ∈ (arrays.entries.take count)[position]?, entryKey least ≤ entryKey lower := by
        intro position hposition hbelow lower hlower
        have hbound := (List.getElem?_eq_some_iff.mp hlower).1
        rw [length_take] at hbound
        rw [Option.mem_def, List.getElem?_take_of_lt (by omega)] at hlower
        rcases (above_eq_iff hposition).mp hbelow with rfl | rfl
        · rw [← Option.some.inj (hleft.symm.trans hlower)]
          exact hfirst
        · exact hsecond lower (by omega) hlower
      obtain ⟨hdeadline, hsequence, hcallable, hres⟩ := cells_of_entry hget
      rw [hchild]
      dsimp only [bind, Option.bind]
      rw [arrayGet_of hdeadline, arrayGet_of hsequence]
      dsimp only
      by_cases hstay : entryKey entry ≤ entryKey least
      · rw [if_pos (not_earlier_iff.mpr hstay)]
        exact hstop fun position hposition hbelow lower hlower =>
          le_trans hstay (hleast position hposition hbelow lower hlower)
      rw [if_neg (mt not_earlier_iff.mp hstay), arrayGet_of hcallable, arrayGet_of hres]
      dsimp only
      obtain ⟨next, hnext, hsized', hentries⟩ :=
        setEntry_eq hsized (Nat.lt_of_lt_of_le hlt hcount) least
      have hmoved : next.entries.take count = (arrays.entries.take count).set index least := by
        rw [hentries, take_set]
      have hready' := hready.step hpos habove htake (not_le.mp hstay) hleast
      rw [← hmoved] at hready'
      obtain ⟨after, place, hloop, hafter, hplace, hordered, hperm⟩ :=
        ih (by omega) hsized' hready'
      rw [hnext]
      refine ⟨after, place, hloop, hafter, hplace, hordered, hperm.trans ?_⟩
      rw [hmoved]
      exact set_set_perm hready.lt htake

/-- **Removal** takes the first entry away and nothing else. -/
theorem heapPop_spec (h : Sound scheduler) (hpos : 0 < scheduler.count) :
    ∃ entry arrays, heapPop scheduler =
        some (entry, { scheduler with arrays, count := scheduler.count - 1 }) ∧
      Sound { scheduler with arrays, count := scheduler.count - 1 } ∧
      scheduler.entries[0]? = some entry ∧
      (entry :: arrays.entries.take (scheduler.count - 1)).Perm scheduler.entries := by
  obtain ⟨count, hcount⟩ : ∃ count, scheduler.count = count + 1 := Nat.exists_eq_add_one.mpr hpos
  have hle := h.count_le
  have hlen := entries_length h.sized
  have hlt : count < scheduler.arrays.entries.length := by omega
  have hfits : count ≤ scheduler.capacity := by omega
  obtain ⟨entry, rest, hfront⟩ : ∃ entry rest, scheduler.entries = entry :: rest := by
    refine exists_cons_of_ne_nil fun hnil => ?_
    have hzero := h.length_entries
    rw [hnil] at hzero
    exact absurd hzero.symm (Nat.ne_of_gt hpos)
  have hfirst : scheduler.entries[0]? = some entry := by rw [hfront]; rfl
  have hscratch := getEntry_eq (entries_getElem? hfirst)
  unfold heapPop
  rw [hscratch, hcount, Nat.add_sub_cancel]
  dsimp only [bind, Option.bind]
  have hwhole : scheduler.entries = scheduler.arrays.entries.take count ++
      [scheduler.arrays.entries[count]] := by
    unfold TimerScheduler.entries
    rw [hcount]
    exact take_succ_eq_append_getElem hlt
  rcases Nat.eq_zero_or_pos count with rfl | hmore
  · rw [if_pos le_rfl]
    refine ⟨entry, scheduler.arrays, rfl, ⟨h.sized, Nat.zero_le _, ordered_nil⟩, hfirst, ?_⟩
    rw [take_zero, hfront] at *
    obtain ⟨-, hrest⟩ := List.cons.inj hwhole
    rw [hrest]
  · rw [if_neg (Nat.not_le.mpr hmore)]
    have hlast := List.getElem?_eq_getElem hlt
    generalize scheduler.arrays.entries[count] = last at hwhole hlast
    have hordered : Ordered entryKey (scheduler.arrays.entries.take count) := by
      have hfewer := h.ordered.take count
      unfold TimerScheduler.entries at hfewer
      rwa [take_take, hcount, Nat.min_eq_left (Nat.le_succ count)] at hfewer
    have hne : scheduler.arrays.entries.take count ≠ [] := by
      rw [← length_pos_iff, length_take]
      omega
    obtain ⟨moved, place, hloop, hmoved, hplace, hsettled, hperm⟩ :=
      popLoop_spec hfits (Nat.le_add_left count 0) h.sized (hordered.downReady hne last)
    obtain ⟨arrays, hset, hsized, hentries⟩ := setEntry_eq hmoved hplace last
    have htake : arrays.entries.take count = (moved.entries.take count).set place last := by
      rw [hentries, take_set]
    rw [getEntry_eq hlast]
    dsimp only
    rw [hloop]
    dsimp only
    rw [hset]
    refine ⟨entry, arrays, rfl, ⟨hsized, hfits, ?_⟩, hfirst, ?_⟩
    · unfold TimerScheduler.entries
      rw [htake]
      exact hsettled
    obtain ⟨first, others, hcons⟩ := exists_cons_of_ne_nil hne
    rw [hfront, hcons] at hwhole
    obtain ⟨rfl, hrest⟩ := List.cons.inj hwhole
    rw [htake, hfront, hrest]
    refine List.Perm.cons _ (hperm.trans ?_)
    rw [hcons]
    exact (perm_append_singleton last _).symm

/-! ## Sections -/

theorem schedule_spec (h : Sound scheduler) (now delay callable result : Int) :
    schedule scheduler now delay callable result = some (none, scheduler) ∨
      ∃ wake after, schedule scheduler now delay callable result =
          some (some (⟨deadlineNanos now delay, scheduler.nextSequence, callable, result⟩, wake),
            after) ∧
        Sound after ∧ after.entries.Perm (scheduler.entries ++
          [⟨deadlineNanos now delay, scheduler.nextSequence, callable, result⟩]) := by
  unfold schedule
  split
  · exact .inl rfl
  rename_i hopen
  have hroom : scheduler.count < scheduler.capacity :=
    Nat.not_le.mp fun hfull => hopen (.inr hfull)
  have hcounted : Sound { scheduler with
      nextSequence := Word.wrap (scheduler.nextSequence + 1) } := ⟨h.sized, h.count_le, h.ordered⟩
  obtain ⟨arrays, hinsert, hsound, hperm⟩ := heapInsert_spec hcounted hroom
    ⟨deadlineNanos now delay, scheduler.nextSequence, callable, result⟩
  refine .inr ?_
  dsimp only [bind, Option.bind]
  by_cases hempty : scheduler.count = 0
  · rw [if_pos hempty]
    dsimp only [pure]
    rw [hinsert]
    exact ⟨true, _, rfl, hsound, hperm⟩
  · have hlt : 0 < scheduler.entries.length := by
      rw [h.length_entries]
      exact Nat.pos_of_ne_zero hempty
    obtain ⟨hdeadline, hsequence, -, -⟩ :=
      cells_of_entry (entries_getElem? (List.getElem?_eq_getElem hlt))
    rw [if_neg hempty, arrayGet_of hdeadline, arrayGet_of hsequence]
    dsimp only [pure]
    rw [hinsert]
    exact ⟨_, _, rfl, hsound, hperm⟩

/-- The worker leaves the heap alone, or takes the first entry. -/
theorem work_spec (h : Sound scheduler) (now : Int) :
    (∃ outcome, work scheduler now = some (outcome, scheduler) ∧
        ∀ entry, outcome ≠ .call entry) ∨
      ∃ entry after, work scheduler now = some (.call entry, after) ∧ Sound after ∧
        scheduler.entries[0]? = some entry ∧ (entry :: after.entries).Perm scheduler.entries := by
  unfold work
  split
  · refine .inl ⟨_, rfl, fun entry => ?_⟩
    split <;> nofun
  rename_i hsome
  obtain ⟨entry, arrays, hpop, hsound, hfirst, hperm⟩ := heapPop_spec h (Nat.pos_of_ne_zero hsome)
  obtain ⟨hdeadline, -, -, -⟩ := cells_of_entry (entries_getElem? hfirst)
  rw [arrayGet_of hdeadline]
  dsimp only [bind, Option.bind]
  split
  · exact .inl ⟨.wait, rfl, fun _ => nofun⟩
  · rw [hpop]
    exact .inr ⟨entry, _, rfl, hsound, hfirst, hperm⟩

theorem mapM_range' {β : Type} {read : Nat → Option β} (values : List β) : ∀ {start : Nat},
    (∀ (position : Nat) (value : β), values[position]? = some value →
      read (start + position) = some value) →
    (List.range' start values.length).mapM read = some values := by
  induction values with
  | nil => exact fun _ => rfl
  | cons value values ih =>
    intro start h
    have hfirst : read start = some value := h 0 value rfl
    have hrest : (List.range' (start + 1) values.length).mapM read = some values := by
      refine ih fun position other hother => ?_
      rw [Nat.add_assoc, Nat.add_comm 1]
      exact h (position + 1) other hother
    rw [length_cons, range'_succ, mapM_cons, hfirst, hrest]
    rfl

/-- What is cancelled of an entry. -/
def Entry.handles (entry : Entry) : Int × Int := (entry.callable, entry.result)

theorem shutdown_spec (h : Sound scheduler) (cancelPending : Bool) :
    ∃ cancelled after, shutdown scheduler cancelPending = some (cancelled, after) ∧ Sound after ∧
      cancelled = (if cancelPending then scheduler.entries.map Entry.handles else []) ∧
      after.entries = if cancelPending then [] else scheduler.entries := by
  unfold shutdown
  cases cancelPending with
  | false => exact ⟨[], _, rfl, ⟨h.sized, h.count_le, h.ordered⟩, rfl, (if_neg nofun).symm⟩
  | true =>
    have hread : ∀ (position : Nat) (handles : Int × Int),
        (scheduler.entries.map Entry.handles)[position]? = some handles →
        (do
          let callable ← arrayGet scheduler.arrays.callables (0 + position)
          let result ← arrayGet scheduler.arrays.results (0 + position)
          return (callable, result)) = some handles := by
      intro position handles hhandles
      rw [List.getElem?_map] at hhandles
      obtain ⟨entry, hentry, rfl⟩ := Option.map_eq_some_iff.mp hhandles
      obtain ⟨-, -, hcallable, hres⟩ := cells_of_entry (entries_getElem? hentry)
      rw [Nat.zero_add, arrayGet_of hcallable, arrayGet_of hres]
      rfl
    have hcancelled : (List.range' 0 (scheduler.entries.map Entry.handles).length).mapM
        (fun index => do
          let callable ← arrayGet scheduler.arrays.callables index
          let result ← arrayGet scheduler.arrays.results index
          return (callable, result)) = some (scheduler.entries.map Entry.handles) :=
      mapM_range' _ hread
    rw [length_map, h.length_entries, ← range_eq_range'] at hcancelled
    dsimp only [bind, Option.bind] at hcancelled ⊢
    rw [if_pos rfl, hcancelled]
    exact ⟨_, _, rfl, ⟨h.sized, Nat.zero_le _, ordered_nil⟩, (if_pos rfl).symm, rfl⟩

/-! ## Runs -/

/-- Between two sections the heap holds what is pending. -/
structure Consistent (pending : List Entry) (scheduler : TimerScheduler) : Prop where
  sound : Sound scheduler
  perm : scheduler.entries.Perm pending

theorem Consistent.step {pending : List Entry} {after : TimerScheduler} {event : Event}
    (h : Consistent pending scheduler) (hstep : Step scheduler event after) :
    Consistent (record pending event) after := by
  obtain ⟨hsound, hperm⟩ := h
  cases hstep with
  | scheduled sequence now delay callable result hschedule =>
    have hcounted : Sound { scheduler with nextSequence := sequence } :=
      ⟨hsound.sized, hsound.count_le, hsound.ordered⟩
    rcases schedule_spec hcounted now delay callable result with
      hrefused | ⟨wake, next, hadded, hnext, hentries⟩
    · rw [hrefused] at hschedule
      cases hschedule
    · rw [hadded] at hschedule
      cases hschedule
      exact ⟨hnext, hentries.trans (hperm.append_right _)⟩
  | refused now delay callable result hschedule =>
    rcases schedule_spec hsound now delay callable result with hrefused | ⟨wake, next, hadded, -⟩
    · rw [hrefused] at hschedule
      cases hschedule
      exact ⟨hsound, hperm⟩
    · rw [hadded] at hschedule
      cases hschedule
  | worked now hcall hwork =>
    rcases work_spec hsound now with ⟨outcome, hidle, -⟩ | ⟨entry, next, hpop, -⟩
    · rw [hidle] at hwork
      cases hwork
      exact ⟨hsound, hperm⟩
    · rw [hpop] at hwork
      cases hwork
      exact absurd rfl (hcall entry)
  | @popped _ entry now hwork =>
    rcases work_spec hsound now with ⟨outcome, hidle, hcall⟩ | ⟨first, next, hpop, hnext, -, hrest⟩
    · rw [hidle] at hwork
      cases hwork
      exact absurd rfl (hcall entry)
    rw [hpop] at hwork
    cases hwork
    refine ⟨hnext, ?_⟩
    have herase := (hrest.trans hperm).erase entry
    rwa [erase_cons_head] at herase
  | shut cancelPending hshutdown =>
    obtain ⟨cancelled, next, hshut, hnext, -, hentries⟩ := shutdown_spec hsound cancelPending
    rw [hshut] at hshutdown
    cases hshutdown
    refine ⟨hnext, ?_⟩
    rw [hentries]
    cases cancelPending with
    | false => exact hperm
    | true => exact List.Perm.refl _

/-- What the scheduler does with the pending entries. -/
structure Schedules (pending : List Entry) (scheduler : TimerScheduler) : Prop where
  /-- The cells that are in use hold the pending entries. -/
  holds : scheduler.entries.Perm pending ∧ pending.length = scheduler.count ∧
    scheduler.count ≤ scheduler.capacity
  /-- What the worker calls is pending, and nothing that is pending comes before it. -/
  pops : ∀ (now : Int) (entry : Entry) (after : TimerScheduler),
    work scheduler now = some (.call entry, after) →
      entry ∈ pending ∧ ∀ other ∈ pending,
        earlier other.deadline other.sequence entry.deadline entry.sequence = false
  /-- A shutdown that cancels does so to every pending entry. -/
  cancels : ∀ (cancelled : List (Int × Int)) (after : TimerScheduler),
    shutdown scheduler true = some (cancelled, after) →
      cancelled.Perm (pending.map Entry.handles)
  /-- No section accesses a cell outside the arrays. -/
  inside : (∀ sequence now delay callable result : Int,
      schedule { scheduler with nextSequence := sequence } now delay callable result ≠ none) ∧
    (∀ now : Int, work scheduler now ≠ none) ∧
    ∀ cancelPending : Bool, shutdown scheduler cancelPending ≠ none

theorem Consistent.schedules {pending : List Entry} (h : Consistent pending scheduler) :
    Schedules pending scheduler := by
  obtain ⟨hsound, hperm⟩ := h
  constructor
  case holds => exact ⟨hperm, hperm.length_eq.symm.trans hsound.length_entries, hsound.count_le⟩
  case pops =>
    intro now entry after hwork
    rcases work_spec hsound now with ⟨outcome, hidle, hcall⟩ | ⟨first, next, hpop, -, hfirst, -⟩
    · rw [hidle] at hwork
      cases hwork
      exact absurd rfl (hcall entry)
    rw [hpop] at hwork
    cases hwork
    refine ⟨hperm.subset (mem_of_getElem? hfirst), fun other hother => ?_⟩
    obtain ⟨position, hpos⟩ := mem_iff_getElem?.mp (hperm.symm.subset hother)
    have hle := hsound.ordered.root_le hfirst hpos
    exact Bool.eq_false_iff.mpr (mt earlier_iff.mp (not_lt.mpr hle))
  case cancels =>
    intro cancelled after hshutdown
    obtain ⟨handles, next, hshut, -, hhandles, -⟩ := shutdown_spec hsound true
    rw [hshut] at hshutdown
    cases hshutdown
    rw [hhandles, if_pos rfl]
    exact hperm.map _
  case inside =>
    refine ⟨fun sequence now delay callable result hnone => ?_, fun now hnone => ?_,
      fun cancelPending hnone => ?_⟩
    · have hcounted : Sound { scheduler with nextSequence := sequence } :=
        ⟨hsound.sized, hsound.count_le, hsound.ordered⟩
      rcases schedule_spec hcounted now delay callable result with
        hrefused | ⟨wake, next, hadded, -⟩
      · rw [hrefused] at hnone
        cases hnone
      · rw [hadded] at hnone
        cases hnone
    · rcases work_spec hsound now with ⟨outcome, hidle, -⟩ | ⟨entry, next, hpop, -⟩
      · rw [hidle] at hnone
        cases hnone
      · rw [hpop] at hnone
        cases hnone
    · obtain ⟨cancelled, next, hshut, -⟩ := shutdown_spec hsound cancelPending
      rw [hshut] at hnone
      cases hnone

/-- **The worker calls the least pending entry**, along every run of sections in any order. -/
theorem pops_least (capacity : Int) (allocated : Option Arrays) (events : List Event)
    (state : TimerScheduler) (hrun : Run (sections capacity allocated) events state) :
    Schedules (pending events) state := by
  refine Consistent.schedules (hrun.invariant
    (fun events state => Consistent (pending events) state) (fun state hinitial => ?_)
    (fun events state event after hbefore hstep => ?_))
  · obtain ⟨hcreate, hsized⟩ := hinitial
    unfold create at hcreate
    split at hcreate
    · cases hcreate
    cases allocated with
    | none => cases hcreate
    | some arrays =>
      cases hcreate
      exact ⟨⟨hsized, Nat.zero_le _, ordered_nil⟩, List.Perm.refl _⟩
  · have hpend : pending (events ++ [event]) = record (pending events) event := foldl_append
    rw [hpend]
    exact hbefore.step hstep

/-- Two entries in arrays for two: the second one comes first. -/
theorem pops_least_two :
    ∃ (events : List Event) (state : TimerScheduler),
      Run (sections 2 (some ⟨[0, 0], [0, 0], [0, 0], [0, 0]⟩)) events state ∧
        pending events = [⟨9, 0, 70, 71⟩] ∧ Schedules (pending events) state := by
  have h0 : Run (sections 2 (some ⟨[0, 0], [0, 0], [0, 0], [0, 0]⟩)) []
      ⟨⟨[0, 0], [0, 0], [0, 0], [0, 0]⟩, 2, 0, true, false, 0⟩ :=
    Run.start ⟨rfl, rfl, rfl, rfl, rfl⟩
  have h1 := Run.next h0 (Step.scheduled 0 9 0 70 71 rfl)
  have h2 := Run.next h1 (Step.scheduled 1 8 0 80 81 rfl)
  have h3 := Run.next h2 (Step.popped 8 rfl)
  exact ⟨_, _, h3, by decide, pops_least _ _ _ _ h3⟩

end Raz.Thread.Scheduler
