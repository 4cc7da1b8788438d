import Raz.Collections.Operations

/-!
# Runs of a hash map

Sequences of operations from an empty map, with allocations that may fail. The finite map steps
by what the operations report: an operation that reports a failure does not change it, and the
blocks of a larger table are withheld then.

Result: `hash_map_runs`: so is a run, and there always is an empty slot at which a probe ends.
-/

namespace Raz.Collections

open FiniteMap (update Enumerates Size)

/-- The operations. -/
inductive Operation (K V : Type) where
  | insert (key : K) (value : V)
  | remove (key : K)
  | tryRemove (key : K) (output : V)
  | get (key : K)
  | containsKey (key : K)
  | len
  | reserve (entries : Int)
  | shrinkToFit
  | clear
  | keys
  | values
  | entries

/-- What they return. -/
inductive Returned (K V : Type) where
  | unit
  | flag (value : Bool)
  | value (value : Option V)
  | taken (done : Bool) (output : V)
  | number (value : Nat)
  | keys (keys : List (Option K))
  | values (values : List (Option V))
  | entries (pairs : List (Option (K × V)))
  deriving DecidableEq

/-- An operation as it is seen: the blocks that it was granted, the slots that the map had, and what
it returned. -/
structure Seen (K V : Type) where
  operation : Operation K V
  grants : Grants
  capacity : Nat
  returned : Returned K V

open HashMap (Withheld)

/-- The steps of a finite map. -/
inductive FiniteStep {K V : Type} [BEq K] (layout : Layout) (content : K → Option V) :
    Seen K V → (K → Option V) → Prop
  | insert {grants : Grants} {capacity : Nat} (key : K) (value : V) :
      FiniteStep layout content ⟨.insert key value, grants, capacity, .flag true⟩
        (update content key (some value))
  | insert_failed {grants : Grants} {capacity : Nat} (key : K) (value : V)
      (withheld : Withheld layout grants (max 8 (2 * capacity))) :
      FiniteStep layout content ⟨.insert key value, grants, capacity, .flag false⟩ content
  | remove {grants : Grants} {capacity : Nat} (key : K) :
      FiniteStep layout content ⟨.remove key, grants, capacity, .value (content key)⟩
        (update content key none)
  | tryRemove {grants : Grants} {capacity : Nat} (key : K) (output : V) :
      FiniteStep layout content ⟨.tryRemove key output, grants, capacity,
        .taken (content key).isSome ((content key).getD output)⟩ (update content key none)
  | get {grants : Grants} {capacity : Nat} (key : K) :
      FiniteStep layout content ⟨.get key, grants, capacity, .value (content key)⟩ content
  | containsKey {grants : Grants} {capacity : Nat} (key : K) :
      FiniteStep layout content ⟨.containsKey key, grants, capacity, .flag (content key).isSome⟩
        content
  | len {grants : Grants} {capacity size : Nat} (count : Size content size) :
      FiniteStep layout content ⟨.len, grants, capacity, .number size⟩ content
  | reserve {grants : Grants} {capacity : Nat} (entries : Int) :
      FiniteStep layout content ⟨.reserve entries, grants, capacity, .flag true⟩ content
  | reserve_failed {grants : Grants} {capacity : Nat} (entries : Int)
      (withheld : entries < 0 ∨
        Withheld layout grants (max (max 8 capacity) (3 * entries.toNat))) :
      FiniteStep layout content ⟨.reserve entries, grants, capacity, .flag false⟩ content
  | shrinkToFit {grants : Grants} {capacity : Nat} :
      FiniteStep layout content ⟨.shrinkToFit, grants, capacity, .flag true⟩ content
  | shrinkToFit_failed {grants : Grants} {capacity size : Nat} (count : Size content size)
      (withheld : Withheld layout grants (max 8 (3 * size))) :
      FiniteStep layout content ⟨.shrinkToFit, grants, capacity, .flag false⟩ content
  | clear {grants : Grants} {capacity : Nat} :
      FiniteStep layout content ⟨.clear, grants, capacity, .unit⟩ fun _ => none
  | keys {grants : Grants} {capacity : Nat} {pairs : List (K × V)}
      (all : Enumerates content pairs) :
      FiniteStep layout content
        ⟨.keys, grants, capacity, .keys (pairs.map (some ∘ Prod.fst))⟩ content
  | values {grants : Grants} {capacity : Nat} {pairs : List (K × V)}
      (all : Enumerates content pairs) :
      FiniteStep layout content
        ⟨.values, grants, capacity, .values (pairs.map (some ∘ Prod.snd))⟩ content
  | entries {grants : Grants} {capacity : Nat} {pairs : List (K × V)}
      (all : Enumerates content pairs) :
      FiniteStep layout content ⟨.entries, grants, capacity, .entries (pairs.map some)⟩ content

/-- The runs of a finite map. -/
inductive FiniteRun {K V : Type} [BEq K] (layout : Layout) :
    (K → Option V) → List (Seen K V) → (K → Option V) → Prop
  | nil (content : K → Option V) : FiniteRun layout content [] content
  | cons {content next last : K → Option V} {seen : Seen K V} {rest : List (Seen K V)}
      (step : FiniteStep layout content seen next) (run : FiniteRun layout next rest last) :
      FiniteRun layout content (seen :: rest) last

namespace HashMap

section
variable {K V : Type} [BEq K] [Hashable K]

/-- An operation, with what its allocations return. -/
def perform (layout : Layout) (grants : Grants) (map : HashMap K V) :
    Operation K V → Returned K V × HashMap K V
  | .insert key value =>
      let (done, map) := insert layout grants map key value
      (.flag done, map)
  | .remove key =>
      let (value, map) := remove map key
      (.value value, map)
  | .tryRemove key output =>
      let (done, output, map) := tryRemove map key output
      (.taken done output, map)
  | .get key => (.value (get map key), map)
  | .containsKey key => (.flag (containsKey map key), map)
  | .len => (.number map.length, map)
  | .reserve entries =>
      let (done, map) := reserve layout grants map entries
      (.flag done, map)
  | .shrinkToFit =>
      let (done, map) := shrinkToFit layout grants map
      (.flag done, map)
  | .clear => (.unit, clear map)
  | .keys => (.keys (map.keys.collect Iter.currentKey (map.capacity + 1)), map)
  | .values => (.values (map.values.collect Iter.currentValue (map.capacity + 1)), map)
  | .entries => (.entries (map.entries.collect Iter.currentEntry (map.capacity + 1)), map)

/-- The operations in order, as they are seen. -/
def run (layout : Layout) :
    HashMap K V → List (Operation K V × Grants) → List (Seen K V) × HashMap K V
  | map, [] => ([], map)
  | map, (operation, grants) :: rest =>
      let (returned, next) := perform layout grants map operation
      let (seen, last) := run layout next rest
      (⟨operation, grants, map.capacity, returned⟩ :: seen, last)

/-- There is an empty slot, and the probe of every key ends there or at the key. -/
def ProbesEnd (map : HashMap K V) : Prop :=
  map.cells ≠ [] → .empty ∈ map.cells ∧ ∀ key : K, ∃ distance,
    Probing.StopsAt map.cells (wanted key (hashControl (hash key))) (hash key).toNat distance

theorem Valid.probesEnd {map : HashMap K V} (h : Valid map) : ProbesEnd map :=
  fun hne => ⟨h.empty_mem hne, fun _ => Probing.exists_stop (h.empty_mem hne) _ _⟩

variable [EquivBEq K] [LawfulHashable K]

/-- **An operation is a step of the finite map.** -/
theorem perform_spec {map : HashMap K V} (h : Valid map) {content : K → Option V}
    (hcontent : Represents map.cells content) (layout : Layout) (grants : Grants)
    (operation : Operation K V) :
    ∃ next, FiniteStep layout content
        ⟨operation, grants, map.capacity, (perform layout grants map operation).1⟩ next ∧
      Valid (perform layout grants map operation).2 ∧
      Represents (perform layout grants map operation).2.cells next := by
  have hsize : Size content map.length := by
    have hcount := (hcontent.enumerates h.probed).size
    rwa [length_pairs, ← h.live] at hcount
  have hresized {result : Bool × HashMap K V} (hres : Resized map result) :
      Represents result.2.cells content := fun key value =>
    (hcontent key value).trans (hres.holds key value).symm
  cases operation with
  | insert key value =>
    obtain ⟨hvalid, hnext, -, hensured⟩ := insert_spec h hcontent layout grants key value
    cases hdone : (insert layout grants map key value).1 with
    | true =>
      rw [hdone, if_pos rfl] at hnext
      refine ⟨_, ?_, hvalid, hnext⟩
      simp only [perform, hdone]
      exact .insert key value
    | false =>
      rw [hdone, if_neg Bool.false_ne_true] at hnext
      refine ⟨_, ?_, hvalid, hnext⟩
      simp only [perform, hdone]
      exact .insert_failed key value (ensureInsertCapacity_refused (hensured.symm.trans hdone))
  | remove key =>
    obtain ⟨hval, hvalid, hnext⟩ := remove_spec h hcontent key
    refine ⟨_, ?_, hvalid, hnext⟩
    simp only [perform, hval]
    exact .remove key
  | tryRemove key output =>
    obtain ⟨hval, hvalid, hnext⟩ := remove_spec h hcontent key
    simp only [perform, tryRemove_eq h key output, hval]
    exact ⟨_, .tryRemove key output, hvalid, hnext⟩
  | get key =>
    simp only [perform, get_spec h hcontent key]
    exact ⟨_, .get key, h, hcontent⟩
  | containsKey key =>
    simp only [perform, containsKey_spec h hcontent key]
    exact ⟨_, .containsKey key, h, hcontent⟩
  | len => exact ⟨_, .len hsize, h, hcontent⟩
  | reserve entries =>
    have hspec := reserve_spec h layout grants entries
    refine ⟨_, ?_, hspec.valid, hresized hspec⟩
    cases hdone : (reserve layout grants map entries).1 with
    | true =>
      simp only [perform, hdone]
      exact .reserve entries
    | false =>
      simp only [perform, hdone]
      exact .reserve_failed entries (reserve_refused h hdone)
  | shrinkToFit =>
    have hspec := shrinkToFit_spec h layout grants
    refine ⟨_, ?_, hspec.valid, hresized hspec⟩
    cases hdone : (shrinkToFit layout grants map).1 with
    | true =>
      simp only [perform, hdone]
      exact .shrinkToFit
    | false =>
      simp only [perform, hdone]
      exact .shrinkToFit_failed hsize (shrinkToFit_refused hdone)
  | clear =>
    obtain ⟨hvalid, hnext⟩ := clear_spec h
    exact ⟨_, .clear, hvalid, hnext⟩
  | keys =>
    simp only [perform, (iterators_eq map).1]
    exact ⟨_, .keys (hcontent.enumerates h.probed), h, hcontent⟩
  | values =>
    simp only [perform, (iterators_eq map).2.1]
    exact ⟨_, .values (hcontent.enumerates h.probed), h, hcontent⟩
  | entries =>
    simp only [perform, (iterators_eq map).2.2]
    exact ⟨_, .entries (hcontent.enumerates h.probed), h, hcontent⟩

theorem run_valid (layout : Layout) (history : List (Operation K V × Grants)) :
    ∀ {map : HashMap K V}, Valid map → ∀ {content : K → Option V},
      Represents map.cells content →
      ∃ last, FiniteRun layout content (run layout map history).1 last ∧
        Valid (run layout map history).2 ∧ Represents (run layout map history).2.cells last := by
  induction history with
  | nil => exact fun h _ hcontent => ⟨_, .nil _, h, hcontent⟩
  | cons first history ih =>
    intro map h content hcontent
    obtain ⟨operation, grants⟩ := first
    obtain ⟨next, hstep, hvalid, hnext⟩ := perform_spec h hcontent layout grants operation
    obtain ⟨last, hrun, hlast⟩ := ih hvalid hnext
    exact ⟨last, .cons hstep hrun, hlast⟩

/-- **A run of a hash map is a run of the finite map that is empty at first**, whichever
allocations fail: an operation fails only where blocks are withheld from it. At the end there is an
empty slot, so that every probe ends. -/
theorem hash_map_runs (layout : Layout) (history : List (Operation K V × Grants)) :
    ∃ last, FiniteRun layout (fun _ => none) (run layout (new : HashMap K V) history).1 last ∧
      Represents (run layout (new : HashMap K V) history).2.cells last ∧
      ProbesEnd (run layout (new : HashMap K V) history).2 := by
  obtain ⟨last, hrun, hvalid, hlast⟩ :=
    run_valid layout history valid_new (represents_replicate (K := K) (V := V) 0)
  exact ⟨last, hrun, hlast, hvalid.probesEnd⟩

end

/-- An insertion that an allocation refuses, one that is done, and a lookup. -/
theorem hash_map_runs_two :
    ∃ last, FiniteRun ⟨8, 8⟩ (fun _ => none) (run ⟨8, 8⟩ (new : HashMap Nat Nat)
        [(.insert 3 4, ⟨true, false, true⟩), (.insert 3 5, ⟨true, true, true⟩),
          (.get 3, ⟨true, true, true⟩)]).1 last ∧
      Represents (run ⟨8, 8⟩ (new : HashMap Nat Nat)
        [(.insert 3 4, ⟨true, false, true⟩), (.insert 3 5, ⟨true, true, true⟩),
          (.get 3, ⟨true, true, true⟩)]).2.cells last ∧
      ProbesEnd (run ⟨8, 8⟩ (new : HashMap Nat Nat)
        [(.insert 3 4, ⟨true, false, true⟩), (.insert 3 5, ⟨true, true, true⟩),
          (.get 3, ⟨true, true, true⟩)]).2 :=
  hash_map_runs _ _

example : ((run ⟨8, 8⟩ (new : HashMap Nat Nat)
    [(.insert 3 4, ⟨true, false, true⟩), (.insert 3 5, ⟨true, true, true⟩),
      (.get 3, ⟨true, true, true⟩), (.entries, ⟨true, true, true⟩)]).1.map Seen.returned) =
    [.flag false, .flag true, .value (some 5), .entries [some (3, 5)]] := by decide

end HashMap

end Raz.Collections
