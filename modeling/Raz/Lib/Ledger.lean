import Mathlib.Logic.Function.Basic

/-!
# Objects that pass from hand to hand

Each object is in the hands of one holder, or waits in a common queue, or is in nobody's hands.
A history records what has happened to the objects, and what has happened to an object tells
where it is: a holder knows the life so far of the object it holds, every object that waits has
the same life, and an object in nobody's hands has an empty life or a complete one.

Results:
1. `put`, `queue`, `settle`: it comes into a hand, joins the queue, or is done with.
2. `extend`, `release`, `enqueue`, `dequeue`, `cancel`, `create`: a whole move.
-/

namespace Ledger

variable {Object Kind : Type} [DecidableEq Object]

/-- What has happened to an object, oldest first. -/
def life (history : List (Object × Kind)) (object : Object) : List Kind :=
  history.filterMap (fun entry => if entry.1 = object then some entry.2 else none)

/-- Entries about one object. -/
def record (object : Object) (kinds : List Kind) : List (Object × Kind) :=
  kinds.map (fun kind => (object, kind))

omit [DecidableEq Object] in
theorem record_append (object : Object) (kinds more : List Kind) :
    record object (kinds ++ more) = record object kinds ++ record object more :=
  List.map_append

theorem life_append (left right : List (Object × Kind)) (object : Object) :
    life (left ++ right) object = life left object ++ life right object :=
  List.filterMap_append

@[simp] theorem life_record_self (object : Object) (kinds : List Kind) :
    life (record object kinds) object = kinds := by
  simp only [life, record, List.filterMap_map]
  induction kinds with
  | nil => rfl
  | cons kind kinds ih => rw [List.filterMap_cons_some (b := kind) (by simp), ih]

theorem life_record_of_ne {object other : Object} (h : other ≠ object) (kinds : List Kind) :
    life (record object kinds) other = [] := by
  simp only [life, record, List.filterMap_map, List.filterMap_eq_nil_iff]
  intro kind _
  exact if_neg (Ne.symm h)

/-- How often something has happened to an object. -/
theorem count_life [DecidableEq Kind] (history : List (Object × Kind)) (object : Object)
    (kind : Kind) : (life history object).count kind = history.count (object, kind) := by
  induction history with
  | nil => rfl
  | cons entry history ih =>
    obtain ⟨other, happened⟩ := entry
    rw [List.count_cons, ← ih]
    by_cases heq : other = object
    · subst heq
      have hlife : life ((other, happened) :: history) other = happened :: life history other := by
        simp [life]
      rw [hlife, List.count_cons]
      simp
    · have hlife : life ((other, happened) :: history) object = life history object := by
        simp [life, heq]
      rw [hlife]
      simp [heq]

theorem life_extend_self (history : List (Object × Kind)) (object : Object) (kinds : List Kind) :
    life (history ++ record object kinds) object = life history object ++ kinds := by
  rw [life_append, life_record_self]

theorem life_extend_of_ne {object other : Object} (h : other ≠ object)
    (history : List (Object × Kind)) (kinds : List Kind) :
    life (history ++ record object kinds) other = life history other := by
  rw [life_append, life_record_of_ne h, List.append_nil]

end Ledger

open Ledger List

/-- Where the objects are. One of them may be on its way. -/
structure Ledger {Holder Object Kind : Type} [DecidableEq Object] (queuing : List Kind)
    (Complete : List Kind → Prop) (history : List (Object × Kind))
    (holder : Holder → Option (Object × List Kind)) (waiting : List Object)
    (moving : Option Object) : Prop where
  held : ∀ {hand : Holder} {object : Object} {kinds : List Kind},
    holder hand = some (object, kinds) → life history object = kinds
  unique : ∀ {hand other : Holder} {object : Object} {kinds kinds' : List Kind},
    holder hand = some (object, kinds) → holder other = some (object, kinds') → hand = other
  waits : ∀ {object : Object}, object ∈ waiting → life history object = queuing
  nodup : waiting.Nodup
  apart : ∀ {hand : Holder} {object : Object} {kinds : List Kind},
    holder hand = some (object, kinds) → object ∉ waiting
  free : ∀ {object : Object}, moving = some object →
    (∀ hand kinds, holder hand ≠ some (object, kinds)) ∧ object ∉ waiting
  rest : ∀ {object : Object}, moving ≠ some object →
    (∀ hand kinds, holder hand ≠ some (object, kinds)) → object ∉ waiting →
      life history object = [] ∨ Complete (life history object)

namespace Ledger

variable {Holder Object Kind : Type} [DecidableEq Object]
  {queuing : List Kind} {Complete : List Kind → Prop} {history : List (Object × Kind)}
  {holder : Holder → Option (Object × List Kind)} {waiting : List Object}
  {hand : Holder} {object : Object} {kinds : List Kind}

/-- Nothing has happened and no hand holds anything. -/
theorem start (h : ∀ hand, holder hand = none) :
    Ledger queuing Complete [] holder [] none where
  held := fun hheld => by rw [h] at hheld; cases hheld
  unique := fun hheld => by rw [h] at hheld; cases hheld
  waits := fun hwaits => absurd hwaits List.not_mem_nil
  nodup := List.nodup_nil
  apart := fun hheld => by rw [h] at hheld; cases hheld
  free := nofun
  rest := fun _ _ _ => Or.inl rfl

section

variable [DecidableEq Holder]

omit [DecidableEq Object] in
/-- A hand after a change to one of the hands. -/
theorem update_cases {value : Option (Object × List Kind)} {other : Holder}
    {entry : Object × List Kind} (h : Function.update holder hand value other = some entry) :
    (other = hand ∧ value = some entry) ∨ (other ≠ hand ∧ holder other = some entry) := by
  by_cases heq : other = hand
  · subst heq
    rw [Function.update_self] at h
    exact .inl ⟨rfl, h⟩
  · rw [Function.update_of_ne heq] at h
    exact .inr ⟨heq, h⟩

omit [DecidableEq Object] in
/-- What a hand that is emptied does not hold any more. -/
theorem emptied {other : Holder} {entry : Object × List Kind}
    (h : Function.update holder hand none other = some entry) :
    other ≠ hand ∧ holder other = some entry := by
  rcases update_cases h with ⟨_, hnone⟩ | hother
  · cases hnone
  · exact hother

/-- An object leaves a hand. -/
theorem lift (h : Ledger queuing Complete history holder waiting none)
    (hheld : holder hand = some (object, kinds)) :
    Ledger queuing Complete history (Function.update holder hand none) waiting (some object) where
  held := fun hother => h.held (emptied hother).2
  unique := fun hleft hright => h.unique (emptied hleft).2 (emptied hright).2
  waits := h.waits
  nodup := h.nodup
  apart := fun hother => h.apart (emptied hother).2
  free := by
    rintro _ ⟨⟩
    refine ⟨fun other kinds' hother => ?_, h.apart hheld⟩
    exact (emptied hother).1 (h.unique (emptied hother).2 hheld)
  rest := by
    intro object' hne hnobody hnot
    refine h.rest nofun (fun other kinds' hother => ?_) hnot
    by_cases heq : other = hand
    · subst heq
      rw [hheld] at hother
      cases hother
      exact hne rfl
    · exact hnobody other kinds' (by rw [Function.update_of_ne heq]; exact hother)

/-- It comes into a hand that is empty. -/
theorem put (h : Ledger queuing Complete history holder waiting (some object))
    (hempty : holder hand = none) :
    Ledger queuing Complete history
      (Function.update holder hand (some (object, life history object))) waiting none where
  held := by
    intro other object' kinds' hother
    rcases update_cases hother with ⟨_, heq⟩ | ⟨_, hother⟩
    · cases heq
      rfl
    · exact h.held hother
  unique := by
    intro left right object' kinds' kinds'' hleft hright
    rcases update_cases hleft with ⟨rfl, heq⟩ | ⟨_, hleft'⟩
    · rcases update_cases hright with ⟨rfl, _⟩ | ⟨_, hright'⟩
      · rfl
      · cases heq
        exact absurd hright' ((h.free rfl).1 _ _)
    · rcases update_cases hright with ⟨rfl, heq⟩ | ⟨_, hright'⟩
      · cases heq
        exact absurd hleft' ((h.free rfl).1 _ _)
      · exact h.unique hleft' hright'
  waits := h.waits
  nodup := h.nodup
  apart := by
    intro other object' kinds' hother
    rcases update_cases hother with ⟨_, heq⟩ | ⟨_, hother⟩
    · cases heq
      exact (h.free rfl).2
    · exact h.apart hother
  free := nofun
  rest := by
    intro object' _ hnobody hnot
    refine h.rest ?_ (fun other kinds' hother => ?_) hnot
    · rintro ⟨⟩
      exact hnobody hand _ (Function.update_self _ _ _)
    have hne : other ≠ hand := by
      rintro rfl
      rw [hempty] at hother
      cases hother
    exact hnobody other kinds' (by rw [Function.update_of_ne hne]; exact hother)

end

section

variable (h : Ledger queuing Complete history holder waiting (some object))

include h

/-- Something happens to the object on its way. -/
theorem note (more : List Kind) :
    Ledger queuing Complete (history ++ record object more) holder waiting (some object) where
  held := by
    intro other object' kinds' hother
    have hne : object' ≠ object := by
      rintro rfl
      exact (h.free rfl).1 _ _ hother
    rw [life_extend_of_ne hne, h.held hother]
  unique := h.unique
  waits := by
    intro object' hwaits
    have hne : object' ≠ object := by
      rintro rfl
      exact (h.free rfl).2 hwaits
    rw [life_extend_of_ne hne, h.waits hwaits]
  nodup := h.nodup
  apart := h.apart
  free := h.free
  rest := by
    intro object' hne hnobody hnot
    have hne' : object' ≠ object := fun heq => hne (congrArg some heq.symm)
    rw [life_extend_of_ne hne']
    exact h.rest hne hnobody hnot

/-- It joins the queue. -/
theorem queue (hlife : life history object = queuing) :
    Ledger queuing Complete history holder (waiting ++ [object]) none where
  held := h.held
  unique := h.unique
  waits := by
    intro object' hwaits
    rcases mem_append.mp hwaits with hwaits | hlast
    · exact h.waits hwaits
    · rw [mem_singleton.mp hlast]
      exact hlife
  nodup := by
    refine nodup_append.mpr ⟨h.nodup, by simp, ?_⟩
    rintro left hleft right hright rfl
    rw [mem_singleton.mp hright] at hleft
    exact (h.free rfl).2 hleft
  apart := by
    intro other object' kinds' hother hwaits
    rcases mem_append.mp hwaits with hwaits | hlast
    · exact h.apart hother hwaits
    · rw [mem_singleton.mp hlast] at hother
      exact (h.free rfl).1 _ _ hother
  free := nofun
  rest := by
    intro object' _ hnobody hnot
    refine h.rest ?_ hnobody (fun hwaits => hnot (mem_append_left _ hwaits))
    rintro ⟨⟩
    exact hnot (mem_append_right _ (mem_singleton_self _))

end

/-- It leaves the front of the queue. -/
theorem unqueue (h : Ledger queuing Complete history holder (object :: waiting) none) :
    Ledger queuing Complete history holder waiting (some object) where
  held := h.held
  unique := h.unique
  waits := fun hwaits => h.waits (List.mem_cons_of_mem _ hwaits)
  nodup := (List.nodup_cons.mp h.nodup).2
  apart := fun hother hwaits => h.apart hother (List.mem_cons_of_mem _ hwaits)
  free := by
    rintro _ ⟨⟩
    exact ⟨fun other kinds' hother => h.apart hother mem_cons_self, (nodup_cons.mp h.nodup).1⟩
  rest := by
    intro object' hne hnobody hnot
    refine h.rest nofun hnobody (fun hwaits => ?_)
    rcases mem_cons.mp hwaits with rfl | hwaits
    · exact hne rfl
    · exact hnot hwaits

/-- Nothing more happens to it. -/
theorem settle (h : Ledger queuing Complete history holder waiting (some object))
    (hcomplete : Complete (life history object)) :
    Ledger queuing Complete history holder waiting none where
  held := h.held
  unique := h.unique
  waits := h.waits
  nodup := h.nodup
  apart := h.apart
  free := nofun
  rest := by
    intro object' _ hnobody hnot
    by_cases heq : object' = object
    · exact .inr (heq ▸ hcomplete)
    · exact h.rest (fun hsome => heq (Option.some.inj hsome).symm) hnobody hnot

/-- An object to which nothing has happened yet sets out. -/
theorem begin (h : Ledger queuing Complete history holder waiting none)
    (hlife : life history object = []) (hqueuing : queuing ≠ [])
    (hheld : ∀ hand object, holder hand ≠ some (object, [])) :
    Ledger queuing Complete history holder waiting (some object) where
  held := h.held
  unique := h.unique
  waits := h.waits
  nodup := h.nodup
  apart := h.apart
  free := by
    rintro _ ⟨⟩
    refine ⟨fun other kinds' hother => ?_, fun hwaits => hqueuing ?_⟩
    · have hkinds := h.held hother
      rw [hlife] at hkinds
      subst hkinds
      exact hheld _ _ hother
    · rw [← h.waits hwaits, hlife]
  rest := fun _ hnobody hnot => h.rest nofun hnobody hnot

/-! ## From hand to hand -/

section

variable [DecidableEq Holder]

section

variable (h : Ledger queuing Complete history holder waiting none)

include h

section

variable (hheld : holder hand = some (object, kinds))

include hheld

/-- Something happens to an object in a hand. -/
theorem extend (more : List Kind) :
    Ledger queuing Complete (history ++ record object more)
      (Function.update holder hand (some (object, kinds ++ more))) waiting none := by
  have hput := ((h.lift hheld).note more).put (Function.update_self _ _ _)
  rw [Function.update_idem, life_extend_self, h.held hheld] at hput
  exact hput

/-- A hand settles its object. -/
theorem release {more : List Kind}
    (hcomplete : Complete (kinds ++ more)) :
    Ledger queuing Complete (history ++ record object more) (Function.update holder hand none)
      waiting none :=
  ((h.lift hheld).note more).settle (by rw [life_extend_self, h.held hheld]; exact hcomplete)

/-- A hand queues its object. -/
theorem enqueue {more : List Kind}
    (hqueuing : kinds ++ more = queuing) :
    Ledger queuing Complete (history ++ record object more) (Function.update holder hand none)
      (waiting ++ [object]) none :=
  ((h.lift hheld).note more).queue (by rw [life_extend_self, h.held hheld]; exact hqueuing)

end

end

/-- An empty hand takes the object at the front of the queue. -/
theorem dequeue (h : Ledger queuing Complete history holder (object :: waiting) none)
    (hempty : holder hand = none) (more : List Kind) :
    Ledger queuing Complete (history ++ record object more)
      (Function.update holder hand (some (object, queuing ++ more))) waiting none := by
  have hput := (h.unqueue.note more).put hempty
  rw [life_extend_self, h.waits mem_cons_self] at hput
  exact hput

omit [DecidableEq Holder] in
/-- The object at the front of the queue is settled. -/
theorem cancel (h : Ledger queuing Complete history holder (object :: waiting) none)
    {more : List Kind} (hcomplete : Complete (queuing ++ more)) :
    Ledger queuing Complete (history ++ record object more) holder waiting none :=
  (h.unqueue.note more).settle (by rw [life_extend_self, h.waits mem_cons_self]; exact hcomplete)

/-- An object that is new comes into an empty hand. -/
theorem create (h : Ledger queuing Complete history holder waiting none)
    (hempty : holder hand = none) (hlife : life history object = []) (hqueuing : queuing ≠ [])
    (hheld : ∀ hand object, holder hand ≠ some (object, [])) (more : List Kind) :
    Ledger queuing Complete (history ++ record object more)
      (Function.update holder hand (some (object, more))) waiting none := by
  have hput := ((h.begin hlife hqueuing hheld).note more).put hempty
  rw [life_extend_self, hlife, nil_append] at hput
  exact hput

end

end Ledger
