import Raz.Thread.Barrier

/-!
# The generations of the barrier

With the calls in the order in which they arrived, the generation of a call is its position divided
by the number of parties, and the last call of a generation is the one that completes it. A waiter
knows the counter as it was when it arrived, and the counter moves when its generation is complete.
The counter is a word: a waiter that sleeps until it has come round sleeps on.

Result: `calls_in_generations`: who returns when, and with what, along every run.
-/

namespace Raz.Thread.Barrier

open Transition Function Nat

/-! ## Positions -/

/-- All calls of the generation of the call at a position are among the first `count` calls. -/
def Complete (parties count position : Nat) : Prop := (position / parties + 1) * parties ≤ count

/-- The call at a position is the last one of its generation. -/
def IsLast (parties position : Nat) : Prop := position % parties + 1 = parties

section

variable {parties count position : Nat}

theorem Complete.mono {more : Nat} (h : Complete parties count position) (hle : count ≤ more) :
    Complete parties more position := Nat.le_trans h hle

theorem complete_iff (hpos : 0 < parties) :
    Complete parties count position ↔ position / parties < count / parties :=
  (le_div_iff_mul_le hpos).symm

theorem complete_of_isLast (h : IsLast parties position) :
    Complete parties (position + 1) position := by
  have hdiv := div_add_mod position parties
  unfold IsLast at h
  unfold Complete
  rw [Nat.add_mul, Nat.one_mul, Nat.mul_comm]
  omega

theorem succ_mod_of_not_isLast (hpos : 0 < parties) (h : ¬ IsLast parties position) :
    (position + 1) % parties = position % parties + 1 ∧
      (position + 1) / parties = position / parties := by
  have hlt := mod_lt position hpos
  have hdiv := div_add_mod position parties
  have hstep : position + 1 = position % parties + 1 + parties * (position / parties) := by omega
  have hsmall : position % parties + 1 < parties := Nat.lt_of_le_of_ne hlt h
  rw [hstep, add_mul_mod_self_left, mod_eq_of_lt hsmall, add_mul_div_left _ _ hpos,
    Nat.div_eq_of_lt hsmall, Nat.zero_add]
  exact ⟨rfl, rfl⟩

theorem succ_mod_of_isLast (hpos : 0 < parties) (h : IsLast parties position) :
    (position + 1) % parties = 0 ∧ (position + 1) / parties = position / parties + 1 := by
  have hdiv := div_add_mod position parties
  unfold IsLast at h
  have hstep : position + 1 = parties * (position / parties + 1) := by
    rw [Nat.mul_add, Nat.mul_one]
    omega
  rw [hstep, Nat.mul_mod_right, Nat.mul_div_cancel_left _ hpos]
  exact ⟨rfl, rfl⟩

end

/-! ## Calls -/

section

variable {Thread : Type} {calls : List (Call Thread)} {thread : Thread}

theorem getElem?_snoc {items : List (Call Thread)} {item found : Call Thread} {position : Nat} :
    (items ++ [item])[position]? = some found ↔
      items[position]? = some found ∨ position = items.length ∧ item = found := by
  rcases Nat.lt_trichotomy position items.length with hlt | rfl | hgt
  · rw [List.getElem?_append_left hlt]
    exact ⟨.inl, fun h => h.resolve_right fun hend => absurd hend.1 (Nat.ne_of_lt hlt)⟩
  · rw [List.getElem?_append_right (Nat.le_refl _), Nat.sub_self,
      List.getElem?_eq_none (Nat.le_refl _)]
    simp
  · rw [List.getElem?_eq_none (by simp; omega), List.getElem?_eq_none (Nat.le_of_lt hgt)]
    exact ⟨fun h => absurd h.symm (Option.some_ne_none _),
      fun h => absurd (h.resolve_left (Option.some_ne_none _).symm).1 (Nat.ne_of_gt hgt)⟩

variable [DecidableEq Thread]

/-- An open call behind a return was open before, and of another thread. -/
theorem open_of_finish {other : Thread} {result : Bool} {position : Nat}
    (h : (calls.map (Call.finish thread result))[position]? = some (Call.opened other)) :
    calls[position]? = some (Call.opened other) ∧ other ≠ thread := by
  rw [List.getElem?_map] at h
  obtain ⟨call, hcall, hfinish⟩ := Option.map_eq_some_iff.mp h
  unfold Call.finish at hfinish
  split at hfinish
  · cases hfinish
  · rename_i hother
    subst hfinish
    exact ⟨hcall, fun heq => hother ⟨heq, rfl⟩⟩

theorem finish_of_open {other : Thread} {result : Bool} {position : Nat}
    (h : calls[position]? = some (Call.opened other)) (hne : other ≠ thread) :
    (calls.map (Call.finish thread result))[position]? = some (Call.opened other) := by
  rw [List.getElem?_map, h, Option.map_some, Call.finish, if_neg fun hboth => hne hboth.1]

/-- A call that has returned did so before, or is the open call of the thread. -/
theorem result_of_finish {result value : Bool} {position : Nat} {call : Call Thread}
    (h : (calls.map (Call.finish thread result))[position]? = some call)
    (hval : call.result = some value) :
    (∃ before, calls[position]? = some before ∧ before.result = some value) ∨
      calls[position]? = some (Call.opened thread) ∧ value = result := by
  rw [List.getElem?_map] at h
  obtain ⟨before, hbefore, rfl⟩ := Option.map_eq_some_iff.mp h
  unfold Call.finish at hval
  split at hval
  · rename_i hthis
    obtain ⟨rfl, hopen⟩ := hthis
    refine .inr ⟨?_, (Option.some.inj hval).symm⟩
    rw [hbefore, Call.opened, ← hopen]
  · exact .inl ⟨before, hbefore, hval⟩

/-! ## The invariant -/

/-- Where the thread of an open call is. -/
def AtCall (parties count position : Nat) : Pc → Prop
  | .sleeping generation =>
      generation = Word.wrap (position / parties : Nat) ∧ ¬ IsLast parties position
  | .leaving result => Complete parties count position ∧ (result = true ↔ IsLast parties position)
  | .idle | .locking => False

def Pc.Inside : Pc → Prop
  | .sleeping _ | .leaving _ => True
  | .idle | .locking => False

structure Consistent (parties : Nat) (calls : List (Call Thread)) (barrier : BarrierState)
    (threads : Thread → Pc) : Prop where
  parties_eq : barrier.parties = parties
  waiting_eq : barrier.waiting = (calls.length % parties : Nat)
  generation_eq : barrier.generation = Word.wrap (calls.length / parties : Nat)
  returned : ∀ {position : Nat} {call : Call Thread} {result : Bool},
    calls[position]? = some call → call.result = some result →
      Complete parties calls.length position ∧ (result = true ↔ IsLast parties position)
  atCall : ∀ {position : Nat} {thread : Thread}, calls[position]? = some (Call.opened thread) →
    AtCall parties calls.length position (threads thread)
  once : ∀ {position other : Nat} {thread : Thread}, calls[position]? = some (Call.opened thread) →
    calls[other]? = some (Call.opened thread) → position = other
  inside : ∀ {thread : Thread}, (threads thread).Inside →
    ∃ position : Nat, calls[position]? = some (Call.opened thread)

theorem AtCall.mono {parties count more position : Nat} {pc : Pc}
    (h : AtCall parties count position pc) (hle : count ≤ more) :
    AtCall parties more position pc := by
  cases pc with
  | idle => exact h
  | locking => exact h
  | sleeping generation => exact h
  | leaving result => exact ⟨h.1.mono hle, h.2⟩

theorem AtCall.inside {parties count position : Nat} {pc : Pc}
    (h : AtCall parties count position pc) : pc.Inside := by
  cases pc with
  | idle => exact h
  | locking => exact h
  | sleeping generation => trivial
  | leaving result => trivial

variable {parties : Nat} {barrier : BarrierState} {threads : Thread → Pc}

section

variable (h : Consistent parties calls barrier threads)

include h

theorem Consistent.outside (hthread : ¬ (threads thread).Inside) {pc : Pc} (hpc : ¬ pc.Inside) :
    Consistent parties calls barrier (Function.update threads thread pc) where
  parties_eq := h.parties_eq
  waiting_eq := h.waiting_eq
  generation_eq := h.generation_eq
  returned := h.returned
  once := h.once
  atCall {position other} hopen := by
    have hat := h.atCall hopen
    have hne : other ≠ thread := by
      rintro rfl
      exact hthread hat.inside
    rwa [update_of_ne hne]
  inside {other} hin := by
    by_cases heq : other = thread
    · subst heq
      rw [update_self] at hin
      exact absurd hin hpc
    · rw [update_of_ne heq] at hin
      exact h.inside hin

theorem Consistent.move {position : Nat}
    (hopen : calls[position]? = some (Call.opened thread)) {pc : Pc}
    (hpc : AtCall parties calls.length position pc) :
    Consistent parties calls barrier (Function.update threads thread pc) where
  parties_eq := h.parties_eq
  waiting_eq := h.waiting_eq
  generation_eq := h.generation_eq
  returned := h.returned
  once := h.once
  atCall {place other} hother := by
    by_cases heq : other = thread
    · subst heq
      obtain rfl := h.once hopen hother
      rwa [update_self]
    · rw [update_of_ne heq]
      exact h.atCall hother
  inside {other} hin := by
    by_cases heq : other = thread
    · subst heq
      exact ⟨position, hopen⟩
    · rw [update_of_ne heq] at hin
      exact h.inside hin

theorem Consistent.finish {result : Bool}
    (hthread : threads thread = .leaving result) :
    Consistent parties (calls.map (Call.finish thread result)) barrier
      (Function.update threads thread .idle) where
  parties_eq := h.parties_eq
  waiting_eq := by
    rw [List.length_map]
    exact h.waiting_eq
  generation_eq := by
    rw [List.length_map]
    exact h.generation_eq
  returned {position call value} hcall hval := by
    rw [List.length_map]
    rcases result_of_finish hcall hval with ⟨before, hbefore, hres⟩ | ⟨hopen, rfl⟩
    · exact h.returned hbefore hres
    · have hat := h.atCall hopen
      rw [hthread] at hat
      exact hat
  atCall {position other} hopen := by
    obtain ⟨hbefore, hne⟩ := open_of_finish hopen
    rw [List.length_map, update_of_ne hne]
    exact h.atCall hbefore
  once hopen hother := h.once (open_of_finish hopen).1 (open_of_finish hother).1
  inside {other} hin := by
    by_cases heq : other = thread
    · subst heq
      rw [update_self] at hin
      exact hin.elim
    · rw [update_of_ne heq] at hin
      obtain ⟨position, hopen⟩ := h.inside hin
      exact ⟨position, finish_of_open hopen heq⟩

/-- A thread that was in no call arrives, and is where its call is then. -/
theorem Consistent.append (hthread : ¬ (threads thread).Inside) {after : BarrierState} {pc : Pc}
    (hparties : after.parties = parties)
    (hwaiting : after.waiting = ((calls.length + 1) % parties : Nat))
    (hgeneration : after.generation = Word.wrap ((calls.length + 1) / parties : Nat))
    (hpc : AtCall parties (calls.length + 1) calls.length pc) :
    Consistent parties (calls ++ [Call.opened thread]) after
      (Function.update threads thread pc) := by
  have hlen : (calls ++ [Call.opened thread]).length = calls.length + 1 := List.length_append
  have hother {position : Nat} {other : Thread}
      (hopen : calls[position]? = some (Call.opened other)) : other ≠ thread := by
    rintro rfl
    exact hthread (h.atCall hopen).inside
  have hne {other : Thread} (heq : Call.opened thread = Call.opened other) : thread = other :=
    congrArg Call.thread heq
  constructor
  case parties_eq => exact hparties
  case waiting_eq => rw [hlen, hwaiting]
  case generation_eq => rw [hlen, hgeneration]
  case returned =>
    intro position call result hcall hres
    rw [hlen]
    rcases getElem?_snoc.mp hcall with hbefore | ⟨-, rfl⟩
    · obtain ⟨hcomplete, hlast⟩ := h.returned hbefore hres
      exact ⟨hcomplete.mono (le_succ _), hlast⟩
    · cases hres
  case atCall =>
    intro position other hopen
    rw [hlen]
    rcases getElem?_snoc.mp hopen with hbefore | ⟨rfl, hthis⟩
    · rw [update_of_ne (hother hbefore)]
      exact (h.atCall hbefore).mono (le_succ _)
    · rw [← hne hthis, update_self]
      exact hpc
  case once =>
    intro position place other hopen hplace
    rcases getElem?_snoc.mp hopen with hbefore | ⟨rfl, hthis⟩
    · rcases getElem?_snoc.mp hplace with hbefore' | ⟨rfl, hthis'⟩
      · exact h.once hbefore hbefore'
      · exact absurd (hne hthis').symm (hother hbefore)
    · rcases getElem?_snoc.mp hplace with hbefore' | ⟨rfl, -⟩
      · exact absurd (hne hthis).symm (hother hbefore')
      · rfl
  case inside =>
    intro other hin
    by_cases heq : other = thread
    · subst heq
      exact ⟨calls.length, getElem?_snoc.mpr (.inr ⟨rfl, rfl⟩)⟩
    · rw [update_of_ne heq] at hin
      obtain ⟨position, hopen⟩ := h.inside hin
      exact ⟨position, getElem?_snoc.mpr (.inl hopen)⟩

end

/-! ## Sections -/

omit [DecidableEq Thread] in
/-- A waiter of a generation that is not complete finds the counter as it was. -/
theorem Consistent.counter_eq (h : Consistent parties calls barrier threads) (hpos : 0 < parties)
    {position : Nat} {generation : Int} (hopen : calls[position]? = some (Call.opened thread))
    (hthread : threads thread = .sleeping generation)
    (hcomplete : ¬ Complete parties calls.length position) :
    barrier.generation = generation := by
  have hat := h.atCall hopen
  rw [hthread] at hat
  obtain ⟨hgeneration, -⟩ := hat
  have hlt : position < calls.length := (List.getElem?_eq_some_iff.mp hopen).1
  have hsame : calls.length / parties = position / parties :=
    Nat.le_antisymm (Nat.not_lt.mp (mt (complete_iff hpos).mpr hcomplete))
      (Nat.div_le_div_right (Nat.le_of_lt hlt))
  rw [h.generation_eq, hsame, hgeneration]

omit [DecidableEq Thread] in
/-- It finds another one once its generation is complete, until the counter has come round. -/
theorem Consistent.counter_ne (h : Consistent parties calls barrier threads) (hpos : 0 < parties)
    {position : Nat} {generation : Int} (hopen : calls[position]? = some (Call.opened thread))
    (hthread : threads thread = .sleeping generation)
    (hcomplete : Complete parties calls.length position)
    (hround : calls.length / parties < position / parties + 2 ^ 64) :
    barrier.generation ≠ generation := by
  have hat := h.atCall hopen
  rw [hthread] at hat
  obtain ⟨hgeneration, -⟩ := hat
  have hlt := (complete_iff hpos).mp hcomplete
  rw [h.generation_eq, hgeneration]
  intro heq
  have hmod := congrArg (· % (2 : Int) ^ 64) heq
  rw [Word.emod_wrap (Nat.le_refl 64), Word.emod_wrap (Nat.le_refl 64)] at hmod
  omega

theorem Consistent.step (hpos : 0 < parties) (hword : parties < 2 ^ 63)
    {state after : State Thread} {event : Thread × Event}
    (h : Consistent parties calls state.barrier state.threads)
    (hstep : Step state event after) :
    Consistent parties (record calls event) after.barrier after.threads := by
  cases hstep with
  | called hidle => exact h.outside (by rw [hidle]; exact id) id
  | @arrived thread hlocking =>
    have hin : ¬ (state.threads thread).Inside := by
      rw [hlocking]
      exact id
    have hlt := mod_lt calls.length hpos
    have hwaiting : Word.wrap (state.barrier.waiting + 1) =
        ((calls.length % parties + 1 : Nat) : Int) := by
      rw [h.waiting_eq]
      exact Word.wrap_of_range (by omega) (by omega)
    have htest : Word.wrap (state.barrier.waiting + 1) = state.barrier.parties ↔
        IsLast parties calls.length := by
      rw [hwaiting, h.parties_eq, Int.ofNat_inj]
      rfl
    unfold arrive
    dsimp only
    by_cases hlast : IsLast parties calls.length
    · obtain ⟨hmod, hdiv⟩ := succ_mod_of_isLast hpos hlast
      rw [if_pos (htest.mpr hlast)]
      refine h.append hin h.parties_eq ?_ ?_
        (show AtCall _ _ _ (.leaving true) from ⟨complete_of_isLast hlast, iff_of_true rfl hlast⟩)
      · rw [hmod]
        rfl
      · change Word.wrap (state.barrier.generation + 1) = _
        rw [h.generation_eq, hdiv, Word.wrap_wrap_add]
        rfl
    · obtain ⟨hmod, hdiv⟩ := succ_mod_of_not_isLast hpos hlast
      rw [if_neg (mt htest.mp hlast)]
      unfold loop
      rw [if_pos rfl]
      refine h.append hin h.parties_eq ?_ ?_
        (show AtCall _ _ _ (.sleeping _) from ⟨h.generation_eq, hlast⟩)
      · rw [hmod]
        exact hwaiting
      · rw [hdiv]
        exact h.generation_eq
  | @woke thread generation hsleeping =>
    have hinside : (state.threads thread).Inside := by
      rw [hsleeping]
      trivial
    obtain ⟨position, hopen⟩ := h.inside hinside
    have hat := h.atCall hopen
    rw [hsleeping] at hat
    obtain ⟨hgeneration, hlast⟩ := hat
    unfold loop
    split
    · exact h.move hopen ⟨hgeneration, hlast⟩
    rename_i hne
    refine h.move hopen ⟨?_, iff_of_false nofun hlast⟩
    exact Classical.byContradiction fun hcomplete =>
      hne (h.counter_eq hpos hopen hsleeping hcomplete)
  | returned hleaving => exact h.finish hleaving

/-! ## Runs -/

theorem Consistent.of_run {total : Int} {allocated : Bool} {events : List (Thread × Event)}
    {state : State Thread} (hword : total < 2 ^ 63)
    (h : Run (interleavings Thread total allocated) events state) :
    0 < total.toNat ∧
      Consistent total.toNat (Barrier.calls events) state.barrier state.threads := by
  refine h.invariant (fun events state => 0 < total.toNat ∧
      Consistent total.toNat (Barrier.calls events) state.barrier state.threads)
    (fun state hinitial => ?_) (fun events state event after hbefore hstep => ?_)
  · obtain ⟨hcreate, hidle⟩ := hinitial
    unfold barrierCreate at hcreate
    split at hcreate
    · cases hcreate
    split at hcreate
    · rename_i hpos _
      have hbarrier := Option.some.inj hcreate
      have hzero : Word.wrap ((0 / total.toNat : Nat) : Int) = 0 := by
        rw [Nat.zero_div]
        rfl
      refine ⟨by omega, ?_⟩
      rw [← hbarrier]
      constructor
      case parties_eq => exact (Int.toNat_of_nonneg (Int.le_of_lt (Int.not_le.mp hpos))).symm
      case waiting_eq => exact congrArg Int.ofNat (zero_mod _).symm
      case generation_eq => exact hzero.symm
      case returned => exact fun hcall => nomatch hcall
      case atCall => exact fun hopen => nomatch hopen
      case once => exact fun hopen => nomatch hopen
      case inside =>
        intro thread hin
        rw [hidle thread] at hin
        exact hin.elim
    · cases hcreate
  · obtain ⟨hpos, hbefore⟩ := hbefore
    refine ⟨hpos, ?_⟩
    have hcalls : Barrier.calls (events ++ [event]) = record (Barrier.calls events) event :=
      List.foldl_append
    rw [hcalls]
    exact hbefore.step hpos (by omega) hstep

/-- What the calls do, the generation of a call being its position divided by the number of
parties. -/
structure InGenerations (parties : Nat) (calls : List (Call Thread)) (state : State Thread) :
    Prop where
  /-- No call returns before all calls of its generation have arrived; the last one is told so. -/
  returns : ∀ (position : Nat) (call : Call Thread) (result : Bool),
    calls[position]? = some call → call.result = some result →
      Complete parties calls.length position ∧ (result = true ↔ IsLast parties position)
  /-- Of a complete generation exactly one call has returned true or is about to. -/
  completes : ∀ generation : Nat, (generation + 1) * parties ≤ calls.length →
    ∃! position : Nat, position / parties = generation ∧ ∃ call, calls[position]? = some call ∧
      (call.result = some true ∨
        call.result = none ∧ state.threads call.thread = .leaving true)
  /-- A waiter that wakes goes on if its own generation is complete and waits again otherwise,
  whatever the other generations have done. -/
  wakes : ∀ (position : Nat) (thread : Thread) (generation : Int),
    calls[position]? = some (Call.opened thread) →
    state.threads thread = .sleeping generation →
      (¬ Complete parties calls.length position →
        loop state.barrier generation = .wait generation) ∧
      (Complete parties calls.length position →
        calls.length / parties < position / parties + 2 ^ 64 →
        loop state.barrier generation = .leave false)

omit [DecidableEq Thread] in
theorem Consistent.inGenerations {state : State Thread}
    (h : Consistent parties calls state.barrier state.threads) (hpos : 0 < parties) :
    InGenerations parties calls state where
  returns _ _ _ hcall hres := h.returned hcall hres
  completes generation hcomplete := by
    have hlast {position : Nat} {call : Call Thread} (hcall : calls[position]? = some call)
        (htrue : call.result = some true ∨
          call.result = none ∧ state.threads call.thread = .leaving true) :
        IsLast parties position := by
      rcases htrue with htrue | ⟨hnone, hleaving⟩
      · exact (h.returned hcall htrue).2.mp rfl
      have hopen : calls[position]? = some (Call.opened call.thread) := by
        rw [hcall, Call.opened, ← hnone]
      have hat := h.atCall hopen
      rw [hleaving] at hat
      exact hat.2.mp rfl
    have hposition : generation * parties + (parties - 1) < calls.length := by
      rw [Nat.add_mul, Nat.one_mul] at hcomplete
      omega
    have hdiv : (generation * parties + (parties - 1)) / parties = generation := by
      rw [Nat.mul_comm, Nat.mul_add_div hpos, Nat.div_eq_of_lt (by omega), Nat.add_zero]
    have hmod : IsLast parties (generation * parties + (parties - 1)) := by
      unfold IsLast
      rw [Nat.mul_comm, Nat.mul_add_mod, Nat.mod_eq_of_lt (by omega)]
      omega
    have hcall := List.getElem?_eq_getElem hposition
    refine ⟨generation * parties + (parties - 1), ⟨hdiv, _, hcall, ?_⟩, ?_⟩
    · cases hres : calls[generation * parties + (parties - 1)].result with
      | some result =>
        have htrue := (h.returned hcall hres).2.mpr hmod
        exact .inl (congrArg some htrue)
      | none =>
        refine .inr ⟨rfl, ?_⟩
        have hopen : calls[generation * parties + (parties - 1)]? =
            some (Call.opened calls[generation * parties + (parties - 1)].thread) := by
          rw [hcall, Call.opened, ← hres]
        have hat := h.atCall hopen
        cases hpc : state.threads calls[generation * parties + (parties - 1)].thread with
        | idle =>
          rw [hpc] at hat
          exact hat.elim
        | locking =>
          rw [hpc] at hat
          exact hat.elim
        | sleeping local_ =>
          rw [hpc] at hat
          exact absurd hmod hat.2
        | leaving result =>
          rw [hpc] at hat
          exact congrArg Pc.leaving (hat.2.mpr hmod)
    · rintro position ⟨hgeneration, call, hcall, htrue⟩
      have hrest := hlast hcall htrue
      have hsplit := div_add_mod position parties
      unfold IsLast at hrest
      rw [hgeneration, Nat.mul_comm] at hsplit
      omega
  wakes position thread generation hopen hsleeping := by
    unfold loop
    constructor
    · intro hcomplete
      rw [if_pos (h.counter_eq hpos hopen hsleeping hcomplete)]
    · intro hcomplete hround
      rw [if_neg (h.counter_ne hpos hopen hsleeping hcomplete hround)]

/-- **The barrier works in generations**, along every run of any number of threads. -/
theorem calls_in_generations (parties : Int) (hword : parties < 2 ^ 63) (allocated : Bool)
    (events : List (Thread × Event)) (state : State Thread)
    (hrun : Run (interleavings Thread parties allocated) events state) :
    InGenerations parties.toNat (Barrier.calls events) state := by
  obtain ⟨hpos, h⟩ := Consistent.of_run hword hrun
  exact h.inGenerations hpos

end

/-- Two threads at a barrier for two: the first one waits, and wakes in vain once. -/
theorem calls_in_generations_two :
    ∃ (events : List (Bool × Event)) (state : State Bool),
      Run (interleavings Bool 2 true) events state ∧
        Barrier.calls events = [⟨false, some false⟩, ⟨true, some true⟩] ∧
        InGenerations 2 (Barrier.calls events) state := by
  have h0 : Run (interleavings Bool 2 true) [] ⟨⟨2, 0, 0⟩, fun _ => .idle⟩ :=
    Run.start ⟨rfl, fun _ => rfl⟩
  have h1 := Run.next h0 (@Step.called _ _ _ false rfl)
  have h2 := Run.next h1 (@Step.arrived _ _ _ false rfl)
  have h3 := Run.next h2 (@Step.woke _ _ _ false 0 rfl)
  have h4 := Run.next h3 (@Step.called _ _ _ true rfl)
  have h5 := Run.next h4 (@Step.arrived _ _ _ true rfl)
  have h6 := Run.next h5 (@Step.returned _ _ _ true true rfl)
  have h7 := Run.next h6 (@Step.woke _ _ _ false 0 rfl)
  have h8 := Run.next h7 (@Step.returned _ _ _ false false rfl)
  exact ⟨_, _, h8, by decide, calls_in_generations 2 (by decide) true _ _ h8⟩

end Raz.Thread.Barrier
