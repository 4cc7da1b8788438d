/-!
# Outcomes of computations that may fail

What holds of a computation whichever way it ends: `Avoids bad post` says of an `Except` that it
does not fail in a bad way and that its value, when there is one, meets a postcondition. It has a
rule for every way to compose computations, so that a proof follows the program.
-/

namespace Outcome

open List

variable {ε α β γ : Type}

/-- What succeeds has succeeded up to every step. -/
theorem bind_ok {x : Except ε α} {f : α → Except ε β} {result : β} (h : x >>= f = .ok result) :
    ∃ value, x = .ok value ∧ f value = .ok result := by
  cases x with
  | error failure => cases h
  | ok value => exact ⟨value, rfl, h⟩

section

variable {f : β → Except ε α} {items : List β} {values : List α} (h : items.mapM f = .ok values)

include h

theorem mapM_ok : ∀ item ∈ items, ∃ value, f item = .ok value := by
  induction items generalizing values with
  | nil => exact forall_mem_nil _
  | cons first items ih =>
    rw [mapM_cons] at h
    obtain ⟨value, hfirst, hrest⟩ := bind_ok h
    obtain ⟨others, hothers, _⟩ := bind_ok hrest
    exact forall_mem_cons.mpr ⟨⟨value, hfirst⟩, ih hothers⟩

/-- Each value comes from an item. -/
theorem mapM_mem : ∀ value ∈ values, ∃ item ∈ items, f item = .ok value := by
  induction items generalizing values with
  | nil =>
    cases h
    exact forall_mem_nil _
  | cons first items ih =>
    rw [mapM_cons] at h
    obtain ⟨value, hfirst, hrest⟩ := bind_ok h
    obtain ⟨others, hothers, hlast⟩ := bind_ok hrest
    cases hlast
    refine forall_mem_cons.mpr ⟨⟨first, mem_cons_self, hfirst⟩, fun other hother => ?_⟩
    obtain ⟨item, hitem, heq⟩ := ih hothers other hother
    exact ⟨item, mem_cons_of_mem _ hitem, heq⟩

/-- What each value has of its item. -/
theorem mapM_map {g : α → γ} {k : β → γ}
    (heq : ∀ {item value}, f item = .ok value → g value = k item) : values.map g = items.map k := by
  induction items generalizing values with
  | nil =>
    cases h
    rfl
  | cons first items ih =>
    rw [mapM_cons] at h
    obtain ⟨value, hfirst, hrest⟩ := bind_ok h
    obtain ⟨others, hothers, hlast⟩ := bind_ok hrest
    cases hlast
    rw [map_cons, map_cons, heq hfirst, ih hothers]

/-- The value at a position comes from the item there. -/
theorem mapM_getElem? {position : Nat} {value : α} (hval : values[position]? = some value) :
    ∃ item, items[position]? = some item ∧ f item = .ok value := by
  induction items generalizing values position with
  | nil =>
    cases h
    nomatch hval
  | cons first items ih =>
    rw [mapM_cons] at h
    obtain ⟨head, hfirst, hrest⟩ := bind_ok h
    obtain ⟨others, hothers, hlast⟩ := bind_ok hrest
    cases hlast
    cases position with
    | zero => exact ⟨first, rfl, hfirst.trans (congrArg Except.ok (Option.some.inj hval))⟩
    | succ position => exact ih hothers hval

end

def Avoids (bad : ε → Prop) (post : α → Prop) : Except ε α → Prop
  | .ok value => post value
  | .error failure => ¬ bad failure

section

variable {bad : ε → Prop} {post : α → Prop} {next : β → Prop}

theorem Avoids.pure {value : α} (h : post value) :
    Avoids bad post (Pure.pure value : Except ε α) := h

theorem Avoids.throw {failure : ε} (h : ¬ bad failure) :
    Avoids bad post (throw failure : Except ε α) := h

theorem Avoids.mono {wider : α → Prop} {x : Except ε α} (h : Avoids bad post x)
    (himp : ∀ value, post value → wider value) : Avoids bad wider x := by
  cases x with
  | ok value => exact himp value h
  | error failure => exact h

theorem Avoids.bind {x : Except ε α} {f : α → Except ε β} (hx : Avoids bad post x)
    (hf : ∀ value, post value → Avoids bad next (f value)) : Avoids bad next (x >>= f) := by
  cases x with
  | ok value => exact hf value hx
  | error failure => exact hx

/-- The rule for a step whose value does not matter. -/
theorem Avoids.andThen {x : Except ε α} {f : α → Except ε β} (hx : Avoids bad (fun _ => True) x)
    (hf : ∀ value, Avoids bad next (f value)) : Avoids bad next (x >>= f) :=
  hx.bind fun value _ => hf value

theorem Avoids.trivial (x : Except ε α) : Avoids (fun _ => False) (fun _ => True) x := by
  cases x with
  | ok value => exact True.intro
  | error failure => exact not_false

theorem Avoids.value {x : Except ε α} {value : α} (h : Avoids bad post x) (hx : x = .ok value) :
    post value := by
  subst hx
  exact h

theorem Avoids.failure {x : Except ε α} {failure : ε} (h : Avoids bad post x)
    (hx : x = .error failure) : ¬ bad failure := by
  subst hx
  exact h

/-- What is known of a value, with where it comes from. -/
theorem Avoids.result {x : Except ε α} (h : Avoids bad post x) :
    Avoids bad (fun value => post value ∧ x = .ok value) x := by
  cases x with
  | ok value => exact ⟨h, rfl⟩
  | error failure => exact h

theorem Avoids.mapM {f : β → Except ε α} {items : List β}
    (h : ∀ item ∈ items, Avoids bad (fun _ => True) (f item)) :
    Avoids bad (fun values => values.length = items.length) (items.mapM f) := by
  induction items with
  | nil => exact Avoids.pure rfl
  | cons item items ih =>
    rw [mapM_cons]
    refine (h item mem_cons_self).andThen fun value => ?_
    refine (ih fun other hother => h other (mem_cons_of_mem _ hother)).bind ?_
    intro values hlen
    exact Avoids.pure (congrArg (· + 1) hlen)

theorem Avoids.foldlM {f : α → β → Except ε α} {items : List β} {start : α} (hstart : post start)
    (h : ∀ item ∈ items, ∀ value, post value → Avoids bad post (f value item)) :
    Avoids bad post (items.foldlM f start) := by
  induction items generalizing start with
  | nil => exact Avoids.pure hstart
  | cons item items ih =>
    rw [foldlM_cons]
    refine (h item mem_cons_self start hstart).bind fun value hval => ih hval ?_
    exact fun other hother => h other (mem_cons_of_mem _ hother)

end

end Outcome
