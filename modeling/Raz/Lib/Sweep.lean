/-!
# Sweeps

A loop that applies a list of updates to a state in order, again and again, until a whole sweep
changes nothing, for at most a given number of rounds.

Results:
1. `settle_keeps`: what every update keeps holds at the end.
2. `settle_eq`: more rounds than enough end in the same state.
-/

namespace Sweep

variable {σ : Type}

/-- Every update, in order. -/
def sweep (updates : List (σ → σ)) (s : σ) : σ := updates.foldl (fun s update => update s) s

/-- Sweeps until one changes nothing, or the rounds are used up. -/
def settle [DecidableEq σ] (updates : List (σ → σ)) : Nat → σ → σ
  | 0, s => s
  | rounds + 1, s =>
    if sweep updates s = s then s else settle updates rounds (sweep updates s)

/-- Each update keeps the invariant, and changes nothing or lowers the measure. -/
structure Descends (inv : σ → Prop) (measure : σ → Nat) (updates : List (σ → σ)) : Prop where
  keeps : ∀ update ∈ updates, ∀ s, inv s → inv (update s)
  lowers : ∀ update ∈ updates, ∀ s, inv s → update s = s ∨ measure (update s) < measure s

variable {inv : σ → Prop} {measure : σ → Nat} {update : σ → σ} {updates : List (σ → σ)}

theorem Descends.tail (h : Descends inv measure (update :: updates)) :
    Descends inv measure updates where
  keeps other hother := h.keeps other (List.mem_cons_of_mem _ hother)
  lowers other hother := h.lowers other (List.mem_cons_of_mem _ hother)

theorem sweep_keeps (inv : σ → Prop) (h : ∀ update ∈ updates, ∀ s, inv s → inv (update s)) {s : σ}
    (hs : inv s) : inv (sweep updates s) :=
  updates.foldlRecOn _ hs fun s hs update hmem => h update hmem s hs

theorem Descends.sweep_inv (h : Descends inv measure updates) {s : σ} (hs : inv s) :
    inv (sweep updates s) := sweep_keeps inv h.keeps hs

/-- A sweep leaves the state as it is, and then every update does, or it lowers the measure. -/
theorem Descends.sweep_cases (h : Descends inv measure updates) {s : σ} (hs : inv s) :
    (sweep updates s = s ∧ ∀ update ∈ updates, update s = s) ∨
      measure (sweep updates s) < measure s := by
  induction updates generalizing s with
  | nil => exact .inl ⟨rfl, fun _ hmem => absurd hmem List.not_mem_nil⟩
  | cons update updates ih =>
    have hnext := ih h.tail (h.keeps update List.mem_cons_self s hs)
    rcases h.lowers update List.mem_cons_self s hs with hsame | hlower
    · rw [hsame] at hnext
      rcases hnext with ⟨hsweep, hrest⟩ | hlower
      · refine .inl ⟨?_, ?_⟩
        · rw [sweep, List.foldl_cons, hsame]
          exact hsweep
        · rw [List.forall_mem_cons]
          exact ⟨hsame, hrest⟩
      · rw [sweep, List.foldl_cons, hsame]
        exact .inr hlower
    · rcases hnext with ⟨hsweep, -⟩ | hlower'
      · refine .inr ?_
        show measure (sweep updates (update s)) < measure s
        rw [hsweep]
        exact hlower
      · exact .inr (Nat.lt_trans hlower' hlower)

variable [DecidableEq σ]

theorem settle_keeps (inv : σ → Prop) (h : ∀ update ∈ updates, ∀ s, inv s → inv (update s)) :
    ∀ rounds s, inv s → inv (settle updates rounds s)
  | 0, _, hs => hs
  | rounds + 1, s, hs => by
    rw [settle]
    split
    · exact hs
    · exact settle_keeps inv h rounds _ (sweep_keeps inv h hs)

theorem Descends.settle_inv (h : Descends inv measure updates) (rounds : Nat) (s : σ)
    (hs : inv s) : inv (settle updates rounds s) := settle_keeps inv h.keeps rounds s hs

/-- **Enough rounds end in a state that every update leaves as it is.** -/
theorem Descends.settle_fixed (h : Descends inv measure updates) :
    ∀ rounds s, inv s → measure s ≤ rounds →
      ∀ update ∈ updates, update (settle updates rounds s) = settle updates rounds s
  | 0, s, hs, hrounds => by
    rcases h.sweep_cases hs with ⟨-, hfixed⟩ | hlower
    · exact hfixed
    · exact absurd (Nat.lt_of_lt_of_le hlower hrounds) (Nat.not_lt_zero _)
  | rounds + 1, s, hs, hrounds => by
    rcases h.sweep_cases hs with ⟨hsweep, hfixed⟩ | hlower
    · rw [settle, if_pos hsweep]
      exact hfixed
    have hne : sweep updates s ≠ s := fun hsame => Nat.lt_irrefl _ (hsame ▸ hlower)
    rw [settle, if_neg hne]
    exact h.settle_fixed rounds _ (h.sweep_inv hs)
      (Nat.le_of_lt_succ (Nat.lt_of_lt_of_le hlower hrounds))

/-- More rounds than enough end in the same state. -/
theorem Descends.settle_eq (h : Descends inv measure updates) :
    ∀ rounds more s, inv s → measure s ≤ rounds → rounds ≤ more →
      settle updates more s = settle updates rounds s
  | 0, more, s, hs, hrounds, _ => by
    rcases h.sweep_cases hs with ⟨hsweep, -⟩ | hlower
    · cases more with
      | zero => rfl
      | succ more => simp only [settle, if_pos hsweep]
    · exact absurd (Nat.lt_of_lt_of_le hlower hrounds) (Nat.not_lt_zero _)
  | rounds + 1, 0, _, _, _, hmore => absurd hmore (Nat.not_succ_le_zero _)
  | rounds + 1, more + 1, s, hs, hrounds, hmore => by
    rw [settle, settle]
    split
    · rfl
    rename_i hne
    rcases h.sweep_cases hs with ⟨hsweep, -⟩ | hlower
    · exact absurd hsweep hne
    · exact h.settle_eq rounds more _ (h.sweep_inv hs)
        (Nat.le_of_lt_succ (Nat.lt_of_lt_of_le hlower hrounds)) (Nat.le_of_succ_le_succ hmore)

end Sweep
