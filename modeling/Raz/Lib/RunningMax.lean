/-!
# Running maxima

A walk over a list that keeps the best element so far, and replaces it by one that is above it.
Elements that are not above each other are ties, and of these the first is kept.

Result: `runningMax_perm_iff`: the order of the list does not matter if and only if the ties for the
maximum look the same.
-/

namespace RunningMax

open List

section
variable {α β γ : Type} (above : α → α → Bool)

/-- A step of the walk. -/
def keep (best : Option α) (next : α) : Option α :=
  match best with
  | none => some next
  | some old => if above next old then some next else some old

def runningMax (best : Option α) (elements : List α) : Option α := elements.foldl (keep above) best

/-- Not being above is transitive, and nothing is above itself. -/
structure WeakOrder : Prop where
  irrefl : ∀ a, above a a = false
  trans : ∀ {a b c}, above a b = false → above b c = false → above a c = false
  asymm : ∀ {a b}, above a b = true → above b a = false

variable {above}

/-- An element of the list that no other is above. -/
structure IsTop (above : α → α → Bool) (elements : List α) (a : α) : Prop where
  mem : a ∈ elements
  top : ∀ b ∈ elements, above b a = false

theorem keep_spec (h : WeakOrder above) (best : α) (next : α) :
    ∃ kept, keep above (some best) next = some kept ∧ (kept = best ∨ kept = next) ∧
      above best kept = false ∧ above next kept = false := by
  unfold keep
  cases hnext : above next best with
  | true => exact ⟨next, if_pos hnext, .inr rfl, h.asymm hnext, h.irrefl next⟩
  | false => exact ⟨best, if_neg (Bool.eq_false_iff.mp hnext), .inl rfl, h.irrefl best, hnext⟩

theorem foldl_keep_spec (h : WeakOrder above) (elements : List α) :
    ∀ best : α, ∃ kept, runningMax above (some best) elements = some kept ∧
      (kept = best ∨ kept ∈ elements) ∧ above best kept = false ∧
      ∀ a ∈ elements, above a kept = false := by
  induction elements with
  | nil => exact fun best => ⟨best, rfl, .inl rfl, h.irrefl best, nofun⟩
  | cons next elements ih =>
    intro best
    obtain ⟨kept, hkeep, hkept, hbest, hnext⟩ := keep_spec h best next
    obtain ⟨last, hlast, hmem, hle, hall⟩ := ih kept
    refine ⟨last, ?_, ?_, h.trans hbest hle, forall_mem_cons.mpr ⟨h.trans hnext hle, hall⟩⟩
    · rw [runningMax, foldl_cons, hkeep]
      exact hlast
    · rcases hmem with rfl | hmem
      · exact hkept.imp id fun (heq : last = next) => heq ▸ mem_cons_self
      · exact .inr (mem_cons_of_mem _ hmem)

/-- **The walk keeps an element that no other is above**, if there is any. -/
theorem runningMax_spec (h : WeakOrder above) (elements : List α) :
    elements = [] ∧ runningMax above none elements = none ∨
      ∃ kept, runningMax above none elements = some kept ∧ IsTop above elements kept := by
  cases elements with
  | nil => exact .inl ⟨rfl, rfl⟩
  | cons first elements =>
    obtain ⟨kept, hkept, hmem, hfirst, hall⟩ := foldl_keep_spec h elements first
    refine .inr ⟨kept, hkept, ?_, forall_mem_cons.mpr ⟨hfirst, hall⟩⟩
    exact hmem.elim (fun heq => heq ▸ mem_cons_self) (mem_cons_of_mem _)

/-- An element that nothing is above is kept if it comes first. -/
theorem runningMax_first {first : α} (elements : List α)
    (htop : ∀ a ∈ elements, above a first = false) :
    runningMax above none (first :: elements) = some first := by
  have hkeep : ∀ elements : List α, (∀ a ∈ elements, above a first = false) →
      runningMax above (some first) elements = some first := by
    intro elements
    induction elements with
    | nil => exact fun _ => rfl
    | cons next elements ih =>
      intro htop
      obtain ⟨hnext, htop⟩ := forall_mem_cons.mp htop
      rw [runningMax, foldl_cons, keep, hnext]
      exact ih htop
  exact hkeep elements htop

theorem IsTop.perm {elements elements' : List α} (hperm : elements'.Perm elements) {a : α}
    (h : IsTop above elements a) : IsTop above elements' a :=
  ⟨hperm.mem_iff.mpr h.mem, fun b hb => h.top b (hperm.mem_iff.mp hb)⟩

/-- **The order of the sources does not matter if and only if all elements at the top look the
same.** -/
theorem runningMax_perm_iff (h : WeakOrder above) (look : α → β) (read : γ → Option α)
    (sources : List γ) :
    (∀ sources' : List γ, sources'.Perm sources →
      (runningMax above none (sources'.filterMap read)).map look =
        (runningMax above none (sources.filterMap read)).map look) ↔
      ∀ a b, IsTop above (sources.filterMap read) a → IsTop above (sources.filterMap read) b →
        look a = look b := by
  constructor
  · intro hall
    -- the source of each of the two comes first in some order
    have hfirst : ∀ a, IsTop above (sources.filterMap read) a →
        some (look a) = (runningMax above none (sources.filterMap read)).map look := by
      intro a ha
      obtain ⟨source, hsrc, hread⟩ := mem_filterMap.mp ha.mem
      obtain ⟨front, back, rfl⟩ := append_of_mem hsrc
      have hperm : (source :: (front ++ back)).Perm (front ++ source :: back) := perm_middle.symm
      rw [← hall _ hperm, filterMap_cons_some hread, runningMax_first, Option.map_some]
      intro b hb
      refine ha.top b ((hperm.filterMap read).mem_iff.mp ?_)
      rw [filterMap_cons_some hread]
      exact mem_cons_of_mem _ hb
    exact fun a b ha hb => Option.some.inj ((hfirst a ha).trans (hfirst b hb).symm)
  · intro hsame sources' hperm
    have hperm := hperm.filterMap read
    rcases runningMax_spec h (sources.filterMap read) with ⟨hnil, -⟩ | ⟨kept, hkept, htop⟩
    · rw [hnil] at hperm ⊢
      rw [hperm.eq_nil]
    rcases runningMax_spec h (sources'.filterMap read) with ⟨hnil, -⟩ | ⟨kept', hkept', htop'⟩
    · rw [hnil] at hperm ⊢
      rw [hperm.symm.eq_nil]
    · rw [hkept, hkept', Option.map_some, Option.map_some,
        hsame kept' kept (htop'.perm hperm.symm) htop]

end

end RunningMax
