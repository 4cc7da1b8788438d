/-!
# Lexical paths

A path is a list of moves in a tree: staying, going up, going into a name. What it comes to, without
a look at the tree, is a place: some moves up and then names. Where a path starts at a root there is
nothing to go up to.

Result: `walk_ups`: from a root no move up is left.
-/

namespace LexicalPath

variable {α : Type}

inductive Move (α : Type)
  | stay
  | up
  | into (name : α)
  deriving DecidableEq, Repr

structure Place (α : Type) where
  ups : Nat
  names : List α
  deriving DecidableEq, Repr

def Place.start : Place α := ⟨0, []⟩

/-- A move up undoes the last name; without one it is kept, or dropped at a root. -/
def Place.move (rooted : Bool) (place : Place α) : Move α → Place α
  | .stay => place
  | .into name => ⟨place.ups, place.names ++ [name]⟩
  | .up =>
      if place.names.isEmpty then if rooted then place else ⟨place.ups + 1, []⟩
      else ⟨place.ups, place.names.dropLast⟩

/-- What the moves come to. -/
def walk (rooted : Bool) (place : Place α) (moves : List (Move α)) : Place α :=
  moves.foldl (Place.move rooted) place

/-- The moves of a place. -/
def Place.moves (place : Place α) : List (Move α) :=
  List.replicate place.ups .up ++ place.names.map .into

theorem walk_append (rooted : Bool) (place : Place α) (moves last : List (Move α)) :
    walk rooted place (moves ++ last) = walk rooted (walk rooted place moves) last :=
  List.foldl_append

theorem walk_into (rooted : Bool) (names : List α) : ∀ place : Place α,
    walk rooted place (names.map .into) = ⟨place.ups, place.names ++ names⟩ := by
  induction names with
  | nil => exact fun place => by rw [List.append_nil]; rfl
  | cons name names ih =>
    intro place
    refine (ih (place.move rooted (.into name))).trans ?_
    change Place.mk place.ups (place.names ++ [name] ++ names) = _
    rw [List.append_assoc]
    rfl

theorem walk_up (count : Nat) : ∀ ups : Nat,
    walk false (⟨ups, []⟩ : Place α) (List.replicate count .up) = ⟨ups + count, []⟩ := by
  induction count with
  | zero => exact fun ups => rfl
  | succ count ih =>
    intro ups
    rw [List.replicate_succ]
    refine (ih (ups + 1)).trans ?_
    rw [Nat.add_assoc, Nat.add_comm 1]

/-- **A place is what its moves come to.** -/
theorem walk_moves {rooted : Bool} {place : Place α} (h : rooted = true → place.ups = 0) :
    walk rooted .start place.moves = place := by
  obtain ⟨ups, names⟩ := place
  have hups : walk rooted (.start : Place α) (List.replicate ups .up) = ⟨ups, []⟩ := by
    cases rooted with
    | true =>
      obtain rfl : ups = 0 := h rfl
      rfl
    | false => exact (walk_up ups 0).trans (by rw [Nat.zero_add])
  change walk rooted .start (List.replicate ups .up ++ names.map .into) = _
  rw [walk_append, hups, walk_into]
  rfl

/-- From a root no move up is left. -/
theorem walk_ups (moves : List (Move α)) : ∀ {place : Place α}, place.ups = 0 →
    (walk true place moves).ups = 0 := by
  induction moves with
  | nil => exact fun {place} h => h
  | cons move moves ih =>
    intro place h
    refine ih ?_
    cases move with
    | stay => exact h
    | into name => exact h
    | up =>
      unfold Place.move
      dsimp only
      split
      · exact h
      · exact h

/-- Each name of a place comes from the path. -/
theorem mem_walk_names {rooted : Bool} {name : α} (moves : List (Move α)) : ∀ {place : Place α},
    name ∈ (walk rooted place moves).names → name ∈ place.names ∨ .into name ∈ moves := by
  induction moves with
  | nil => exact fun {place} h => .inl h
  | cons move moves ih =>
    intro place h
    obtain h | h := ih h
    · cases move with
      | stay => exact .inl h
      | into other =>
        obtain h | h := List.mem_append.mp h
        · exact .inl h
        · rw [List.mem_singleton.mp h]
          exact .inr List.mem_cons_self
      | up =>
        unfold Place.move at h
        dsimp only at h
        split at h
        · split at h
          · exact .inl h
          · nomatch h
        · exact .inl ((List.dropLast_sublist _).mem h)
    · exact .inr (List.mem_cons_of_mem _ h)

/-! ## Where a path leads -/

end LexicalPath
