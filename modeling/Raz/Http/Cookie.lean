import Raz.Http.Lines
import Raz.Path.Buf

/-!
# Cookie headers

Translation of `std::net::http::cookie`. A string is its bytes and its capacity, and `new` has got
its two blocks. In one call a string asks for growing sizes, so what is granted to it there is a
predicate on sizes.

Results:
1. `cookies_exact`: the runs in which the last copies find room.
2. `copy_refused`: a copy that does not.
-/

namespace Raz.Http.Cookie

open List
open Raz.Path (grows grows_of_grants)
open Raz.Path.Storage (growthCapacity)

local instance lawfulBEqBytes : LawfulBEq (List UInt8) := inferInstance

/-! ## Strings -/

structure Text where
  bytes : List UInt8
  capacity : Nat
  deriving DecidableEq, Repr

def Text.clear (value : Text) : Text := { value with bytes := [] }

/-- `append_bytes`, and `push_byte` for a single byte. -/
def Text.append (grants : Nat → Bool) (value : Text) (source : List UInt8) : Bool × Text :=
  let required := value.bytes.length + source.length
  if source = [] then (true, value)
  else if required > 9223372036854775807 then (false, value)
  else if grows grants value.capacity required then
    (true, ⟨value.bytes ++ source, growthCapacity value.capacity required⟩)
  else (false, value)

/-- Pieces one behind the other, up to the first that is refused. -/
def Text.appendAll (grants : Nat → Bool) : Text → List (List UInt8) → Bool × Text
  | value, [] => (true, value)
  | value, piece :: pieces =>
      match value.append grants piece with
      | (false, value) => (false, value)
      | (true, value) => value.appendAll grants pieces

/-! ## Headers -/

structure CookieHeader where
  value : Text
  scratch : Text
  count : Nat
  deriving DecidableEq, Repr

def new : CookieHeader := ⟨⟨[], 128⟩, ⟨[], 128⟩, 0⟩

def clear (cookies : CookieHeader) : CookieHeader :=
  { cookies with value := cookies.value.clear, count := 0 }

def validNameByte (b : UInt8) : Bool :=
  32 < b && b < 127 &&
    !([40, 41, 60, 62, 64, 44, 59, 58, 92, 34, 47, 91, 93, 63, 61, 123, 125] :
      List UInt8).contains b

def validValueByte (b : UInt8) : Bool :=
  b = 33 || (35 ≤ b && b ≤ 43) || (45 ≤ b && b ≤ 58) || (60 ≤ b && b ≤ 91) || (93 ≤ b && b ≤ 126)

/-- A null pointer is a name of no bytes. -/
def validName (name : List UInt8) : Bool := name ≠ [] && name.all validNameByte

def validValue (value : List UInt8) : Bool := value.all validValueByte

def pairName (pair : List UInt8) : List UInt8 :=
  match findByte pair 61 with
  | none => []
  | some eq => pair.take eq

/-- The next pair, and the source behind it. -/
def nextPair (source : List UInt8) : Option (List UInt8 × List UInt8) :=
  let source := source.dropWhile (fun b => b = 32 || b = 59)
  if source = [] then none
  else
    let pair := source.takeWhile (· ≠ 59)
    some ((pair.reverse.dropWhile (· = 32)).reverse, source.dropWhile (· ≠ 59))

/-- The variables of `set` and `remove`; `found` is `replaced` and `removed`. -/
structure Rebuild where
  scratch : Text
  wrote : Bool
  found : Bool
  newCount : Nat
  deriving DecidableEq, Repr

/-- A pair is appended to the scratch string, behind a separator if it is not the first. -/
def Rebuild.appendPair (grants : Nat → Bool) (state : Rebuild) (pieces : List (List UInt8))
    (found : Bool) : Bool × Rebuild :=
  match state.scratch.appendAll grants ((if state.wrote then [[59], [32]] else []) ++ pieces) with
  | (false, scratch) => (false, { state with scratch })
  | (true, scratch) => (true, ⟨scratch, true, found, state.newCount + 1⟩)

/-- What is done where the first has been done. -/
def andThen (outcome : Bool × Rebuild) (next : Rebuild → Bool × Rebuild) : Bool × Rebuild :=
  if outcome.1 then next outcome.2 else outcome

/-- The loop of `set` and `remove`, with what is done at a pair of the name. Every round takes a
byte at least, and no valid name is empty. -/
def rebuildLoop (grants : Nat → Bool) (name : List UInt8) (same : Rebuild → Bool × Rebuild) :
    Nat → List UInt8 → Rebuild → Bool × Rebuild
  | 0, _, state => (true, state)
  | rounds + 1, source, state =>
      match nextPair source with
      | none => (true, state)
      | some (pair, source) =>
          let existing := pairName pair
          andThen (if existing = name then same state
            else if existing = [] then (true, state)
            else state.appendPair grants [pair] state.found)
            (rebuildLoop grants name same rounds source)

/-- What is granted to the strings in a call. -/
structure Grants where
  scratch : Nat → Bool
  value : Nat → Bool

def rebuild (grants : Grants) (cookies : CookieHeader) (name : List UInt8)
    (same : Rebuild → Bool × Rebuild) : Bool × Rebuild :=
  rebuildLoop grants.scratch name same (cookies.value.bytes.length + 1) cookies.value.bytes
    ⟨cookies.scratch.clear, false, false, 0⟩

/-- The end of `set` and `remove`: the scratch string is copied if it has been built. -/
def finish (grants : Grants) (cookies : CookieHeader) : Bool × Rebuild → Bool × CookieHeader
  | (false, state) => (false, { cookies with scratch := state.scratch })
  | (true, state) =>
      match cookies.value.clear.append grants.value state.scratch.bytes with
      | (false, value) => (false, ⟨value, state.scratch, cookies.count⟩)
      | (true, value) => (true, ⟨value, state.scratch.clear, state.newCount⟩)

/-- What `set` does up to the copy. -/
def buildSet (grants : Grants) (cookies : CookieHeader) (name value : List UInt8) :
    Bool × Rebuild :=
  let write (state : Rebuild) :=
    if state.found then (true, state)
    else state.appendPair grants.scratch [name, [61], value] true
  andThen (rebuild grants cookies name write) write

/-- What `remove` does up to the copy. -/
def buildRemove (grants : Grants) (cookies : CookieHeader) (name : List UInt8) : Bool × Rebuild :=
  andThen (rebuild grants cookies name fun state => (true, { state with found := true }))
    fun state => (state.found, state)

def set (grants : Grants) (cookies : CookieHeader) (name value : List UInt8) :
    Bool × CookieHeader :=
  if !validName name || !validValue value then (false, cookies)
  else finish grants cookies (buildSet grants cookies name value)

def remove (grants : Grants) (cookies : CookieHeader) (name : List UInt8) : Bool × CookieHeader :=
  if !validName name then (false, cookies)
  else finish grants cookies (buildRemove grants cookies name)

/-- The name and the value in front of the attributes of a `Set-Cookie` field. -/
def leadingPair (field : List UInt8) : Option (List UInt8 × List UInt8) :=
  let pair := field.takeWhile (· ≠ 59)
  match findByte pair 61 with
  | none | some 0 => none
  | some eq => some (pair.take eq, pair.drop (eq + 1))

def captureSetCookie (grants : Grants) (cookies : CookieHeader) (field : List UInt8) :
    Bool × CookieHeader :=
  match leadingPair field with
  | none => (false, cookies)
  | some (name, value) => set grants cookies name value

/-! ## The map -/

/-- Names and values in the order of their insertion. -/
abbrev Pairs := List (List UInt8 × List UInt8)

/-- `name=value`. -/
def pairText (pair : List UInt8 × List UInt8) : List UInt8 := pair.1 ++ 61 :: pair.2

def behind (pairs : Pairs) : List UInt8 := pairs.flatMap fun pair => 59 :: 32 :: pairText pair

/-- The pairs, with a semicolon and a blank between them. -/
def render : Pairs → List UInt8
  | [] => []
  | pair :: pairs => pairText pair ++ behind pairs

/-- Every pair of the name becomes these. -/
def replace (name : List UInt8) (changed pairs : Pairs) : Pairs :=
  pairs.flatMap fun pair => if pair.1 = name then changed else [pair]

def insert (name value : List UInt8) (pairs : Pairs) : Pairs :=
  if name ∈ pairs.map Prod.fst then replace name [(name, value)] pairs
  else pairs ++ [(name, value)]

/-- Names that differ, and no byte outside the sets. -/
structure WellFormed (pairs : Pairs) : Prop where
  nodup : (pairs.map Prod.fst).Nodup
  valid : ∀ pair ∈ pairs, validName pair.1 = true ∧ validValue pair.2 = true

/-- The header is that of the map. -/
structure Holds (cookies : CookieHeader) (pairs : Pairs) : Prop where
  text : cookies.value.bytes = render pairs
  count : cookies.count = pairs.length

inductive Call where
  | set (name value : List UInt8)
  | remove (name : List UInt8)
  | clear
  | capture (field : List UInt8)

def Call.run (grants : Grants) (cookies : CookieHeader) : Call → Bool × CookieHeader
  | .set name value => Cookie.set grants cookies name value
  | .remove name => Cookie.remove grants cookies name
  | .clear => (true, Cookie.clear cookies)
  | .capture field => captureSetCookie grants cookies field

/-- The scratch string gets the blocks that it asks for, so that the call comes to the copy. -/
def Call.builds (grants : Grants) (cookies : CookieHeader) : Call → Bool
  | .set name value => (buildSet grants cookies name value).1
  | .remove name => (buildRemove grants cookies name).1
  | .clear => false
  | .capture field =>
      (leadingPair field).any fun pair => (buildSet grants cookies pair.1 pair.2).1

def insertValid (pairs : Pairs) (name value : List UInt8) : Option Pairs :=
  if validName name && validValue value then some (insert name value pairs) else none

/-- What a call makes of the map, if it does not refuse its arguments. -/
def Call.edit (pairs : Pairs) : Call → Option Pairs
  | .set name value => insertValid pairs name value
  | .remove name => if name ∈ pairs.map Prod.fst then some (replace name [] pairs) else none
  | .clear => some []
  | .capture field => (leadingPair field).bind fun pair => insertValid pairs pair.1 pair.2

/-! ## Reading a text -/

theorem valid_not {name value : List UInt8} (hname : validName name = true)
    (hval : validValue value = true) :
    61 ∉ name ∧ ∀ b ∈ pairText (name, value), b ≠ 32 ∧ b ≠ 59 := by
  obtain ⟨-, hbytes⟩ := Bool.and_eq_true_iff.mp hname
  have hname (b : UInt8) (hb : b ∈ name) : validNameByte b = true := all_eq_true.mp hbytes b hb
  have hval (b : UInt8) (hb : b ∈ value) : validValueByte b = true := all_eq_true.mp hval b hb
  refine ⟨fun hmem => absurd (hname _ hmem) (by decide), fun b hb => ?_⟩
  obtain hb | hb := mem_append.mp hb
  · exact ⟨fun heq => absurd (hname _ (heq ▸ hb)) (by decide),
      fun heq => absurd (hname _ (heq ▸ hb)) (by decide)⟩
  obtain rfl | hb := mem_cons.mp hb
  · exact ⟨by decide, by decide⟩
  · exact ⟨fun heq => absurd (hval _ (heq ▸ hb)) (by decide),
      fun heq => absurd (hval _ (heq ▸ hb)) (by decide)⟩

theorem pairName_pairText {name value : List UInt8} (hname : 61 ∉ name) :
    pairName (pairText (name, value)) = name := by
  have hfind : findByte (pairText (name, value)) 61 = some name.length := by
    unfold pairText
    rw [findByte_append hname]
  unfold pairName
  rw [hfind]
  exact take_left

/-- The text in front of pairs that are still to be read. -/
def Unread (source : List UInt8) (pairs : Pairs) : Prop :=
  source = render pairs ∨ source = behind pairs

/-- **The next pair is read**, and the text behind it is that of the others. -/
theorem nextPair_pairs {source : List UInt8} {pair : List UInt8 × List UInt8} {pairs : Pairs}
    (h : Unread source (pair :: pairs)) (hname : validName pair.1 = true)
    (hval : validValue pair.2 = true) :
    nextPair source = some (pairText pair, behind pairs) := by
  obtain ⟨-, hbytes⟩ := valid_not hname hval
  obtain ⟨first, others, htext⟩ := exists_cons_of_ne_nil
    (show pairText pair ≠ [] from append_ne_nil_of_right_ne_nil _ (cons_ne_nil _ _))
  have hfirst := hbytes first (htext ▸ mem_cons_self)
  have hseparators : source.dropWhile (fun b => b = 32 || b = 59) =
      pairText pair ++ behind pairs := by
    obtain rfl | rfl := h
    · rw [render, htext]
      simp [hfirst]
    · rw [behind, flatMap_cons, htext]
      simp [hfirst, behind]
  have hkept : ∀ b ∈ pairText pair, decide (b ≠ 59) = true :=
    fun b hb => decide_eq_true (hbytes b hb).2
  have hend : (behind pairs).takeWhile (· ≠ 59) = [] ∧
      (behind pairs).dropWhile (· ≠ 59) = behind pairs := by
    cases pairs with
    | nil => exact ⟨rfl, rfl⟩
    | cons other pairs => exact ⟨rfl, rfl⟩
  have htrim : ((pairText pair).reverse.dropWhile (· = 32)) = (pairText pair).reverse := by
    cases hreverse : (pairText pair).reverse with
    | nil => rfl
    | cons last front =>
      have hlast := hbytes last (mem_reverse.mp (hreverse ▸ mem_cons_self))
      exact dropWhile_cons_of_neg (by simpa using hlast.1)
  unfold nextPair
  rw [hseparators, if_neg (by rw [htext]; exact cons_ne_nil _ _),
    takeWhile_append_of_pos hkept, dropWhile_append_of_pos hkept, hend.1, hend.2,
    append_nil]
  dsimp only
  rw [htrim, reverse_reverse]

/-! ## Writing a text -/

section

variable {grants : Nat → Bool} {value after : Text} {bytes : List UInt8}

theorem append_done (h : value.append grants bytes = (true, after))
    (hfits : value.bytes.length ≤ 9223372036854775807) :
    after.bytes = value.bytes ++ bytes ∧ after.bytes.length ≤ 9223372036854775807 := by
  unfold Text.append at h
  split at h
  · cases h
    rw [‹bytes = []›, append_nil]
    exact ⟨rfl, hfits⟩
  dsimp only at h
  split at h
  · nomatch h
  split at h
  · cases h
    refine ⟨rfl, ?_⟩
    rw [length_append]
    exact Nat.le_of_not_lt ‹_›
  · nomatch h

theorem append_granted (hgrants : grows grants value.capacity
      (value.bytes.length + bytes.length) = true)
    (hfits : value.bytes.length + bytes.length ≤ 9223372036854775807) :
    (value.append grants bytes).1 = true := by
  unfold Text.append
  split
  · rfl
  · rw [if_neg (Nat.not_lt.mpr hfits), if_pos hgrants]

theorem appendAll_spec (pieces : List (List UInt8)) :
    ∀ {value : Text}, value.bytes.length ≤ 9223372036854775807 →
    ((value.appendAll grants pieces).1 = true →
      (value.appendAll grants pieces).2.bytes = value.bytes ++ pieces.flatten ∧
      (value.appendAll grants pieces).2.bytes.length ≤ 9223372036854775807) ∧
    ((∀ size, grants size = true) →
      (value.bytes ++ pieces.flatten).length < 9223372036854775807 →
        (value.appendAll grants pieces).1 = true) := by
  induction pieces with
  | nil => exact fun hfits => ⟨fun _ => ⟨(append_nil _).symm, hfits⟩, fun _ _ => rfl⟩
  | cons piece pieces ih =>
    intro value hfits
    rw [flatten_cons, ← append_assoc, Text.appendAll]
    rcases happend : value.append grants piece with ⟨_ | _, next⟩
    · refine ⟨nofun, fun hgrants hlen => ?_⟩
      rw [length_append, length_append] at hlen
      have hdone := @append_granted grants value piece
        (grows_of_grants hgrants (by omega)) (by omega)
      rw [happend] at hdone
      nomatch hdone
    · obtain ⟨hbytes, hlen⟩ := append_done happend hfits
      rw [← hbytes]
      exact ih hlen

end

/-- What has been written. -/
structure Wrote (state : Rebuild) (pairs : Pairs) : Prop where
  text : state.scratch.bytes = render pairs
  wrote : state.wrote = !pairs.isEmpty
  count : state.newCount = pairs.length
  fits : state.scratch.bytes.length ≤ 9223372036854775807

/-- The pairs are written; where every block is granted, they are. -/
structure Builds (grants : Nat → Bool) (outcome : Bool × Rebuild) (pairs : Pairs) (found : Bool) :
    Prop where
  built : outcome.1 = true → Wrote outcome.2 pairs ∧ outcome.2.found = found
  granted : (∀ size, grants size = true) → (render pairs).length < 9223372036854775807 →
    outcome.1 = true

theorem render_concat (pairs : Pairs) (pair : List UInt8 × List UInt8) :
    render (pairs ++ [pair]) = render pairs ++
      ((if !pairs.isEmpty then [[59], [32]] else []).flatten ++ pairText pair) := by
  cases pairs with
  | nil => simp [render, behind]
  | cons first pairs => simp [render, behind]

theorem render_append_length (front back : Pairs) :
    (render front).length ≤ (render (front ++ back)).length := by
  cases front with
  | nil => exact Nat.zero_le _
  | cons first front =>
    rw [cons_append, render, render, behind, behind, flatMap_append,
      ← append_assoc, @length_append _ _ (back.flatMap _)]
    exact Nat.le_add_right _ _

theorem length_le_render (pairs : Pairs) : pairs.length ≤ (render pairs).length := by
  cases pairs with
  | nil => exact le_rfl
  | cons first pairs =>
    have hbehind : pairs.length ≤ (behind pairs).length := by
      induction pairs with
      | nil => exact le_rfl
      | cons pair pairs ih =>
        simp only [behind, flatMap_cons, length_append, length_cons] at ih ⊢
        omega
    rw [render, pairText, length_append, length_append, length_cons, length_cons]
    omega

section

variable {grants : Nat → Bool} {state : Rebuild} {done : Pairs} {found : Bool}

theorem appendPair_spec (h : Wrote state done) {pair : List UInt8 × List UInt8}
    {pieces : List (List UInt8)} (hpieces : pieces.flatten = pairText pair) :
    Builds grants (state.appendPair grants pieces found) (done ++ [pair]) found := by
  obtain ⟨hdone, hgranted⟩ := @appendAll_spec grants
    ((if state.wrote then [[59], [32]] else []) ++ pieces) state.scratch h.fits
  rw [flatten_append, hpieces, h.text, h.wrote, ← render_concat] at hdone hgranted
  unfold Rebuild.appendPair
  rw [h.wrote]
  rcases happend : state.scratch.appendAll grants
    ((if !done.isEmpty then [[59], [32]] else []) ++ pieces) with ⟨_ | _, scratch⟩
  · rw [happend] at hgranted
    exact ⟨nofun, hgranted⟩
  rw [happend] at hdone
  obtain ⟨htext, hfits⟩ := hdone rfl
  refine ⟨fun _ => ⟨⟨htext, ?_, ?_, hfits⟩, rfl⟩, fun _ _ => rfl⟩
  · cases done <;> rfl
  · rw [length_append, h.count]
    rfl

theorem Builds.refl (h : Wrote state done) : Builds grants (true, state) done state.found :=
  ⟨fun _ => ⟨h, rfl⟩, fun _ _ => rfl⟩

theorem Builds.andThen {outcome : Bool × Rebuild} {next : Rebuild → Bool × Rebuild}
    {final : Pairs} {found' : Bool} (h : Builds grants outcome done found)
    (hlen : (render done).length ≤ (render final).length)
    (hnext : ∀ state, Wrote state done → state.found = found →
      Builds grants (next state) final found') :
    Builds grants (andThen outcome next) final found' := by
  unfold Cookie.andThen
  split
  · rename_i hdone
    obtain ⟨hwrote, hfound⟩ := h.built hdone
    exact hnext _ hwrote hfound
  · rename_i hrefused
    exact ⟨fun hdone => absurd hdone hrefused, fun hgrants hless =>
      absurd (h.granted hgrants (Nat.lt_of_le_of_lt hlen hless)) hrefused⟩

variable {name : List UInt8} {same : Rebuild → Bool × Rebuild} {changed : Pairs}

/-- **The loop** writes the pairs that are still to be read, with the changed ones for those of the
name. The induction is on the pairs; their names differ, so that there is one at most. -/
theorem rebuildLoop_spec (hsame : ∀ {state done}, Wrote state done →
      state.found = false → Builds grants (same state) (done ++ changed) true)
    (pairs : Pairs) :
    ∀ {source : List UInt8} {state : Rebuild} {done : Pairs} {rounds : Nat},
    Unread source pairs → WellFormed pairs → pairs.length < rounds → Wrote state done →
    (state.found = true → name ∉ pairs.map Prod.fst) →
    Builds grants (rebuildLoop grants name same rounds source state)
      (done ++ replace name changed pairs)
      (state.found || decide (name ∈ pairs.map Prod.fst)) := by
  induction pairs with
  | nil =>
    intro source state done rounds hunread _ hrounds hwrote _
    obtain ⟨rounds, rfl⟩ := Nat.exists_eq_succ_of_ne_zero (Nat.ne_of_gt hrounds)
    obtain rfl : source = [] := hunread.elim id id
    rw [replace, flatMap_nil, append_nil]
    simpa [rebuildLoop, nextPair] using Builds.refl hwrote
  | cons pair pairs ih =>
    intro source state done rounds hunread hpairs hrounds hwrote hfound
    obtain ⟨rounds, rfl⟩ :=
      Nat.exists_eq_succ_of_ne_zero (Nat.ne_of_gt (Nat.lt_of_le_of_lt (Nat.zero_le _) hrounds))
    obtain ⟨hvalid, hothers⟩ := forall_mem_cons.mp hpairs.valid
    obtain ⟨hfresh, hnodup⟩ := nodup_cons.mp hpairs.nodup
    have hread := nextPair_pairs hunread hvalid.1 hvalid.2
    have hexisting := @pairName_pairText pair.1 pair.2 (valid_not hvalid.1 hvalid.2).1
    have hnext {outcome : Bool × Rebuild} {written : Pairs} {found : Bool}
        (h : Builds grants outcome (done ++ written) found)
        (hfound : found = true → name ∉ pairs.map Prod.fst) :
        Builds grants (andThen outcome (rebuildLoop grants name same rounds (behind pairs)))
          (done ++ (written ++ replace name changed pairs))
          (found || decide (name ∈ pairs.map Prod.fst)) := by
      rw [← append_assoc]
      refine h.andThen (render_append_length _ _) fun state hwrote hstate => ?_
      rw [← hstate] at hfound ⊢
      exact ih (.inr rfl) ⟨hnodup, hothers⟩ (Nat.lt_of_succ_lt_succ hrounds) hwrote hfound
    rw [rebuildLoop, hread]
    dsimp only
    rw [hexisting, replace, flatMap_cons, ← replace, map_cons]
    by_cases hsameName : pair.1 = name
    · have hfresh : name ∉ pairs.map Prod.fst := hsameName ▸ hfresh
      have hnot : state.found = false := eq_false_of_ne_true fun htrue =>
        hfound htrue (hsameName ▸ mem_cons_self)
      have hres := hnext (hsame hwrote hnot) fun _ => hfresh
      rw [if_pos hsameName, if_pos hsameName, decide_eq_true (hsameName ▸ mem_cons_self),
        Bool.or_true]
      rwa [Bool.true_or] at hres
    · have hempty : pair.1 ≠ [] := of_decide_eq_true (Bool.and_eq_true_iff.mp hvalid.1).1
      have hmem : name ∈ pair.1 :: pairs.map Prod.fst ↔ name ∈ pairs.map Prod.fst :=
        mem_cons.trans (or_iff_right fun heq => hsameName heq.symm)
      rw [if_neg hsameName, if_neg hsameName, if_neg hempty, decide_eq_decide.mpr hmem]
      exact hnext (appendPair_spec hwrote (append_nil _)) fun htrue hlater =>
        hfound htrue (mem_cons_of_mem _ hlater)

end

/-! ## Calls -/

theorem replace_names {name : List UInt8} {changed : Pairs}
    (hchanged : (changed.map Prod.fst).Sublist [name]) (pairs : Pairs) :
    ((replace name changed pairs).map Prod.fst).Sublist (pairs.map Prod.fst) := by
  induction pairs with
  | nil => exact List.Sublist.refl _
  | cons pair pairs ih =>
    rw [replace, flatMap_cons, ← replace, map_append, map_cons]
    split
    · rename_i heq
      exact (heq ▸ hchanged).append ih
    · exact ih.cons_cons _

theorem WellFormed.replace {name : List UInt8} {changed pairs : Pairs} (h : WellFormed pairs)
    (hchanged : (changed.map Prod.fst).Sublist [name])
    (hvalid : ∀ pair ∈ changed, validName pair.1 = true ∧ validValue pair.2 = true) :
    WellFormed (replace name changed pairs) := by
  refine ⟨(replace_names hchanged pairs).nodup h.nodup, fun pair hmem => ?_⟩
  obtain ⟨old, hold, hmem⟩ := mem_flatMap.mp hmem
  split at hmem
  · exact hvalid pair hmem
  · exact mem_singleton.mp hmem ▸ h.valid old hold

theorem WellFormed.insert {name value : List UInt8} {pairs : Pairs} (h : WellFormed pairs)
    (hname : validName name = true) (hval : validValue value = true) :
    WellFormed (insert name value pairs) := by
  have hpair : ∀ pair ∈ [(name, value)], validName pair.1 = true ∧ validValue pair.2 = true :=
    forall_mem_singleton.mpr ⟨hname, hval⟩
  unfold Cookie.insert
  split
  · exact h.replace (List.Sublist.refl _) hpair
  rename_i hfresh
  refine ⟨?_, forall_mem_append.mpr ⟨h.valid, hpair⟩⟩
  rw [map_append]
  refine nodup_append.mpr ⟨h.nodup, nodup_cons.mpr ⟨nofun, nodup_nil⟩,
    fun old hold new hnew heq => hfresh ?_⟩
  rwa [heq, mem_singleton.mp hnew] at hold

section

variable {grants : Grants} {cookies : CookieHeader} {pairs changed : Pairs}
  {outcome : Bool × CookieHeader}

/-- The text and the count are as they were. -/
def Same (cookies after : CookieHeader) : Prop :=
  after.value.bytes = cookies.value.bytes ∧ after.count = cookies.count

/-- The call makes the changed pairs of the map, or it changes nothing; where every block is
granted, it makes them. -/
structure Makes (grants : Grants) (cookies : CookieHeader) (changed : Pairs)
    (outcome : Bool × CookieHeader) : Prop where
  done : outcome.1 = true → Holds outcome.2 changed
  refused : outcome.1 = false → Same cookies outcome.2
  granted : (∀ size, grants.scratch size = true) →
    (render changed).length < 9223372036854775807 → outcome.1 = true

/-- The last copy of a call that makes these pairs finds room. -/
def Copies (grants : Grants) (cookies : CookieHeader) (changed : Pairs) : Prop :=
  (render changed).length ≤ 9223372036854775807 →
    grows grants.value cookies.value.capacity (render changed).length = true

theorem finish_spec {built : Bool × Rebuild} {found : Bool}
    (h : Builds grants.scratch built changed found)
    (hcopies : built.1 = true → Copies grants cookies changed) :
    Makes grants cookies changed (finish grants cookies built) := by
  obtain ⟨_ | _, state⟩ := built
  · exact ⟨nofun, fun _ => ⟨rfl, rfl⟩, h.granted⟩
  have hwrote := (h.built rfl).1
  have hfits := hwrote.fits
  have hdone : (cookies.value.clear.append grants.value state.scratch.bytes).1 = true := by
    refine append_granted ?_ ((Nat.zero_add _).symm ▸ hfits)
    rw [hwrote.text] at hfits ⊢
    exact (Nat.zero_add _).symm ▸ hcopies rfl hfits
  unfold finish
  rcases happend : cookies.value.clear.append grants.value state.scratch.bytes with ⟨_ | _, value⟩
  · rw [happend] at hdone
    nomatch hdone
  dsimp only
  rw [happend]
  exact ⟨fun _ => ⟨(append_done happend (Nat.zero_le _)).1.trans hwrote.text, hwrote.count⟩, nofun,
    fun _ _ => rfl⟩

theorem rebuild_spec (h : Holds cookies pairs) (hpairs : WellFormed pairs) {name : List UInt8}
    {same : Rebuild → Bool × Rebuild} (hsame : ∀ {state done}, Wrote state done →
      state.found = false → Builds grants.scratch (same state) (done ++ changed) true) :
    Builds grants.scratch (rebuild grants cookies name same) (replace name changed pairs)
      (decide (name ∈ pairs.map Prod.fst)) := by
  have hrounds : pairs.length < cookies.value.bytes.length + 1 := by
    rw [h.text]
    exact Nat.lt_succ_of_le (length_le_render pairs)
  have hstart : Wrote ⟨cookies.scratch.clear, false, false, 0⟩ [] := ⟨rfl, rfl, rfl, Nat.zero_le _⟩
  exact rebuildLoop_spec hsame pairs (.inl h.text) hpairs hrounds hstart
    fun hfound => nomatch hfound

theorem replace_fresh {name : List UInt8} (hfresh : name ∉ pairs.map Prod.fst) :
    replace name changed pairs = pairs := by
  induction pairs with
  | nil => rfl
  | cons pair pairs ih =>
    obtain ⟨hne, hfresh⟩ := not_or.mp fun h => hfresh (mem_cons.mpr h)
    rw [replace, flatMap_cons, if_neg fun heq => hne heq.symm, ← replace, ih hfresh]
    rfl

section

variable (h : Holds cookies pairs)

include h

section

variable (hpairs : WellFormed pairs)

include hpairs

theorem buildSet_spec {name value : List UInt8} :
    Builds grants.scratch (buildSet grants cookies name value) (insert name value pairs) true := by
  have hwrite {state : Rebuild} {done : Pairs} (hwrote : Wrote state done)
      (hfound : state.found = false) : Builds grants.scratch (if state.found then (true, state)
        else state.appendPair grants.scratch [name, [61], value] true)
        (done ++ [(name, value)]) true := by
    rw [if_neg (by rw [hfound]; exact Bool.false_ne_true)]
    exact appendPair_spec hwrote (by simp [pairText])
  have hrebuild := @rebuild_spec grants cookies pairs _ h hpairs name _ hwrite
  unfold buildSet
  refine hrebuild.andThen ?_ fun state hwrote hfound => ?_
  · unfold Cookie.insert
    split
    · exact le_rfl
    · rw [replace_fresh ‹_›]
      exact render_append_length _ _
  · unfold Cookie.insert
    by_cases hmem : name ∈ pairs.map Prod.fst
    · rw [decide_eq_true hmem] at hfound
      have hrefl := @Builds.refl grants.scratch state _ hwrote
      rw [if_pos hmem, if_pos hfound]
      rwa [hfound] at hrefl
    · rw [decide_eq_false hmem] at hfound
      rw [replace_fresh hmem] at hwrote
      rw [if_neg hmem]
      exact hwrite hwrote hfound

theorem set_spec {name value : List UInt8}
    (hname : validName name = true) (hval : validValue value = true)
    (hcopies : (buildSet grants cookies name value).1 = true →
      Copies grants cookies (insert name value pairs)) :
    Makes grants cookies (insert name value pairs) (set grants cookies name value) := by
  unfold set
  rw [hname, hval, if_neg (by decide)]
  exact finish_spec (buildSet_spec h hpairs) hcopies

theorem remove_spec {name : List UInt8}
    (hname : validName name = true) :
    (name ∈ pairs.map Prod.fst →
      ((buildRemove grants cookies name).1 = true →
        Copies grants cookies (replace name [] pairs)) →
      Makes grants cookies (replace name [] pairs) (remove grants cookies name)) ∧
    (name ∉ pairs.map Prod.fst → (remove grants cookies name).1 = false ∧
      Same cookies (remove grants cookies name).2) := by
  have hrebuild := @rebuild_spec grants cookies pairs [] h hpairs name
    (fun state => (true, { state with found := true })) fun hwrote _ => by
      rw [append_nil]
      exact ⟨fun _ => ⟨⟨hwrote.text, hwrote.wrote, hwrote.count, hwrote.fits⟩, rfl⟩, fun _ _ => rfl⟩
  unfold remove
  rw [hname, if_neg (by decide)]
  refine ⟨fun hmem hcopies => ?_, fun hmem => ?_⟩
  · rw [decide_eq_true hmem] at hrebuild
    have hbuilds : Builds grants.scratch (buildRemove grants cookies name)
        (replace name [] pairs) true := by
      refine hrebuild.andThen le_rfl fun state hwrote hfound => ?_
      have hrefl := @Builds.refl grants.scratch state _ hwrote
      rwa [hfound] at hrefl ⊢
    exact finish_spec hbuilds hcopies
  · rw [decide_eq_false hmem] at hrebuild
    unfold buildRemove andThen
    rcases hbuilt : rebuild grants cookies name
      (fun state => (true, { state with found := true })) with ⟨_ | _, state⟩
    · exact ⟨rfl, rfl, rfl⟩
    rw [hbuilt] at hrebuild
    dsimp only
    rw [if_pos rfl, (hrebuild.built rfl).2]
    exact ⟨rfl, rfl, rfl⟩

/-- **One call.** -/
theorem run_spec (call : Call) :
    (∀ changed, call.edit pairs = some changed →
      (call.builds grants cookies = true → Copies grants cookies changed) →
      WellFormed changed ∧ Makes grants cookies changed (call.run grants cookies)) ∧
    (call.edit pairs = none → (call.run grants cookies).1 = false ∧
      Same cookies (call.run grants cookies).2) := by
  have hset (name value : List UInt8) :
      (∀ changed, insertValid pairs name value = some changed →
        ((buildSet grants cookies name value).1 = true → Copies grants cookies changed) →
        WellFormed changed ∧ Makes grants cookies changed (set grants cookies name value)) ∧
      (insertValid pairs name value = none → (set grants cookies name value).1 = false ∧
        Same cookies (set grants cookies name value).2) := by
    unfold insertValid
    cases hvalid : validName name && validValue value with
    | true =>
      obtain ⟨hname, hval⟩ := Bool.and_eq_true_iff.mp hvalid
      refine ⟨fun changed hchanged hcopies => ?_, nofun⟩
      cases hchanged
      exact ⟨hpairs.insert hname hval, set_spec h hpairs hname hval hcopies⟩
    | false =>
      refine ⟨nofun, fun _ => ?_⟩
      unfold set
      rw [← Bool.not_and, hvalid]
      exact ⟨rfl, rfl, rfl⟩
  cases call with
  | set name value => exact hset name value
  | remove name =>
    dsimp only [Call.edit, Call.run]
    cases hname : validName name with
    | true =>
      obtain ⟨hpresent, habsent⟩ := @remove_spec grants cookies pairs h hpairs name hname
      refine ⟨fun changed hchanged hcopies => ?_, fun hnone => habsent fun hmem => ?_⟩
      · split at hchanged
        · cases hchanged
          exact ⟨hpairs.replace (nil_sublist _) nofun, hpresent ‹_› hcopies⟩
        · nomatch hchanged
      · rw [if_pos hmem] at hnone
        nomatch hnone
    | false =>
      have hmem : name ∉ pairs.map Prod.fst := by
        intro hmem
        obtain ⟨pair, hpair, rfl⟩ := mem_map.mp hmem
        exact absurd (hpairs.valid pair hpair).1 (by rw [hname]; exact Bool.false_ne_true)
      unfold remove
      rw [hname, if_neg hmem]
      exact ⟨nofun, fun _ => ⟨rfl, rfl, rfl⟩⟩
  | clear =>
    refine ⟨fun changed hchanged _ => ?_, nofun⟩
    cases hchanged
    exact ⟨⟨nodup_nil, nofun⟩, fun _ => ⟨rfl, rfl⟩, nofun, fun _ _ => rfl⟩
  | capture field =>
    dsimp only [Call.edit, Call.run, Call.builds]
    unfold captureSetCookie
    cases leadingPair field with
    | none => exact ⟨nofun, fun _ => ⟨rfl, rfl, rfl⟩⟩
    | some pair => exact hset pair.1 pair.2

end

end

end

/-! ## Runs -/

/-- The headers and their maps after calls whose last copies find room, if they come to the copy.
A call that is answered with true edits the map. -/
inductive Reached : CookieHeader → Pairs → Prop
  | new : Reached new []
  | call {cookies : CookieHeader} {pairs : Pairs} (grants : Grants) (call : Call) :
      Reached cookies pairs →
      (∀ changed, call.edit pairs = some changed → call.builds grants cookies = true →
        Copies grants cookies changed) →
      Reached (call.run grants cookies).2
        (if (call.run grants cookies).1 then (call.edit pairs).getD pairs else pairs)

/-- **The header is that of the map** after calls whose last copies find room, if they come to the
copy, and so is what the next such call makes of it. A call that is refused changes nothing, and it
is refused if its arguments are, or if a block is. -/
theorem cookies_exact {cookies : CookieHeader} {pairs : Pairs} (h : Reached cookies pairs) :
    Holds cookies pairs ∧ WellFormed pairs ∧ ∀ (grants : Grants) (call : Call),
      (call.edit pairs = none → (call.run grants cookies).1 = false ∧
        Same cookies (call.run grants cookies).2) ∧
      ∀ changed, call.edit pairs = some changed →
        (call.builds grants cookies = true → Copies grants cookies changed) →
        Makes grants cookies changed (call.run grants cookies) := by
  have hstate : Holds cookies pairs ∧ WellFormed pairs := by
    induction h with
    | new => exact ⟨⟨rfl, rfl⟩, nodup_nil, nofun⟩
    | @call cookies pairs grants call _ hcopies ih =>
      obtain ⟨hholds, hpairs⟩ := ih
      obtain ⟨hmakes, hnothing⟩ := @run_spec grants cookies pairs hholds hpairs call
      have hkept (hsame : Same cookies (call.run grants cookies).2) :
          Holds (call.run grants cookies).2 pairs :=
        ⟨hsame.1.trans hholds.text, hsame.2.trans hholds.count⟩
      cases hedit : call.edit pairs with
      | none =>
        obtain ⟨hrefused, hsame⟩ := hnothing hedit
        rw [hrefused]
        exact ⟨hkept hsame, hpairs⟩
      | some changed =>
        obtain ⟨hchanged, hmakes⟩ := hmakes changed hedit (hcopies changed hedit)
        cases hanswer : (call.run grants cookies).1 with
        | true => exact ⟨hmakes.done hanswer, hchanged⟩
        | false => exact ⟨hkept (hmakes.refused hanswer), hpairs⟩
  refine ⟨hstate.1, hstate.2, fun grants call => ?_⟩
  obtain ⟨hmakes, hnothing⟩ := @run_spec grants cookies pairs hstate.1 hstate.2 call
  exact ⟨hnothing, fun changed hedit hcopies => (hmakes changed hedit hcopies).2⟩

/-- Every block. -/
def all : Grants := ⟨fun _ => true, fun _ => true⟩

/-- `a=b`. -/
def first : Call := .set [97] [98]

theorem cookies_exact_first :
    Holds (first.run all new).2 [([97], [98])] ∧ (first.run all new).2.value.bytes = [97, 61, 98] :=
  ⟨(cookies_exact (.call all first .new fun _ h _ _ => Option.some.inj h ▸ by decide)).1, by
    decide⟩

/-- The block for a value of 130 bytes is refused to the copy: the old text is gone, and the count
is not. -/
theorem copy_refused :
    ¬ ∀ (before call : Call) (grants grants' : Grants),
      (call.run grants' (before.run grants new).2).1 = false →
        Same (before.run grants new).2 (call.run grants' (before.run grants new).2).2 := by
  intro h
  have hsame := h first (.set [99] (List.replicate 130 100)) all ⟨fun _ => true, fun _ => false⟩
    (by decide +kernel)
  exact absurd hsame.1 (by decide +kernel)

end Raz.Http.Cookie
