import Mathlib.Algebra.Order.Ring.Int
import Raz.Lib.Outcome

/-!
# Writers and readers of byte formats

A writer appends to the bytes it has, a reader takes its value off the front of those that are
left; both may fail. A format is sound when what a writer puts down is what a reader takes off,
whatever follows.

The rules follow the two programs step by step: a field of the one against a field of the other.

Results:
1. `Carries.readBack`: reading what was written.
2. `Safe.bind`: a reader that does not fail in a bad way.
-/

namespace Codec

/-! ## Numbers -/

/-- The low bytes of a number, the lowest first. -/
def littleEndian : Nat → Nat → List UInt8
  | 0, _ => []
  | count + 1, value => UInt8.ofNat value :: littleEndian count (value / 256)

def ofLittleEndian : List UInt8 → Nat
  | [] => 0
  | byte :: bytes => byte.toNat + 256 * ofLittleEndian bytes

/-- A number of so many bits as a signed one. -/
def signed (bits value : Nat) : Int :=
  if value < 2 ^ (bits - 1) then value else (value : Int) - 2 ^ bits

@[simp] theorem length_littleEndian (count : Nat) :
    ∀ value, (littleEndian count value).length = count := by
  induction count with
  | zero => exact fun _ => rfl
  | succ count ih => exact fun value => congrArg (· + 1) (ih (value / 256))

theorem ofLittleEndian_littleEndian (count : Nat) :
    ∀ value, ofLittleEndian (littleEndian count value) = value % 256 ^ count := by
  induction count with
  | zero => exact fun value => (Nat.mod_one value).symm
  | succ count ih =>
    intro value
    have hbyte : (UInt8.ofNat value).toNat = value % 256 := rfl
    rw [littleEndian, ofLittleEndian, ih, hbyte, Nat.pow_succ', Nat.mod_mul]

theorem ofLittleEndian_of_lt {count value : Nat} (h : value < 256 ^ count) :
    ofLittleEndian (littleEndian count value) = value := by
  rw [ofLittleEndian_littleEndian, Nat.mod_eq_of_lt h]

/-! ## Separators -/

/-- A text up to the first separator is determined by the whole. -/
theorem front_eq {β : Type} {separator : β} {front : List β} :
    ∀ {other back rest : List β}, separator ∉ front → separator ∉ other →
      front ++ separator :: back = other ++ separator :: rest → front = other ∧ back = rest := by
  induction front with
  | nil =>
    intro other back rest _ hother h
    cases other with
    | nil => exact ⟨rfl, (List.cons.inj h).2⟩
    | cons item other => exact absurd ((List.cons.inj h).1 ▸ List.mem_cons_self) hother
  | cons item front ih =>
    intro other back rest hfront hother h
    cases other with
    | nil => exact absurd ((List.cons.inj h).1 ▸ List.mem_cons_self) hfront
    | cons first other =>
      obtain ⟨rfl, htail⟩ := List.cons.inj h
      obtain ⟨rfl, rfl⟩ := ih (fun hmem => hfront (List.mem_cons_of_mem _ hmem))
        (fun hmem => hother (List.mem_cons_of_mem _ hmem)) htail
      exact ⟨rfl, rfl⟩

/-! ## Writers against readers -/

section

variable {β ε δ α γ ι : Type}

def Writes (write : StateT (List β) (Except δ) Unit) (bytes : List β) : Prop :=
  ∀ before, write before = .ok ((), before ++ bytes)

/-- The reader takes exactly these bytes, whatever follows them. -/
def Reads (read : StateT (List β) (Except ε) α) (bytes : List β) (value : α) : Prop :=
  ∀ rest, read (bytes ++ rest) = .ok (value, rest)

/-- What the writer puts down, so many bytes, the reader takes off as this value. -/
def Carries (size : Nat) (write : StateT (List β) (Except δ) Unit)
    (read : StateT (List β) (Except ε) α) (value : α) : Prop :=
  ∃ bytes, bytes.length = size ∧ Writes write bytes ∧ Reads read bytes value

theorem Writes.bind {first : StateT (List β) (Except δ) Unit}
    {second : Unit → StateT (List β) (Except δ) Unit} {front back : List β}
    (hfirst : Writes first front) (hsecond : Writes (second ()) back) :
    Writes (first >>= second) (front ++ back) := by
  intro before
  have hrun : (first >>= second) before = second () (before ++ front) := by
    change (first before >>= fun result => second result.1 result.2) = _
    rw [hfirst before]
    rfl
  rw [hrun, hsecond, List.append_assoc]

theorem Reads.bind {read : StateT (List β) (Except ε) α} {next : α → StateT (List β) (Except ε) γ}
    {front back : List β} {value : α} {result : γ} (hread : Reads read front value)
    (hnext : Reads (next value) back result) : Reads (read >>= next) (front ++ back) result := by
  intro rest
  have hrun : (read >>= next) (front ++ (back ++ rest)) = next value (back ++ rest) := by
    change (read (front ++ (back ++ rest)) >>= fun result => next result.1 result.2) = _
    rw [hread]
    rfl
  rw [List.append_assoc, hrun, hnext]

theorem Reads.pure (value : α) :
    Reads (Pure.pure value : StateT (List β) (Except ε) α) [] value := fun _ => rfl

/-- Reading goes on after a field, and so does writing. -/
theorem Carries.bind {size more : Nat} {first : StateT (List β) (Except δ) Unit}
    {second : Unit → StateT (List β) (Except δ) Unit} {read : StateT (List β) (Except ε) α}
    {next : α → StateT (List β) (Except ε) γ} {value : α} {result : γ}
    (h : Carries size first read value) (hnext : Carries more (second ()) (next value) result) :
    Carries (size + more) (first >>= second) (read >>= next) result := by
  obtain ⟨front, hfront, hfirst, hread⟩ := h
  obtain ⟨back, hback, hsecond, hrest⟩ := hnext
  refine ⟨front ++ back, ?_, hfirst.bind hsecond, hread.bind hrest⟩
  rw [List.length_append, hfront, hback]

/-- The last field of a record. -/
theorem Carries.last {size : Nat} {write : StateT (List β) (Except δ) Unit}
    {read : StateT (List β) (Except ε) α} {value : α} {make : α → γ}
    (h : Carries size write read value) :
    Carries size write (read >>= fun field => Pure.pure (make field)) (make value) := by
  obtain ⟨bytes, hsize, hwrite, hread⟩ := h
  refine ⟨bytes, hsize, hwrite, ?_⟩
  have hmake : Reads (read >>= fun field => Pure.pure (make field)) (bytes ++ []) (make value) :=
    hread.bind (Reads.pure (make value))
  rwa [List.append_nil] at hmake

/-- The same value and the same size, said in other words. -/
theorem Carries.congr {size other : Nat} {write : StateT (List β) (Except δ) Unit}
    {read : StateT (List β) (Except ε) α} {value result : α} (h : Carries size write read value)
    (hsize : size = other) (hval : value = result) : Carries other write read result := by
  subst hsize hval
  exact h

theorem Carries.sized {size other : Nat} {write : StateT (List β) (Except δ) Unit}
    {read : StateT (List β) (Except ε) α} {value : α} (h : Carries size write read value)
    (hsize : size = other) : Carries other write read value := h.congr hsize rfl

/-- What is written is read again, and nothing is left over. -/
theorem Carries.readBack {size : Nat} {write : StateT (List β) (Except δ) Unit}
    {read : StateT (List β) (Except ε) α} {value : α} (h : Carries size write read value) :
    ∃ bytes, bytes.length = size ∧ write [] = .ok ((), bytes) ∧ read bytes = .ok (value, []) := by
  obtain ⟨bytes, hsize, hwrite, hread⟩ := h
  refine ⟨bytes, hsize, hwrite [], ?_⟩
  have hrun := hread []
  rwa [List.append_nil] at hrun

/-! ## Vectors -/

/-- The same reader, a number of times. -/
def readMany (read : StateT (List β) (Except ε) α) : Nat → StateT (List β) (Except ε) (List α)
  | 0 => Pure.pure []
  | count + 1 => do
    let item ← read
    return item :: (← readMany read count)

theorem Carries.each {size : ι → Nat} {write : ι → StateT (List β) (Except δ) Unit}
    {read : StateT (List β) (Except ε) α} {value : ι → α} {items : List ι}
    (h : ∀ item ∈ items, Carries (size item) (write item) read (value item)) :
    Carries (items.map size).sum (items.forM write) (readMany read items.length)
      (items.map value) := by
  induction items with
  | nil => exact ⟨[], rfl, fun before => by rw [List.append_nil]; rfl, Reads.pure []⟩
  | cons item items ih =>
    have hitem := h item List.mem_cons_self
    have hrest := ih fun other hother => h other (List.mem_cons_of_mem _ hother)
    exact hitem.bind hrest.last

/-! ## Readers that stay out of trouble -/

/-- From no bytes does the reader fail in a bad way. -/
def Safe (bad : ε → Prop) (read : StateT (List β) (Except ε) α) : Prop :=
  ∀ bytes, Outcome.Avoids bad (fun _ => True) (read bytes)

variable {bad : ε → Prop}

theorem Safe.pure (value : α) :
    Safe bad (Pure.pure value : StateT (List β) (Except ε) α) := fun _ => True.intro

theorem Safe.throw {failure : ε} (h : ¬ bad failure) :
    Safe bad (throw failure : StateT (List β) (Except ε) α) := fun _ => h

theorem Safe.bind {read : StateT (List β) (Except ε) α} {next : α → StateT (List β) (Except ε) γ}
    (hread : Safe bad read) (hnext : ∀ value, Safe bad (next value)) :
    Safe bad (read >>= next) := fun bytes =>
  (hread bytes).andThen fun result => hnext result.1 result.2

/-- A check that is made or left out before the rest of a reader. -/
theorem Safe.guard {condition : Prop} {_ : Decidable condition}
    {check : StateT (List β) (Except ε) Unit} {rest : Unit → StateT (List β) (Except ε) γ}
    (hcheck : Safe bad check) (hrest : Safe bad (rest ())) :
    Safe bad (if condition then check >>= rest else rest ()) := by
  split
  · exact hcheck.bind fun _ => hrest
  · exact hrest

theorem Safe.forM {read : ι → StateT (List β) (Except ε) Unit}
    (h : ∀ item, Safe bad (read item)) (items : List ι) : Safe bad (items.forM read) := by
  induction items with
  | nil => exact Safe.pure ()
  | cons item items ih => exact (h item).bind fun _ => ih

theorem Safe.readMany {read : StateT (List β) (Except ε) α} (h : Safe bad read) (count : Nat) :
    Safe bad (readMany read count) := by
  induction count with
  | zero => exact Safe.pure []
  | succ count ih => exact h.bind fun item => ih.bind fun items => Safe.pure _

end

end Codec
