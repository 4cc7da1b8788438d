import Raz.Registry.Model

/-!
# Versions and constraints

What a version text says, with numbers of any size, the order of versions, and the constraints of
the registry documentation.

Result: `constraintMatches_iff`: the constraints, where no number is read as another one.
-/

namespace Raz.Registry

variable {text rest : List UInt8} {v : Version} {a b : Core}

/-! ## Version texts -/

structure Version where
  major : Nat
  minor : Nat
  patch : Nat
  suffix : List UInt8
  deriving DecidableEq, Repr

/-- The number of decimal digits, behind the digits read so far. -/
def decimal (value : Nat) (digits : List UInt8) : Nat :=
  digits.foldl (fun value b => value * 10 + (b.toNat - 48)) value

def readNumber (text : List UInt8) : Option (Nat × List UInt8) :=
  let digits := text.takeWhile registryDigit
  if digits = [] then none else some (decimal 0 digits, text.dropWhile registryDigit)

/-- Three numbers between dots, and a suffix that starts with a hyphen or a plus. -/
def readVersion (text : List UInt8) : Option Version := do
  let (major, rest) ← readNumber text
  let rest ← afterDot rest
  let (minor, rest) ← readNumber rest
  let rest ← afterDot rest
  let (patch, suffix) ← readNumber rest
  if suffix = [] ∨ suffix.head? = some 45 ∨ suffix.head? = some 43 then
    return ⟨major, minor, patch, suffix⟩
  else none

/-- The numbers are lower, from the left. -/
def Core.Lower (a b : Core) : Prop :=
  a.major < b.major ∨ a.major = b.major ∧
    (a.minor < b.minor ∨ a.minor = b.minor ∧ a.patch < b.patch)

namespace Version

def isPrerelease (v : Version) : Bool := v.suffix.head? = some 45

/-- The numbers are in the range of an i64. -/
structure Fits (v : Version) : Prop where
  major : v.major < 2 ^ 63
  minor : v.minor < 2 ^ 63
  patch : v.patch < 2 ^ 63

def core (v : Version) : Core := ⟨v.major, v.minor, v.patch⟩

/-! ### Order -/

/-- The identifiers between dots, in front of the build metadata. -/
def prerelease (v : Version) : Option (List (List UInt8)) :=
  if v.isPrerelease then some ((v.suffix.tail.takeWhile (· ≠ 43)).splitOn 46) else none

def isNumeric (identifier : List UInt8) : Bool :=
  identifier ≠ [] && identifier.all registryDigit

/-- Numbers by value, other identifiers by their bytes, and numbers first. -/
def identifierLower (a b : List UInt8) : Bool :=
  match isNumeric a, isNumeric b with
  | true, true => decimal 0 a < decimal 0 b
  | true, false => true
  | false, true => false
  | false, false => decide (a < b)

def identifiersLower : List (List UInt8) → List (List UInt8) → Bool
  | [], [] => false
  | [], _ :: _ => true
  | _ :: _, [] => false
  | a :: as, b :: bs =>
      identifierLower a b || (!identifierLower b a && identifiersLower as bs)

/-- A prerelease is below the version itself. -/
def prereleaseLower : Option (List (List UInt8)) → Option (List (List UInt8)) → Bool
  | none, _ => false
  | some _, none => true
  | some a, some b => identifiersLower a b

/-- The order of semantic versions. -/
def Lower (a b : Version) : Prop :=
  a.core.Lower b.core ∨ a.core = b.core ∧ prereleaseLower a.prerelease b.prerelease = true

end Version

/-! ## The parser -/

theorem parseDigits_eq (text : List UInt8) : ∀ value : Nat,
    parseDigits (Word.wrap value) text =
      (Word.wrap (decimal value (text.takeWhile registryDigit)), text.dropWhile registryDigit) := by
  induction text with
  | nil => exact fun _ => rfl
  | cons b rest ih =>
    intro value
    rw [parseDigits]
    split <;> rename_i hdigit
    · have hge : 48 ≤ b.toNat :=
        UInt8.le_iff_toNat_le.mp (of_decide_eq_true (Bool.and_eq_true_iff.mp hdigit).1)
      have hstep : Word.wrap (Word.wrap (Word.wrap value * 10) + (b.toNat - 48)) =
          Word.wrap ((value * 10 + (b.toNat - 48) : Nat) : Int) := by
        rw [Word.wrap_wrap_mul, Word.wrap_wrap_add]
        congr 1
        omega
      rw [hstep, ih, List.takeWhile_cons_of_pos hdigit, List.dropWhile_cons_of_pos hdigit]
      rfl
    · rw [List.takeWhile_cons_of_neg hdigit, List.dropWhile_cons_of_neg hdigit]
      rfl

theorem parseU64_eq (text : List UInt8) :
    parseU64 text = match readNumber text with
      | none => (-1, text)
      | some (number, rest) => (Word.wrap number, rest) := by
  unfold parseU64 readNumber
  cases text with
  | nil => rfl
  | cons b rest =>
    cases hdigit : registryDigit b with
    | true =>
      have hloop := parseDigits_eq (b :: rest) 0
      have hzero : Word.wrap ((0 : Nat) : Int) = 0 := rfl
      rw [hzero] at hloop
      simp only [List.takeWhile_cons_of_pos hdigit] at hloop ⊢
      rw [if_pos hdigit, hloop, if_neg (List.cons_ne_nil _ _)]
    | false =>
      have hnot : ¬ registryDigit b = true := Bool.eq_false_iff.mp hdigit
      simp only [List.takeWhile_cons_of_neg hnot]
      rw [if_neg hnot]
      rfl

theorem parseComponent_eq_some {value : Int} :
    parseComponent text = some (value, rest) ↔
      ∃ number : Nat, readNumber text = some (number, rest) ∧ 0 ≤ Word.wrap number ∧
        Word.wrap number = value := by
  have hread := parseU64_eq text
  unfold parseComponent
  rw [hread]
  cases readNumber text with
  | none =>
    simp only
    rw [if_pos (show (-1 : Int) < 0 by decide)]
    exact ⟨nofun, fun ⟨_, h, _⟩ => nomatch h⟩
  | some read =>
    obtain ⟨number, rest'⟩ := read
    simp only
    rcases Int.lt_or_le (Word.wrap number) 0 with hneg | hnonneg
    · rw [if_pos hneg]
      refine ⟨nofun, ?_⟩
      rintro ⟨_, ⟨⟩, hnonneg, -⟩
      exact absurd hneg (Int.not_lt.mpr hnonneg)
    · rw [if_neg (Int.not_lt.mpr hnonneg)]
      constructor
      · intro h
        obtain ⟨rfl, rfl⟩ := Prod.mk.inj (Option.some.inj h)
        exact ⟨number, rfl, hnonneg, rfl⟩
      · rintro ⟨_, ⟨⟩, -, rfl⟩
        rfl

/-- A version whose numbers are not negative modulo 2 ^ 64. -/
structure Version.Nonneg (v : Version) : Prop where
  major : 0 ≤ Word.wrap v.major
  minor : 0 ≤ Word.wrap v.minor
  patch : 0 ≤ Word.wrap v.patch

/-- The numbers that are left of a version modulo 2 ^ 64. -/
def Version.residues (v : Version) : Core :=
  ⟨Word.wrap v.major, Word.wrap v.minor, Word.wrap v.patch⟩

/-- **The parser reads the numbers of a version modulo 2 ^ 64** and refuses negative ones. -/
theorem parseSemver_eq_some {core : Core} :
    parseSemver text = some core ↔
      ∃ v, readVersion text = some v ∧ v.Nonneg ∧ v.residues = core := by
  unfold parseSemver readVersion
  simp only [Option.bind_eq_bind, Option.bind_eq_some_iff]
  constructor
  · rintro ⟨⟨x, rest⟩, hx, rest', hdot, ⟨y, rest₂⟩, hy, rest₃, hdot', ⟨z, suffix⟩, hz, hcore⟩
    obtain ⟨major, hmajor, hmajor₀, hx'⟩ := parseComponent_eq_some.mp hx
    obtain ⟨minor, hminor, hminor₀, hy'⟩ := parseComponent_eq_some.mp hy
    obtain ⟨patch, hpatch, hpatch₀, hz'⟩ := parseComponent_eq_some.mp hz
    split at hcore
    · rename_i hsuf
      refine ⟨⟨major, minor, patch, suffix⟩, ⟨_, hmajor, _, hdot, _, hminor, _, hdot', _, hpatch,
        if_pos hsuf⟩, ⟨hmajor₀, hminor₀, hpatch₀⟩, ?_⟩
      rw [← Option.some.inj hcore, Version.residues, hx', hy', hz']
    · cases hcore
  · rintro ⟨v, ⟨⟨major, rest⟩, hmajor, rest', hdot, ⟨minor, rest₂⟩, hminor, rest₃, hdot',
      ⟨patch, suffix⟩, hpatch, hver⟩, hnonneg, hcore⟩
    split at hver
    · rename_i hsuf
      cases hver
      refine ⟨(Word.wrap major, rest), parseComponent_eq_some.mpr ⟨_, hmajor, hnonneg.major, rfl⟩,
        rest', hdot, (Word.wrap minor, rest₂),
        parseComponent_eq_some.mpr ⟨_, hminor, hnonneg.minor, rfl⟩, rest₃, hdot',
        (Word.wrap patch, suffix), parseComponent_eq_some.mpr ⟨_, hpatch, hnonneg.patch, rfl⟩, ?_⟩
      rw [if_pos hsuf, ← hcore, Version.residues, Option.pure_def]
    · cases hver

/-- The text of a version in range. -/
def Reads (text : List UInt8) (v : Version) : Prop := readVersion text = some v ∧ v.Fits

/-- No number of the text is read as another one. -/
def NoWrap (text : List UInt8) : Prop :=
  ∀ v, readVersion text = some v → v.Nonneg → v.Fits

theorem Version.Fits.nonneg (h : v.Fits) : v.Nonneg where
  major := (Word.wrap_nonneg_iff _).mpr (Nat.lt_of_le_of_lt (Nat.mod_le _ _) h.major)
  minor := (Word.wrap_nonneg_iff _).mpr (Nat.lt_of_le_of_lt (Nat.mod_le _ _) h.minor)
  patch := (Word.wrap_nonneg_iff _).mpr (Nat.lt_of_le_of_lt (Nat.mod_le _ _) h.patch)

theorem Version.Fits.residues (h : v.Fits) : v.residues = v.core := by
  have hwrap {n : Nat} (hn : n < 2 ^ 63) : Word.wrap n = n :=
    Word.wrap_of_range (by omega) (by omega)
  unfold Version.residues Version.core
  rw [hwrap h.major, hwrap h.minor, hwrap h.patch]

theorem Reads.noWrap (h : Reads text v) : NoWrap text := by
  intro w hw _
  rw [← Option.some.inj (h.1.symm.trans hw)]
  exact h.2

theorem NoWrap.parseSemver_eq_some (h : NoWrap text) {core : Core} :
    parseSemver text = some core ↔ ∃ v, readVersion text = some v ∧ v.Fits ∧ v.core = core := by
  rw [Registry.parseSemver_eq_some]
  constructor
  · rintro ⟨v, hread, hnonneg, hcore⟩
    have hfits := h v hread hnonneg
    exact ⟨v, hread, hfits, hfits.residues.symm.trans hcore⟩
  · rintro ⟨v, hread, hfits, hcore⟩
    exact ⟨v, hread, hfits.nonneg, hfits.residues.trans hcore⟩

/-! ## Comparison -/

theorem semverCompare_neg : semverCompare a b < 0 ↔ a.Lower b := by
  unfold semverCompare Core.Lower
  split <;> grind

theorem semverCompare_pos : semverCompare a b > 0 ↔ b.Lower a := by
  unfold semverCompare Core.Lower
  split <;> grind

theorem semverCompare_eq : semverCompare a b = 0 ↔ a = b := by
  rw [Core.mk.injEq]
  unfold semverCompare
  split <;> grind

/-! ## Prereleases -/

theorem hasPrerelease_digits (text : List UInt8) :
    hasPrerelease (text.dropWhile registryDigit) = hasPrerelease text := by
  induction text with
  | nil => rfl
  | cons b rest ih =>
    cases hdigit : registryDigit b with
    | false => rw [List.dropWhile_cons_of_neg (Bool.eq_false_iff.mp hdigit)]
    | true =>
      rw [List.dropWhile_cons_of_pos hdigit, ih, hasPrerelease, if_neg, if_neg]
      · rintro rfl
        cases hdigit
      · rintro rfl
        cases hdigit

theorem hasPrerelease_number {number : Nat} (h : readNumber text = some (number, rest)) :
    hasPrerelease text = hasPrerelease rest := by
  unfold readNumber at h
  simp only at h
  split at h
  · cases h
  · cases h
    exact (hasPrerelease_digits text).symm

theorem hasPrerelease_dot (h : afterDot text = some rest) :
    hasPrerelease text = hasPrerelease rest := by
  cases text with
  | nil => cases h
  | cons b text =>
    rw [afterDot] at h
    split at h
    · rename_i hdot
      rw [hdot, ← Option.some.inj h]
      rfl
    · cases h

theorem hasPrerelease_eq (h : readVersion text = some v) : hasPrerelease text = v.isPrerelease := by
  unfold readVersion at h
  simp only [Option.bind_eq_bind, Option.bind_eq_some_iff] at h
  obtain ⟨⟨major, rest⟩, hmajor, rest', hdot, ⟨minor, rest₂⟩, hminor, rest₃, hdot',
    ⟨patch, suffix⟩, hpatch, hver⟩ := h
  rw [hasPrerelease_number hmajor, hasPrerelease_dot hdot, hasPrerelease_number hminor,
    hasPrerelease_dot hdot', hasPrerelease_number hpatch]
  split at hver
  · rename_i hsuf
    cases hver
    cases suffix with
    | nil => rfl
    | cons b suffix =>
      rcases hsuf with hnil | hhyphen | hplus
      · cases hnil
      · cases hhyphen
        rfl
      · cases hplus
        rfl
  · cases hver

/-! ## Constraints -/

/-- A constraint: a sign and a version, or none. -/
inductive Constraint where
  | any
  | bound (mode : Mode) (version : Version) (text : List UInt8)
  deriving DecidableEq, Repr

/-- The text of a constraint. -/
inductive ReadsConstraint : List UInt8 → Constraint → Prop
  | any : ReadsConstraint [] .any
  | bound {text : List UInt8} {c : Version} (ne : text ≠ [])
      (version : Reads (constraintMode text).2 c) :
      ReadsConstraint text (.bound (constraintMode text).1 c (constraintMode text).2)

/-- The first version that is no longer compatible: the leftmost number that is not zero, or the
last one, is one more. -/
def caretLimit (c : Version) : Core :=
  if c.major > 0 then ⟨c.major + 1, 0, 0⟩
  else if c.minor > 0 then ⟨0, c.minor + 1, 0⟩
  else ⟨0, 0, c.patch + 1⟩

/-- The rules of the registry documentation. -/
def Constraint.Rule (c : Constraint) (text : List UInt8) (v : Version) : Prop :=
  match c with
  | .any => True
  | .bound .exact c body => v.core = c.core ∧ (c.isPrerelease = true → text = body)
  | .bound .caret c _ => ¬ v.core.Lower c.core ∧ v.core.Lower (caretLimit c)
  | .bound .tilde c _ => ¬ v.core.Lower c.core ∧ v.core.Lower ⟨c.major, c.minor + 1, 0⟩
  | .bound .minimum c _ => ¬ v.core.Lower c.core

/-- The constraint names a prerelease. -/
def Constraint.isPrerelease : Constraint → Bool
  | .any => false
  | .bound _ c _ => c.isPrerelease

/-- A version that a constraint allows: its rule holds, and a prerelease is named by it. -/
structure Constraint.Allows (c : Constraint) (text : List UInt8) (v : Version) : Prop where
  rule : c.Rule text v
  named : v.isPrerelease = true → c.isPrerelease = true

theorem lower_caretLimit {c : Version} (h : ¬ v.core.Lower c.core) :
    v.core.Lower (caretLimit c) ↔
      if c.core.major > 0 then v.core.major = c.core.major
      else if c.core.minor > 0 then v.core.major = 0 ∧ v.core.minor = c.core.minor
      else v.core.major = 0 ∧ v.core.minor = 0 ∧ v.core.patch = c.core.patch := by
  unfold Core.Lower caretLimit Version.core at *
  simp only at *
  split <;> split <;> grind

theorem lower_tildeLimit {c : Version} (h : ¬ v.core.Lower c.core) :
    v.core.Lower ⟨c.major, c.minor + 1, 0⟩ ↔
      v.core.major = c.core.major ∧ v.core.minor = c.core.minor := by
  unfold Core.Lower Version.core at *
  simp only at *
  grind

theorem Reads.unique {text : List UInt8} {v w : Version} (hv : Reads text v) (hw : Reads text w) :
    v = w := Option.some.inj (hv.1.symm.trans hw.1)

theorem ReadsConstraint.unique {text : List UInt8} {c d : Constraint}
    (hc : ReadsConstraint text c) (hd : ReadsConstraint text d) : c = d := by
  cases hc with
  | any =>
    cases hd with
    | any => rfl
    | bound ne _ => exact absurd rfl ne
  | bound ne hver =>
    cases hd with
    | any => exact absurd rfl ne
    | bound _ hver' => rw [hver.unique hver']

theorem modeMatches_iff (mode : Mode) (v c : Version) {version body : List UInt8}
    (hbody : hasPrerelease body = c.isPrerelease) :
    modeMatches mode version body v.core c.core = true ↔
      (Constraint.bound mode c body).Rule version v := by
  have hge : semverCompare v.core c.core ≥ 0 ↔ ¬ v.core.Lower c.core := by
    rw [← semverCompare_neg, Int.not_lt]
  unfold modeMatches
  cases mode with
  | exact =>
    simp only [Constraint.Rule, ← semverCompare_eq, hbody]
    rcases Classical.em (semverCompare v.core c.core = 0) with hzero | hzero
    · rw [if_neg (not_not_intro hzero)]
      cases hc : c.isPrerelease with
      | true => simp [hzero]
      | false => simp [hzero]
    · rw [if_pos hzero]
      exact ⟨nofun, fun h => absurd h.1 hzero⟩
  | minimum => simp [Constraint.Rule, hge]
  | tilde =>
    simp only [Constraint.Rule, Bool.and_eq_true, decide_eq_true_eq, hge]
    rw [and_assoc]
    exact and_congr_right fun h => (lower_tildeLimit h).symm
  | caret =>
    simp only [Constraint.Rule]
    rcases Classical.em (v.core.Lower c.core) with hlower | hlower
    · rw [if_pos (semverCompare_neg.mpr hlower)]
      exact ⟨nofun, fun h => absurd hlower h.1⟩
    rw [if_neg (fun h => hlower (semverCompare_neg.mp h)), and_iff_right hlower,
      lower_caretLimit hlower]
    split
    · rw [decide_eq_true_eq]
    · split <;> simp [and_assoc]

/-- **The constraints are the documented ones where no number is read as another one.** Without a
constraint a prerelease matches too. -/
theorem constraintMatches_iff {version constraint : List UInt8} (hver : NoWrap version)
    (hconstraint : NoWrap (constraintMode constraint).2) :
    constraintMatches version constraint = true ↔
      ∃ v c, Reads version v ∧ ReadsConstraint constraint c ∧ c.Rule version v ∧
        (v.isPrerelease = true → c = .any ∨ c.isPrerelease = true) := by
  unfold constraintMatches
  cases hparse : parseSemver version with
  | none =>
    refine ⟨nofun, ?_⟩
    rintro ⟨v, -, hv, -⟩
    rw [hver.parseSemver_eq_some.mpr ⟨v, hv.1, hv.2, rfl⟩] at hparse
    cases hparse
  | some core =>
    obtain ⟨v, hread, hfits, rfl⟩ := hver.parseSemver_eq_some.mp hparse
    have hv : Reads version v := ⟨hread, hfits⟩
    simp only
    split
    · rename_i hnil
      subst hnil
      exact ⟨fun _ => ⟨v, .any, hv, .any, trivial, fun _ => .inl rfl⟩, fun _ => rfl⟩
    rename_i hne
    cases hbody : parseSemver (constraintMode constraint).2 with
    | none =>
      refine ⟨nofun, ?_⟩
      rintro ⟨-, c, -, hc, -⟩
      cases hc with
      | any => exact absurd rfl hne
      | bound _ hc =>
        rw [hconstraint.parseSemver_eq_some.mpr ⟨_, hc.1, hc.2, rfl⟩] at hbody
        cases hbody
    | some core =>
      obtain ⟨c, hread', hfits', rfl⟩ := hconstraint.parseSemver_eq_some.mp hbody
      have hc := ReadsConstraint.bound hne ⟨hread', hfits'⟩
      have hunique : (∃ v c, Reads version v ∧ ReadsConstraint constraint c ∧ c.Rule version v ∧
          (v.isPrerelease = true → c = .any ∨ c.isPrerelease = true)) ↔
          (Constraint.bound (constraintMode constraint).1 c (constraintMode constraint).2).Rule
            version v ∧ (v.isPrerelease = true → c.isPrerelease = true) := by
        constructor
        · rintro ⟨w, d, hw, hd, hrule, hnamed⟩
          cases hv.unique hw
          cases hc.unique hd
          exact ⟨hrule, fun h => (hnamed h).resolve_left nofun⟩
        · exact fun ⟨hrule, hnamed⟩ => ⟨v, _, hv, hc, hrule, fun h => .inr (hnamed h)⟩
      rw [hunique, ← modeMatches_iff _ v c (hasPrerelease_eq hread'), hasPrerelease_eq hread,
        hasPrerelease_eq hread']
      cases v.isPrerelease <;> cases c.isPrerelease <;> simp

end Raz.Registry
