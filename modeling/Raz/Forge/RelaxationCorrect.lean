import Raz.Forge.RelaxationLoop

/-!
# Branch relaxation moves the code

The pieces of a function are the bytes that are kept and the branches that are rewritten. A label
or a recorded field moves with the piece it is at the start of.

Result: `relaxes_iff`: branches, labels and recorded fields end up where they belong if and only if
no branch that comes to be short lies before a recorded thread-local address.
-/

namespace Raz.Forge.Relaxation

open Codec Relayout List

variable {offset : Nat} {c : RelaxationCandidate} {cs : List RelaxationCandidate}

/-! ## Well-formed functions -/

/-- The instructions of the recorded branches: where they begin, and their sizes. -/
def Unrelaxed.branches (f : Unrelaxed) : List (Nat × Nat) :=
  f.fixups.map (fun fixup => (fixup.instructionOffset, 5)) ++
    f.localBranchFixups.map fun fixup => (fixup.instructionOffset, 6)

/-- The recorded fields: where they begin, and their sizes. -/
def EncodedFunction.fields (function : EncodedFunction) : List (Nat × Nat) :=
  function.calls.map (fun call => (call.displacementOffset, 4)) ++
    function.addresses.map (fun address => (address.displacementOffset, 4)) ++
    function.globalAddresses.map (fun address => (address.addressOffset, 8)) ++
    function.tlsAddresses.map fun address => (address.addressOffset, 32)

/-- The offset is one of the code, and not inside a branch. -/
def Unrelaxed.IsTarget (f : Unrelaxed) (offset : Nat) : Prop :=
  offset ≤ f.function.code.length ∧
    ∀ branch ∈ f.branches, offset ≤ branch.1 ∨ branch.1 + branch.2 ≤ offset

/-- The branches are disjoint instructions in the code, their targets and the recorded fields are
outside of them, and the condition of a branch is the second byte of a conditional one. -/
structure Unrelaxed.WellFormed (f : Unrelaxed) : Prop where
  inside : ∀ branch ∈ f.branches, branch.1 + branch.2 ≤ f.function.code.length
  disjoint : f.branches.Pairwise fun a b => a.1 + a.2 ≤ b.1 ∨ b.1 + b.2 ≤ a.1
  labels : ∀ label ∈ f.labels, f.IsTarget label.2
  targets : ∀ fixup ∈ f.localBranchFixups, fixup.targetLabel = [] → f.IsTarget fixup.targetOffset
  conditions : ∀ fixup ∈ f.localBranchFixups, 0x80 ≤ fixup.condition ∧ fixup.condition ≤ 0x8F
  fields : ∀ field ∈ f.function.fields, field.1 + field.2 ≤ f.function.code.length ∧
    ∀ branch ∈ f.branches, field.1 + field.2 ≤ branch.1 ∨ branch.1 + branch.2 ≤ field.1

/-! ## What a relaxed function is -/

/-- The condition of a branch, if it has one. -/
def RelaxationCandidate.condition? (candidate : RelaxationCandidate) : Option UInt8 :=
  match candidate.kind with
  | .jump => none
  | .conditional => some (candidate.condition - 0x80)

/-- The condition and the displacement of a branch instruction. -/
def decodeBranch : List UInt8 → Option (Option UInt8 × Int)
  | [opcode, byte] =>
    if opcode = 0xEB then some (none, signed 8 byte.toNat)
    else if 0x70 ≤ opcode ∧ opcode ≤ 0x7F then some (some (opcode - 0x70), signed 8 byte.toNat)
    else none
  | [0xE9, a, b, c, d] => some (none, signed 32 (ofLittleEndian [a, b, c, d]))
  | [0x0F, opcode, a, b, c, d] =>
    if 0x80 ≤ opcode ∧ opcode ≤ 0x8F then
      some (some (opcode - 0x80), signed 32 (ofLittleEndian [a, b, c, d]))
    else none
  | _ => none

/-- A field of the original code that is found at another offset of the relaxed one, with the
bytes it had. -/
def Moves (f : Unrelaxed) (cs : List RelaxationCandidate) (width before after : Nat) : Prop :=
  ∃ k, originalPosition f cs k = before ∧ relaxedPosition f cs k = after ∧
    ∀ i < width, ∃ byte, (codePieces f cs)[k + i]? = some (.kept byte)

/-- The relaxed code of a function, given the branches with those marked that are shortened. -/
structure RelaxesCode (f : Unrelaxed) (cs : List RelaxationCandidate) (code : List UInt8)
    (text : RelaxationCandidate → List UInt8) : Prop where
  original : f.function.code = (codePieces f cs).flatMap
    (·.items fun c => (f.function.code.drop c.instructionOffset).take c.originalSize)
  relaxed : code = (codePieces f cs).flatMap (·.items text)
  branches : ∀ (k : Nat) c, (codePieces f cs)[k]? = some (.replaced c) →
    originalPosition f cs k = c.instructionOffset ∧ (text c).length = c.size ∧
    ∃ t displacement, originalPosition f cs t = c.targetOffset ∧
      decodeBranch (text c) = some (c.condition?, displacement) ∧
      (relaxedPosition f cs k + c.size : Nat) + displacement = relaxedPosition f cs t
  all : ∀ c ∈ cs, ∃ k : Nat, (codePieces f cs)[k]? = some (.replaced c)
  settled : ∀ c ∈ cs, c.shortened = false → fitsShort cs c = false

/-- The relaxed function, from the branches that the function has recorded. -/
structure Relaxes (f : Unrelaxed) (start : List RelaxationCandidate) (out : EncodedFunction) :
    Prop where
  ends : ∀ passes, start.length ≤ passes → shortenLoop passes start = shorten start
  code : ∃ text, RelaxesCode f (shorten start) out.code text
  calls : List.Forall₂ (fun before after => after.target = before.target ∧
    Moves f (shorten start) 4 before.displacementOffset after.displacementOffset)
    f.function.calls out.calls
  addresses : List.Forall₂ (fun before after => after.target = before.target ∧
    Moves f (shorten start) 4 before.displacementOffset after.displacementOffset)
    f.function.addresses out.addresses
  globalAddresses : List.Forall₂ (fun before after => after.target = before.target ∧
    Moves f (shorten start) 8 before.addressOffset after.addressOffset)
    f.function.globalAddresses out.globalAddresses
  tlsAddresses : List.Forall₂ (fun before after => after.target = before.target ∧
    Moves f (shorten start) 32 before.addressOffset after.addressOffset)
    f.function.tlsAddresses out.tlsAddresses

/-! ## The branches of a function -/

theorem findLabel_ok {f : Unrelaxed} {name : Coff.Text} (h : f.findLabel name = .ok offset) :
    ∃ label ∈ f.labels, offset = label.2 := by
  unfold Unrelaxed.findLabel at h
  split at h
  · nomatch h
  · rename_i label hlabel
    exact ⟨label, List.mem_of_find?_eq_some hlabel, (Except.ok.inj h).symm⟩

theorem jumpCandidate_ok {f : Unrelaxed} {fixup : JumpFixup × Nat}
    (h : jumpCandidate f fixup = .ok c) :
    ∃ label ∈ f.labels, c = {
      kind := .jump
      instructionOffset := fixup.1.instructionOffset
      originalSize := 5
      targetOffset := label.2
      sourceIndex := fixup.2 } := by
  obtain ⟨targetOffset, htarget, hc⟩ := Outcome.bind_ok h
  obtain ⟨label, hlabel, rfl⟩ := findLabel_ok htarget
  exact ⟨label, hlabel, (Except.ok.inj hc).symm⟩

theorem conditionalCandidate_ok {f : Unrelaxed} {fixup : LocalBranchFixup × Nat}
    (h : conditionalCandidate f fixup = .ok c) :
    ∃ targetOffset,
      (fixup.1.targetLabel = [] ∧ targetOffset = fixup.1.targetOffset ∨
        ∃ label ∈ f.labels, targetOffset = label.2) ∧
      c = {
        kind := .conditional
        instructionOffset := fixup.1.instructionOffset
        originalSize := 6
        targetOffset
        sourceIndex := fixup.2
        condition := fixup.1.condition } := by
  unfold conditionalCandidate at h
  split at h
  · rename_i hlocal
    exact ⟨_, .inl ⟨hlocal, rfl⟩, (Except.ok.inj h).symm⟩
  · obtain ⟨targetOffset, htarget, hc⟩ := Outcome.bind_ok h
    obtain ⟨label, hlabel, rfl⟩ := findLabel_ok htarget
    exact ⟨_, .inr ⟨label, hlabel, rfl⟩, (Except.ok.inj hc).symm⟩

/-- The instruction of a branch: where it begins, and its size. -/
def RelaxationCandidate.instruction (c : RelaxationCandidate) : Nat × Nat :=
  (c.instructionOffset, c.originalSize)

/-- What the recorded branches give. -/
structure Collected (f : Unrelaxed) (c : RelaxationCandidate) : Prop where
  long : c.shortened = false
  size : c.originalSize = match c.kind with | .jump => 5 | .conditional => 6
  target : f.IsTarget c.targetOffset
  condition : c.kind = .conditional → 0x80 ≤ c.condition ∧ c.condition ≤ 0x8F

theorem candidates_ok {f : Unrelaxed} (hwf : f.WellFormed) (h : candidates f = .ok cs) :
    (∀ c ∈ cs, Collected f c) ∧ (cs.map (·.instruction)).Perm f.branches ∧
      cs.Pairwise fun a b => a.instructionOffset ≤ b.instructionOffset := by
  obtain ⟨jumps, hjumps, h⟩ := Outcome.bind_ok h
  obtain ⟨conditionals, hconditionals, h⟩ := Outcome.bind_ok h
  cases h
  refine ⟨?_, ?_, ?_⟩
  · intro c hc
    rw [mem_mergeSort, mem_append] at hc
    rcases hc with hc | hc
    · obtain ⟨fixup, hfixup, hc⟩ := Outcome.mapM_mem hjumps c hc
      obtain ⟨label, hlabel, rfl⟩ := jumpCandidate_ok hc
      exact ⟨rfl, rfl, hwf.labels label hlabel, nofun⟩
    obtain ⟨fixup, hfixup, hc⟩ := Outcome.mapM_mem hconditionals c hc
    obtain ⟨targetOffset, htarget, rfl⟩ := conditionalCandidate_ok hc
    have hmem := fst_mem_of_mem_zipIdx hfixup
    refine ⟨rfl, rfl, ?_, fun _ => hwf.conditions _ hmem⟩
    rcases htarget with ⟨hlocal, rfl⟩ | ⟨label, hlabel, rfl⟩
    · exact hwf.targets _ hmem hlocal
    · exact hwf.labels label hlabel
  · refine ((mergeSort_perm _ _).map _).trans (List.Perm.of_eq ?_)
    have hfirst : jumps.map (·.instruction) =
        f.fixups.zipIdx.map fun fixup => (fixup.1.instructionOffset, 5) :=
      Outcome.mapM_map hjumps fun hc => by
        obtain ⟨label, -, rfl⟩ := jumpCandidate_ok hc
        rfl
    have hsecond : conditionals.map (·.instruction) =
        f.localBranchFixups.zipIdx.map fun fixup => (fixup.1.instructionOffset, 6) :=
      Outcome.mapM_map hconditionals fun hc => by
        obtain ⟨targetOffset, -, rfl⟩ := conditionalCandidate_ok hc
        rfl
    have hpositions : ∀ {α : Type} (items : List α) (g : α → Nat × Nat),
        (items.zipIdx.map fun item => g item.1) = items.map g := by
      intro α items g
      have hcompose : (items.zipIdx.map Prod.fst).map g = items.map g := by
        rw [zipIdx_map_fst]
      rwa [map_map] at hcompose
    have hjumpPositions := hpositions f.fixups fun fixup => (fixup.instructionOffset, 5)
    have hlocalPositions := hpositions f.localBranchFixups fun fixup => (fixup.instructionOffset, 6)
    rw [map_append, hfirst, hsecond, hjumpPositions, hlocalPositions]
    rfl
  · refine List.Pairwise.imp of_decide_eq_true (pairwise_mergeSort ?_ ?_ _)
    · intro a b c hab hbc
      exact decide_eq_true ((of_decide_eq_true hab).trans (of_decide_eq_true hbc))
    · intro a b
      simpa using Nat.le_total a.instructionOffset b.instructionOffset

theorem inOrder_of_sorted {limit cursor : Nat}
    (hsorted : cs.Pairwise fun a b => a.instructionOffset ≤ b.instructionOffset) (hdisjoint :
      cs.Pairwise fun a b => a.instructionOffset + a.originalSize ≤ b.instructionOffset ∨
      b.instructionOffset + b.originalSize ≤ a.instructionOffset)
    (hsizes : ∀ c ∈ cs, 0 < c.originalSize) (hinside : ∀ c ∈ cs, cursor ≤ c.instructionOffset ∧
      c.instructionOffset + c.originalSize ≤ limit) (hcur : cursor ≤ limit) :
    InOrder (·.instructionOffset) (·.originalSize) limit cursor cs := by
  induction cs generalizing cursor with
  | nil => exact hcur
  | cons c cs ih =>
    rw [pairwise_cons] at hsorted hdisjoint
    rw [forall_mem_cons] at hsizes hinside
    refine ⟨hinside.1.1, hsizes.1, ?_⟩
    refine ih hsorted.2 hdisjoint.2 hsizes.2 (fun d hd => ?_) hinside.1.2
    have hle := hsorted.1 d hd
    have hsize := hsizes.2 d hd
    have hafter : c.instructionOffset + c.originalSize ≤ d.instructionOffset := by
      have hapart := hdisjoint.1 d hd
      omega
    exact ⟨hafter, (hinside.2 d hd).2⟩

theorem spans_of_candidates {f : Unrelaxed} (hwf : f.WellFormed) (h : candidates f = .ok cs) :
    Spans f.function.code.length cs := by
  obtain ⟨hcollected, hperm, hsorted⟩ := candidates_ok hwf h
  have hbranch : ∀ c ∈ cs, c.instruction ∈ f.branches := fun c hc =>
    hperm.mem_iff.mp (mem_map_of_mem hc)
  have hsizes : ∀ c ∈ cs, 0 < c.originalSize := by
    intro c hc
    rw [(hcollected c hc).size]
    split <;> decide
  refine ⟨inOrder_of_sorted hsorted ?_ hsizes ?_ (Nat.zero_le _), ?_, ?_⟩
  · have hdisjoint := (hperm.pairwise_iff fun h => h.symm).mpr hwf.disjoint
    exact pairwise_map.mp hdisjoint
  · exact fun c hc => ⟨Nat.zero_le _, hwf.inside _ (hbranch c hc)⟩
  · exact fun c hc => (hcollected c hc).size
  · exact fun c hc => ⟨(hcollected c hc).target.1, fun d hd =>
      (hcollected c hc).target.2 _ (hbranch d hd)⟩

/-! ## The bytes of a branch -/

theorem signed_byte {d : Int} (hlow : -128 ≤ d) (hhigh : d ≤ 127) :
    signed 8 (UInt8.ofNat (displacementBits 8 d)).toNat = d := by
  have hbits : (displacementBits 8 d : Int) = d % 256 := Int.toNat_of_nonneg (by omega)
  have hlt : displacementBits 8 d < 256 := by omega
  have hbyte : (UInt8.ofNat (displacementBits 8 d)).toNat = displacementBits 8 d :=
    Nat.mod_eq_of_lt hlt
  rw [hbyte, signed]
  split <;> omega

theorem signed_word {d : Int} (h : fitsLong d = true) :
    signed 32 (ofLittleEndian (littleEndian 4 (displacementBits 32 d))) = d := by
  have hrange : -2147483648 ≤ d ∧ d < 2147483648 := by simpa [fitsLong] using h
  have hbits : (displacementBits 32 d : Int) = d % 4294967296 := Int.toNat_of_nonneg (by omega)
  have hlt : displacementBits 32 d < 256 ^ 4 := by omega
  rw [ofLittleEndian_of_lt hlt, signed]
  split <;> omega

theorem decodeBranch_short_conditional {condition byte : UInt8} (hlow : 0x80 ≤ condition)
    (hhigh : condition ≤ 0x8F) :
    decodeBranch [condition - 0x10, byte] =
      some (some (condition - 0x80), signed 8 byte.toNat) := by
  have hlow' : 128 ≤ condition.toNat := hlow
  have hhigh' : condition.toNat ≤ 143 := hhigh
  have hopcode : (condition - 0x10).toNat = condition.toNat - 16 :=
    UInt8.toNat_sub_of_le _ _ (UInt8.le_iff_toNat_le.mpr ((by decide : 16 ≤ 128).trans hlow'))
  have hne : condition - 0x10 ≠ 0xEB := by
    intro heq
    rw [heq] at hopcode
    have hval : (0xEB : UInt8).toNat = 235 := rfl
    omega
  have hrange : 0x70 ≤ condition - 0x10 ∧ condition - 0x10 ≤ 0x7F := by
    rw [UInt8.le_iff_toNat_le, UInt8.le_iff_toNat_le, hopcode]
    have hfirst : (0x70 : UInt8).toNat = 112 := rfl
    have hlast : (0x7F : UInt8).toNat = 127 := rfl
    omega
  have hrest : condition - 0x10 - 0x70 = condition - 0x80 := by grind
  simp only [decodeBranch, if_neg hne, if_pos hrange, hrest]

/-- **A branch is what its bytes say**, with its final displacement. -/
theorem decodeBranch_relaxedBranch {bytes : List UInt8} (h : relaxedBranch name cs c = .ok bytes)
    (hsize : c.originalSize = match c.kind with | .jump => 5 | .conditional => 6)
    (hcondition : c.kind = .conditional → 0x80 ≤ c.condition ∧ c.condition ≤ 0x8F)
    (hfits : c.shortened = true → fitsShort cs c = true) :
    bytes.length = c.size ∧ decodeBranch bytes = some (c.condition?, delta cs c c.size) := by
  unfold relaxedBranch at h
  unfold RelaxationCandidate.condition? RelaxationCandidate.size
  rw [hsize]
  cases hshort : c.shortened with
  | true =>
    obtain ⟨hlow, hhigh⟩ := (fitsShort_iff c cs).mp (hfits hshort)
    have hdisplacement := signed_byte hlow hhigh
    cases hkind : c.kind with
    | jump =>
      rw [hshort, hkind] at h
      cases h
      exact ⟨rfl, congrArg (fun d => some (none, d)) hdisplacement⟩
    | conditional =>
      rw [hshort, hkind] at h
      cases h
      obtain ⟨hlow, hhigh⟩ := hcondition hkind
      refine ⟨rfl, ?_⟩
      rw [decodeBranch_short_conditional hlow hhigh, hdisplacement]
      rfl
  | false =>
    cases hkind : c.kind with
    | jump =>
      rw [hshort, hkind] at h
      simp only [Bool.false_eq_true, if_false] at h
      split at h
      · nomatch h
      rename_i hlong
      cases h
      have hdisplacement := signed_word (by simpa using hlong)
      exact ⟨rfl, congrArg (fun d => some (none, d)) hdisplacement⟩
    | conditional =>
      rw [hshort, hkind] at h
      simp only [Bool.false_eq_true, if_false] at h
      split at h
      · nomatch h
      rename_i hlong
      cases h
      have hdisplacement := signed_word (by simpa using hlong)
      refine ⟨rfl, ?_⟩
      have hdecode : ∀ rest, decodeBranch (0x0F :: c.condition :: littleEndian 4 rest) =
          some (some (c.condition - 0x80), signed 32 (ofLittleEndian (littleEndian 4 rest))) :=
        fun rest => if_pos (hcondition hkind)
      rw [hdecode, hdisplacement]
      rfl

/-! ## The relaxed code -/

/-- The bytes of a branch in the relaxed code. -/
def branchText (name : Coff.Text) (cs : List RelaxationCandidate) (c : RelaxationCandidate) :
    List UInt8 :=
  match relaxedBranch name cs c with
  | .ok bytes => bytes
  | .error _ => []

/-- The relaxed code is the pieces, with the branches rewritten. -/
theorem relaxedCode_ok {rest : List RelaxationCandidate} {originalCode code : List UInt8}
    {cursor : Nat} (h : relaxedCode name cs originalCode cursor rest = .ok code) :
    (∀ c ∈ rest, relaxedBranch name cs c = .ok (branchText name cs c)) ∧
      code = (pieces (·.instructionOffset) (·.originalSize) originalCode cursor rest).flatMap
        (·.items (branchText name cs)) := by
  induction rest generalizing cursor code with
  | nil =>
    cases h
    exact ⟨nofun, (flatMap_kept _ _).symm⟩
  | cons c rest ih =>
    obtain ⟨branch, hbranch, h⟩ := Outcome.bind_ok h
    obtain ⟨code', hcode, h⟩ := Outcome.bind_ok h
    cases h
    obtain ⟨hall, rfl⟩ := ih hcode
    have htext : branchText name cs c = branch := by rw [branchText, hbranch]
    refine ⟨forall_mem_cons.mpr ⟨htext ▸ hbranch, hall⟩, ?_⟩
    rw [pieces, flatMap_append, flatMap_kept, flatMap_cons]
    have hitems : Piece.items (branchText name cs) (.replaced c : Piece UInt8 _) = branch := htext
    rw [hitems, append_assoc]

section
variable {f : Unrelaxed} {start : List RelaxationCandidate}

/-- What the candidates of a well-formed function become. -/
structure Settled (f : Unrelaxed) (cs : List RelaxationCandidate) : Prop where
  spans : Spans f.function.code.length cs
  conditions : ∀ c ∈ cs, c.kind = .conditional → 0x80 ≤ c.condition ∧ c.condition ≤ 0x8F
  short : ∀ c ∈ cs, c.shortened = true → fitsShort cs c = true
  fields : ∀ field ∈ f.function.fields, ∀ c ∈ cs, field.1 + field.2 ≤ c.instructionOffset ∨
    c.instructionOffset + c.originalSize ≤ field.1

theorem settled_shorten (hwf : f.WellFormed) (hstart : candidates f = .ok start) :
    Settled f (shorten start) := by
  obtain ⟨hcollected, hperm, -⟩ := candidates_ok hwf hstart
  have hspans := spans_of_candidates hwf hstart
  have hinv := loopInv_shorten hspans fun c hc => (hcollected c hc).long
  refine ⟨hspans.grows hinv.grows, ?_, hinv.short, ?_⟩
  · intro c' hc'
    obtain ⟨c, hc, hsame⟩ := hinv.grows.mem_back hc'
    rw [hsame]
    exact (hcollected c hc).condition
  · intro field hfield c' hc'
    obtain ⟨c, hc, hsame⟩ := hinv.grows.mem_back hc'
    rw [hsame]
    exact (hwf.fields field hfield).2 c.instruction (hperm.mem_iff.mp (mem_map_of_mem hc))

theorem relaxesCode_ok (h : Settled f cs)
    (hsettled : ∀ c ∈ cs, c.shortened = false → fitsShort cs c = false) {code : List UInt8}
    (hcode : relaxedCode f.function.name cs f.function.code 0 cs = .ok code) :
    RelaxesCode f cs code (branchText f.function.name cs) := by
  obtain ⟨hbranches, rfl⟩ := relaxedCode_ok hcode
  refine ⟨?_, rfl, ?_, fun c hc => ?_, hsettled⟩
  · exact (flatMap_pieces (fun _ _ => rfl) h.spans.inOrder).symm
  · intro k c hk
    have hmem := mem_of_replaced hk
    have hlt := (List.getElem?_eq_some_iff.mp hk).1
    have hpos := position_replaced h.spans.inOrder hk
    rw [Nat.zero_add] at hpos
    have hpos : originalPosition f cs k = c.instructionOffset := hpos
    obtain ⟨hlen, hdecode⟩ := decodeBranch_relaxedBranch (hbranches c hmem)
      (h.spans.sizes c hmem) (h.conditions c hmem) (h.short c hmem)
    obtain ⟨hlimit, hbound⟩ := h.spans.targets c hmem
    obtain ⟨t, ht, htarget⟩ := exists_originalPosition h.spans hlimit hbound
    refine ⟨hpos, hlen, t, delta cs c c.size, htarget, hdecode, ?_⟩
    rw [delta, ← htarget, adjustedOffset_position h.spans ht, ← hpos,
      adjustedOffset_position h.spans hlt.le]
    omega
  · obtain ⟨k, hk, -⟩ := exists_branch h.spans hc
    exact ⟨k, hk⟩

theorem moves_adjusted (h : Settled f cs) (hwf : f.WellFormed) {width : Nat}
    (hfield : (offset, width) ∈ f.function.fields) :
    Moves f cs width offset (adjustedOffset cs offset) := by
  have hlimit : offset + width ≤ f.function.code.length := (hwf.fields _ hfield).1
  have hapart := h.fields _ hfield
  have hbound : Boundary (·.instructionOffset) (·.originalSize) cs offset := fun c hc =>
    (hapart c hc).imp (fun hle => (Nat.le_add_right ..).trans hle) id
  obtain ⟨k, hk, rfl⟩ := exists_originalPosition h.spans (by omega) hbound
  refine ⟨k, rfl, (adjustedOffset_position h.spans hk).symm, fun i hi => ?_⟩
  exact kept_of_apart h.spans.inOrder hlimit hapart (Nat.zero_add _) hi

/-- A field is found at its old offset if and only if nothing before it was shortened. -/
theorem moves_same_iff (h : Settled f cs) (hwf : f.WellFormed) {width : Nat}
    (hfield : (offset, width) ∈ f.function.fields) (hwidth : 0 < width) :
    Moves f cs width offset offset ↔
      ∀ c ∈ cs, c.instructionOffset < offset → c.shortened = false := by
  have hremoved : removedBefore cs offset = 0 ↔
      ∀ c ∈ cs, c.instructionOffset < offset → c.shortened = false := by
    have hzero : ∀ c : RelaxationCandidate, c.removed = 0 ↔ c.shortened = false := by
      intro c
      rw [RelaxationCandidate.removed]
      cases c.shortened <;> cases c.kind <;> simp
    rw [removedBefore, List.sum_eq_zero_iff_forall_eq_nat, forall_mem_map]
    simp [hzero]
  rw [← hremoved]
  constructor
  · rintro ⟨k, horiginal, hrelaxed, hkept⟩
    obtain ⟨byte, hbyte⟩ := hkept 0 hwidth
    have hlt := (List.getElem?_eq_some_iff.mp hbyte).1
    have hmoved := relaxedPosition_add h.spans (k := k) (by omega)
    rw [horiginal, hrelaxed] at hmoved
    omega
  · intro hzero
    have hmoves := moves_adjusted h hwf hfield
    rwa [adjustedOffset, hzero, Nat.sub_zero] at hmoves

theorem forall₂_map_self {α : Type} {r : α → α → Prop} {items : List α} {g : α → α}
    (h : ∀ item ∈ items, r item (g item)) : List.Forall₂ r items (items.map g) :=
  forall₂_map_right_iff.mpr (forall₂_same.mpr h)

/-- **Branch relaxation moves the code, the labels and the recorded fields** if and only if no
branch that comes to fit 8 bits lies before a recorded thread-local address: these are the ones
that the encoder does not move. -/
theorem relaxes_iff (hwf : f.WellFormed) (hstart : candidates f = .ok start)
    {out : EncodedFunction} (h : relax f = .ok out) :
    Relaxes f start out ↔
      ∀ address ∈ f.function.tlsAddresses, ∀ (i : Nat) c, start[i]? = some c →
        c.instructionOffset < address.addressOffset → ¬ Shortens start i := by
  have hlong : ∀ c ∈ start, c.shortened = false := fun c hc =>
    ((candidates_ok hwf hstart).1 c hc).long
  have hspans := spans_of_candidates hwf hstart
  have hsettled := settled_shorten hwf hstart
  have hinv := loopInv_shorten hspans hlong
  unfold relax at h
  rw [hstart] at h
  obtain ⟨code, hcode, h⟩ := Outcome.bind_ok (x := relaxedCode _ (shorten start) _ _ _) h
  cases h
  -- a thread-local address stays, so nothing before it may be shortened
  have htls : ∀ address ∈ f.function.tlsAddresses,
      (Moves f (shorten start) 32 address.addressOffset address.addressOffset ↔
        ∀ (i : Nat) c, start[i]? = some c → c.instructionOffset < address.addressOffset →
          ¬ Shortens start i) := by
    intro address haddr
    have hfield : (address.addressOffset, 32) ∈ f.function.fields :=
      mem_append_right _ (mem_map_of_mem haddr)
    rw [moves_same_iff hsettled hwf hfield (by decide)]
    constructor
    · intro hall i c hc hbefore hshortens
      obtain ⟨c', hc', hsame, -⟩ := hinv.grows.getElem hc
      have hshort := (shortened_iff hspans hlong hc').mpr hshortens
      have hstill := hall c' (mem_of_getElem? hc') (by rw [hsame]; exact hbefore)
      nomatch hshort.symm.trans hstill
    · intro hall c' hmem hbefore
      obtain ⟨i, hc'⟩ := mem_iff_getElem?.mp hmem
      obtain ⟨c, hc, hsame, -⟩ := hinv.grows.getElem_back hc'
      rw [hsame] at hbefore
      refine Bool.eq_false_iff.mpr fun hshort => ?_
      exact hall i c hc hbefore ((shortened_iff hspans hlong hc').mp hshort)
  constructor
  · intro hrelaxes address haddr
    exact (htls address haddr).mp (forall₂_same.mp hrelaxes.tlsAddresses address haddr).2
  intro hall
  refine ⟨fun passes hpasses => shortenLoop_eq hspans hlong hpasses,
    ⟨_, relaxesCode_ok hsettled (shorten_settled hspans hlong) hcode⟩,
    forall₂_map_self fun call hcall => ⟨rfl, moves_adjusted hsettled hwf ?_⟩,
    forall₂_map_self fun address haddr => ⟨rfl, moves_adjusted hsettled hwf ?_⟩,
    forall₂_map_self fun address haddr => ⟨rfl, moves_adjusted hsettled hwf ?_⟩,
    forall₂_same.mpr fun address haddr =>
      ⟨rfl, (htls address haddr).mpr (hall address haddr)⟩⟩
  · exact mem_append_left _ (mem_append_left _ (mem_append_left _ (mem_map_of_mem hcall)))
  · exact mem_append_left _ (mem_append_left _ (mem_append_right _ (mem_map_of_mem haddr)))
  · exact mem_append_left _ (mem_append_right _ (mem_map_of_mem haddr))

end

/-! ## A thread-local address behind a branch -/

/-- A function with one jump. -/
def oneJump (function : EncodedFunction) (offset target : Nat) : Unrelaxed where
  function := function
  labels := [([98], target)]
  fixups := [{ instructionOffset := offset, displacementOffset := offset + 1, target := [98] }]
  localBranchFixups := []

theorem candidates_oneJump (function : EncodedFunction) (offset target : Nat) :
    candidates (oneJump function offset target) = .ok [{
      kind := .jump
      instructionOffset := offset
      originalSize := 5
      targetOffset := target
      sourceIndex := 0 }] :=
  congrArg Except.ok (mergeSort_singleton _)

/-- A call, and a jump to itself. -/
def callThenJump : Unrelaxed :=
  oneJump {
    name := [102]
    code := [0xE8, 0, 0, 0, 0, 0xE9, 0, 0, 0, 0]
    calls := [{ displacementOffset := 1, target := [103] }] } 5 5

theorem relaxes_iff_callThenJump : ∃ start out, candidates callThenJump = .ok start ∧
    relax callThenJump = .ok out ∧ out.code = [0xE8, 0, 0, 0, 0, 0xEB, 0xFE] ∧
      Relaxes callThenJump start out := by
  have hwf : callThenJump.WellFormed := by
    constructor <;> simp [callThenJump, oneJump, Unrelaxed.branches, Unrelaxed.IsTarget,
      EncodedFunction.fields]
  have hstart := candidates_oneJump callThenJump.function 5 5
  have hrelax : relax callThenJump = .ok {
      callThenJump.function with code := [0xE8, 0, 0, 0, 0, 0xEB, 0xFE] } := by
    unfold relax
    rw [show candidates callThenJump = _ from hstart]
    rfl
  exact ⟨_, _, hstart, hrelax, rfl, (relaxes_iff hwf hstart hrelax).mpr nofun⟩

/-- Three blocks: the first jumps to the last, which jumps to the second, which returns the address
of a thread-local variable. -/
def jumpOverTls : Unrelaxed where
  function := {
    name := [102]
    code := [0xE9, 0, 0, 0, 0] ++ List.replicate 32 0x90 ++
      [0x49, 0x89, 0xC2, 0x4C, 0x89, 0xD0, 0xC3, 0xE9, 0, 0, 0, 0]
    tlsAddresses := [{ addressOffset := 5, target := [116] }] }
  labels := [([101], 0), ([98], 5), ([99], 44)]
  fixups := [{ instructionOffset := 0, displacementOffset := 1, target := [99] },
    { instructionOffset := 44, displacementOffset := 45, target := [98] }]
  localBranchFixups := []

theorem candidates_jumpOverTls : candidates jumpOverTls = .ok [{
      kind := .jump
      instructionOffset := 0
      originalSize := 5
      targetOffset := 44
      sourceIndex := 0 }, {
      kind := .jump
      instructionOffset := 44
      originalSize := 5
      targetOffset := 5
      sourceIndex := 1 }] :=
  congrArg Except.ok (mergeSort_of_pairwise (by decide))

/-- The code moves by 3 bytes, the recorded address does not. -/
theorem not_relaxes_jumpOverTls : ¬ ∀ f start out, f.WellFormed → candidates f = .ok start →
    relax f = .ok out → Relaxes f start out := by
  intro hall
  have hwf : jumpOverTls.WellFormed := by
    constructor <;> simp [jumpOverTls, Unrelaxed.branches, Unrelaxed.IsTarget,
      EncodedFunction.fields]
  have hstart := candidates_jumpOverTls
  have hrelax : relax jumpOverTls = .ok {
      jumpOverTls.function with
      code := [0xEB, 39] ++ List.replicate 32 0x90 ++
        [0x49, 0x89, 0xC2, 0x4C, 0x89, 0xD0, 0xC3, 0xEB, 0xD7] } := by
    unfold relax
    rw [hstart]
    rfl
  have htls := (hall _ _ _ hwf hstart hrelax).tlsAddresses
  have hmoves := (forall₂_same.mp htls _ mem_cons_self).2
  have hlong := (moves_same_iff (settled_shorten hwf hstart) hwf
    (mem_append_right _ mem_cons_self) (by decide)).mp hmoves
  exact absurd hlong (by decide)

end Raz.Forge.Relaxation
