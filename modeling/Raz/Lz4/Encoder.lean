import Raz.Lz4.Buffer

/-!
# The encoder writes a block of the format

Whatever the hash table holds, a candidate is only used after its bytes were compared and
its distance was checked, so the sequences written denote the input read so far. The
amortised bound of the format keeps every capacity check of the source from failing.

Result: `compressBlock_correct`: the whole block is `blockBytes` of valid sequences followed by the
last literals, and fits `compress_bound`.
-/

namespace Raz.Lz4

open List
open Lz77

variable {capacity index : Nat} {input : List UInt8} {matchLimit : Int}
  {sequences : List (Sequence UInt8)} {s : CompressState}

/-! ## The two halves of a sequence -/

theorem emitLiterals_extends {output bytes : List UInt8} {cursor : Nat} (input : List UInt8)
    (anchor literalLength matchToken : Nat) (hp : bytes <+: output) (hc : cursor = bytes.length)
    (hcap : output.length = capacity) (hin : anchor + literalLength ≤ input.length) (hfit : cursor +
      (literalBytes ((input.drop anchor).take literalLength) matchToken).length ≤ capacity) :
    ∃ output', emitLiterals input anchor literalLength matchToken output capacity cursor =
        .ok (output', cursor +
          (literalBytes ((input.drop anchor).take literalLength) matchToken).length) ∧
      Extends output bytes
        (literalBytes ((input.drop anchor).take literalLength) matchToken) output' := by
  have hlen : ((input.drop anchor).take literalLength).length = literalLength := by
    simp; omega
  generalize hlits : (input.drop anchor).take literalLength = literals at hlen hfit ⊢
  subst hlen
  simp only [literalBytes, length_cons, length_append] at hfit ⊢
  obtain ⟨m1, hstore, hext⟩ :=
    storeU8_extends cursor ((nibble literals.length <<< 4) ||| matchToken) hp hc (by omega)
  by_cases h15 : literals.length ≥ 15
  · rw [if_pos h15] at hfit ⊢
    obtain ⟨m2, hemit, hext2⟩ :=
      emitLength_extends (literals.length - 15) (cursor + 1) hext.isPrefix
      (by simp [hc]) (hext.length_eq.trans hcap) (by omega)
    obtain ⟨m3, hcopy, hext3⟩ := copyBytes_extends input literals.length anchor
      (cursor + 1 + (lengthBytes (literals.length - 15)).length) hext2.isPrefix
      (by simp [hc]; omega) hin (by rw [hext2.length_eq, hext.length_eq]; omega)
    rw [hlits] at hext3
    refine ⟨m3, ?_, hext.trans (hext2.trans hext3)⟩
    have hroom : ¬ literals.length >
        capacity - (cursor + 1 + (lengthBytes (literals.length - 15)).length) := by omega
    have htoken : (if literals.length > 15 then 15 else literals.length) =
        nibble literals.length := rfl
    simp only [emitLiterals, if_neg (show ¬ cursor ≥ capacity by omega), htoken, hstore,
      if_pos h15, hemit, if_neg hroom, hcopy, bind, Except.bind, pure, Except.pure,
      Except.ok.injEq, Prod.mk.injEq, true_and]
    omega
  · rw [if_neg h15] at hfit ⊢
    obtain ⟨m3, hcopy, hext3⟩ := copyBytes_extends input literals.length anchor
      (cursor + 1) hext.isPrefix (by simp [hc]) hin
      (by rw [hext.length_eq]; simp at hfit; omega)
    rw [hlits] at hext3
    refine ⟨m3, ?_, hext.trans hext3⟩
    simp only [length_nil] at hfit ⊢
    have hroom : ¬ literals.length > capacity - (cursor + 1) := by omega
    have htoken : (if literals.length > 15 then 15 else literals.length) =
        nibble literals.length := rfl
    simp only [emitLiterals, if_neg (show ¬ cursor ≥ capacity by omega), htoken, hstore,
      if_neg h15, if_neg hroom, hcopy, bind, Except.bind, pure, Except.pure,
      Except.ok.injEq, Prod.mk.injEq, true_and]
    omega

theorem emitMatch_extends {output bytes : List UInt8} (distance matchLength cursor : Nat)
    (hp : bytes <+: output) (hc : cursor = bytes.length) (hcap : output.length = capacity)
    (hfit : cursor + (matchBytes distance matchLength).length ≤ capacity) :
    ∃ output', emitMatch distance matchLength output capacity cursor =
        .ok (output', cursor + (matchBytes distance matchLength).length) ∧
      Extends output bytes (matchBytes distance matchLength) output' := by
  simp only [matchBytes, length_append, length_cons, length_nil] at hfit ⊢
  obtain ⟨m1, hstore1, hext1⟩ := storeU8_extends cursor (distance &&& 255) hp hc (by omega)
  obtain ⟨m2, hstore2, hext2⟩ := storeU8_extends (cursor + 1) ((distance >>> 8) &&& 255)
    hext1.isPrefix (by simp [hc]) (by rw [hext1.length_eq]; omega)
  have hext := hext1.trans hext2
  have hroom : ¬ (cursor : Int) > (capacity : Int) - 2 := by omega
  by_cases h15 : matchLength - 4 ≥ 15
  · rw [if_pos h15] at hfit ⊢
    obtain ⟨m3, hemit, hext3⟩ := emitLength_extends (matchLength - 4 - 15) (cursor + 2)
      hext.isPrefix (by simp [hc]) (hext.length_eq.trans hcap) (by omega)
    refine ⟨m3, ?_, hext.trans hext3⟩
    simp only [emitMatch, if_neg hroom, hstore1, hstore2, if_pos h15,
      show matchLength - 19 = matchLength - 4 - 15 by omega, hemit, bind, Except.bind,
      pure, Except.pure, Except.ok.injEq, Prod.mk.injEq, true_and]
    omega
  · rw [if_neg h15]
    refine ⟨m2, ?_, by simpa using hext⟩
    simp [emitMatch, if_neg hroom, hstore1, hstore2, if_neg h15, bind, Except.bind,
      pure, Except.pure]

/-! ## The match -/

theorem extendMatch_spec {candidate : Nat} (hlt : candidate < index) (fuel : Nat) :
    ∀ (matchLength : Nat), index + matchLength ≤ input.length →
      (∀ k < matchLength, input[candidate + k]? = input[index + k]?) →
      ∃ result, extendMatch input candidate index fuel matchLength = .ok result ∧
        matchLength ≤ result ∧ index + result ≤ input.length ∧
        ∀ k < result, input[candidate + k]? = input[index + k]? := by
  induction fuel with
  | zero => intro matchLength hle heq; exact ⟨matchLength, rfl, by omega, hle, heq⟩
  | succ fuel ih =>
    intro matchLength hle heq
    by_cases hin : index + matchLength < input.length
    · by_cases hbyte : input[candidate + matchLength].toNat = input[index + matchLength].toNat
      · have hnext : ∀ k < matchLength + 1, input[candidate + k]? = input[index + k]? := by
          intro k hk
          by_cases hlast : k = matchLength
          · subst hlast
            rw [List.getElem?_eq_getElem (by omega), List.getElem?_eq_getElem hin,
              UInt8.toNat_inj.mp hbyte]
          · exact heq k (by omega)
        obtain ⟨result, hrun, hge, hend, hall⟩ := ih (matchLength + 1) (by omega) hnext
        refine ⟨result, ?_, by omega, hend, hall⟩
        simp [extendMatch, if_pos hin, loadU8_eq hin, loadU8_eq
          (show candidate + matchLength < input.length by omega), bind, Except.bind, if_pos hbyte,
          hrun]
      · refine ⟨matchLength, ?_, by omega, hle, heq⟩
        simp [extendMatch, loadU8_eq hin, loadU8_eq
          (show candidate + matchLength < input.length by omega), bind, Except.bind, if_neg hbyte,
          pure, Except.pure]
    · exact ⟨matchLength, by simp [extendMatch, if_neg hin, pure, Except.pure], by omega, hle, heq⟩

theorem hashSequence_lt (sequence : UInt64) : hashSequence sequence < hashSlots := by
  have hmask : (4095 : UInt64).toNat = 4095 := rfl
  unfold hashSequence hashSlots
  rw [UInt64.toNat_and, hmask]
  exact Nat.lt_succ_of_le Nat.and_le_right

theorem HashTable.set_isOk (table : HashTable) (h : index < hashSlots) (value : Int) :
    ∃ table', table.set index value = .ok table' := by
  simp [HashTable.set, h]

theorem HashTable.get_isOk (table : HashTable) (h : index < hashSlots) :
    ∃ value, table.get index = .ok value := by
  have hlt : index < table.cells.length := by rw [table.size_eq]; exact h
  simp [HashTable.get, List.getElem?_eq_getElem hlt]

theorem seedTable_isOk (table : HashTable) (index : Nat)
    (hlimit : matchLimit = (input.length : Int) - 4) :
    ∃ table', seedTable input matchLimit index table = .ok table' := by
  unfold seedTable
  split
  · simp only
    split
    · obtain ⟨sequence, hload⟩ := loadU32_isOk input ((index : Int) - 2).toNat (by omega)
      simp only [hload, bind, Except.bind]
      exact table.set_isOk (hashSequence_lt sequence) _
    · exact ⟨table, rfl⟩
  · exact ⟨table, rfl⟩

/-! ## The main loop -/

/-- The bytes written are the block of `sequences`, and these denote the input before
`anchor`. Nothing is required of the hash table. -/
structure CompressInv (input : List UInt8) (capacity : Nat)
    (sequences : List (Sequence UInt8)) (s : CompressState) : Prop where
  valid : ValidFrom [] sequences
  text : expand sequences = input.take s.anchor
  cursor_eq : s.cursor = (blockBytes sequences).length
  written : blockBytes sequences <+: s.output
  capacity_eq : s.output.length = capacity
  anchor_le : s.anchor ≤ s.index
  index_le : s.index ≤ input.length

theorem CompressInv.length_text (h : CompressInv input capacity sequences s) :
    (expand sequences).length = s.anchor := by
  have h1 := h.anchor_le
  have h2 := h.index_le
  rw [h.text, length_take]
  omega

theorem CompressInv.cursor_le (h : CompressInv input capacity sequences s) :
    s.cursor ≤ s.anchor + s.anchor / 255 := by
  have hle := blockBytes_length_le sequences [] h.valid
  have htext := h.length_text
  rw [h.cursor_eq]
  unfold expand at htext
  simp only [length_nil, htext] at hle
  omega

theorem emitSequence_inv (candidate : Nat) (h : CompressInv input capacity sequences s)
    (hlimit : matchLimit = (input.length : Int) - 4)
    (hcap : input.length + input.length / 255 + 16 ≤ capacity)
    (hidx : (s.index : Int) ≤ matchLimit) (hlt : candidate < s.index)
    (hfar : s.index - candidate ≤ 65535)
    (heq : ∀ k < 4, input[candidate + k]? = input[s.index + k]?) :
    ∃ sequences' s', emitSequence input matchLimit capacity candidate s = .ok s' ∧
      CompressInv input capacity sequences' s' ∧ s.index < s'.index := by
  have hanchor := h.anchor_le
  obtain ⟨matchLength, hextend, hge, hend, hall⟩ :=
    extendMatch_spec hlt (input.length - s.index) 4 (by omega) heq
  let literals := (input.drop s.anchor).take (s.index - s.anchor)
  have hlits : literals.length = s.index - s.anchor := by simp [literals]; omega
  let next : Sequence UInt8 :=
    { literals, distance := s.index - candidate, matchLength }
  have hvalid : ValidAfter (expand sequences) next :=
    { distance_pos := by simp [next]; omega
      distance_le := hfar
      distance_back := by simp only [next, hlits, h.length_text]; omega
      minMatch := hge }
  have happly : next.apply (expand sequences) = input.take (s.index + matchLength) := by
    have happend : expand sequences ++ literals = input.take s.index := by
      rw [h.text, ← take_add, show s.anchor + (s.index - s.anchor) = s.index by omega]
    show appendMatch (s.index - candidate) matchLength (expand sequences ++ literals) = _
    rw [happend]
    refine appendMatch_take input (by omega) matchLength s.index (by omega) hend ?_
    intro k hk
    rw [show s.index - (s.index - candidate) = candidate by omega]
    exact hall k hk
  have hvalid' : ValidFrom [] (sequences ++ [next]) :=
    validFrom_snoc sequences next [] h.valid hvalid
  have htext' : expand (sequences ++ [next]) = input.take (s.index + matchLength) := by
    rw [expand_snoc, happly]
  -- The bound of the longer block leaves room for both halves.
  have hsize := blockBytes_length_le (sequences ++ [next]) [] hvalid'
  have hlen' : (expand (sequences ++ [next])).length = s.index + matchLength := by
    rw [htext', length_take]; omega
  unfold expand at hlen'
  simp only [length_nil, hlen', blockBytes_snoc, length_append] at hsize
  simp only [sequenceBytes, length_append, next] at hsize
  obtain ⟨m1, hlit, hext1⟩ := emitLiterals_extends input s.anchor (s.index - s.anchor)
    (nibble (matchLength - 4)) h.written h.cursor_eq h.capacity_eq (by omega)
    (by rw [h.cursor_eq]; show _ + (literalBytes literals _).length ≤ _; omega)
  obtain ⟨m2, hmatch, hext2⟩ := emitMatch_extends (s.index - candidate) matchLength
    (s.cursor + (literalBytes literals (nibble (matchLength - 4))).length) hext1.isPrefix
    (by simp [h.cursor_eq, literals]) (hext1.length_eq.trans h.capacity_eq)
    (by rw [h.cursor_eq]; omega)
  have hext := hext1.trans hext2
  have htoken : (if matchLength - 4 > 15 then 15 else matchLength - 4) =
      nibble (matchLength - 4) := rfl
  obtain ⟨table, htable⟩ := seedTable_isOk s.table (s.index + matchLength) hlimit
  refine ⟨sequences ++ [next],
    { table, output := m2, anchor := s.index + matchLength,
      cursor := s.cursor + (literalBytes literals (nibble (matchLength - 4))).length +
        (matchBytes (s.index - candidate) matchLength).length,
      index := s.index + matchLength }, ?_, ?_, by simp; omega⟩
  · simp only [literals] at hmatch
    simp [emitSequence, hextend, htoken, hlit, hmatch, htable, bind, Except.bind, pure, Except.pure,
      literals]
  exact
    { valid := hvalid'
      text := htext'
      cursor_eq := by
        simp only [blockBytes_snoc, length_append, sequenceBytes, next, h.cursor_eq]
        omega
      written := by
        rw [blockBytes_snoc]
        exact hext.isPrefix
      capacity_eq := hext.length_eq.trans h.capacity_eq
      anchor_le := Nat.le_refl _
      index_le := hend }

/-- One iteration: the table is a hint, so a candidate that fails any check only costs the
position. -/
theorem compressStep_inv (h : CompressInv input capacity sequences s)
    (hlimit : matchLimit = (input.length : Int) - 4)
    (hcap : input.length + input.length / 255 + 16 ≤ capacity)
    (hidx : (s.index : Int) ≤ matchLimit) :
    ∃ sequences' s', compressStep input matchLimit capacity s = .ok s' ∧
      CompressInv input capacity sequences' s' ∧ s.index < s'.index := by
  obtain ⟨sequence, hload⟩ := loadU32_isOk input s.index (by omega)
  obtain ⟨candidate, hget⟩ := s.table.get_isOk (hashSequence_lt sequence)
  obtain ⟨table, hset⟩ := s.table.set_isOk (hashSequence_lt sequence) s.index
  have hinv : CompressInv input capacity sequences { s with table } :=
    ⟨h.valid, h.text, h.cursor_eq, h.written, h.capacity_eq, h.anchor_le, h.index_le⟩
  have hskip : CompressInv input capacity sequences { s with table, index := s.index + 1 } :=
    { hinv with
      anchor_le := Nat.le_succ_of_le h.anchor_le
      index_le := by show s.index + 1 ≤ input.length; omega }
  by_cases hcand : candidate ≥ 0 ∧ candidate < s.index ∧ (s.index : Int) - candidate ≤ 65535 ∧
      candidate ≤ matchLimit
  · obtain ⟨b, hequal⟩ := equal4_isOk input candidate.toNat s.index (by omega) (by omega)
    cases b with
    | true =>
      have heq := equal4_true (by omega) (by omega) hequal
      obtain ⟨sequences', s', hrun, hinv', hmove⟩ := emitSequence_inv candidate.toNat hinv hlimit
        hcap hidx (by simp; omega) (by simp; omega) heq
      refine ⟨sequences', s', ?_, hinv', hmove⟩
      rw [compressStep, bind_of_ok hload, bind_of_ok hget, bind_of_ok hset, if_pos hcand,
        bind_of_ok hequal, if_pos rfl]
      exact hrun
    | false =>
      refine ⟨sequences, _, ?_, hskip, Nat.lt_succ_self _⟩
      rw [compressStep, bind_of_ok hload, bind_of_ok hget, bind_of_ok hset, if_pos hcand,
        bind_of_ok hequal, if_neg Bool.false_ne_true]
      rfl
  · refine ⟨sequences, _, ?_, hskip, Nat.lt_succ_self _⟩
    rw [compressStep, bind_of_ok hload, bind_of_ok hget, bind_of_ok hset, if_neg hcand]
    rfl

theorem compressLoop_correct (hlimit : matchLimit = (input.length : Int) - 4)
    (hcap : input.length + input.length / 255 + 16 ≤ capacity) (fuel : Nat) :
    ∀ {sequences : List (Sequence UInt8)} {s : CompressState},
      CompressInv input capacity sequences s → input.length < s.index + fuel →
      ∃ sequences' s', compressLoop input matchLimit capacity fuel s = .ok s' ∧
        CompressInv input capacity sequences' s' := by
  induction fuel with
  | zero => intro _ s h hfuel; have := h.index_le; omega
  | succ fuel ih =>
    intro sequences s h hfuel
    by_cases hidx : (s.index : Int) ≤ matchLimit
    · obtain ⟨sequences1, s1, hstep, hinv, hmove⟩ := compressStep_inv h hlimit hcap hidx
      obtain ⟨sequences2, s2, hloop, hinv2⟩ := ih hinv (by omega)
      refine ⟨sequences2, s2, ?_, hinv2⟩
      simp only [compressLoop, if_pos hidx, hstep, bind, Except.bind, hloop]
    · exact ⟨sequences, s, by simp only [compressLoop, if_neg hidx], h⟩

/-- The encoder's result: valid sequences, then the rest of the input as literals. -/
theorem compressBlock_correct (table : HashTable) (input output : List UInt8)
    (hout : output.length = capacity) (hcap : input.length + input.length / 255 + 16 ≤ capacity) :
    ∃ sequences anchor output',
      ValidFrom [] sequences ∧ expand sequences = input.take anchor ∧ anchor ≤ input.length ∧
      compressBlock table input output capacity = .ok (output',
        (blockBytes sequences ++ literalBytes (input.drop anchor) 0).length) ∧
      blockBytes sequences ++ literalBytes (input.drop anchor) 0 <+: output' ∧
      output'.length = capacity ∧
      (blockBytes sequences ++ literalBytes (input.drop anchor) 0).length ≤
        input.length + input.length / 255 + 16 := by
  have hinit : CompressInv input capacity []
      { table := table.reset, output, anchor := 0, cursor := 0, index := 0 } :=
    { valid := trivial
      text := by simp
      cursor_eq := rfl
      written := by simp [blockBytes]
      capacity_eq := hout
      anchor_le := Nat.le_refl _
      index_le := Nat.zero_le _ }
  obtain ⟨sequences, s, hloop, hinv⟩ :=
    compressLoop_correct rfl hcap (input.length + 1) hinit (by simp)
  have hanchor : s.anchor ≤ input.length := Nat.le_trans hinv.anchor_le hinv.index_le
  have htail : (input.drop s.anchor).take (input.length - s.anchor) = input.drop s.anchor :=
    take_of_length_le (by simp)
  have hcur := hinv.cursor_le
  have hcost := literalBytes_length_le (input.drop s.anchor) 0
  simp only [length_drop] at hcost
  obtain ⟨m, hemit, hext⟩ := emitLiterals_extends input s.anchor (input.length - s.anchor) 0
    hinv.written hinv.cursor_eq
    hinv.capacity_eq (by omega) (by rw [htail]; omega)
  rw [htail] at hemit hext
  refine ⟨sequences, s.anchor, m, hinv.valid, hinv.text, hanchor, ?_, hext.isPrefix,
    hext.length_eq.trans hinv.capacity_eq, ?_⟩
  · simp only [compressBlock, hloop, bind, Except.bind, hemit, length_append, ← hinv.cursor_eq]
  · rw [length_append, ← hinv.cursor_eq]
    omega

end Raz.Lz4
