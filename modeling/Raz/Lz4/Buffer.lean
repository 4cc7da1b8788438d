import Mathlib.Algebra.Order.Ring.Int
import Raz.Lz4.Format

/-!
# What the memory operations leave in a buffer

A buffer is filled from the front: `bytes <+: memory` says what has been written so far,
and every writer extends that prefix at its end and keeps the buffer's size.
-/

namespace Raz.Lz4

open Lz77

variable {memory rest bytes : List UInt8} {address : Nat} {byte : UInt8}

/-- A writer that started after `bytes` has added `more` and kept the buffer's size. -/
structure Extends (memory : List UInt8) (bytes more : List UInt8) (memory' : List UInt8) :
    Prop where
  isPrefix : bytes ++ more <+: memory'
  length_eq : memory'.length = memory.length

/-- A step that succeeds hands its result on. The operation need not be unfolded for it. -/
theorem bind_of_ok {α β : Type} {step : Except Stop α} {result : α} (h : step = .ok result)
    (next : α → Except Stop β) : (step >>= next) = next result := by
  rw [h]
  rfl

/-! ## Loads -/

theorem loadU8_eq (h : address < memory.length) :
    loadU8 memory address = .ok memory[address].toNat := by
  simp [loadU8, List.getElem?_eq_getElem h]

theorem loadU8_drop (h : memory.drop address = byte :: rest) :
    loadU8 memory address = .ok byte.toNat := by
  have hget : memory[address]? = some byte := by
    have := congrArg (fun l => l[0]?) h
    simpa using this
  simp [loadU8, hget]

theorem drop_succ_of_drop_cons (h : memory.drop address = byte :: rest) :
    memory.drop (address + 1) = rest := by
  rw [← List.drop_drop, h]
  rfl

theorem drop_add_of_drop_append {front : List UInt8} (h : memory.drop address = front ++ rest) :
    memory.drop (address + front.length) = rest := by
  rw [← List.drop_drop, h, List.drop_left]

theorem lt_of_drop_cons (h : memory.drop address = byte :: rest) : address < memory.length := by
  have := congrArg List.length h
  simp at this
  omega

theorem or_shiftLeft {low : Nat} (high : Nat) {width : Nat} (h : low < 2 ^ width) :
    low ||| (high <<< width) = low + high * 2 ^ width := by
  rw [Nat.or_comm, ← Nat.shiftLeft_add_eq_or_of_lt h, Nat.shiftLeft_eq, Nat.add_comm]

/-- The value `load_u32` returns for four bytes. -/
def packed (b0 b1 b2 b3 : UInt8) : UInt64 :=
  UInt64.ofNat b0.toNat ||| (UInt64.ofNat b1.toNat <<< 8) ||| (UInt64.ofNat b2.toNat <<< 16) |||
    (UInt64.ofNat b3.toNat <<< 24)

theorem packed_toNat (b0 b1 b2 b3 : UInt8) : (packed b0 b1 b2 b3).toNat =
      b0.toNat + b1.toNat * 2 ^ 8 + b2.toNat * 2 ^ 16 + b3.toNat * 2 ^ 24 := by
  have h0 := b0.toNat_lt
  have h1 := b1.toNat_lt
  have h2 := b2.toNat_lt
  have h3 := b3.toNat_lt
  have e0 : (UInt64.ofNat b0.toNat).toNat = b0.toNat := by simp
  have e1 : (UInt64.ofNat b1.toNat <<< 8).toNat = b1.toNat <<< 8 := by
    rw [UInt64.toNat_shiftLeft]
    simp [Nat.shiftLeft_eq]
    omega
  have e2 : (UInt64.ofNat b2.toNat <<< 16).toNat = b2.toNat <<< 16 := by
    rw [UInt64.toNat_shiftLeft]
    simp [Nat.shiftLeft_eq]
    omega
  have e3 : (UInt64.ofNat b3.toNat <<< 24).toNat = b3.toNat <<< 24 := by
    rw [UInt64.toNat_shiftLeft]
    simp [Nat.shiftLeft_eq]
    omega
  unfold packed
  rw [UInt64.toNat_or, UInt64.toNat_or, UInt64.toNat_or, e0, e1, e2, e3,
    or_shiftLeft b1.toNat (show b0.toNat < 2 ^ 8 by omega),
    or_shiftLeft b2.toNat (by omega), or_shiftLeft b3.toNat (by omega)]

theorem packed_injective {a0 a1 a2 a3 b0 b1 b2 b3 : UInt8}
    (h : packed a0 a1 a2 a3 = packed b0 b1 b2 b3) :
    a0 = b0 ∧ a1 = b1 ∧ a2 = b2 ∧ a3 = b3 := by
  have hnat := congrArg UInt64.toNat h
  rw [packed_toNat, packed_toNat] at hnat
  have ha0 := a0.toNat_lt
  have ha1 := a1.toNat_lt
  have ha2 := a2.toNat_lt
  have hb0 := b0.toNat_lt
  have hb1 := b1.toNat_lt
  have hb2 := b2.toNat_lt
  refine ⟨?_, ?_, ?_, ?_⟩ <;> apply UInt8.toNat_inj.mp <;> omega

theorem loadU32_eq (h : address + 4 ≤ memory.length) :
    loadU32 memory address =
      .ok (packed memory[address] memory[address + 1] memory[address + 2]
        memory[address + 3]) := by
  simp [loadU32, packed, loadU8_eq (show address < memory.length by omega),
    loadU8_eq (show address + 1 < memory.length by omega),
    loadU8_eq (show address + 2 < memory.length by omega),
    loadU8_eq (show address + 3 < memory.length by omega), bind, Except.bind, pure, Except.pure]

theorem loadU32_isOk (memory : List UInt8) (address : Nat) (h : address + 4 ≤ memory.length) :
    ∃ sequence, loadU32 memory address = .ok sequence :=
  ⟨_, loadU32_eq h⟩

theorem equal4_true {left right : Nat} (hl : left + 4 ≤ memory.length)
    (hr : right + 4 ≤ memory.length) (h : equal4 memory left right = .ok true) :
    ∀ k < 4, memory[left + k]? = memory[right + k]? := by
  simp only [equal4, loadU32_eq hl, loadU32_eq hr, bind, Except.bind, pure, Except.pure,
    Except.ok.injEq, beq_iff_eq] at h
  obtain ⟨h0, h1, h2, h3⟩ := packed_injective h
  intro k hk
  rw [List.getElem?_eq_getElem (by omega), List.getElem?_eq_getElem (by omega)]
  match k, hk with
  | 0, _ => exact congrArg some h0
  | 1, _ => exact congrArg some h1
  | 2, _ => exact congrArg some h2
  | 3, _ => exact congrArg some h3

theorem equal4_isOk (memory : List UInt8) (left right : Nat) (hl : left + 4 ≤ memory.length)
    (hr : right + 4 ≤ memory.length) : ∃ b, equal4 memory left right = .ok b := by
  simp [equal4, loadU32_eq hl, loadU32_eq hr, bind, Except.bind, pure, Except.pure]

/-! ## Stores -/

theorem Extends.refl (h : bytes <+: memory) : Extends memory bytes [] memory :=
  ⟨by simpa using h, rfl⟩

theorem Extends.trans {m1 m2 m3 more more' : List UInt8} (h1 : Extends m1 bytes more m2)
    (h2 : Extends m2 (bytes ++ more) more' m3) :
    Extends m1 bytes (more ++ more') m3 :=
  ⟨by simpa [List.append_assoc] using h2.isPrefix, h2.length_eq.trans h1.length_eq⟩

theorem storeU8_extends (address value : Nat) (hp : bytes <+: memory) (ha : address = bytes.length)
    (h : address < memory.length) :
    ∃ memory', storeU8 memory address value = .ok memory' ∧
      Extends memory bytes [UInt8.ofNat value] memory' := by
  refine ⟨memory.set address (UInt8.ofNat value), by simp [storeU8, h], ?_, by simp⟩
  obtain ⟨rest, rfl⟩ := hp
  subst ha
  cases rest with
  | nil => simp at h
  | cons head rest => exact ⟨rest, by simp⟩

theorem copyBytes_extends (source : List UInt8) (length : Nat) :
    ∀ {memory bytes : List UInt8} (position address : Nat), bytes <+: memory →
      address = bytes.length → position + length ≤ source.length →
      address + length ≤ memory.length →
      ∃ memory', copyBytes source position memory address length = .ok memory' ∧
        Extends memory bytes ((source.drop position).take length) memory' := by
  induction length with
  | zero =>
    intro memory bytes position address hp _ _ _
    exact ⟨memory, by simp [copyBytes], by simpa using Extends.refl hp⟩
  | succ length ih =>
    intro memory bytes position address hp ha hs hm
    have hpos : position < source.length := by omega
    obtain ⟨m1, hstore, hext⟩ := storeU8_extends address source[position].toNat hp ha (by omega)
    obtain ⟨m2, hcopy, hext2⟩ := ih (position + 1) (address + 1)
      hext.isPrefix (by simp [ha]) (by omega) (by rw [hext.length_eq]; omega)
    refine ⟨m2, ?_, ?_⟩
    · simp [copyBytes, loadU8_eq hpos, hstore, hcopy, bind, Except.bind]
    have htake : (source.drop position).take (length + 1) =
        [UInt8.ofNat source[position].toNat] ++ (source.drop (position + 1)).take length := by
      rw [List.drop_eq_getElem_cons hpos, List.take_succ_cons, UInt8.ofNat_toNat]
      rfl
    rw [htake]
    exact hext.trans hext2

/-- The overlapping match copy appends what the format calls the match. -/
theorem copyMatch_extends {distance : Nat} (hpos : 0 < distance) (length : Nat) :
    ∀ {memory bytes : List UInt8} (address : Nat), bytes <+: memory →
      address = bytes.length → distance ≤ address → address + length ≤ memory.length →
      ∃ memory', copyMatch distance memory address length = .ok memory' ∧
        appendMatch distance length bytes <+: memory' ∧ memory'.length = memory.length := by
  induction length with
  | zero =>
    intro memory bytes address hp _ _ _
    exact ⟨memory, by simp [copyMatch], by simpa [appendMatch] using hp, rfl⟩
  | succ length ih =>
    intro memory bytes address hp ha hd hm
    have hsrc : bytes.length - distance < bytes.length := source_lt hpos (ha ▸ hd)
    have hload : loadU8 memory (address - distance) = .ok bytes[bytes.length - distance].toNat := by
      rw [loadU8_eq (by omega)]
      congr 2
      subst ha
      exact (hp.getElem hsrc).symm
    obtain ⟨m1, hstore, hext⟩ :=
      storeU8_extends address bytes[bytes.length - distance].toNat hp ha (by omega)
    obtain ⟨m2, hcopy, hpre, hlen⟩ := ih (address + 1) hext.isPrefix
      (by simp [ha]) (by omega) (by rw [hext.length_eq]; omega)
    refine ⟨m2, ?_, ?_, hlen.trans hext.length_eq⟩
    · simp [copyMatch, hload, hstore, hcopy, bind, Except.bind]
    · rw [appendMatch_succ hsrc]
      simpa using hpre

/-! ## Length extensions -/

theorem lengthBytes_of_lt {remaining : Nat} (h : remaining < 255) :
    lengthBytes remaining = [UInt8.ofNat remaining] := by
  simp [lengthBytes, Nat.div_eq_of_lt h, Nat.mod_eq_of_lt h]

theorem lengthBytes_of_ge {remaining : Nat} (h : remaining ≥ 255) :
    lengthBytes remaining = 255 :: lengthBytes (remaining - 255) := by
  have hdiv : remaining / 255 = (remaining - 255) / 255 + 1 := by omega
  have hmod : remaining % 255 = (remaining - 255) % 255 := by omega
  rw [lengthBytes, lengthBytes, hdiv, hmod, List.replicate_succ, List.cons_append]

theorem emitLength_extends (remaining : Nat) :
    ∀ {output bytes : List UInt8} {capacity : Nat} (cursor : Nat), bytes <+: output →
      cursor = bytes.length → output.length = capacity →
      cursor + (lengthBytes remaining).length ≤ capacity →
      ∃ output', emitLength output capacity cursor remaining =
          .ok (output', cursor + (lengthBytes remaining).length) ∧
        Extends output bytes (lengthBytes remaining) output' := by
  induction remaining using Nat.strongRecOn with
  | ind remaining ih =>
    intro output bytes capacity cursor hp hc hcap hfit
    have hlt : ¬ cursor ≥ capacity := by rw [lengthBytes_length] at hfit; omega
    by_cases hr : remaining ≥ 255
    · rw [lengthBytes_of_ge hr] at hfit ⊢
      simp only [List.length_cons] at hfit ⊢
      obtain ⟨m1, hstore, hext⟩ := storeU8_extends cursor 255 hp hc (by omega)
      obtain ⟨m2, hemit, hext2⟩ := ih (remaining - 255) (by omega) (cursor + 1)
        hext.isPrefix (by simp [hc]) (hext.length_eq.trans hcap) (by omega)
      refine ⟨m2, ?_, hext.trans hext2⟩
      rw [emitLength, if_pos hr, if_neg hlt]
      simp only [hstore, hemit, bind, Except.bind, Except.ok.injEq, Prod.mk.injEq, true_and]
      omega
    · rw [lengthBytes_of_lt (by omega)] at hfit ⊢
      obtain ⟨m1, hstore, hext⟩ := storeU8_extends cursor remaining hp hc (by omega)
      refine ⟨m1, ?_, hext⟩
      rw [emitLength, if_neg hr, if_neg hlt]
      simp [hstore, bind, Except.bind, pure, Except.pure]

theorem readLength_eq (remaining : Nat) :
    ∀ {input output rest : List UInt8} {fuel source length : Nat},
      input.drop source = lengthBytes remaining ++ rest → remaining / 255 < fuel →
      length + remaining ≤ 9223372036854775807 →
      readLength input output fuel source length =
        .ok (length + remaining, source + (lengthBytes remaining).length) := by
  induction remaining using Nat.strongRecOn with
  | ind remaining ih =>
    intro input output rest fuel source length hdrop hfuel hbound
    cases fuel with
    | zero => omega
    | succ fuel =>
      by_cases hr : remaining ≥ 255
      · rw [lengthBytes_of_ge hr, List.cons_append] at hdrop
        have hlt := lt_of_drop_cons hdrop
        rw [readLength, if_neg (by omega), loadU8_drop hdrop]
        simp only [bind, Except.bind]
        rw [if_neg (by simp; omega), if_neg (by simp),
          ih (remaining - 255) (by omega) (drop_succ_of_drop_cons hdrop) (by omega)
            (by simp; omega),
          lengthBytes_of_ge hr]
        simp
        omega
      · rw [lengthBytes_of_lt (by omega), List.cons_append] at hdrop
        have hlt := lt_of_drop_cons hdrop
        have hbyte : (UInt8.ofNat remaining).toNat = remaining := by
          simp; omega
        rw [readLength, if_neg (by omega), loadU8_drop hdrop]
        simp only [bind, Except.bind, hbyte]
        rw [if_neg (by omega), if_pos (by omega), lengthBytes_of_lt (by omega)]
        rfl

/-- A length whose nibble and extension bytes stand where the encoder writes them. -/
theorem readNibbleLength_eq {input : List UInt8} {source : Nat} (output : List UInt8)
    (length base : Nat)
    (hin : input.drop source = (if length ≥ 15 then lengthBytes (length - 15) else []) ++ rest)
    (hmax : length + base ≤ 9223372036854775807) :
    readNibbleLength input output (nibble length) base source = .ok (length + base,
      source + (if length ≥ 15 then lengthBytes (length - 15) else []).length) := by
  unfold readNibbleLength
  by_cases h15 : length ≥ 15
  · rw [if_pos h15] at hin ⊢
    have hfuel : (length - 15) / 255 < input.length + 1 := by
      have hlen := congrArg List.length hin
      simp at hlen
      omega
    rw [(nibble_eq_fifteen length).mpr h15, if_pos rfl, readLength_eq _ hin hfuel (by omega),
      show 15 + base + (length - 15) = length + base by omega]
  · rw [if_neg h15, nibble_of_lt (by omega), if_neg (by omega)]
    rfl

end Raz.Lz4
