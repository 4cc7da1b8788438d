import Raz.Lz4.Decoder
import Raz.Lz4.Encoder

/-!
# Compression is lossless

The encoder writes a block of the format, the decoder reads every block of the format back,
and no access of either leaves its buffers.

Result: `decompress_compress`: the round trip, from any hash table and into any buffers.
-/

namespace Raz.Lz4

open Lz77

theorem compressBound_of_le {length : Nat} (h : length ≤ 2113929216) :
    compressBound length = ((length + length / 255 + 16 : Nat) : Int) := by
  unfold compressBound
  rw [if_neg (by omega)]
  omega

theorem inputBytes_eq (memory : List UInt8) {length : Nat} (h : length ≤ memory.length) :
    inputBytes (some memory) length = .ok (memory.take length) := by
  simp [inputBytes, h]

/-- On valid arguments the result is that of the block encoder. -/
theorem compress_eq (table : HashTable) {x output : List UInt8} (hpos : 0 < x.length) :
    compress ⟨some table⟩ (some x) x.length (some output) output.length =
      finish (compressBlock table x output output.length) := by
  have hin := inputBytes_eq x (Nat.le_refl _)
  have hargs : ¬ ((x.length : Int) < 0 ∨ (output.length : Int) < 0 ∨
      ((x.length : Int) > 0 ∧ (some x).isNone) ∨
      ((output.length : Int) > 0 ∧ (some output).isNone)) := by simp
  have hne : (x.length : Int) ≠ 0 := by omega
  simp only [compress, if_neg hargs, if_neg hne, bind_of_ok hin, List.take_length,
    Option.getD_some, Int.toNat_natCast]

theorem decompress_eq {memory output : List UInt8} {length : Nat} (h : length ≤ memory.length) :
    decompress (some memory) length (some output) output.length =
      finish (decompressLoop (memory.take length) output.length (length + 1)
        { output, source := 0, destination := 0 }) := by
  have hin := inputBytes_eq memory h
  have hargs : ¬ ((length : Int) < 0 ∨ (output.length : Int) < 0 ∨
      ((length : Int) > 0 ∧ (some memory).isNone) ∨
      ((output.length : Int) > 0 ∧ (some output).isNone)) := by simp
  simp only [decompress, if_neg hargs, bind_of_ok hin, List.length_take,
    Nat.min_eq_left h, Option.getD_some, Int.toNat_natCast]

/-- Round trip. A result other than `none` means that no access left a buffer; `table` is
whatever earlier calls left in the encoder. -/
theorem decompress_compress (table : HashTable) (x output back : List UInt8)
    (hpos : 1 ≤ x.length) (hmax : x.length ≤ 2113929216)
    (hcap : compressBound x.length ≤ output.length) (hback : x.length ≤ back.length) :
    ∃ c output' back',
      compress ⟨some table⟩ (some x) x.length (some output) output.length = some (c, output') ∧
      0 < c ∧ c ≤ compressBound x.length ∧ output'.length = output.length ∧
      decompress (some output') c (some back) back.length = some ((x.length : Int), back') ∧
      x <+: back' := by
  rw [compressBound_of_le hmax] at hcap ⊢
  obtain ⟨sequences, anchor, output', hvalid, htext, hanchor, hrun, hpre, hlen, hbound⟩ :=
    compressBlock_correct table x output rfl (by omega)
  have hne := List.length_pos_iff.mpr (literalBytes_ne_nil (x.drop anchor) 0)
  have htake : output'.take (blockBytes sequences ++ literalBytes (x.drop anchor) 0).length =
      blockBytes sequences ++ literalBytes (x.drop anchor) 0 :=
    (List.prefix_iff_eq_take.mp hpre).symm
  -- What the decoder rebuilds is the input.
  have hwhole : sequences.foldl (fun out s => s.apply out) [] ++ x.drop anchor = x := by
    have h : expand sequences ++ x.drop anchor = x := by rw [htext, List.take_append_drop]
    exact h
  have hsize := congrArg List.length hwhole
  rw [List.length_append] at hsize
  have hin : (blockBytes sequences ++ literalBytes (x.drop anchor) 0).drop 0 =
      blockBytes sequences ++ literalBytes (x.drop anchor) 0 := rfl
  obtain ⟨back', hloop, hfinal⟩ := decompressLoop_eq sequences []
    { output := back, source := 0, destination := 0 }
    ((blockBytes sequences ++ literalBytes (x.drop anchor) 0).length + 1) hin hvalid
    List.nil_prefix rfl (Nat.le_refl back.length) (by omega) (by omega) (by simp)
  rw [hwhole] at hloop hfinal
  refine ⟨(blockBytes sequences ++ literalBytes (x.drop anchor) 0).length, output', back', ?_,
    ?_, ?_, hlen, ?_, hfinal⟩
  · rw [compress_eq table hpos, hrun]
    rfl
  · rw [List.length_append]; omega
  · omega
  · rw [decompress_eq hpre.length_le, htake, hloop]
    rfl

/-- One byte forty times, the smallest buffers allowed and a table full of stale positions. -/
theorem decompress_compress_repeated :
    ∃ c output' back',
      compress ⟨some ⟨List.replicate hashSlots 7, List.length_replicate⟩⟩
        (some (List.replicate 40 42)) 40 (some (List.replicate 56 0)) 56 = some (c, output') ∧
      0 < c ∧ c ≤ compressBound 40 ∧ output'.length = 56 ∧
      decompress (some output') c (some (List.replicate 40 0)) 40 = some (40, back') ∧
      List.replicate 40 42 <+: back' :=
  decompress_compress ⟨List.replicate hashSlots 7, List.length_replicate⟩ (List.replicate 40 42)
    (List.replicate 56 0) (List.replicate 40 0) (by decide) (by decide) (by decide) (by decide)

end Raz.Lz4
