import BlockTensor.Proofs.EncodedBlock
import BlockTensor.Proofs.Lossless
import BlockTensor.Proofs.QuantizedBatch
import BlockTensor.Proofs.Representation
import BlockTensor.Proofs.SingleZero

/-!
# Quantization by blocks and by writes

The reference encodes the values of a view by writing them to zeros: it decodes each block,
puts the values in it and encodes the 32 values that it has then. A pool encodes what there
is of each block, in any order. Both give the same codes and the same scale, for the zeros
that follow the last value are decoded as zeros and count for nothing in a block, whatever
the values are (`Scalar.PadsWithZero`, `Elements.encodedBlock_padded`).

* `Vector.encodeBlocks_eq_encode`: the two encodings are the same elements, padding included.
* `encode_of_le`: if the last block ends beyond the words of a machine, encoding overflows;
  so does measuring the blocks that are there.
* `Backend.quantize_agrees`: every backend gives the tensor or the fault of the reference.
-/

namespace BlockTensor

open Outcome Update

variable {α : Type}

/-! ## Zeros after the values of a block -/

/-- Zeros are decoded as zeros, and count for nothing in a block. -/
structure Scalar.PadsWithZero (α : Type) [Scalar α] : Prop where
  decoded : Scalar.ofInt 0 * 0 = (0 : α)
  code (x : α) : Scalar.nearest (0 * x) = 0
  abs_zero : Scalar.abs 0 = (0 : α)
  not_lt_zero (x : α) : Scalar.lt (Scalar.abs x) 0 = false

theorem Binary32.abs_zero : Scalar.abs 0 = (0 : Binary32) := by decide

theorem Binary32.decoded_zero : Scalar.ofInt 0 * 0 = (0 : Binary32) := rfl

theorem Binary32.padsWithZero (m : Machine) (c : Binary16.Conversion) :
    @Scalar.PadsWithZero Binary32 (scalarWith m c) :=
  @Scalar.PadsWithZero.mk _ (scalarWith m c) decoded_zero nearest_zero_mul abs_zero not_abs_lt_zero

section

variable [Scalar α] (hα : Scalar.PadsWithZero α)

include hα

namespace Scalar

theorem not_greatest_lt_zero (xs : List α) : lt (greatest xs) 0 = false := by
  have h : ∀ m : α, lt m 0 = false →
      lt (xs.foldl (fun m x => larger m (abs x)) m) 0 = false := by
    induction xs with
    | nil => exact fun m hm => hm
    | cons x xs ih =>
      refine fun m hm => ih _ ?_
      show lt (if lt m (abs x) then abs x else m) 0 = false
      split
      · exact hα.not_lt_zero x
      · exact hm
  have hzero : lt (0 : α) 0 = false := by
    have h := hα.not_lt_zero 0
    rwa [hα.abs_zero] at h
  exact h 0 hzero

/-- A zero is not the greatest magnitude, whatever the others are. -/
theorem greatest_append_zeros (xs : List α) (n : Nat) :
    greatest (xs ++ List.replicate n 0) = greatest xs := by
  have h := not_greatest_lt_zero hα xs
  unfold greatest at h ⊢
  rw [List.foldl_append]
  generalize xs.foldl (fun m x => larger m (abs x)) 0 = m at h ⊢
  induction n with
  | zero => rfl
  | succ n ih =>
    have hzero : larger m (abs 0) = m := by
      rw [hα.abs_zero, larger, h]
      rfl
    rw [List.replicate_succ, List.foldl_cons, hzero]
    exact ih

end Scalar

section

variable {values padded : Array α} (hsize : padded.size = blockSize)
  (hle : values.size ≤ blockSize) (hget : ∀ j < blockSize, padded.getD j 0 = values.getD j 0)

include hsize hle hget

omit hα in
theorem toList_padded :
    padded.toList = values.toList ++ List.replicate (blockSize - values.size) 0 := by
  refine List.ext_getElem (by simp; omega) fun j hj hj' => ?_
  have hlt : j < padded.size := hj
  have hj := hget j (hsize ▸ hlt)
  rw [Array.getD_eq_getD_getElem?, Array.getElem?_eq_getElem hlt, Option.getD_some] at hj
  rw [Array.getElem_toList, hj]
  by_cases hv : j < values.size
  · rw [List.getElem_append_left (by simpa using hv), Array.getElem_toList,
      Array.getD_eq_getD_getElem?, Array.getElem?_eq_getElem hv, Option.getD_some]
  · rw [List.getElem_append_right (by simpa using hv), List.getElem_replicate,
      Array.getD_eq_getD_getElem?, Array.getElem?_eq_none (by omega), Option.getD_none]

theorem Q8.encodeBlock_padded : encodeBlock padded = encodeBlock values := by
  have hgreatest : Scalar.greatest padded.toList = Scalar.greatest values.toList := by
    rw [toList_padded hsize hle hget, Scalar.greatest_append_zeros hα]
  have hcode (x : α) : code x 0 = 0 := by
    rw [code, hα.code]
    rfl
  unfold encodeBlock
  dsimp only
  rw [hgreatest, Prod.mk.injEq]
  refine ⟨congrArg Array.ofFn (funext fun j => ?_), rfl⟩
  have hj := hget j j.isLt
  have hlt : j.val < padded.size := by
    rw [hsize]
    exact j.isLt
  rw [Array.getD_eq_getD_getElem?, Array.getD_eq_getD_getElem?, Array.getElem?_eq_getElem hlt,
    Option.getD_some] at hj
  rw [Array.getElem?_eq_getElem hlt, hj]
  -- a value that is missing has the code of a zero
  cases values[j.val]? with
  | some v => rfl
  | none => exact hcode _

omit hα hsize hle in
theorem Q4.encodeBlock_padded : encodeBlock padded = encodeBlock values := by
  have hvalues : (List.range blockSize).map (fun j => padded.getD j 0) =
      (List.range blockSize).map fun j => values.getD j 0 :=
    List.map_congr_left fun j hj => hget j (List.mem_range.mp hj)
  unfold encodeBlock
  dsimp only
  rw [hvalues, Prod.mk.injEq]
  refine ⟨congrArg Array.ofFn (funext fun j => ?_), rfl⟩
  have hj : j.val < q4BlockBytes := j.isLt
  have hhigh : j.val + q4BlockBytes < blockSize := by
    simp only [q4BlockBytes, blockSize] at *
    omega
  rw [hget j (by omega), hget _ hhigh]

/-- A block and the block filled up with zeros are encoded alike. -/
theorem Elements.encodedBlock_padded (d : DType) :
    encodedBlock d padded = encodedBlock d values := by
  cases d with
  | f32 | f16 | bf16 => rfl
  | q8 => rw [encodedBlock, encodedBlock, Q8.encodeBlock_padded hα hsize hle hget]
  | q4 => rw [encodedBlock, encodedBlock, Q4.encodeBlock_padded hget]

end

namespace Elements

theorem value_zeros {d : DType} (hq : d.isQuantized) (n i : Nat) :
    (zeros d n : Elements α).value i = 0 := by
  have hnibble : Q4.signed (Q4.nibble i zeroNibbles) = 0 := by
    unfold Q4.nibble
    split <;> rfl
  cases d with
  | f32 | f16 | bf16 => cases hq
  | q8 =>
    simp only [value, cell?, zeros, Array.getElem?_replicate]
    split
    · split
      · exact hα.decoded
      · rfl
    · rfl
  | q4 =>
    simp only [value, cell?, zeros, Array.getElem?_replicate]
    split
    · split
      · show Scalar.ofInt (Q4.signed (Q4.nibble i zeroNibbles)) * 0 = (0 : α)
        rw [hnibble, hα.decoded]
      · rfl
    · rfl

omit hα in
theorem scaleCount_zeros {d : DType} (hq : d.isQuantized) (n : Nat) :
    (zeros d n : Elements α).scaleCount = blocksOf n := by
  rw [(zeros_represents d n).scaleCount, if_pos hq, DType.blocksFor, if_pos hq]

/-- A block of zeros to which the values at its place are written. -/
theorem rewriteBlock_zeros {d : DType} (hq : d.isQuantized) {values : Array α} {b : Nat}
    (hb : b < (zeros d values.size : Elements α).scaleCount) :
    rewriteBlock 0 values b ((zeros d values.size : Elements α).block b) =
      encodedBlock d (Buffer.chunk values blockSize b) := by
  have hscaled : (zeros d values.size : Elements α).Scaled := scaled_zeros d values.size
  have hquantized : (zeros d values.size : Elements α).dtype.isQuantized := by rwa [dtype_zeros]
  rw [rewriteBlock, run_block hquantized, ← block_setBlock hscaled hb,
    block_setBlock_eq (hscaled.roomy hquantized) hb, dtype_zeros]
  refine encodedBlock_padded hα (by simp [mergeBlock]) (Buffer.size_chunk_le ..) (fun j hj => ?_) d
  rw [getD_mergeBlock _ _ _ _ hj, value_zeros hα hq, intended_eq, if_pos (Nat.zero_le _),
    Nat.sub_zero, Buffer.getD_chunk, if_pos hj]

/-- Writing values to zeros encodes each block of the values. -/
theorem encode_blocks {d : DType} (hq : d.isQuantized) {values : Array α}
    (hfits : d.blocksFor values.size * d.blockSize < Word.bound) :
    ∃ e, encode d values = .ok e ∧ e.layout = (zeros d values.size : Elements α).layout ∧
      ∀ b, e.block b = if b < blocksOf values.size then
        encodedBlock d (Buffer.chunk values blockSize b)
        else (zeros d values.size : Elements α).block b := by
  have hsize : (zeros d values.size : Elements α).size = _ := size_zeros d values.size
  have hcount := scaleCount_zeros (α := α) hq values.size
  have hblocked : (zeros d values.size : Elements α).Blocked :=
    ⟨⟨scaled_zeros d _, hsize ▸ hfits⟩, by rwa [dtype_zeros]⟩
  have hroom : 0 + values.size ≤ (zeros d values.size : Elements α).size := by
    rw [Nat.zero_add, hsize]
    exact DType.blocksFor_le ..
  obtain ⟨e, hwrite, hlayout, hblocks⟩ := write_blocks hblocked hroom
  refine ⟨e, by rw [encode, hwrite], hlayout, fun b => ?_⟩
  have htouched : (∃ r < values.size, (0 + r) / blockSize = b) ↔ b < blocksOf values.size := by
    simp only [blocksOf, blockSize, Nat.zero_add]
    constructor
    · rintro ⟨r, hr, hb⟩
      omega
    · intro hb
      exact ⟨b * 32, by omega, by omega⟩
  rw [hblocks, if_congr htouched rfl rfl]
  split
  · exact rewriteBlock_zeros hα hq (hcount ▸ ‹_›)
  · rfl

end Elements

open Elements

/-- Encoding block by block, in any order, is writing the values to zeros. -/
theorem Vector.encodeBlocks_eq_encode (p : Pool) {d : DType} {values : Array α}
    (hfits : d.blocksFor values.size * d.blockSize < Word.bound) :
    encodeBlocks p d values = encode d values := by
  by_cases hq : d.isQuantized
  · obtain ⟨e, he, hlayout, hblocks⟩ := encode_blocks hα hq hfits
    have hmem (b : Nat) :
        b ∈ p.schedule.order (blocksOf values.size) ↔ b < blocksOf values.size :=
      (p.schedule.perm _).mem_iff.trans List.mem_range
    have hquantized : (zeros d values.size : Elements α).dtype.isQuantized := by rwa [dtype_zeros]
    have hscaled (b : Nat) (hb : b ∈ p.schedule.order (blocksOf values.size)) :
        b < (zeros d values.size : Elements α).scaleCount :=
      (scaleCount_zeros (α := α) hq values.size).symm ▸ (hmem b).mp hb
    obtain ⟨-, hblocks'⟩ := setBlocks_block ((scaled_zeros d values.size).roomy hquantized)
      (Buffer.chunk values blockSize) hscaled
    rw [encodeBlocks_eq p hq, he]
    congr 1
    refine (eq_of_blocks (dtype_eq_of_layout hlayout ▸ hquantized) fun b => ?_).symm
    rw [hblocks, hblocks', dtype_zeros]
    exact if_congr (hmem b).symm rfl rfl
  · cases d with
    | f32 | f16 | bf16 => rfl
    | q8 | q4 => exact absurd rfl hq

end

/-! ## Encodings too large for a machine -/

section

variable [Scalar α]

namespace Elements

/-- A block that ends within the words is read and written. -/
theorem writeBlock_of_lt {e : Elements α} (he : e.Scaled) (hq : e.dtype.isQuantized) {b : Nat}
    (hb : b < e.scaleCount) (hfits : (b + 1) * blockSize < Word.bound) (start : Nat)
    (src : Array α) : ∃ e', writeBlock start src b e = .ok () e' ∧ e'.layout = e.layout := by
  have hend : (b + 1) * blockSize ≤ e.size :=
    size_eq_scaleCount he hq ▸ Nat.mul_le_mul_right blockSize hb
  rw [Nat.succ_mul] at hfits hend
  have hread : e.read (b * blockSize) blockSize = .ok (e.run (b * blockSize) blockSize) := by
    have hgenerate : e.read (b * blockSize) blockSize =
        Buffer.generate (b * blockSize) blockSize e.get := by
      rw [read, Word.add_of_lt hfits, ok_bind]
      cases e with
      | f32 data | f16 data | bf16 data => cases hq
      | q8 data scales | q4 data scales => rfl
    rw [hgenerate]
    exact Buffer.generate_of_ok fun i hi => get_eq_value he (by omega)
  exact ⟨_, by rw [writeBlock, hread], setBlock_layout ..⟩

/-- A block that ends beyond the words is not. -/
theorem writeBlock_of_le {b : Nat} (h : Word.bound ≤ (b + 1) * blockSize) (start : Nat)
    (src : Array α) (e : Elements α) :
    writeBlock start src b e = .error (.abort .overflow) e := by
  rw [Nat.succ_mul] at h
  have hread : e.read (b * blockSize) blockSize = .stop .overflow := by
    rw [read, Word.add_of_le h]
    rfl
  rw [writeBlock, hread]
  rfl

theorem writeBlocks_of_lt {e : Elements α} (he : e.Scaled) (hq : e.dtype.isQuantized) {n : Nat}
    (hn : n ≤ e.scaleCount) (hfits : n * blockSize < Word.bound) (start : Nat) (src : Array α) :
    ∃ e', (List.range n).forM (writeBlock start src) e = .ok () e' ∧ e'.layout = e.layout := by
  induction n with
  | zero => exact ⟨e, rfl, rfl⟩
  | succ n ih =>
    have hlt := Nat.lt_of_le_of_lt (Nat.mul_le_mul_right blockSize (Nat.le_succ n)) hfits
    obtain ⟨e₁, hloop, hlayout⟩ := ih (by omega) hlt
    obtain ⟨e₂, hwrite, hlayout'⟩ := writeBlock_of_lt (he.of_layout hlayout)
      (dtype_eq_of_layout hlayout ▸ hq) (scaleCount_of_layout hlayout ▸ hn) hfits start src
    refine ⟨e₂, ?_, hlayout'.trans hlayout⟩
    rw [List.range_succ]
    exact forM_concat_ok hloop hwrite

/-- Only the padding of a last block can end beyond the words. -/
theorem isQuantized_of_le {d : DType} {n : Nat} (hn : n < Word.bound)
    (h : Word.bound ≤ d.blocksFor n * d.blockSize) : d.isQuantized := by
  cases hd : d.isQuantized with
  | true => rfl
  | false => exact absurd h (by rw [DType.blocksFor_float hd]; omega)

omit [Scalar α] in
theorem checkRange_zeros [Zero α] (d : DType) {n : Nat} (hn : n < Word.bound) :
    checkRange 0 n (zeros d n : Elements α).size = .ok () := by
  rw [checkRange, Word.add_of_lt (by omega), ok_bind, size_zeros,
    if_pos (by rw [Nat.zero_add]; exact DType.blocksFor_le ..)]
  rfl

/-- Values are not encoded if their last block ends beyond the words. -/
theorem encode_of_le {d : DType} {values : Array α} (hsize : values.size < Word.bound)
    (h : Word.bound ≤ d.blocksFor values.size * d.blockSize) :
    encode d values = .stop .overflow := by
  have hq := isQuantized_of_le hsize h
  have hblocks : d.blocksFor values.size * d.blockSize = blocksOf values.size * blockSize := by
    rw [DType.blocksFor, DType.blockSize, if_pos hq, if_pos hq]
  rw [hblocks] at h
  have hpos : 0 < blocksOf values.size := by
    by_contra h0
    rw [Nat.eq_zero_of_not_pos h0, Nat.zero_mul] at h
    exact absurd h (by decide)
  obtain ⟨m, hm⟩ := Nat.exists_eq_add_one.mpr hpos
  have hlast : m * blockSize < Word.bound := by
    simp only [blocksOf, blockSize] at hm ⊢
    omega
  have hscaled : (zeros d values.size : Elements α).Scaled := scaled_zeros d _
  have hquantized : (zeros d values.size : Elements α).dtype.isQuantized := by rwa [dtype_zeros]
  have htouched : touchedBlocks 0 values.size = List.range m ++ [m] := by
    have hne : values.size ≠ 0 := by
      intro h0
      rw [h0] at hm
      cases hm
    rw [touchedBlocks, if_neg hne, Nat.zero_div, Nat.sub_zero, Nat.zero_add, hm,
      ← List.range_eq_range', List.range_succ]
  obtain ⟨e, hloop, -⟩ := writeBlocks_of_lt hscaled hquantized
    (by rw [scaleCount_zeros hq, hm]; exact Nat.le_succ m) hlast 0 values
  have hwrite : write 0 values (zeros d values.size) = .error (.abort .overflow) e := by
    rw [write_of_quantized hquantized (checkRange_zeros d hsize), htouched, forM_concat]
    exact (bind_ok hloop).trans (writeBlock_of_le (hm ▸ h) 0 values e)
  rw [encode, hwrite]
  rfl

end Elements

/-! ## Quantization -/

open Elements

/-- Encoding block by block fails only for more values than words count. -/
theorem Vector.encodeBlocks_cases (p : Pool) (d : DType) (values : Array α) :
    (∃ e, encodeBlocks p d values = .ok e) ∨ encodeBlocks p d values = .stop .overflow := by
  by_cases hq : d.isQuantized
  · exact .inl ⟨_, encodeBlocks_eq p hq values⟩
  have hencode : encodeBlocks p d values = encode d values := by
    cases d with
    | f32 | f16 | bf16 => rfl
    | q8 | q4 => exact absurd rfl hq
  rw [hencode]
  by_cases hsize : values.size < Word.bound
  · obtain ⟨e, he, -⟩ := encode_float (Bool.eq_false_iff.mpr hq) hsize
    exact .inl ⟨e, he⟩
  · have hrange (held : Nat) : checkRange 0 values.size held = .stop .overflow := by
      rw [checkRange, Word.add_of_le (by omega)]
      rfl
    unfold encode write
    rw [hrange]
    exact .inr rfl

theorem Tensor.ofElements_of_represents {d : DType} {shape : Shape} {e : Elements α}
    (h : e.Represents d shape.size) (hb : shape.size < Word.bound) :
    ofElements e shape =
      (do let _ ← Word.check (d.blocksFor shape.size * d.blockSize); return owning shape e) := by
  rw [ofElements, Shape.numel_eq hb, ok_bind, h.dtype, Word.mul]
  unfold Word.check
  split
  · rw [ok_bind, ok_bind, if_pos h.size]
  · rfl

/-- The values of a view, encoded block by block or written to zeros. -/
theorem Vector.quantize_eq (hα : Scalar.PadsWithZero α) (p : Pool) (t : View α) (d : DType)
    (offset len : Nat) : quantize p t d offset len = Reference.quantize t d offset len := by
  unfold quantize Reference.quantize
  cases hvalues : maskedValues t offset len with
  | error f => rfl
  | ok values =>
    rw [ok_bind, ok_bind, Tensor.ofValues]
    by_cases ht : t.shape.size < Word.bound
    · have hsize : values.size = t.shape.size := maskedValues_size ht hvalues
      rw [Shape.numel_eq ht, ok_bind, if_neg (not_not.mpr hsize)]
      by_cases hfits : d.blocksFor values.size * d.blockSize < Word.bound
      · rw [encodeBlocks_eq_encode hα p hfits]
        cases he : encode d values with
        | error f => rfl
        | ok e =>
          have hrep : e.Represents d t.shape.size := hsize ▸ encode_represents he
          rw [ok_bind, Tensor.ofElements_of_represents hrep ht, Word.check_of_lt (hsize ▸ hfits)]
          rfl
      · have hle := Nat.le_of_not_lt hfits
        obtain ⟨e, hblocks⟩ : ∃ e, encodeBlocks p d values = .ok e :=
          ⟨_, encodeBlocks_eq p (isQuantized_of_le (hsize ▸ ht) hle) values⟩
        have hrep : e.Represents d t.shape.size := hsize ▸ encodeBlocks_represents hblocks
        rw [encode_of_le (hsize ▸ ht) hle, hblocks, ok_bind,
          Tensor.ofElements_of_represents hrep ht, Word.check_of_le (hsize ▸ hle)]
        rfl
    · have hnumel : t.shape.numel = .stop .overflow := Word.check_of_le (Nat.le_of_not_lt ht)
      rw [hnumel]
      rcases encodeBlocks_cases p d values with ⟨e, he⟩ | he
      · rw [he, ok_bind, Tensor.ofElements, hnumel]
        rfl
      · rw [he]
        rfl

end

/-- Quantizing on any pool, whatever the order in which it encodes the blocks, gives the
tensor that the reference gives, or the same fault. -/
theorem Backend.quantize_agrees (m : Machine) (c : Binary16.Conversion) :
    letI := Binary32.scalarWith m c
    ∀ (be : Backend Binary32) (t : View Binary32) (d : DType) (offset len : Nat),
      be.quantize t d offset len = Backend.reference.quantize t d offset len := by
  let _ := Binary32.scalarWith m c
  intro be t d offset len
  unfold quantize
  cases be.pool? with
  | none => rfl
  | some p => exact Vector.quantize_eq (Binary32.padsWithZero m c) p t d offset len

end BlockTensor
