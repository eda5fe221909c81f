import Mathlib.Data.Rat.Floor
import Mathlib.Algebra.Order.Ring.Abs
import BlockTensor.Proofs.Allocation
import BlockTensor.Proofs.Block
import BlockTensor.Proofs.Copy
import BlockTensor.Proofs.Rational

/-!
# Zeros after the last element

Quantized elements are stored in whole blocks, so some may follow the last one
that is meant. `Elements.Padded m e` says that all from `m` on are zero. Zero is
encoded as the code zero whatever its block holds, and a code zero decodes to
zero under any scale, so:

* `write_padded`: a write before `m` keeps the padding, although it encodes the
  block anew in which `m` lies;
* `encode_padded`, `Vector.encodeBlocks_padded`: encoded values are padded;
* `copyRaw_padded`: a copy keeps the padding, if nothing but zeros is copied to
  the elements from `m` on;
* `Padded.part`, `Padded.put`: so does any update of a part that keeps the padding
  of the part.
-/

namespace BlockTensor

open Outcome Update

variable {α : Type}

/-! ## Codes -/

/-- The two nibbles of a byte. -/
theorem Q4.nibble_or {a b : UInt8} (ha : a.toNat < 16) (hb : b.toNat < 16) (i : Nat) :
    nibble i (a ||| (b <<< 4)) = if isLow i then a else b := by
  have hbyte : (a ||| (b <<< 4)).toNat = b.toNat * 16 + a.toNat := by
    have hshift : b.toNat <<< 4 % 256 = b.toNat <<< 4 := by
      rw [Nat.shiftLeft_eq]
      omega
    have hor := Nat.shiftLeft_add_eq_or_of_lt (show a.toNat < 2 ^ 4 from ha) b.toNat
    rw [UInt8.toNat_or, UInt8.toNat_shiftLeft, show (4 : UInt8).toNat % 8 = 4 from rfl,
      show 2 ^ 8 = 256 from rfl, hshift, Nat.or_comm, ← hor, Nat.shiftLeft_eq]
  unfold nibble
  split
  · apply UInt8.toNat_inj.mp
    have hmask := Nat.and_two_pow_sub_one_eq_mod (b.toNat * 16 + a.toNat) 4
    rw [UInt8.toNat_and, hbyte, lowMask]
    exact hmask.trans (by omega)
  · apply UInt8.toNat_inj.mp
    rw [UInt8.toNat_shiftRight, hbyte, show (4 : UInt8).toNat % 8 = 4 from rfl,
      Nat.shiftRight_eq_div_pow]
    omega

section

variable [Scalar α]

theorem Q4.encodeNibble_lt (x : α) : (encodeNibble x).toNat < 16 := by
  rw [encodeNibble, UInt8.toNat_ofNat']
  omega

/-- What a block stores for its value `j`. -/
theorem Q4.nibble_encodeBlock (values : Array α) {j : Nat} (hj : j < blockSize) :
    ∃ byte, (encodeBlock values).1[byteOf j]? = some byte ∧
      nibble j byte = encodeNibble (values.getD j 0 * inverseScale (encodeBlock values).2) := by
  have hlt : j % q4BlockBytes < q4BlockBytes := Nat.mod_lt _ (by decide)
  refine ⟨_, by rw [byteOf_of_lt hj, encodeBlock, Array.getElem?_ofFn, dif_pos hlt], ?_⟩
  rw [nibble_or (encodeNibble_lt _) (encodeNibble_lt _), isLow, slot, Nat.mod_eq_of_lt hj]
  by_cases hlow : j < q4BlockBytes
  · rw [if_pos (decide_eq_true hlow)]
    dsimp only
    rw [Nat.mod_eq_of_lt hlow]
    rfl
  · have hhigh : j % q4BlockBytes + q4BlockBytes = j := by
      simp only [blockSize, q4BlockBytes] at *
      omega
    rw [if_neg (by simpa using hlow)]
    dsimp only
    rw [hhigh]
    rfl

end

namespace Elements

variable [ExactScalar α]

/-- The elements from `m` on are zero. -/
structure Padded (m : Nat) (e : Elements α) : Prop where
  quantized : e.dtype.isQuantized
  scaled : e.Scaled
  zero : ∀ i, m ≤ i → e.value i = 0

theorem value_eq_zero {e : Elements α} {i : Nat} (h : ∀ c, e.cell? i = some c → c.decode = 0) :
    e.value i = 0 := by
  unfold value
  cases hc : e.cell? i with
  | none => rfl
  | some c => exact h c hc

/-- A code zero is a zero, under any scale. -/
theorem value_q8_eq_zero {data : Array Int8} {scales : Array α} {i : Nat}
    (h : ∀ code, data[i]? = some code → code = 0) : (q8 data scales).value i = 0 := by
  refine value_eq_zero fun c hc => ?_
  obtain ⟨code, hcode, hc⟩ := Option.bind_eq_some_iff.mp hc
  obtain ⟨s, -, rfl⟩ := Option.map_eq_some_iff.mp hc
  obtain rfl := h code hcode
  exact Cell.decode_q8_zero s

theorem value_q4_eq_zero {data : Array UInt8} {scales : Array α} {i : Nat}
    (h : ∀ byte, data[Q4.byteOf i]? = some byte → Q4.nibble i byte = 8) :
    (q4 data scales).value i = 0 := by
  refine value_eq_zero fun c hc => ?_
  obtain ⟨byte, hbyte, hc⟩ := Option.bind_eq_some_iff.mp hc
  obtain ⟨s, -, rfl⟩ := Option.map_eq_some_iff.mp hc
  rw [h byte hbyte]
  exact Cell.decode_q4_zero s

theorem fillZero_value {e : Elements α} (hq : e.dtype.isQuantized) (i : Nat) :
    e.fillZero.value i = 0 := by
  cases e with
  | f32 data | f16 data | bf16 data => cases hq
  | q8 data scales =>
    refine value_q8_eq_zero fun code hcode => ?_
    rw [Array.getElem?_replicate] at hcode
    split at hcode
    · exact (Option.some.inj hcode).symm
    · cases hcode
  | q4 data scales =>
    refine value_q4_eq_zero fun byte hbyte => ?_
    rw [Array.getElem?_replicate] at hbyte
    split at hbyte
    · obtain rfl := Option.some.inj hbyte
      unfold Q4.nibble
      split <;> rfl
    · cases hbyte

theorem Padded.of_layout {m : Nat} {e e' : Elements α} (h : e.Padded m)
    (hlayout : e'.layout = e.layout) (hzero : ∀ i, m ≤ i → e'.value i = 0) : e'.Padded m :=
  ⟨dtype_eq_of_layout hlayout ▸ h.quantized, h.scaled.of_layout hlayout, hzero⟩

theorem fillZero_padded {m : Nat} {e : Elements α} (h : e.Padded m) : e.fillZero.Padded m :=
  h.of_layout (fillZero_layout e) fun i _ => fillZero_value h.quantized i

/-! ## Ranges -/

/-- After their last cell all elements are zero. -/
theorem value_of_size_le {e : Elements α} (he : e.Scaled) {i : Nat} (hi : e.size ≤ i) :
    e.value i = 0 := by
  rw [value, cell?_eq_none he hi]
  rfl

/-- A range is padded where its owner is. -/
theorem Padded.part {m start len : Nat} {e e' : Elements α} (h : e.Padded m)
    (hrange : e.IsRange start len e') : e'.Padded (m - start) := by
  refine ⟨hrange.dtype ▸ h.quantized, hrange.scaled, fun i hi => ?_⟩
  by_cases hlt : i < e'.size
  · rw [value_congr (hrange.cell i hlt)]
    exact h.zero _ (by omega)
  · exact value_of_size_le hrange.scaled (by omega)

/-- A range that ends on a block or with the padding of its owner is followed by
zeros. -/
theorem IsRange.padded {m start len : Nat} {e e' : Elements α} (hrange : e.IsRange start len e')
    (h : e.Padded m) (hend : (start + len) % blockSize = 0 ∨ start + len = m) :
    e'.Padded len := by
  have hpart := h.part hrange
  obtain hmod | rfl := hend
  · have hblock : e.dtype.blockSize = blockSize := by simp [DType.blockSize, h.quantized]
    have hsize : e'.size = len := by
      have ha := hrange.aligned
      rw [hrange.size]
      refine DType.blocksFor_mul_of_mod ?_
      rw [hblock] at ha ⊢
      simp only [blockSize] at *
      omega
    exact ⟨hpart.quantized, hpart.scaled, fun i hi => value_of_size_le hpart.scaled (hsize ▸ hi)⟩
  · rwa [Nat.add_sub_cancel_left] at hpart

/-- A padded part that is put back keeps the padding. -/
theorem Padded.put {m start len : Nat} {e e' new : Elements α} (h : e.Padded m)
    (hrange : e.IsRange start len e') (hlayout : new.layout = e'.layout)
    (hnew : new.Padded (m - start)) : (e.put ⟨start, new⟩).Padded m := by
  have hd := (dtype_eq_of_layout hlayout).trans hrange.dtype
  have hsize := size_eq_of_layout hlayout
  have hwithin := hrange.within
  refine h.of_layout (put_layout e ⟨start, new⟩) fun i hi => ?_
  by_cases hin : start ≤ i ∧ i < start + new.size
  · obtain ⟨j, rfl⟩ := Nat.exists_eq_add_of_le hin.1
    rw [value_congr (cell?_put h.scaled hnew.scaled hd hrange.aligned (by omega) (by omega))]
    exact hnew.zero j (by omega)
  · rw [value_congr (cell?_put_outside h.scaled hnew.scaled hd hrange.aligned (by omega))]
    exact h.zero i hi

/-- A copy that brings zeros only to the padding keeps it. -/
theorem copyRaw_padded {m start source len : Nat} {src : Elements α} (hs : src.Scaled)
    (hzero : src.dtype.isQuantized → ∀ j < len, m ≤ start + j → src.value (source + j) = 0) :
    (copyRaw start src source len).Preserves (Padded m) := by
  intro e he
  obtain ⟨f, -, hcopy⟩ | ⟨-, hfits, hcopy⟩ := copyRaw_eq he.scaled hs start source len
  · rw [hcopy]
    exact he
  rw [hcopy]
  refine he.of_layout (put_layout e _) fun i hi => ?_
  have hcell := cell?_copy he.scaled hs hfits i
  split at hcell
  · rename_i hin
    rw [left_ok, value_congr hcell]
    exact hzero (hfits.dtype ▸ he.quantized) _ (by omega) (by omega)
  · rw [left_ok, value_congr hcell]
    exact he.zero i hi

/-! ## Encoding -/

variable [ZeroScalar α]

theorem encodeBlock_q8_zero {values : Array α} {j : Nat} (hj : values.getD j 0 = 0) {code : Int8}
    (h : (Q8.encodeBlock values).1[j]? = some code) : code = 0 := by
  rw [Q8.encodeBlock, Array.getElem?_ofFn] at h
  split at h
  · obtain rfl := Option.some.inj h
    dsimp only
    split
    · rename_i v hv
      rw [Array.getD_eq_getD_getElem?, hv] at hj
      obtain rfl : v = 0 := hj
      exact Q8.code_zero _
    · rfl
  · cases h

theorem encodeBlock_q4_zero {values : Array α} {j : Nat} (hlt : j < blockSize)
    (hj : values.getD j 0 = 0) {byte : UInt8}
    (h : (Q4.encodeBlock values).1[Q4.byteOf j]? = some byte) : Q4.nibble j byte = 8 := by
  obtain ⟨byte', hbyte, hnibble⟩ := Q4.nibble_encodeBlock values hlt
  obtain rfl : byte' = byte := Option.some.inj (hbyte.symm.trans h)
  rw [hnibble, hj]
  exact Q4.encodeNibble_zero _

omit [ZeroScalar α] in
/-- Setting a block leaves the elements of the others. -/
theorem value_setBlock_ne (e : Elements α) {b i : Nat} (hi : i / blockSize ≠ b)
    (values : Array α) : (e.setBlock b values).value i = e.value i := by
  refine value_congr ?_
  cases e with
  | f32 data | f16 data | bf16 data => rfl
  | q8 data scales =>
    have hcode : ¬(b * blockSize ≤ i ∧ i < b * blockSize + blockSize ∧ i < data.size) := by
      simp only [blockSize] at *
      omega
    simp only [setBlock, cell?, Buffer.getElem?_blit, Q8.size_encodeBlock]
    rw [if_neg hcode, Array.getElem?_setIfInBounds_ne (Ne.symm hi)]
  | q4 data scales =>
    have hbyte : ¬(b * q4BlockBytes ≤ Q4.byteOf i ∧
        Q4.byteOf i < b * q4BlockBytes + q4BlockBytes ∧ Q4.byteOf i < data.size) := by
      simp only [Q4.byteOf, Q4.slot, blockSize, q4BlockBytes] at *
      omega
    simp only [setBlock, cell?, Buffer.getElem?_blit, Q4.size_encodeBlock]
    rw [if_neg hbyte, Array.getElem?_setIfInBounds_ne (Ne.symm hi)]

/-- A zero among the values to which its block is set is a zero. -/
theorem value_setBlock_eq_zero {e : Elements α} (hq : e.dtype.isQuantized) {b j : Nat}
    (hj : j < blockSize) {values : Array α} (h : values.getD j 0 = 0) :
    (e.setBlock b values).value (b * blockSize + j) = 0 := by
  cases e with
  | f32 data | f16 data | bf16 data => cases hq
  | q8 data scales =>
    refine value_q8_eq_zero fun code hcode => ?_
    rw [Buffer.getElem?_blit, Q8.size_encodeBlock] at hcode
    split at hcode
    · rw [Nat.add_sub_cancel_left] at hcode
      exact encodeBlock_q8_zero h hcode
    · rw [Array.getElem?_eq_none (by omega)] at hcode
      cases hcode
  | q4 data scales =>
    have hstart : b * blockSize % blockSize = 0 := Nat.mul_mod_left ..
    have hbyte := byteOf_lt_block hj
    refine value_q4_eq_zero fun byte hget => ?_
    rw [Buffer.getElem?_blit, Q4.size_encodeBlock, byteOf_add hstart,
      Nat.mul_div_cancel _ (by decide : 0 < blockSize)] at hget
    rw [nibble_add hstart]
    split at hget
    · rw [Nat.add_sub_cancel_left] at hget
      exact encodeBlock_q4_zero hj h hget
    · rw [Array.getElem?_eq_none (by omega)] at hget
      cases hget

/-- If a block is set to values of which the one at `i` is zero, or another block
is set, element `i` is zero or stays zero. -/
theorem setBlock_value_eq_zero {e : Elements α} (hq : e.dtype.isQuantized) {b i : Nat}
    {values : Array α} (hself : i / blockSize = b → values.getD (i % blockSize) 0 = 0)
    (hother : i / blockSize ≠ b → e.value i = 0) : (e.setBlock b values).value i = 0 := by
  by_cases hi : i / blockSize = b
  · rw [← Nat.div_add_mod' i blockSize, hi]
    exact value_setBlock_eq_zero hq (Nat.mod_lt i (by decide)) (hself hi)
  · rw [value_setBlock_ne e hi, hother hi]

/-- A write that ends before `m` keeps the elements from `m` on zero. -/
theorem writeBlock_padded {start m : Nat} {src : Array α} (h : start + src.size ≤ m) (b : Nat) :
    (writeBlock start src b).Preserves (Padded m) := by
  intro e he
  unfold writeBlock
  split
  · exact he
  rename_i old hread
  refine he.of_layout (setBlock_layout b _ e) fun i hi => ?_
  refine setBlock_value_eq_zero he.quantized (fun hb => ?_) fun _ => he.zero i hi
  have hi' : b * blockSize + i % blockSize = i := hb ▸ Nat.div_add_mod' i blockSize
  have hj : i % blockSize < blockSize := Nat.mod_lt i (by decide)
  rw [run_of_read hread, getD_mergeBlock start src e b hj, hi', he.zero i hi, intended,
    dif_neg (by omega)]

theorem write_padded {start m : Nat} {src : Array α} (h : start + src.size ≤ m) :
    (write start src).Preserves (Padded m) := by
  intro e he
  unfold write
  split
  · exact he
  cases e with
  | f32 data | f16 data | bf16 data => cases he.quantized
  | q8 data scales | q4 data scales =>
    exact preserves_forM (fun b _ => writeBlock_padded h b) _ he

omit [ZeroScalar α] in
theorem zeros_padded {d : DType} (hq : d.isQuantized) (m n : Nat) :
    (zeros d n : Elements α).Padded m := by
  have hfill : (zeros d n : Elements α).fillZero = zeros d n := fillZero_eq_zeros rfl
  have hquantized : (zeros d n : Elements α).dtype.isQuantized := by rwa [dtype_zeros]
  exact ⟨hquantized, scaled_zeros d n, fun i _ => hfill ▸ fillZero_value hquantized i⟩

/-- Encoded values are followed by zeros. -/
theorem encode_padded {d : DType} (hq : d.isQuantized) {values : Array α} {e : Elements α}
    (h : encode d values = .ok e) : e.Padded values.size := by
  have hwrite := write_padded (Nat.le_of_eq (Nat.zero_add values.size)) _
    (zeros_padded hq values.size values.size)
  unfold encode at h
  split at h
  · rename_i heq
    rw [heq] at hwrite
    exact Except.ok.inj h ▸ hwrite
  · cases h

end Elements

open Elements

section

variable [Scalar α]

/-- Encoding block by block sets each block of zeros once. -/
theorem Vector.encodeBlocks_eq (p : Pool) {d : DType} (hq : d.isQuantized) (values : Array α) :
    encodeBlocks p d values =
      .ok ((p.schedule.order (blocksOf values.size)).foldl
        (fun e b => e.setBlock b (Buffer.chunk values blockSize b)) (zeros d values.size)) := by
  cases d with
  | f32 | f16 | bf16 => cases hq
  | q8 =>
    simp only [encodeBlocks, zeros]
    rw [← List.foldl_hom (fun buffers : Array Int8 × Array α => q8 buffers.1 buffers.2)]
    intro buffers b
    simp only [setBlock, Q8.writeBlock]
  | q4 =>
    simp only [encodeBlocks, zeros]
    rw [← List.foldl_hom (fun buffers : Array UInt8 × Array α => q4 buffers.1 buffers.2)]
    intro buffers b
    simp only [setBlock, Q4.writeBlock]

end

variable [ExactScalar α] [ZeroScalar α]

omit [ZeroScalar α] in
/-- The blocks that are missing from a buffer of values are zeros. -/
theorem getD_chunk_of_le {values : Array α} {b i : Nat} (hi : values.size ≤ i)
    (hb : i / blockSize = b) :
    (Buffer.chunk values blockSize b).getD (i % blockSize) 0 = 0 := by
  have hsplit := Nat.div_add_mod' i blockSize
  rw [hb] at hsplit
  rw [Array.getD_eq_getD_getElem?, Array.getElem?_eq_none, Option.getD_none]
  rw [Buffer.size_chunk]
  omega

/-- The order of the blocks does not matter for what follows the values. -/
theorem setBlocks_padded {values : Array α} (bs : List Nat) {e : Elements α}
    (he : e.Padded values.size) :
    (bs.foldl (fun e b => e.setBlock b (Buffer.chunk values blockSize b)) e).Padded
      values.size := by
  induction bs generalizing e with
  | nil => exact he
  | cons b bs ih =>
    refine ih (he.of_layout (setBlock_layout b _ e) fun i hi => ?_)
    exact setBlock_value_eq_zero he.quantized (getD_chunk_of_le hi) fun _ => he.zero i hi

theorem Vector.encodeBlocks_padded {p : Pool} {d : DType} (hq : d.isQuantized) {values : Array α}
    {e : Elements α} (h : encodeBlocks p d values = .ok e) : e.Padded values.size := by
  rw [encodeBlocks_eq p hq] at h
  obtain rfl := Except.ok.inj h
  exact setBlocks_padded _ (zeros_padded hq values.size values.size)

end BlockTensor
