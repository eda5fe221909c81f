import BlockTensor.Proofs.Allocation
import BlockTensor.Proofs.Copy
import BlockTensor.Proofs.Rewrite

/-!
# Writes to a range of an owner

Values written to a range of some elements and put back in their place are what they
would have been if they had been written to the owner (`IsRange.write_put`). In a
quantized encoding a write decodes and encodes blocks, and a range of an owner has
blocks of the owner.

* `Elements.eq_of_cells_lt`: elements of one layout are their cells.
* `IsRange.block`: the blocks of a range, and `rewriteBlock_add`: a write does the same
  to a block wherever both of them are.
* `IsRange.put_apart`: what is put back in one range leaves any range apart from it as
  it was, so two of them can be put back in either order (`IsRange.put_comm`).
-/

namespace BlockTensor

open Outcome Update

variable {α : Type}

/-! ## Elements are their cells -/

/-- A byte is its two nibbles. -/
theorem Q4.eq_of_nibbles {x y : UInt8} (hlow : x &&& Q4.lowMask = y &&& Q4.lowMask)
    (hhigh : x >>> 4 = y >>> 4) : x = y := by
  have hlow := congrArg UInt8.toNat hlow
  have hhigh := congrArg UInt8.toNat hhigh
  rw [UInt8.toNat_and, UInt8.toNat_and, show Q4.lowMask.toNat = 2 ^ 4 - 1 from rfl,
    Nat.and_two_pow_sub_one_eq_mod, Nat.and_two_pow_sub_one_eq_mod] at hlow
  rw [UInt8.toNat_shiftRight, UInt8.toNat_shiftRight, show (4 : UInt8).toNat % 8 = 4 from rfl,
    Nat.shiftRight_eq_div_pow, Nat.shiftRight_eq_div_pow] at hhigh
  apply UInt8.toNat_inj.mp
  omega

/-- The two nibbles of a byte belong to two elements of its block. -/
theorem Q4.byteOf_nibbles {p blocks : Nat} (hp : p < blocks * q4BlockBytes) :
    ∃ i, i + q4BlockBytes < blocks * blockSize ∧ Q4.byteOf i = p ∧
      Q4.byteOf (i + q4BlockBytes) = p ∧ Q4.isLow i = true ∧
      Q4.isLow (i + q4BlockBytes) = false := by
  refine ⟨p / q4BlockBytes * blockSize + p % q4BlockBytes, ?_, ?_, ?_, decide_eq_true ?_,
    decide_eq_false ?_⟩ <;>
  · simp only [Q4.byteOf, Q4.slot, blockSize, q4BlockBytes] at *
    omega

theorem Buffer.size_whole_chunk {β : Type} {a : Array β} {blocks len b : Nat}
    (ha : a.size = blocks * len) (hb : b < blocks) : (chunk a len b).size = len := by
  have hle := Nat.mul_le_mul_right len (Nat.succ_le_of_lt hb)
  rw [Nat.succ_mul] at hle
  rw [size_chunk]
  omega

namespace Elements

/-- The first element of a block shows its scale. -/
theorem first_of_block (b : Nat) : b * blockSize / blockSize = b :=
  Nat.mul_div_cancel _ (by decide)

theorem first_lt_size {e : Elements α} (he : e.Scaled) (hq : e.dtype.isQuantized) {b : Nat}
    (hb : b < e.scaleCount) : b * blockSize < e.size :=
  size_eq_scaleCount he hq ▸ Nat.mul_lt_mul_of_pos_right hb (by decide)

theorem q8_eq_of_cells {data data' : Array Int8} {scales scales' : Array α}
    (he : (q8 data scales).Scaled) (hd : data'.size = data.size) (hs : scales'.size = scales.size)
    (h : ∀ i < (q8 data scales).size, (q8 data' scales').cell? i = (q8 data scales).cell? i) :
    q8 data' scales' = q8 data scales := by
  have hcell (i : Nat) (hi : i < data.size) (hb : i / blockSize < scales.size) :
      data'[i] = data[i] ∧ scales'[i / blockSize] = scales[i / blockSize] := by
    have hi' := h i hi
    rw [cell?_q8_of_lt hi hb, cell?_q8_of_lt (hd ▸ hi) (hs ▸ hb)] at hi'
    exact Cell.q8.inj (Option.some.inj hi')
  congr 1
  · exact Array.ext hd fun i _ hi => (hcell i hi (div_block_lt_scaleCount he rfl hi)).1
  · refine Array.ext hs fun b _ hb => ?_
    have hscale := hcell (b * blockSize) (first_lt_size he rfl hb) ((first_of_block b).symm ▸ hb)
    simpa only [first_of_block] using hscale.2

theorem q4_eq_of_cells {data data' : Array UInt8} {scales scales' : Array α}
    (he : (q4 data scales).Scaled) (hd : data'.size = data.size) (hs : scales'.size = scales.size)
    (h : ∀ i < (q4 data scales).size, (q4 data' scales').cell? i = (q4 data scales).cell? i) :
    q4 data' scales' = q4 data scales := by
  have hcell (i : Nat) (hi : i < (q4 data scales).size) (hb : i / blockSize < scales.size)
      (hp : Q4.byteOf i < data.size) :
      Q4.nibble i data'[Q4.byteOf i] = Q4.nibble i data[Q4.byteOf i] ∧
        scales'[i / blockSize] = scales[i / blockSize] := by
    have hi' := h i hi
    rw [cell?_q4_of_lt hp hb, cell?_q4_of_lt (hd ▸ hp) (hs ▸ hb)] at hi'
    exact Cell.q4.inj (Option.some.inj hi')
  congr 1
  · refine Array.ext hd fun p _ hp => ?_
    obtain ⟨i, hi, hlow, hhigh, hil, hih⟩ :=
      Q4.byteOf_nibbles (Nat.lt_of_lt_of_eq hp (size_eq_of_scaled_q4 he))
    have hi : i + q4BlockBytes < (q4 data scales).size := size_eq_scaleCount he rfl ▸ hi
    have hi' : i < (q4 data scales).size := Nat.lt_of_le_of_lt (Nat.le_add_right ..) hi
    have hone := (hcell i hi' (div_block_lt_scaleCount he rfl hi') (hlow ▸ hp)).1
    have hother := (hcell _ hi (div_block_lt_scaleCount he rfl hi) (hhigh ▸ hp)).1
    simp only [hlow, Q4.nibble, hil, if_true] at hone
    simp only [hhigh, Q4.nibble, hih, Bool.false_eq_true, if_false] at hother
    exact Q4.eq_of_nibbles hone hother
  · refine Array.ext hs fun b _ hb => ?_
    have hlt : b * blockSize < (q4 data scales).size := first_lt_size he rfl hb
    have hscale := hcell (b * blockSize) hlt ((first_of_block b).symm ▸ hb)
      (byteOf_lt_dataCount he rfl hlt)
    simpa only [first_of_block] using hscale.2

/-- Elements of one layout are their cells. -/
theorem eq_of_cells_lt {e e' : Elements α} (he : e.Scaled) (hl : e'.layout = e.layout)
    (h : ∀ i < e.size, e'.cell? i = e.cell? i) : e' = e := by
  cases hq : e.dtype.isQuantized with
  | false =>
    refine eq_of_cells hq (dtype_eq_of_layout hl) fun i => ?_
    by_cases hi : i < e.size
    · exact h i hi
    · have hi := Nat.not_lt.mp hi
      rw [cell?_eq_none he hi, cell?_eq_none (he.of_layout hl) (size_eq_of_layout hl ▸ hi)]
  | true =>
    cases e with
    | f32 data | f16 data | bf16 data => cases hq
    | q8 data scales =>
      cases e' with
      | q8 data' scales' =>
        simp only [layout, Prod.mk.injEq, true_and] at hl
        exact q8_eq_of_cells he hl.1 hl.2 h
      | _ => cases hl
    | q4 data scales =>
      cases e' with
      | q4 data' scales' =>
        simp only [layout, Prod.mk.injEq, true_and] at hl
        exact q4_eq_of_cells he hl.1 hl.2 h
      | _ => cases hl

/-! ## Blocks of a range -/

/-- A block is the units of one block and one scale. -/
theorem block_layout {e : Elements α} (he : e.Blocked) {b : Nat} (hb : b < e.scaleCount) :
    (e.block b).layout = (e.dtype, e.dtype.unitBytes, 1) := by
  have hscaled := he.wellFormed.scaled
  cases e with
  | f32 data | f16 data | bf16 data => cases he.quantized
  | q8 data scales =>
    rw [block, layout, Buffer.size_whole_chunk (size_eq_of_scaled_q8 hscaled) hb,
      Buffer.size_whole_chunk (Nat.mul_one _).symm hb]
    rfl
  | q4 data scales =>
    rw [block, layout, Buffer.size_whole_chunk (size_eq_of_scaled_q4 hscaled) hb,
      Buffer.size_whole_chunk (Nat.mul_one _).symm hb]
    rfl

/-- Units of one block with one scale are an element to each place of the block. -/
theorem scaled_of_layout {e : Elements α} {d : DType} (hq : d.isQuantized)
    (hl : e.layout = (d, d.unitBytes, 1)) : e.Scaled ∧ e.size = blockSize := by
  cases e with
  | f32 data | f16 data | bf16 data =>
    obtain ⟨rfl, -⟩ := Prod.mk.inj hl
    cases hq
  | q8 data scales =>
    obtain ⟨rfl, hl⟩ := Prod.mk.inj hl
    obtain ⟨hdata, hscales⟩ := Prod.mk.inj hl
    exact ⟨by rw [Scaled, hdata, hscales, Nat.one_mul]; rfl, hdata⟩
  | q4 data scales =>
    obtain ⟨rfl, hl⟩ := Prod.mk.inj hl
    obtain ⟨hdata, hscales⟩ := Prod.mk.inj hl
    exact ⟨by rw [Scaled, hdata, hscales, Nat.one_mul]; rfl, by rw [size, hdata]; rfl⟩

theorem block_scaled {e : Elements α} (he : e.Blocked) {b : Nat} (hb : b < e.scaleCount) :
    (e.block b).Scaled ∧ (e.block b).size = blockSize :=
  scaled_of_layout he.quantized (block_layout he hb)

namespace IsRange

variable {e x : Elements α} {lo n : Nat}

/-- A range of blocks starts on a block. -/
theorem start_mod (h : e.IsRange lo n x) (hq : e.dtype.isQuantized) : lo % blockSize = 0 := by
  have ha := h.aligned
  rwa [DType.blockSize, if_pos hq] at ha

theorem blocked (h : e.IsRange lo n x) (he : e.Blocked) : x.Blocked :=
  ⟨⟨h.scaled, Nat.lt_of_le_of_lt (Nat.le_trans (Nat.le_add_left ..) h.within) he.wellFormed.fits⟩,
    h.dtype ▸ he.quantized⟩

/-- The blocks of a range are blocks of the owner. -/
theorem block_lt (h : e.IsRange lo n x) (he : e.Blocked) {c : Nat} (hc : c < x.scaleCount) :
    lo / blockSize + c < e.scaleCount := by
  have hx := size_eq_scaleCount h.scaled (h.blocked he).quantized
  have hs := size_eq_scaleCount he.wellFormed.scaled he.quantized
  have hw := h.within
  simp only [blockSize] at *
  omega

theorem block (h : e.IsRange lo n x) (he : e.Blocked) {c : Nat} (hc : c < x.scaleCount) :
    x.block c = e.block (lo / blockSize + c) := by
  have hx := h.blocked he
  have hb := h.block_lt he hc
  have hlo : lo / blockSize * blockSize = lo :=
    Nat.div_mul_cancel (Nat.dvd_of_mod_eq_zero (h.start_mod he.quantized))
  have hl : (x.block c).layout = (e.block (lo / blockSize + c)).layout := by
    rw [block_layout hx hc, block_layout he hb, h.dtype]
  obtain ⟨hscaled, hsize⟩ := block_scaled he hb
  refine eq_of_cells_lt hscaled hl fun j hj => ?_
  have hj : j < blockSize := hsize ▸ hj
  have hin := hx.block_le hc
  rw [cell?_block hx.quantized c hj, cell?_block he.quantized _ hj, h.cell _ (by omega),
    Nat.add_mul, hlo, Nat.add_assoc]

/-! ## Ranges put back -/

/-- A range that is put back has its cells there, whatever they have become. -/
theorem cell_put {x' : Elements α} (h : e.IsRange lo n x) (he : e.Scaled)
    (hx : x'.layout = x.layout) {j : Nat} (hj : j < x.size) :
    (e.put ⟨lo, x'⟩).cell? (lo + j) = x'.cell? j := by
  have hsize := size_eq_of_layout hx
  exact cell?_put he (h.scaled.of_layout hx) ((dtype_eq_of_layout hx).trans h.dtype) h.aligned
    (hsize ▸ h.within) (hsize ▸ hj)

/-- The cells outside it are those that were there. -/
theorem cell_put_outside {x' : Elements α} (h : e.IsRange lo n x) (he : e.Scaled)
    (hx : x'.layout = x.layout) {i : Nat} (hi : i < lo ∨ lo + x.size ≤ i) :
    (e.put ⟨lo, x'⟩).cell? i = e.cell? i :=
  cell?_put_outside he (h.scaled.of_layout hx) ((dtype_eq_of_layout hx).trans h.dtype) h.aligned
    (size_eq_of_layout hx ▸ hi)

/-- Elements that are a range and are as they were outside it are the owner with the
range put back. -/
theorem eq_put {e' x' : Elements α} (h : e.IsRange lo n x) (he : e.Scaled)
    (hx : x'.layout = x.layout) (hl : e'.layout = e.layout)
    (hinside : ∀ j < x.size, e'.cell? (lo + j) = x'.cell? j)
    (houtside : ∀ i < e.size, i < lo ∨ lo + x.size ≤ i → e'.cell? i = e.cell? i) :
    e' = e.put ⟨lo, x'⟩ := by
  refine eq_of_cells_lt (he.of_layout (put_layout ..)) (hl.trans (put_layout ..).symm)
    fun i hi => ?_
  have hi : i < e.size := size_eq_of_layout (put_layout e ⟨lo, x'⟩) ▸ hi
  by_cases hin : lo ≤ i ∧ i < lo + x.size
  · obtain ⟨j, rfl⟩ := Nat.exists_eq_add_of_le hin.1
    have hj : j < x.size := Nat.lt_of_add_lt_add_left hin.2
    rw [hinside j hj, h.cell_put he hx hj]
  · rw [houtside i hi (by omega), h.cell_put_outside he hx (by omega)]

/-- A range without changes is put back without changes. -/
theorem put_self (h : e.IsRange lo n x) (he : e.Scaled) : e.put ⟨lo, x⟩ = e :=
  (h.eq_put he rfl rfl (fun j hj => (h.cell j hj).symm) fun _ _ _ => rfl).symm

section

variable {x' y y' : Elements α} {lo' n' : Nat}

/-- What is put back in one range leaves a range apart from it as it was. -/
theorem put_apart (h : e.IsRange lo n x) (h' : e.IsRange lo' n' y) (he : e.Scaled)
    (hx : x'.layout = x.layout) (hapart : lo' + y.size ≤ lo ∨ lo + x.size ≤ lo') :
    (e.put ⟨lo, x'⟩).IsRange lo' n' y := by
  have hl : (e.put ⟨lo, x'⟩).layout = e.layout := put_layout ..
  have hd := dtype_eq_of_layout hl
  refine ⟨hd ▸ h'.dtype, h'.scaled, hd ▸ h'.size, hd ▸ h'.aligned,
    size_eq_of_layout hl ▸ h'.within, fun i hi => ?_⟩
  rw [h'.cell i hi, h.cell_put_outside he hx (by omega)]

/-- Ranges apart from each other are put back in either order. -/
theorem put_comm (h : e.IsRange lo n x) (h' : e.IsRange lo' n' y) (he : e.Scaled)
    (hx : x'.layout = x.layout) (hy : y'.layout = y.layout) (hapart : lo + x.size ≤ lo') :
    (e.put ⟨lo, x'⟩).put ⟨lo', y'⟩ = (e.put ⟨lo', y'⟩).put ⟨lo, x'⟩ := by
  have hl : (e.put ⟨lo, x'⟩).layout = e.layout := put_layout ..
  have hl' : (e.put ⟨lo', y'⟩).layout = e.layout := put_layout ..
  have hex := he.of_layout hl
  -- each of them is a range of the owner in which the other has been put back
  have hfirst := h'.put_apart h he hy (.inl hapart)
  have hsecond := h.put_apart h' he hx (.inr hapart)
  refine hfirst.eq_put (he.of_layout hl') hx ((put_layout ..).trans (hl.trans hl'.symm))
    (fun j hj => ?_) fun i _ hout => ?_
  · rw [hsecond.cell_put_outside hex hy (by omega), h.cell_put he hx hj]
  · by_cases hin : lo' ≤ i ∧ i < lo' + y.size
    · obtain ⟨j, rfl⟩ := Nat.exists_eq_add_of_le hin.1
      have hj : j < y.size := Nat.lt_of_add_lt_add_left hin.2
      rw [hsecond.cell_put hex hy hj, h'.cell_put he hy hj]
    · rw [hsecond.cell_put_outside hex hy (by omega), h.cell_put_outside he hx hout,
        h'.cell_put_outside he hy (by omega)]

end

end IsRange

/-! ## Writes to a range -/

section

variable [Scalar α] {e x : Elements α} {lo n : Nat}

/-- A write does the same to a block wherever both of them are. -/
theorem rewriteBlock_add (hlo : lo % blockSize = 0) (k : Nat) (src : Array α) (c : Nat) :
    rewriteBlock (lo + k) src (lo / blockSize + c) =
      (rewriteBlock k src c : Elements α → Elements α) := by
  have hdiv : lo / blockSize * blockSize = lo := Nat.div_mul_cancel (Nat.dvd_of_mod_eq_zero hlo)
  funext block
  rw [rewriteBlock, rewriteBlock, mergeBlock, mergeBlock]
  congr 2
  funext j v
  rw [Nat.add_mul, hdiv, Nat.add_assoc, Nat.add_sub_add_left]
  exact if_congr (Nat.add_le_add_iff_left ..) rfl rfl

/-- What a write makes of a block. -/
def writtenBlock (e : Elements α) (start : Nat) (src : Array α) (b : Nat) : Elements α :=
  if ∃ r < src.size, (start + r) / blockSize = b then rewriteBlock start src b (e.block b)
  else e.block b

/-- What is stored after a write is stored in what it makes of the blocks. -/
theorem exists_write_cells (he : e.Blocked) {start : Nat} {src : Array α}
    (h : start + src.size ≤ e.size) :
    ∃ e', write start src e = .ok () e' ∧ e'.layout = e.layout ∧
      ∀ b < e.scaleCount, ∀ j < blockSize,
        e'.cell? (b * blockSize + j) = (e.writtenBlock start src b).cell? j := by
  obtain ⟨e', hwrite, hlayout, hblocks⟩ := write_blocks he h
  refine ⟨e', hwrite, hlayout, fun b _ j hj => ?_⟩
  have hcell := cell?_block (he.of_layout hlayout).quantized b hj
  rw [← hcell, hblocks]
  rfl

/-- A write makes of a block of a range what it makes of the block in the owner. -/
theorem IsRange.writtenBlock (h : e.IsRange lo n x) (he : e.Blocked) {k c : Nat} {src : Array α}
    (hc : c < x.scaleCount) :
    e.writtenBlock (lo + k) src (lo / blockSize + c) = x.writtenBlock k src c := by
  have hlo := h.start_mod he.quantized
  have htouched (r : Nat) :
      (lo + k + r) / blockSize = lo / blockSize + c ↔ (k + r) / blockSize = c := by
    rw [Nat.add_assoc, Segment.add_div_block hlo]
    omega
  rw [Elements.writtenBlock, Elements.writtenBlock, rewriteBlock_add hlo, h.block he hc]
  exact if_congr (exists_congr fun r => and_congr_right fun _ => htouched r) rfl rfl

/-- What is written to a range of float elements is written to them. -/
theorem IsRange.overwrite_put (h : e.IsRange lo n x) (he : e.Scaled)
    (hq : e.dtype.isQuantized = false) {k : Nat} {values : Array α}
    (hk : k + values.size ≤ x.size) :
    e.overwrite (lo + k) values = e.put ⟨lo, x.overwrite k values⟩ := by
  have hw := h.within
  have hqx : x.dtype.isQuantized = false := h.dtype ▸ hq
  refine h.eq_put he (overwrite_layout ..) (overwrite_layout ..) (fun j hj => ?_)
    fun i _ hout => ?_
  · rw [cell?_overwrite hq (by omega), cell?_overwrite hqx hk, h.dtype, h.cell j hj,
      Nat.add_sub_add_left]
    exact if_congr (by omega) rfl rfl
  · rw [cell?_overwrite hq (by omega), if_neg (by omega)]

/-- What is written to a range of quantized elements is written to them. -/
theorem IsRange.write_put_blocks (h : e.IsRange lo n x) (he : e.Blocked) {k : Nat}
    {values : Array α} (hk : k + values.size ≤ x.size) :
    ∃ x', write k values x = .ok () x' ∧ x'.layout = x.layout ∧
      write (lo + k) values e = .ok () (e.put ⟨lo, x'⟩) := by
  have hw := h.within
  have hlo := h.start_mod he.quantized
  have hx := h.blocked he
  have hsize := size_eq_scaleCount hx.wellFormed.scaled hx.quantized
  obtain ⟨x', hwrite, hlayout, hcells⟩ := exists_write_cells hx hk
  obtain ⟨e', hwrite', hlayout', hcells'⟩ :=
    exists_write_cells he (show lo + k + values.size ≤ e.size by omega)
  refine ⟨x', hwrite, hlayout, hwrite'.trans ?_⟩
  congr 1
  refine h.eq_put he.wellFormed.scaled hlayout hlayout' (fun j hj => ?_) fun i hi hout => ?_
  · -- a block of the range is written as the block of the owner is
    have hc := div_block_lt_scaleCount hx.wellFormed.scaled hx.quantized hj
    have hr : j % blockSize < blockSize := Nat.mod_lt _ (by decide)
    have hj' := Nat.div_add_mod' j blockSize
    have hi' : lo + j = (lo / blockSize + j / blockSize) * blockSize + j % blockSize := by
      rw [Nat.add_mul, Nat.div_mul_cancel (Nat.dvd_of_mod_eq_zero hlo)]
      omega
    rw [hi', hcells' _ (h.block_lt he hc) _ hr, h.writtenBlock he hc, ← hcells _ hc _ hr, hj']
  · -- no element of another block is written
    have hb := div_block_lt_scaleCount he.wellFormed.scaled he.quantized hi
    have hr : i % blockSize < blockSize := Nat.mod_lt _ (by decide)
    have hi' := Nat.div_add_mod' i blockSize
    have huntouched : ¬∃ r < values.size, (lo + k + r) / blockSize = i / blockSize := by
      rintro ⟨r, hr, hblock⟩
      simp only [blockSize] at *
      omega
    have hcell := hcells' _ hb _ hr
    rwa [Elements.writtenBlock, if_neg huntouched, cell?_block he.quantized _ hr, hi'] at hcell

/-- What is written to a range is written to the owner: partly written blocks too are
decoded and encoded as they would be there. -/
theorem IsRange.write_put (h : e.IsRange lo n x) (he : e.WellFormed) {k : Nat}
    {values : Array α} (hk : k + values.size ≤ x.size) :
    ∃ x', write k values x = .ok () x' ∧ x'.layout = x.layout ∧
      write (lo + k) values e = .ok () (e.put ⟨lo, x'⟩) := by
  cases hq : e.dtype.isQuantized with
  | true => exact h.write_put_blocks ⟨he, hq⟩ hk
  | false =>
    have hw := h.within
    have hfits := he.fits
    have hqx : x.dtype.isQuantized = false := h.dtype ▸ hq
    refine ⟨_, write_eq_overwrite hqx (by omega) hk, overwrite_layout .., ?_⟩
    rw [← h.overwrite_put he.scaled hq hk]
    exact write_eq_overwrite hq hfits (by omega)

/-- A write that does not fit is refused before anything is written. -/
theorem write_eq_abort {k : Nat} {values : Array α} (hk : e.size < k + values.size) :
    ∃ a, write k values e = .error (.abort a) e := by
  have hrefuse : ∃ a, checkRange k values.size e.size = .error (.abort a) := by
    unfold checkRange Word.add Word.check
    split
    · exact ⟨_, if_neg (Nat.not_le.mpr hk)⟩
    · exact ⟨_, rfl⟩
  obtain ⟨a, ha⟩ := hrefuse
  refine ⟨a, ?_⟩
  unfold write
  rw [ha]

end

end Elements

end BlockTensor
