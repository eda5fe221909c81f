import BlockTensor.Proofs.EncodedBlock

/-!
# Writes to quantized elements

A write decodes each block that it touches, replaces what it covers of it and encodes the
block again. So a touched block is the encoding of what its elements are meant to be
(`rewriteBlock_eq`), and each of them is off by a step of its new scale at most
(`write_within_step`), whether it has been written or not.
-/

namespace BlockTensor

open Outcome

namespace Elements

/-- A block that is written to is the encoding of what it is meant to hold. -/
theorem rewriteBlock_eq {α : Type} [Scalar α] {e : Elements α} (he : e.Blocked) (start : Nat)
    (src : Array α) {b : Nat} (hb : b < e.scaleCount) :
    rewriteBlock start src b (e.block b) = encodedBlock e.dtype
      (mergeBlock (b * blockSize) start src (e.run (b * blockSize) blockSize)) := by
  have hscaled := he.wellFormed.scaled
  rw [rewriteBlock, run_block he.quantized, ← block_setBlock hscaled hb,
    block_setBlock_eq (hscaled.roomy he.quantized) hb]

/-- A write to quantized elements leaves every block that it does not touch, and brings
every element of the others within a step of what it is meant to be. Unless the step is
zero, one element of the block is meant to be as many steps from zero as codes go. -/
theorem write_within_step [Narrowing] (e : Elements ℚ) (start : Nat) (src : Array ℚ)
    (he : e.Blocked) (h : start + src.size ≤ e.size) :
    ∃ e', write start src e = .ok () e' ∧ e'.layout = e.layout ∧
      (∀ b, (¬∃ r < src.size, (start + r) / blockSize = b) → e'.block b = e.block b) ∧
      ∀ i < e.size, (∃ r < src.size, (start + r) / blockSize = i / blockSize) →
        ∃ q s old, e'.coded? i = some (q, s) ∧ e'.get i = .ok (q * s) ∧ e.get i = .ok old ∧
          |q * s - intended start src i old| ≤ |s| ∧
          (s = 0 ∨ ∃ k other, k / blockSize = i / blockSize ∧ e.get k = .ok other ∧
            |intended start src k other| = e.dtype.codeLimit * |s|) := by
  have hq := he.quantized
  obtain ⟨e', hwrite, hl, hblocks⟩ := write_blocks he h
  refine ⟨e', hwrite, hl, fun b hb => (hblocks b).trans (if_neg hb), fun i hi htouched => ?_⟩
  have hb := div_block_lt_scaleCount he.wellFormed.scaled hq hi
  have hj : i % blockSize < blockSize := Nat.mod_lt i (by decide)
  have hblock := ((hblocks _).trans (if_pos htouched)).trans (rewriteBlock_eq he start src hb)
  have hsize : (mergeBlock (i / blockSize * blockSize) start src
      (e.run (i / blockSize * blockSize) blockSize)).size ≤ blockSize := by
    rw [mergeBlock, Array.size_mapIdx, size_run]
  have hscaled := he.wellFormed.scaled
  obtain ⟨q, s, hcode, hclose, hscale⟩ := encodedBlock_close hq hsize hj
  rw [← coded?_of_block (dtype_eq_of_layout hl ▸ hq) hblock hj, Nat.div_add_mod'] at hcode
  rw [getD_mergeBlock _ _ _ _ hj, Nat.div_add_mod'] at hclose
  refine ⟨q, s, e.value i, hcode, get_of_coded? hcode, get_eq_value hscaled hi,
    hclose.trans (mul_le_of_le_one_left (abs_nonneg s) (DType.codeError_le_one _)), ?_⟩
  rcases hscale with hs | ⟨k, hk, hvalue⟩
  · exact .inl hs
  have hin := he.block_le hb
  rw [getD_mergeBlock _ _ _ _ hk] at hvalue
  exact .inr ⟨_, _, div_of_lt_block _ hk, get_eq_value hscaled (by omega), hvalue⟩

/-- Two values are written across the end of a block of nibbles. -/
theorem write_within_step_across :
    letI : Narrowing := .integers
    let e : Elements ℚ := q4 (.replicate 48 0x97) #[1, 2, 4]
    e.Blocked ∧ ∃ e', write 31 #[5, -16] e = .ok () e' ∧ e'.block 2 = e.block 2 ∧
      (∃ q s, e'.coded? 31 = some (q, s) ∧ |q * s - 5| ≤ |s|) ∧
      ∃ q s, e'.coded? 33 = some (q, s) ∧ |q * s - -2| ≤ |s| := by
  let _ : Narrowing := .integers
  intro e
  have he : e.Blocked := ⟨⟨rfl, by decide⟩, rfl⟩
  obtain ⟨e', hwrite, -, hkept, hclose⟩ := write_within_step e 31 #[5, -16] he (by decide)
  obtain ⟨q, s, old, hcode, -, -, hbound, -⟩ := hclose 31 (by decide) ⟨0, by decide, by decide⟩
  obtain ⟨q', s', old', hcode', -, hold, hbound', -⟩ :=
    hclose 33 (by decide) ⟨1, by decide, by decide⟩
  have hget : e.get 33 = .ok (-2) := by decide +kernel
  obtain rfl : -2 = old' := Except.ok.inj (hget.symm.trans hold)
  refine ⟨he, e', hwrite, hkept 2 ?_, ⟨q, s, hcode, hbound⟩, q', s', hcode', hbound'⟩
  rintro ⟨r, hr, hblock⟩
  have hr : r < 2 := hr
  simp only [blockSize] at hblock
  omega

end Elements

end BlockTensor
