import BlockTensor.Proofs.EncodedBlock

/-!
# Whole buffers, encoded and decoded

`Elements.quantize src` encodes `src` into all the blocks of some buffers, and
`Elements.dequantize n` decodes the first `n` elements of them. The buffers need no more
than a block of data to each scale, so there may be data that belongs to no scale.

* `quantize_blocks`: each block with a scale becomes the block of `src` at its place, and
  the others are as they were.
* `quantize_decodes`: what is decoded is `src` but for an error of at most a step, or half
  a step for bytes, and zeros after it. A step is no more than the block demands.
* `quantize_again`: what is decoded is encoded as the same codes and scales.
-/

namespace BlockTensor

open Outcome

namespace Elements

section

variable {α : Type} [Scalar α]

/-- Encode `src` into all the blocks. -/
def quantize (src : Array α) : Elements α → Outcome (Elements α)
  | q8 data scales => do
    let buffers ← Q8.quantize src data scales
    return q8 buffers.1 buffers.2
  | q4 data scales => do
    let buffers ← Q4.quantize src data scales
    return q4 buffers.1 buffers.2
  | e => return e

/-- The values of the first `n` elements. -/
def dequantize (e : Elements α) (n : Nat) : Outcome (Array α) :=
  match e with
  | q8 data scales => Q8.dequantize data scales n
  | q4 data scales => Q4.dequantize data scales n
  | e => Buffer.generate 0 n e.get

/-- Encoding sets one block after the other. -/
theorem quantize_eq {e : Elements α} (he : e.Roomy) {src : Array α}
    (hsrc : src.size ≤ e.scaleCount * blockSize) :
    e.quantize src = .ok ((List.range e.scaleCount).foldl
      (fun e b => e.setBlock b (Buffer.chunk src blockSize b)) e) := by
  have hroom := he.room
  cases e with
  | f32 data | f16 data | bf16 data => cases he.quantized
  | q8 data scales =>
    rw [quantize, Q8.quantize, if_pos ⟨hsrc, hroom⟩, ok_bind, pure_eq_ok,
      ← List.foldl_hom (fun buffers : Array Int8 × Array α => q8 buffers.1 buffers.2)]
    · rfl
    · intro buffers b
      simp only [setBlock, Q8.writeBlock]
  | q4 data scales =>
    rw [quantize, Q4.quantize, if_pos ⟨hsrc, hroom⟩, ok_bind, pure_eq_ok,
      ← List.foldl_hom (fun buffers : Array UInt8 × Array α => q4 buffers.1 buffers.2)]
    · rfl
    · intro buffers b
      simp only [setBlock, Q4.writeBlock]

/-- Encoding makes each block with a scale the encoded block of the source, and leaves
the others. -/
theorem quantize_blocks {e : Elements α} (he : e.Roomy) {src : Array α}
    (hsrc : src.size ≤ e.scaleCount * blockSize) :
    ∃ e', e.quantize src = .ok e' ∧ e'.layout = e.layout ∧
      ∀ b, e'.block b = if b < e.scaleCount then
        encodedBlock e.dtype (Buffer.chunk src blockSize b) else e.block b := by
  obtain ⟨hlayout, hblocks⟩ :=
    setBlocks_block he (Buffer.chunk src blockSize) fun b hb => List.mem_range.mp hb
  refine ⟨_, quantize_eq he hsrc, hlayout, fun b => ?_⟩
  rw [hblocks]
  exact if_congr List.mem_range rfl rfl

/-- Decoding gives one value after the other. -/
theorem dequantize_eq_run {e : Elements α} {n : Nat}
    (h : ∀ i < n, ∃ v, e.get i = .ok v) : e.dequantize n = .ok (e.run 0 n) := by
  have hgenerate : e.dequantize n = Buffer.generate 0 n e.get := by
    cases e <;> rfl
  rw [hgenerate, run]
  refine Buffer.generate_of_ok fun i hi => ?_
  obtain ⟨v, hv⟩ := h (0 + i) (by omega)
  rw [hv, value_of_get hv]

end

/-! ## Exact buffers -/

section

variable [Narrowing] {e e' : Elements ℚ} (he : e.Roomy) {src : Array ℚ} (hl : e'.layout = e.layout)
  (hblocks : ∀ b < e.scaleCount,
    e'.block b = encodedBlock e.dtype (Buffer.chunk src blockSize b))

include he hl hblocks

/-- An element of the blocks is close to the source, under a scale no greater than the
block demands, and zero where the source has ended. -/
theorem coded?_close {i : Nat} (hi : i < e.scaleCount * blockSize) :
    ∃ q s, e'.coded? i = some (q, s) ∧ |q * s - src.getD i 0| ≤ e.dtype.codeError * |s| ∧
      (s = 0 ∨ ∃ k, k / blockSize = i / blockSize ∧
        |src.getD k 0| = e.dtype.codeLimit * |s|) ∧
      (src.size ≤ i → q = 0) := by
  have hq : e'.dtype.isQuantized := dtype_eq_of_layout hl ▸ he.quantized
  have hb : i / blockSize < e.scaleCount := Nat.div_lt_of_lt_mul (Nat.mul_comm .. ▸ hi)
  have hj : i % blockSize < blockSize := Nat.mod_lt i (by decide)
  have hsize := Buffer.size_chunk_le src blockSize (i / blockSize)
  obtain ⟨q, s, hcode, hclose, hscale⟩ := encodedBlock_close he.quantized hsize hj
  have hcode' := coded?_of_block hq (hblocks _ hb) hj
  rw [Nat.div_add_mod', hcode] at hcode'
  rw [Buffer.getD_chunk, if_pos hj, Nat.div_add_mod'] at hclose
  refine ⟨q, s, hcode', hclose, ?_, fun hle => ?_⟩
  · rcases hscale with hs | ⟨k, hk, hvalue⟩
    · exact .inl hs
    rw [Buffer.getD_chunk, if_pos hk] at hvalue
    exact .inr ⟨_, div_of_lt_block _ hk, hvalue⟩
  · rw [encodedBlock_code_zero he.quantized hsize hj (getD_chunk_of_le hle rfl)] at hcode
    exact (Prod.mk.inj (Option.some.inj hcode)).1.symm

/-- Any number of elements of the blocks can be decoded. -/
theorem dequantize_of_blocks {n : Nat} (hn : n ≤ e.scaleCount * blockSize) :
    e'.dequantize n = .ok (e'.run 0 n) := by
  refine dequantize_eq_run fun i hi => ?_
  obtain ⟨q, s, hcode, -⟩ := coded?_close he hl hblocks (Nat.lt_of_lt_of_le hi hn)
  exact ⟨_, get_of_coded? hcode⟩

/-- What a block is decoded as, if at least the source is decoded. -/
theorem getD_chunk_run {n : Nat} (hn : src.size ≤ n) {b : Nat} (hb : b < e.scaleCount) (j : Nat) :
    let values := Buffer.chunk src blockSize b
    let s := blockScale e.dtype values
    (Buffer.chunk (e'.run 0 n) blockSize b).getD j 0 =
      e.dtype.roundCode (values.getD j 0 / s) * s := by
  intro values s
  have hq : e'.dtype.isQuantized := dtype_eq_of_layout hl ▸ he.quantized
  by_cases hj : j < blockSize ∧ b * blockSize + j < n
  · have hcode := coded?_of_block hq (hblocks b hb) hj.1
    rw [coded?_encodedBlock he.quantized (Buffer.size_chunk_le ..) hj.1] at hcode
    rw [Buffer.getD_chunk, if_pos hj.1, getD_run _ _ hj.2, Nat.zero_add]
    exact value_of_get (get_of_coded? hcode)
  · -- beyond the block or beyond what is decoded there are zeros in both
    have hzero (xs : Array ℚ) (hxs : xs.size ≤ n) : (Buffer.chunk xs blockSize b).getD j 0 = 0 := by
      rw [Buffer.getD_chunk]
      split
      · exact getD_of_size_le (by omega)
      · rfl
    rw [hzero _ (size_run ..).le, hzero src hn, zero_div, (DType.codeRounding he.quantized).zero,
      Int.cast_zero, zero_mul]

end

/-! ## Round trips -/

/-- Whatever is encoded is decoded within a step of the scale of its block, or half a step
for bytes, where one of the values is as many steps from zero as codes go. Zeros follow
it, a block of zeros has scale and codes zero, and data that belongs to no scale is kept. -/
theorem quantize_decodes [Narrowing] (e : Elements ℚ) (src : Array ℚ) (he : e.Roomy)
    (hsrc : src.size ≤ e.scaleCount * blockSize) :
    ∃ e', e.quantize src = .ok e' ∧ e'.layout = e.layout ∧
      (∀ n ≤ e.scaleCount * blockSize, ∃ out, e'.dequantize n = .ok out ∧ out.size = n ∧
        ∀ i < n, ∃ q s, e'.coded? i = some (q, s) ∧
          |out.getD i 0 - src.getD i 0| ≤ e.dtype.codeError * |s| ∧
          (s = 0 ∨ ∃ k, k / blockSize = i / blockSize ∧
            |src.getD k 0| = e.dtype.codeLimit * |s|) ∧
          (src.size ≤ i → out.getD i 0 = 0)) ∧
      (∀ b < e.scaleCount, (∀ j < blockSize, src.getD (b * blockSize + j) 0 = 0) →
        ∀ j < blockSize, e'.coded? (b * blockSize + j) = some (0, 0)) ∧
      ∀ b, e.scaleCount ≤ b → e'.block b = e.block b := by
  obtain ⟨e', hquantize, hl, hall⟩ := quantize_blocks he hsrc
  have hblocks (b : Nat) (hb : b < e.scaleCount) := (hall b).trans (if_pos hb)
  refine ⟨e', hquantize, hl, fun n hn => ?_, fun b hb hzero j hj => ?_, fun b hb => ?_⟩
  · refine ⟨_, dequantize_of_blocks he hl hblocks hn, size_run .., fun i hi => ?_⟩
    obtain ⟨q, s, hcode, hclose, hscale, hpad⟩ :=
      coded?_close he hl hblocks (Nat.lt_of_lt_of_le hi hn)
    have hvalue : (e'.run 0 n).getD i 0 = q * s := by
      rw [getD_run _ _ hi, Nat.zero_add]
      exact value_of_get (get_of_coded? hcode)
    refine ⟨q, s, hcode, hvalue ▸ hclose, hscale, fun hle => ?_⟩
    rw [hvalue, hpad hle, Int.cast_zero, zero_mul]
  · have hq : e'.dtype.isQuantized := dtype_eq_of_layout hl ▸ he.quantized
    rw [coded?_of_block hq (hblocks b hb) hj]
    refine encodedBlock_zero he.quantized (Buffer.size_chunk_le ..) (fun k => ?_) hj
    rw [Buffer.getD_chunk]
    split
    · rename_i hk
      exact hzero k hk
    · rfl
  · rw [hall, if_neg (Nat.not_lt.mpr hb)]

theorem quantize_decodes_opposites :
    letI : Narrowing := .integers
    let e : Elements ℚ := q4 (.replicate 40 255) #[5, 5]
    e.Roomy ∧ ∃ e', e.quantize #[-8, 8, 1] = .ok e' ∧
      (∃ out, e'.dequantize 35 = .ok out ∧ out.getD 34 0 = 0 ∧
        ∃ q s, e'.coded? 1 = some (q, s) ∧ |out.getD 1 0 - 8| ≤ |s|) ∧
      e'.coded? 63 = some (0, 0) ∧ e'.block 2 = e.block 2 := by
  let _ : Narrowing := .integers
  intro e
  have he : e.Roomy := ⟨rfl, by decide⟩
  obtain ⟨e', hquantize, -, hdecode, hzero, hkept⟩ :=
    quantize_decodes e #[-8, 8, 1] he (by decide)
  obtain ⟨out, hout, -, hclose⟩ := hdecode 35 (by decide)
  obtain ⟨q, s, hcode, hbound, -, -⟩ := hclose 1 (by decide)
  obtain ⟨-, -, -, -, -, hpad⟩ := hclose 34 (by decide)
  exact ⟨he, e', hquantize, ⟨out, hout, hpad (by decide), q, s, hcode,
      hbound.trans_eq (one_mul _)⟩,
    hzero 1 (by decide) (by decide +kernel) 31 (by decide), hkept 2 (by decide)⟩

/-- What encoded values are decoded as is encoded in the same way: in the same buffers,
which do not change, and in any others. -/
theorem quantize_again [Narrowing] (e : Elements ℚ) (src : Array ℚ) (he : e.Roomy)
    (hsrc : src.size ≤ e.scaleCount * blockSize) :
    ∃ e', e.quantize src = .ok e' ∧
      ∀ n, src.size ≤ n → n ≤ e.scaleCount * blockSize →
        ∃ out, e'.dequantize n = .ok out ∧ e'.quantize out = .ok e' ∧
          ∀ f : Elements ℚ, f.Roomy → f.dtype = e.dtype → f.scaleCount = e.scaleCount →
            ∃ f', f.quantize out = .ok f' ∧ ∀ b < e.scaleCount, f'.block b = e'.block b := by
  obtain ⟨e', hquantize, hl, hall⟩ := quantize_blocks he hsrc
  have hblocks (b : Nat) (hb : b < e.scaleCount) := (hall b).trans (if_pos hb)
  refine ⟨e', hquantize, fun n hn hle => ?_⟩
  have hagain (b : Nat) (hb : b < e.scaleCount) :
      encodedBlock e.dtype (Buffer.chunk (e'.run 0 n) blockSize b) = e'.block b := by
    rw [hblocks b hb]
    exact encodedBlock_again he.quantized (Buffer.size_chunk_le ..) (Buffer.size_chunk_le ..)
      (getD_chunk_run he hl hblocks hn hb)
  have hother (f : Elements ℚ) (hf : f.Roomy) (hd : f.dtype = e.dtype)
      (hs : f.scaleCount = e.scaleCount) : ∃ f', f.quantize (e'.run 0 n) = .ok f' ∧
        ∀ b, f'.block b = if b < e.scaleCount then e'.block b else f.block b := by
    have hsize : (e'.run 0 n).size ≤ f.scaleCount * blockSize := by rwa [size_run, hs]
    obtain ⟨f', hquantize', -, hall'⟩ := quantize_blocks hf hsize
    refine ⟨f', hquantize', fun b => ?_⟩
    rw [hall', hs, hd]
    by_cases hb : b < e.scaleCount
    · rw [if_pos hb, if_pos hb, hagain b hb]
    · rw [if_neg hb, if_neg hb]
  refine ⟨_, dequantize_of_blocks he hl hblocks hle, ?_, fun f hf hd hs => ?_⟩
  · have he' := he.of_layout hl
    obtain ⟨e₂, hquantize', hsame⟩ :=
      hother e' he' (dtype_eq_of_layout hl) (scaleCount_of_layout hl)
    rw [hquantize', eq_of_blocks he'.quantized fun b => ((hsame b).trans (ite_self _)).symm]
  · obtain ⟨f', hquantize', hsame⟩ := hother f hf hd hs
    exact ⟨f', hquantize', fun b hb => (hsame b).trans (if_pos hb)⟩

theorem quantize_again_opposites :
    letI : Narrowing := .integers
    let e : Elements ℚ := q4 (.replicate 16 0) #[0]
    e.Roomy ∧ ∃ e' out, e.quantize #[8, -8, 1] = .ok e' ∧ e'.dequantize 3 = .ok out ∧
      e'.quantize out = .ok e' := by
  let _ : Narrowing := .integers
  intro e
  have he : e.Roomy := ⟨rfl, by decide⟩
  obtain ⟨e', hquantize, hagain⟩ := quantize_again e #[8, -8, 1] he (by decide)
  obtain ⟨out, hout, hsame, -⟩ := hagain 3 (by decide) (by decide)
  exact ⟨he, e', out, hquantize, hout, hsame⟩

end Elements

end BlockTensor
