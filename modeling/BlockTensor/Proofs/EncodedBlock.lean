import BlockTensor.Proofs.CodeRounding
import BlockTensor.Proofs.Padding
import BlockTensor.Proofs.PartWrite

/-!
# Encoded blocks

`Elements.encodedBlock d values` are the values of a block as elements of their own, and
what a block holds that is set to them (`block_setBlock_eq`). In exact arithmetic each
value is stored as its quotient by the scale of the block, rounded to a code
(`coded?_encodedBlock`), so:

* `encodedBlock_close`: what it is decoded as differs from it by a fixed part of a step
  at most;
* `encodedBlock_zero`: a block of zeros has scale zero and codes zero;
* `encodedBlock_again`: what the block is decoded as is encoded as the same block. For
  one of the values has the greatest code, and that gives the scale back
  (`blockScale_again`).
-/

namespace BlockTensor

open Outcome

/-! ## Codes -/

namespace Cell

variable {α : Type}

/-- The encoding of a stored pattern. -/
def dtype : Cell α → DType
  | f32 _ => .f32
  | f16 _ => .f16
  | bf16 _ => .bf16
  | q8 .. => .q8
  | q4 .. => .q4

/-- The code of a quantized element, and the scale of its block. -/
def coded? : Cell α → Option (ℤ × α)
  | q8 code scale => some (code.toInt, scale)
  | q4 nibble scale => some (Q4.signed nibble, scale)
  | _ => none

/-- In one encoding, a code is one pattern. -/
theorem eq_of_coded? {c c' : Cell α} (hd : c.dtype = c'.dtype) {x : ℤ × α}
    (h : c.coded? = some x) (h' : c'.coded? = some x) : c = c' := by
  have hsame := h.trans h'.symm
  cases c with
  | f32 v | f16 u | bf16 u => cases h
  | q8 code scale =>
    cases c' with
    | f32 v | f16 u | bf16 u | q4 nibble' scale' => cases hd
    | q8 code' scale' =>
      obtain ⟨hcode, rfl⟩ := Prod.mk.inj (Option.some.inj hsame)
      rw [Int8.toInt_inj.mp hcode]
  | q4 nibble scale =>
    cases c' with
    | f32 v | f16 u | bf16 u | q8 code' scale' => cases hd
    | q4 nibble' scale' =>
      obtain ⟨hsigned, rfl⟩ := Prod.mk.inj (Option.some.inj hsame)
      have hnat : (nibble.toNat : ℤ) = nibble'.toNat := sub_left_inj.mp hsigned
      rw [UInt8.toNat_inj.mp (Int.ofNat_inj.mp hnat)]

end Cell

namespace DType

/-- The greatest magnitude of a code. -/
def codeLimit : DType → ℤ
  | q4 => 8
  | _ => 127

/-- How far a value may be from what it is decoded as, in steps of the scale. -/
def codeError : DType → ℚ
  | q8 => 1 / 2
  | _ => 1

/-- The code of a value that has been divided by the scale. -/
def roundCode : DType → ℚ → ℤ
  | q4 => Q4.nearestCode
  | _ => nearestInt

theorem codeError_le_one (d : DType) : d.codeError ≤ 1 := by
  cases d <;> norm_num [codeError]

theorem codeRounding {d : DType} (hq : d.isQuantized) :
    CodeRounding d.codeLimit d.codeError d.roundCode := by
  cases d with
  | f32 | f16 | bf16 => cases hq
  | q8 => exact Q8.codeRounding
  | q4 => exact Q4.codeRounding

end DType

namespace Elements

section

variable {α : Type}

theorem dtype_of_cell? {e : Elements α} {i : Nat} {c : Cell α} (h : e.cell? i = some c) :
    c.dtype = e.dtype := by
  cases e with
  | f32 data | f16 data | bf16 data =>
    obtain ⟨v, -, rfl⟩ := Option.map_eq_some_iff.mp h
    rfl
  | q8 data scales | q4 data scales =>
    obtain ⟨code, -, h⟩ := Option.bind_eq_some_iff.mp h
    obtain ⟨s, -, rfl⟩ := Option.map_eq_some_iff.mp h
    rfl

/-- The code of element `i`, and the scale of its block. -/
def coded? (e : Elements α) (i : Nat) : Option (ℤ × α) := (e.cell? i).bind Cell.coded?

theorem coded?_congr {e e' : Elements α} {i j : Nat} (h : e.cell? i = e'.cell? j) :
    e.coded? i = e'.coded? j := by
  rw [coded?, coded?, h]

theorem cell?_eq_of_coded? {e e' : Elements α} (hd : e.dtype = e'.dtype) {i j : Nat} {x : ℤ × α}
    (h : e.coded? i = some x) (h' : e'.coded? j = some x) : e.cell? i = e'.cell? j := by
  obtain ⟨c, hc, h⟩ := Option.bind_eq_some_iff.mp h
  obtain ⟨c', hc', h'⟩ := Option.bind_eq_some_iff.mp h'
  have hdtype : c.dtype = c'.dtype := by rw [dtype_of_cell? hc, dtype_of_cell? hc', hd]
  rw [hc, hc', Cell.eq_of_coded? hdtype h h']

variable [Scalar α]

/-- An element is its code times the scale. -/
theorem get_of_coded? {e : Elements α} {i : Nat} {q : ℤ} {s : α} (h : e.coded? i = some (q, s)) :
    e.get i = .ok (Scalar.ofInt q * s) := by
  obtain ⟨c, hc, h⟩ := Option.bind_eq_some_iff.mp h
  rw [get_eq_cell, hc]
  cases c with
  | f32 v | f16 u | bf16 u => cases h
  | q8 code scale | q4 nibble scale =>
    obtain ⟨rfl, rfl⟩ := Prod.mk.inj (Option.some.inj h)
    rfl

/-! ## Blocks as they are set -/

/-- The values of a block, encoded. -/
def encodedBlock (d : DType) (values : Array α) : Elements α :=
  match d with
  | .q8 => q8 (Q8.encodeBlock values).1 #[(Q8.encodeBlock values).2]
  | .q4 => q4 (Q4.encodeBlock values).1 #[(Q4.encodeBlock values).2]
  | d => zeros d 0

/-- The scale of a block with these values. -/
def blockScale (d : DType) (values : Array α) : α :=
  match d with
  | .q8 => (Q8.encodeBlock values).2
  | .q4 => (Q4.encodeBlock values).2
  | _ => 0

theorem encodedBlock_layout {d : DType} (hq : d.isQuantized) (values : Array α) :
    (encodedBlock d values).layout = (d, d.unitBytes, 1) := by
  cases d with
  | f32 | f16 | bf16 => cases hq
  | q8 => rw [encodedBlock, layout, Q8.size_encodeBlock]; rfl
  | q4 => rw [encodedBlock, layout, Q4.size_encodeBlock]; rfl

omit [Scalar α] in
/-- Buffers of a block codec, with room for a block of data to each scale. -/
structure Roomy (e : Elements α) : Prop where
  quantized : e.dtype.isQuantized
  room : e.scaleCount * e.dtype.unitBytes ≤ e.dataCount

omit [Scalar α] in
theorem Roomy.of_layout {e e' : Elements α} (he : e.Roomy) (hl : e'.layout = e.layout) :
    e'.Roomy where
  quantized := dtype_eq_of_layout hl ▸ he.quantized
  room := by
    rw [scaleCount_of_layout hl, dataCount_of_layout hl, dtype_eq_of_layout hl]
    exact he.room

omit [Scalar α] in
theorem Scaled.roomy {e : Elements α} (he : e.Scaled) (hq : e.dtype.isQuantized) : e.Roomy where
  quantized := hq
  room := ((Segment.size_eq_blocks hq _).mp (size_eq_scaleCount he hq)).ge

/-- A block that is set holds the encoded values. -/
theorem block_setBlock_eq {e : Elements α} (he : e.Roomy) {b : Nat} (hb : b < e.scaleCount)
    (values : Array α) : (e.setBlock b values).block b = encodedBlock e.dtype values := by
  have hdata := Nat.le_trans (Nat.mul_le_mul_right e.dtype.unitBytes hb) he.room
  rw [Nat.succ_mul] at hdata
  cases e with
  | f32 data | f16 data | bf16 data => cases he.quantized
  | q8 data scales =>
    have hscale : b * 1 + 1 ≤ scales.size := (Nat.mul_one b).symm ▸ hb
    simp only [setBlock, block, Buffer.setIfInBounds_eq_blit]
    rw [Buffer.chunk_blit_self (Q8.size_encodeBlock values) hdata,
      Buffer.chunk_blit_self Array.size_singleton hscale]
    rfl
  | q4 data scales =>
    have hscale : b * 1 + 1 ≤ scales.size := (Nat.mul_one b).symm ▸ hb
    simp only [setBlock, block, Buffer.setIfInBounds_eq_blit]
    rw [Buffer.chunk_blit_self (Q4.size_encodeBlock values) hdata,
      Buffer.chunk_blit_self Array.size_singleton hscale]
    rfl

/-- Setting some blocks, in any order, leaves each of them encoded and the others as
they were. -/
theorem setBlocks_block {e : Elements α} (he : e.Roomy) (values : Nat → Array α) {bs : List Nat}
    (hbs : ∀ b ∈ bs, b < e.scaleCount) :
    let e' := bs.foldl (fun e b => e.setBlock b (values b)) e
    e'.layout = e.layout ∧
      ∀ k, e'.block k = if k ∈ bs then encodedBlock e.dtype (values k) else e.block k := by
  induction bs generalizing e with
  | nil => exact ⟨rfl, fun k => rfl⟩
  | cons b bs ih =>
    obtain ⟨hb, hbs⟩ := List.forall_mem_cons.mp hbs
    have hl := setBlock_layout b (values b) e
    obtain ⟨hlayout, hblocks⟩ := ih (he.of_layout hl) fun k hk => scaleCount_of_layout hl ▸ hbs k hk
    refine ⟨hlayout.trans hl, fun k => ?_⟩
    rw [List.foldl_cons, hblocks, dtype_eq_of_layout hl]
    by_cases hk : k = b
    · rw [hk, if_pos List.mem_cons_self, block_setBlock_eq he hb, ite_self]
    · rw [block_setBlock_ne e hk]
      exact if_congr (by simp [hk]) rfl rfl

omit [Scalar α] in
/-- The codes of a block are codes of the elements. -/
theorem coded?_of_block {e block : Elements α} {b j : Nat} (hq : e.dtype.isQuantized)
    (hb : e.block b = block) (hj : j < blockSize) :
    e.coded? (b * blockSize + j) = block.coded? j :=
  hb ▸ (coded?_congr (cell?_block hq b hj)).symm

end

/-! ## Exact blocks -/

variable [Narrowing]

theorem blockScale_q8 (values : Array ℚ) :
    blockScale .q8 values = Scalar.greatest values.toList / 127 :=
  Q8.scale_eq (Q8.greatest_spec values).1

theorem blockScale_q4 (values : Array ℚ) :
    blockScale .q4 values =
      Q4.dominant ((List.range blockSize).map fun j => values.getD j 0) / -8 :=
  Q4.scale_eq _

variable {d : DType} (hq : d.isQuantized) {values values' : Array ℚ}
  (hsize : values.size ≤ blockSize)

include hsize in
/-- A nibble block has a value that is minus eight steps. -/
theorem exists_lowest_q4 :
    blockScale .q4 values = 0 ∨ ∃ j, values.getD j 0 = -8 * blockScale .q4 values := by
  obtain ⟨-, hex⟩ := Q4.dominant_spec hsize
  rw [blockScale_q4]
  rcases hex with h | ⟨j, hj⟩
  · exact .inl (by rw [h, zero_div])
  · exact .inr ⟨j, hj.trans (by ring)⟩

include hq hsize

theorem spans_blockScale : Spans d.codeLimit (fun j => values.getD j 0) (blockScale d values) := by
  cases d with
  | f32 | f16 | bf16 => cases hq
  | q8 =>
    obtain ⟨hzero, hall, hex⟩ := Q8.greatest_spec values
    have hspan : (127 : ℤ) * |blockScale .q8 values| = Scalar.greatest values.toList := by
      rw [blockScale_q8, abs_div, abs_of_nonneg hzero]
      norm_num
      ring
    refine ⟨fun j => (hall j).trans_eq hspan.symm, ?_⟩
    rcases hex with h | ⟨j, hj⟩
    · exact .inl (by rw [blockScale_q8, h, zero_div])
    · exact .inr ⟨j, hj.trans hspan.symm⟩
  | q4 =>
    obtain ⟨hall, hex⟩ := Q4.dominant_spec hsize
    have hspan : (8 : ℤ) * |blockScale .q4 values| =
        |Q4.dominant ((List.range blockSize).map fun j => values.getD j 0)| := by
      rw [blockScale_q4, abs_div]
      norm_num
      ring
    refine ⟨fun j => (hall j).trans_eq hspan.symm, ?_⟩
    rcases hex with h | ⟨j, hj⟩
    · exact .inl (by rw [blockScale_q4, h, zero_div])
    · exact .inr ⟨j, (congrArg abs hj).trans hspan.symm⟩

/-- What is stored for a value: its code, and the scale of the block. -/
theorem coded?_encodedBlock {j : Nat} (hj : j < blockSize) :
    (encodedBlock d values).coded? j =
      some (d.roundCode (values.getD j 0 / blockScale d values), blockScale d values) := by
  have hle := (DType.codeRounding hq).abs_div_le (spans_blockScale hq hsize) j
  have hscale : j / blockSize = 0 := Nat.div_eq_of_lt hj
  cases d with
  | f32 | f16 | bf16 => cases hq
  | q8 =>
    have hcode : (Q8.encodeBlock values).1[j]? =
        some (Q8.code (Q8.inverseScale (Scalar.greatest values.toList)) (values.getD j 0)) := by
      rw [Q8.encodeBlock, Array.getElem?_ofFn, dif_pos hj, Array.getD_eq_getD_getElem?]
      dsimp only
      congr 1
      -- a missing value has the code of a zero
      split
      · rename_i v hv
        rw [hv]
        rfl
      · rename_i hv
        rw [hv]
        exact (Q8.code_zero _).symm
    have hround :
        (Q8.code (Q8.inverseScale (Scalar.greatest values.toList)) (values.getD j 0)).toInt =
          nearestInt (values.getD j 0 / blockScale .q8 values) := by
      have hmul := Q8.mul_inverseScale (Q8.greatest_spec values).1 (values.getD j 0)
      rw [← Q8.toInt_clamp (Q8.codeRounding.bounded hle)]
      exact congrArg (fun x => (Q8.clamp (nearestInt x)).toInt) hmul
    have hround' : (DType.q8).roundCode = nearestInt := rfl
    rw [coded?, encodedBlock, cell?, hcode, hscale, hround', ← hround]
    rfl
  | q4 =>
    obtain ⟨byte, hbyte, hnibble⟩ := Q4.nibble_encodeBlock values hj
    have hround : Q4.signed (Q4.nibble j byte) =
        (DType.q4).roundCode (values.getD j 0 / blockScale .q4 values) := by
      have hmul := Q4.mul_inverseScale (blockScale .q4 values) (values.getD j 0)
      rw [hnibble, DType.roundCode, ← Q4.signed_encodeNibble hle, ← hmul]
      rfl
    rw [coded?, encodedBlock, cell?, hbyte, hscale, ← hround]
    rfl

/-- The scale is no greater than what some value of the block demands. -/
theorem blockScale_attained : blockScale d values = 0 ∨
    ∃ k < blockSize, |values.getD k 0| = d.codeLimit * |blockScale d values| := by
  have hspans := spans_blockScale hq hsize
  rcases hspans.attained with hs | ⟨k, hk⟩
  · exact .inl hs
  by_cases hlt : k < blockSize
  · exact .inr ⟨k, hlt, hk⟩
  · -- beyond the block there are zeros, of which the scale is zero
    rw [getD_of_size_le (hsize.trans (Nat.le_of_not_lt hlt)), abs_zero, zero_eq_mul,
      Int.cast_eq_zero] at hk
    exact .inl (abs_eq_zero.mp (hk.resolve_left (DType.codeRounding hq).pos.ne'))

/-- Each value of a block is decoded within the error of its codec. -/
theorem encodedBlock_close {j : Nat} (hj : j < blockSize) :
    ∃ q s, (encodedBlock d values).coded? j = some (q, s) ∧
      |q * s - values.getD j 0| ≤ d.codeError * |s| ∧
      (s = 0 ∨ ∃ k < blockSize, |values.getD k 0| = d.codeLimit * |s|) :=
  ⟨_, _, coded?_encodedBlock hq hsize hj,
    (DType.codeRounding hq).close_mul (spans_blockScale hq hsize) j, blockScale_attained hq hsize⟩

/-- A zero has the code zero in any block. -/
theorem encodedBlock_code_zero {j : Nat} (hj : j < blockSize) (hzero : values.getD j 0 = 0) :
    (encodedBlock d values).coded? j = some (0, blockScale d values) := by
  rw [coded?_encodedBlock hq hsize hj, hzero, zero_div, (DType.codeRounding hq).zero]

/-- A block of zeros has scale zero and codes zero. -/
theorem encodedBlock_zero (hzero : ∀ j, values.getD j 0 = 0) {j : Nat} (hj : j < blockSize) :
    (encodedBlock d values).coded? j = some (0, 0) := by
  rw [encodedBlock_code_zero hq hsize hj (hzero j),
    (spans_blockScale hq hsize).scale_eq_zero (DType.codeRounding hq).pos hzero]

/-! ## Blocks encoded again -/

/-- Unless all values of a block are zero, one of them has the greatest code. -/
theorem exists_greatest_code :
    blockScale d values = 0 ∨
      ∃ j, |d.roundCode (values.getD j 0 / blockScale d values)| = d.codeLimit := by
  by_cases hs : blockScale d values = 0
  · exact .inl hs
  refine .inr ?_
  cases d with
  | f32 | f16 | bf16 => cases hq
  | q8 =>
    obtain ⟨j, hj⟩ := (spans_blockScale hq hsize).attained.resolve_left hs
    have hdiv : |values.getD j 0 / blockScale .q8 values| = (127 : ℤ) := by
      rw [abs_div, hj, mul_div_assoc, div_self (abs_ne_zero.mpr hs), mul_one]
      rfl
    refine ⟨j, ?_⟩
    show |nearestInt (values.getD j 0 / blockScale .q8 values)| = 127
    rcases (abs_eq (by norm_num)).mp hdiv with h | h
    · rw [h, nearestInt_intCast]
      rfl
    · rw [h, ← Int.cast_neg, nearestInt_intCast]
      rfl
  | q4 =>
    obtain ⟨j, hj⟩ := (exists_lowest_q4 hsize).resolve_left hs
    have hdiv : values.getD j 0 / blockScale .q4 values = (-8 : ℤ) := by
      rw [hj, mul_div_assoc, div_self hs]
      norm_num
    refine ⟨j, ?_⟩
    show |Q4.nearestCode (values.getD j 0 / blockScale .q4 values)| = 8
    rw [hdiv, Q4.nearestCode_intCast (by decide)]
    rfl

variable (hsize' : values'.size ≤ blockSize)
  (hvalues : ∀ j, values'.getD j 0 =
    d.roundCode (values.getD j 0 / blockScale d values) * blockScale d values)

include hsize' hvalues

/-- The scale of a block is the scale of what it is decoded as. -/
theorem blockScale_again : blockScale d values' = blockScale d values := by
  have hround := DType.codeRounding hq
  have hspans := hround.spans_mul (spans_blockScale hq hsize) (exists_greatest_code hq hsize)
  have hspans' := spans_blockScale hq hsize'
  rw [funext hvalues] at hspans'
  have habs := hspans'.abs_eq_abs hround.pos hspans
  cases d with
  | f32 | f16 | bf16 => cases hq
  | q8 =>
    have hnonneg (values : Array ℚ) : 0 ≤ blockScale .q8 values := by
      rw [blockScale_q8]
      exact div_nonneg (Q8.greatest_spec values).1 (by norm_num)
    rwa [abs_of_nonneg (hnonneg values'), abs_of_nonneg (hnonneg values)] at habs
  | q4 =>
    rcases abs_eq_abs.mp habs with heq | hneg
    · exact heq
    by_cases hs : blockScale .q4 values = 0
    · rw [hneg, hs, neg_zero]
    -- a scale of the other sign would take a code of eight, and seven is the last one
    have hs' : blockScale .q4 values' ≠ 0 := by rwa [hneg, neg_ne_zero]
    obtain ⟨j, hj⟩ := (exists_lowest_q4 hsize').resolve_left hs'
    rw [hvalues, hneg, mul_neg, neg_mul, neg_neg] at hj
    have hcode : Q4.nearestCode (values.getD j 0 / blockScale .q4 values) = 8 := by
      exact_mod_cast mul_right_cancel₀ hs hj
    have hle := Q4.nearestCode_le (values.getD j 0 / blockScale .q4 values)
    omega

/-- What a block is decoded as is encoded as the block. -/
theorem encodedBlock_again : encodedBlock d values' = encodedBlock d values := by
  have hl := encodedBlock_layout hq values
  have hl' := encodedBlock_layout hq values'
  obtain ⟨hscaled, hheld⟩ := scaled_of_layout hq hl
  refine eq_of_cells_lt hscaled (hl'.trans hl.symm) fun j hj => ?_
  have hj : j < blockSize := hheld ▸ hj
  refine cell?_eq_of_coded? (dtype_eq_of_layout (hl'.trans hl.symm)) ?_
    (coded?_encodedBlock hq hsize hj)
  rw [coded?_encodedBlock hq hsize' hj, blockScale_again hq hsize hsize' hvalues, hvalues,
    (DType.codeRounding hq).again_mul (spans_blockScale hq hsize)]

end Elements

end BlockTensor
