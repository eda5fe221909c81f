import BlockTensor.Proofs.HalfDecoding
import BlockTensor.Proofs.Representation
import BlockTensor.Proofs.Rewrite

/-!
# Float patterns that are decoded and encoded again

A 16-bit pattern is decoded to the binary32 value that it stands for, and encoding the value
gives the pattern back, or another pattern that is no number for one that is none
(`Scalar.Lossless`). So a float element that is read and stored again keeps its cell up to
the payload of what is no number (`Cell.Same`, `Cell.encode_decode`).

* `Binary32.scalarWith m c` is the arithmetic of binary32 values on a machine, with halves
  converted by `c`; its codecs are lossless if halves are decoded as by the engine and encoded
  to nearest (`Binary16.Rounds.lossless`).
* `Binary32.Agrees.mul_eq`: products see one value in all patterns that are no numbers.
* `Elements.encode_float`: values encoded in a float encoding are stored one by one.
-/

namespace BlockTensor

open Outcome

/-! ## Brain floats -/

namespace Brain

/-- The pattern of a brain float that is no number. -/
def IsNaN (b : UInt16) : Prop := 0x7f80 < b.toNat % 0x8000

/-- Two brain floats are the same up to the payload of what is no number. -/
def Same (b b' : UInt16) : Prop := b = b' ∨ IsNaN b ∧ IsNaN b'

theorem isNaN_widen {b : UInt16} (h : IsNaN b) : (Binary32.mk (widen b)).isNaN := by
  rw [IsNaN] at h
  rw [Binary32.isNaN, decide_eq_true_eq, Binary32.magnitude, toNat_widen]
  omega

theorem isNaN_narrow {x : Binary32} (h : x.isNaN) : IsNaN (narrow x.bits) := by
  have hnan : nan.toNat = 0x7f81 := rfl
  rw [IsNaN, narrow_nan h, x.signBit_eq, hnan]
  omega

theorem same_narrow_widen (b : UInt16) : Same (narrow (widen b)) b := by
  by_cases h : IsNaN b
  · exact .inr ⟨isNaN_narrow (isNaN_widen h), h⟩
  · exact .inl (narrow_widen (Nat.not_lt.mp h))

end Brain

/-! ## Lossless codecs -/

/-- Encoding a decoded 16-bit pattern gives it back, up to the payload of what is no
number. -/
structure Scalar.Lossless (α : Type) [Scalar α] : Prop where
  half (u : UInt16) : Binary16.Same (Scalar.toHalf (Scalar.half u : α)) u
  brain (u : UInt16) : Brain.Same (Scalar.toBrain (Scalar.brain u : α)) u

/-- Conversions between halves and binary32 values. -/
structure Binary16.Conversion where
  widen : UInt16 → Binary32
  narrow : Binary32 → UInt16

/-- The conversions that the engine runs with. -/
def Binary16.conversion : Conversion := ⟨Binary32.ofHalf, fun x => narrow x.bits⟩

/-- Binary32 values on a machine, with halves converted by `c`. -/
@[reducible] def Binary32.scalarWith (m : Machine) (c : Binary16.Conversion) : Scalar Binary32 :=
  { scalarOn m with half := c.widen, toHalf := c.narrow }

theorem Binary32.scalarWith_conversion (m : Machine) :
    scalarWith m Binary16.conversion = scalarOn m := rfl

theorem Binary16.Rounds.lossless {narrow : Binary32 → UInt16} (hn : Rounds narrow) (m : Machine) :
    @Scalar.Lossless Binary32 (Binary32.scalarWith m ⟨Binary32.ofHalf, narrow⟩) :=
  @Scalar.Lossless.mk _ (Binary32.scalarWith m ⟨Binary32.ofHalf, narrow⟩)
    (hn.narrow_exact exact_ofHalf) Brain.same_narrow_widen

namespace Cell

variable {α : Type}

/-- The same stored pattern, up to the payload of a 16-bit one that is no number. -/
inductive Same : Cell α → Cell α → Prop
  | refl (c : Cell α) : Same c c
  | f16 {u u' : UInt16} : Binary16.IsNaN u → Binary16.IsNaN u' → Same (.f16 u) (.f16 u')
  | bf16 {u u' : UInt16} : Brain.IsNaN u → Brain.IsNaN u' → Same (.bf16 u) (.bf16 u')

theorem Same.trans {a b c : Cell α} (h : a.Same b) (h' : b.Same c) : a.Same c := by
  cases h with
  | refl => exact h'
  | f16 hu hu' =>
    cases h' with
    | refl => exact .f16 hu hu'
    | f16 _ hu'' => exact .f16 hu hu''
  | bf16 hu hu' =>
    cases h' with
    | refl => exact .bf16 hu hu'
    | bf16 _ hu'' => exact .bf16 hu hu''

theorem same_f16 {u u' : UInt16} (h : Binary16.Same u u') : Same (α := α) (.f16 u) (.f16 u') := by
  rcases h with rfl | ⟨hu, hu'⟩
  · exact .refl _
  · exact .f16 hu hu'

theorem same_bf16 {u u' : UInt16} (h : Brain.Same u u') : Same (α := α) (.bf16 u) (.bf16 u') := by
  rcases h with rfl | ⟨hu, hu'⟩
  · exact .refl _
  · exact .bf16 hu hu'

end Cell

/-- The same value, or two that are no numbers. -/
def Binary32.Agrees (x y : Binary32) : Prop := x = y ∨ x.isNaN ∧ y.isNaN

namespace Binary32

open Float.Model

theorem Agrees.toFloat_eq {x y : Binary32} (h : x.Agrees y) : x.toFloat = y.toFloat := by
  rcases h with rfl | ⟨hx, hy⟩
  · rfl
  · have hmodel (z : Binary32) : z.toFloat =
        .ofModel (.pack (UnpackedFloat.unpack Format.binary32 z.bits.toBitVec)) := rfl
    rw [hmodel, hmodel, unpack_of_isNaN hx, unpack_of_isNaN hy]

/-- Factors that agree have the same products. -/
theorem Agrees.mul_eq {x y : Binary32} (h : x.Agrees y) (z : Binary32) : z * x = z * y :=
  congrArg (fun f => ofFloat (z.toFloat * f)) h.toFloat_eq

end Binary32

theorem Cell.Same.decode (m : Machine) (narrow : Binary32 → UInt16) {a b : Cell Binary32}
    (h : a.Same b) :
    letI := Binary32.scalarWith m ⟨Binary32.ofHalf, narrow⟩
    a.decode.Agrees b.decode := by
  cases h with
  | refl => exact .inl rfl
  | f16 hu hu' =>
    exact .inr ⟨Binary16.exact_ofHalf.nan hu, Binary16.exact_ofHalf.nan hu'⟩
  | bf16 hu hu' => exact .inr ⟨Brain.isNaN_widen hu, Brain.isNaN_widen hu'⟩

variable {α : Type} [Scalar α]

/-- A float element that is decoded and encoded again keeps its pattern. -/
theorem Cell.encode_decode (hα : Scalar.Lossless α) {e : Elements α}
    (hq : e.dtype.isQuantized = false) {i : Nat} {c : Cell α} (h : e.cell? i = some c) :
    ∃ c', Cell.encode? e.dtype c.decode = some c' ∧ c'.Same c := by
  cases e with
  | f32 data | f16 data | bf16 data =>
    obtain ⟨u, -, rfl⟩ := Option.map_eq_some_iff.mp h
    refine ⟨_, rfl, ?_⟩
    first
    | exact Cell.same_f16 (hα.half u)
    | exact Cell.same_bf16 (hα.brain u)
    | exact .refl _
  | q8 data scales | q4 data scales => cases hq

/-- Float elements are not grouped. -/
theorem DType.blocksFor_float {d : DType} (hq : d.isQuantized = false) (n : Nat) :
    d.blocksFor n * d.blockSize = n := by
  simp [blocksFor, blockSize, hq]

namespace Elements

/-- Values in a float encoding are stored one by one. -/
theorem encode_float {d : DType} (hq : d.isQuantized = false) {values : Array α}
    (hb : values.size < Word.bound) :
    ∃ e, encode d values = .ok e ∧
      ∀ i < values.size, e.cell? i = values[i]?.bind (Cell.encode? d) := by
  have hsize := (size_zeros (α := α) d values.size).trans (DType.blocksFor_float hq _)
  have hdtype := dtype_zeros (α := α) d values.size
  generalize hz : (zeros d values.size : Elements α) = z at hsize hdtype
  have hle : 0 + values.size ≤ z.size := by omega
  refine ⟨z.overwrite 0 values, ?_, fun i hi => ?_⟩
  · rw [encode, hz, write_eq_overwrite (hdtype ▸ hq) (hsize ▸ hb) hle]
  · rw [cell?_overwrite (hdtype ▸ hq) hle, if_pos (by omega), Nat.sub_zero, hdtype]

end Elements

end BlockTensor
