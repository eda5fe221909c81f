import BlockTensor.Proofs.SingleInteger

/-!
# Zero in single precision

What a zero among the values of a block can do to the block, whatever the others are:
infinities and what is no number included.

* `nearest_zero_mul`: a product with zero is a zero or no number, and both round to the
  integer zero.
* `not_abs_lt_zero`: no magnitude is below zero. A magnitude has the sign bit clear, unpacking
  it and packing it again keeps the bit clear (`unsigned_unpack`, `pack_lt`), and what has it
  clear is compared as a number without a sign.
-/

namespace BlockTensor.Binary32

open Float.Model UnpackedFloat

theorem unpacked_zero : (0 : Binary32).unpacked = .zero .positive := rfl

theorem mul_eq (x y : Binary32) : x * y = ⟨.ofBitVec (UnpackedFloat.pack Format.binary32
    (UnpackedFloat.mul Format.binary32 x.unpacked y.unpacked))⟩ := rfl

theorem lt_eq (x y : Binary32) : Scalar.lt x y = x.unpacked.lt y.unpacked := by
  have hlt : Scalar.lt x y = decide (x.toFloat < y.toFloat) := rfl
  have hmodel : x.toFloat < y.toFloat ↔
      decide (x.toFloat.toModel < y.toFloat.toModel) = true := Iff.rfl
  rw [hlt, Bool.eq_iff_iff, decide_eq_true_eq, hmodel, decide_eq_true_eq]
  rfl

/-! ## Products -/

/-- Whatever is multiplied by zero is rounded to the integer zero. -/
theorem nearest_zero_mul (x : Binary32) : Scalar.nearest (0 * x) = 0 := by
  rw [mul_eq, unpacked_zero]
  cases x.unpacked with
  | infinity s => rfl
  | notANumber => rfl
  | zero s => cases s <;> rfl
  | finite s m e h =>
    -- the product does not depend on the significand
    show Scalar.nearest (⟨.ofBitVec (UnpackedFloat.pack Format.binary32
      (.zero (.positive * s)))⟩ : Binary32) = 0
    cases s <;> rfl

/-! ## Magnitudes -/

/-- A number that has no sign, or the positive one. -/
def Unsigned : UnpackedFloat → Prop
  | .notANumber => True
  | .infinity s | .zero s | .finite s _ _ _ => s = .positive

theorem unpackSign_eq_zero_iff {b : BitVec 32} :
    @unpackSign Format.binary32 b = 0#1 ↔ b.toNat < 2 ^ 31 := by
  have hb := b.isLt
  have hsign : (@unpackSign Format.binary32 b).toNat = b.toNat >>> 31 % 2 ^ 1 := rfl
  rw [← BitVec.toNat_inj, hsign, Nat.shiftRight_eq_div_pow]
  show _ = 0 ↔ _
  omega

/-- What is unpacked from a pattern with a clear sign bit. -/
theorem unsigned_unpack {b : BitVec 32} (h : b.toNat < 2 ^ 31) :
    Unsigned (UnpackedFloat.unpack Format.binary32 b) := by
  have hsign : Sign.ofBitVec (@unpackSign Format.binary32 b) = .positive := by
    rw [unpackSign_eq_zero_iff.mpr h]
    rfl
  -- a pattern is read by its exponent, and then by its significand
  unfold UnpackedFloat.unpack
  refine iteInduction (motive := Unsigned) (fun _ => ?_) fun _ => ?_
  · exact iteInduction (motive := Unsigned) (fun _ => hsign) fun _ => trivial
  · refine iteInduction (motive := Unsigned) (fun _ => ?_) fun _ => hsign
    by_cases hzero : @unpackMantissa Format.binary32 b = 0#_
    · exact dif_pos hzero ▸ hsign
    · exact dif_neg hzero ▸ hsign

/-- Such a number is packed into a pattern with a clear sign bit. -/
theorem pack_lt {u : UnpackedFloat} (h : Unsigned u) :
    (UnpackedFloat.pack Format.binary32 u).toNat < 2 ^ 31 := by
  have hcomponents (e : BitVec 8) (m : BitVec 23) :
      (packComponents Format.binary32 .positive e m).toNat < 2 ^ 31 := by
    have hsign : Sign.positive.toBitVec.toNat = 0 := rfl
    have he := e.isLt
    have hm := m.isLt
    rw [toNat_packComponents, hsign]
    omega
  cases u with
  | notANumber => decide
  | infinity s | zero s =>
    obtain rfl : s = .positive := h
    decide
  | finite s m e hm =>
    obtain rfl : s = .positive := h
    unfold UnpackedFloat.pack
    dsimp only
    split
    · decide
    · split <;> exact hcomponents ..

theorem unsigned_abs (x : Binary32) : Unsigned (Scalar.abs x).unpacked := by
  have habs : (Scalar.abs x).bits.toNat < 2 ^ 31 := by
    show (x.bits &&& 0x7fffffff).toNat < 2 ^ 31
    have hmask : (0x7fffffff : UInt32).toNat = 2 ^ 31 - 1 := rfl
    rw [UInt32.toNat_and, hmask, Nat.and_two_pow_sub_one_eq_mod]
    omega
  exact unsigned_unpack (pack_lt (unsigned_unpack habs))

/-- No magnitude is less than zero. -/
theorem not_abs_lt_zero (x : Binary32) : Scalar.lt (Scalar.abs x) 0 = false := by
  have h := unsigned_abs x
  rw [lt_eq, unpacked_zero]
  revert h
  cases (Scalar.abs x).unpacked with
  | notANumber => exact fun _ => rfl
  | infinity s | zero s | finite s m e hm =>
    rintro rfl
    rfl

end BlockTensor.Binary32
