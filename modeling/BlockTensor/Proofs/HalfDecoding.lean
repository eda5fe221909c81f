import BlockTensor.Proofs.HalfRounding
import BlockTensor.Proofs.SingleZero

/-!
# Decoding halves

`Binary32.ofHalf` decodes a half by a product or a difference of binary32 values. Both are
exact: the product scales a significand of 11 bits by a power of two, and the difference
leaves the fraction of a subnormal half, which has 10 bits (`Binary16.exact_ofHalf`).

* `unpacked_normal`, `unpacked_of_isNaN`: the numbers that the operands stand for.
* `Binary16.wideMagnitude` is what the magnitude bits of a half become: `toNat_normal`,
  `toNat_subnormal` for the two ways to decode it, `toNat_ofHalf` for the pattern.
-/

namespace BlockTensor

open Float.Model UnpackedFloat

/-! ## Unpacking -/

namespace Binary32

theorem toNat_unpackExponent (b : BitVec 32) :
    (@unpackExponent Format.binary32 b).toNat = b.toNat / 2 ^ 23 % 2 ^ 8 := by
  rw [unpackExponent, BitVec.toNat_cast, BitVec.extractLsb_toNat, Nat.shiftRight_eq_div_pow]
  rfl

theorem toNat_unpackMantissa (b : BitVec 32) :
    (@unpackMantissa Format.binary32 b).toNat = b.toNat % 2 ^ 23 := by
  rw [unpackMantissa, BitVec.toNat_cast, BitVec.extractLsb_toNat, Nat.shiftRight_zero]
  rfl

/-- Arithmetic sees one value in all patterns that are no numbers. -/
theorem unpack_of_isNaN {x : Binary32} (h : x.isNaN) :
    UnpackedFloat.unpack Format.binary32 x.bits.toBitVec = .notANumber := by
  rw [isNaN, decide_eq_true_eq, magnitude] at h
  have hlt := x.bits.toNat_lt
  have hexponent :
      @UnpackedFloat.unpackExponent Format.binary32 x.bits.toBitVec = -1#_ := by
    apply BitVec.eq_of_toNat_eq
    rw [toNat_unpackExponent]
    show x.bits.toNat / 2 ^ 23 % 2 ^ 8 = 255
    omega
  have hmantissa :
      @UnpackedFloat.unpackMantissa Format.binary32 x.bits.toBitVec ≠ 0#_ := by
    intro hzero
    have hnat := congrArg BitVec.toNat hzero
    rw [toNat_unpackMantissa] at hnat
    have hnat : x.bits.toNat % 2 ^ 23 = 0 := hnat
    omega
  unfold UnpackedFloat.unpack
  dsimp only
  rw [if_pos hexponent, if_neg hmantissa]

theorem unpacked_of_isNaN {x : Binary32} (h : x.isNaN) : x.unpacked = .notANumber := by
  rw [unpacked, unpack_of_isNaN h]
  rfl

section

variable {b : BitVec 32} {e m : Nat} (he : 0 < e) (he' : e < 255) (hm : m < 2 ^ 23)
  (hb : b.toNat = e * 2 ^ 23 + m)

include he he' hm hb

/-- A positive normal number is its fraction below a leading one. -/
theorem unpack_normal : ∃ hp, UnpackedFloat.unpack Format.binary32 b =
    .finite .positive (2 ^ 23 + m) (e - 150) hp := by
  have hexponent : (@unpackExponent Format.binary32 b).toNat = e := by
    rw [toNat_unpackExponent, hb]
    omega
  have hmantissa : (@unpackMantissa Format.binary32 b).toNat = m := by
    rw [toNat_unpackMantissa, hb]
    omega
  have hsign : Sign.ofBitVec (@unpackSign Format.binary32 b) = .positive := by
    rw [unpackSign_eq_zero_iff.mpr (by omega)]
    rfl
  have hfinite : @unpackExponent Format.binary32 b ≠ -1#_ := fun h => by
    have h255 : (@unpackExponent Format.binary32 b).toNat = 255 := congrArg BitVec.toNat h
    omega
  have hnormal : @unpackExponent Format.binary32 b ≠ 0#_ := fun h => by
    have h0 : (@unpackExponent Format.binary32 b).toNat = 0 := congrArg BitVec.toNat h
    omega
  have hsignificand : (1#1 ++ @unpackMantissa Format.binary32 b).toNat = 2 ^ 23 + m := by
    rw [BitVec.toNat_append, hmantissa]
    exact (Nat.shiftLeft_add_eq_or_of_lt hm 1).symm
  refine ⟨by omega, ?_⟩
  unfold UnpackedFloat.unpack
  dsimp only
  rw [if_neg hfinite, if_neg hnormal, finite.injEq, hexponent]
  exact ⟨hsign, hsignificand, rfl⟩

end

/-- Arithmetic reads a positive normal number as it is. -/
theorem unpacked_normal {x : Binary32} {e m : Nat} (he : 0 < e) (he' : e < 255)
    (hm : m < 2 ^ 23) (hx : x.bits.toNat = e * 2 ^ 23 + m) :
    ∃ hp, x.unpacked = .finite .positive (2 ^ 23 + m) (e - 150) hp := by
  obtain ⟨hp, hunpack⟩ := unpack_normal (b := x.bits.toBitVec) he he' hm hx
  have hlog : (2 ^ 23 + m).log2 = 23 := (Nat.log2_eq_iff (by omega)).mpr (by omega)
  have hsign : Sign.positive.toBitVec.toNat = 0 := rfl
  rw [unpacked, hunpack, pack_eq hlog (by omega) (by omega)]
  refine unpack_normal he he' hm ?_
  rw [toNat_packComponents, BitVec.toNat_ofNat, BitVec.toNat_ofNat, hsign]
  omega

end Binary32

namespace Binary16

open Binary32

/-! ## The two ways to decode -/

/-- The magnitude bits of the value of a half with magnitude bits `p`. -/
def wideMagnitude (p : Nat) : Nat :=
  if p = 0 then 0
  else if p < 0x400 then (p.log2 + 102) * 2 ^ 23 + p <<< (23 - p.log2)
  else if p < 0x7c00 then p * 2 ^ 13 + 0x38000000
  else if p = 0x7c00 then 0x7f800000
  else 0x7fc00000

theorem toNat_toBits_mul (u v : UInt32) :
    (Float32.ofBits u * Float32.ofBits v).toBits.toNat =
      (UnpackedFloat.pack Format.binary32
        (UnpackedFloat.mul Format.binary32 (mk u).unpacked (mk v).unpacked)).toNat := rfl

theorem toNat_toBits_sub (u v : UInt32) :
    (Float32.ofBits u - Float32.ofBits v).toBits.toNat =
      (UnpackedFloat.pack Format.binary32
        (UnpackedFloat.sub Format.binary32 (mk u).unpacked (mk v).unpacked)).toNat := rfl

/-- The product with a power of two keeps the significand. -/
theorem mul_two_pow {m : Nat} (hm : m.log2 = 23) {x y : Int} (hxy : -149 ≤ x + y + 23) (hp hp') :
    UnpackedFloat.mul Format.binary32 (.finite .positive m x hp)
      (.finite .positive (2 ^ 23 + 0) y hp') = .finite .positive m (x + y + 23) hp := by
  have hzeros : m * (2 ^ 23 + 0) = m <<< 23 := by rw [Nat.shiftLeft_eq, Nat.add_zero]
  show roundWithAccuracy Format.binary32 .positive (m * (2 ^ 23 + 0)) (x + y) .exact = _
  rw [hzeros]
  exact roundWithAccuracy_shiftLeft hm hxy .positive hp

/-- The difference of numbers under one exponent is that of their significands. -/
theorem sub_of_exponent {m n : Nat} {x : Int} (hp hp') :
    UnpackedFloat.sub Format.binary32 (.finite .positive m x hp) (.finite .positive n x hp') =
      UnpackedFloat.normalize Format.binary32 ((m : Int) - n) x .positive := by
  have hkeep (k : Nat) : decreaseExponent k x (min x x) = (k, x) := by
    simp [decreaseExponent]
  show UnpackedFloat.normalize Format.binary32 ((decreaseExponent m x (min x x)).1 -
    (decreaseExponent n x (min x x)).1) (min x x) .positive = _
  rw [hkeep, hkeep, min_self]

/-- The fields of a half that is no subnormal one, under an exponent that is too large by
112, and scaled back. -/
theorem toNat_normal {u : UInt32} {p : Nat} (hp : 0x400 ≤ p) (hp' : p < 0x8000)
    (hu : u.toNat = p * 2 ^ 13 + 0x70000000) :
    (Float32.ofBits u * Float32.ofBits 0x07800000).toBits.toNat = wideMagnitude p := by
  rw [wideMagnitude, if_neg (by omega), if_neg (by omega), toNat_toBits_mul]
  rcases Nat.lt_trichotomy p 0x7c00 with hlt | rfl | hgt
  · obtain ⟨hscale, hpower⟩ := unpacked_normal (x := ⟨0x07800000⟩) (e := 15) (m := 0)
      (by decide) (by decide) (by decide) (by decide)
    obtain ⟨hfull, hnormal⟩ := unpacked_normal (x := ⟨u⟩) (e := p / 0x400 + 224)
      (m := p % 0x400 * 2 ^ 13) (by omega) (by omega) (by omega) (by rw [hu]; omega)
    have hlog : (2 ^ 23 + p % 0x400 * 2 ^ 13).log2 = 23 :=
      (Nat.log2_eq_iff (by omega)).mpr (by omega)
    have hexponent : (((p / 0x400 + 224 : Nat) : Int) - 150 + ((15 : Nat) - 150) + 23 + 150).toNat =
        p / 0x400 + 112 := by omega
    have hpositive : Sign.positive.toBitVec.toNat = 0 := rfl
    rw [if_pos hlt, hpower, hnormal, mul_two_pow hlog (by omega),
      pack_eq hlog (by omega) (by omega), toNat_packComponents, BitVec.toNat_ofNat,
      BitVec.toNat_ofNat, hpositive, hexponent]
    omega
  · obtain rfl : u = 0x7f800000 := UInt32.toNat_inj.mp hu
    decide
  · have hnan : (⟨u⟩ : Binary32).isNaN := by
      rw [Binary32.isNaN, decide_eq_true_eq, Binary32.magnitude, hu]
      omega
    rw [if_neg (by omega), if_neg (by omega), unpacked_of_isNaN hnan]
    rfl

/-- The fraction of a subnormal half as that of a number from `0.5` on, less `0.5`. -/
theorem toNat_subnormal {u : UInt32} {p : Nat} (hp : p < 0x400) (hu : u.toNat = 126 * 2 ^ 23 + p) :
    (Float32.ofBits u - Float32.ofBits 0x3f000000).toBits.toNat = wideMagnitude p := by
  obtain ⟨hhalf, hunpacked⟩ := unpacked_normal (x := ⟨0x3f000000⟩) (e := 126) (m := 0)
    (by decide) (by decide) (by decide) (by decide)
  obtain ⟨hfull, hfraction⟩ := unpacked_normal (x := ⟨u⟩) (e := 126) (m := p)
    (by decide) (by decide) (by omega) hu
  have hleft : ((2 ^ 23 + p : Nat) : Int) - ((2 ^ 23 + 0 : Nat) : Int) = p := by omega
  rw [toNat_toBits_sub, hunpacked, hfraction, sub_of_exponent, hleft, wideMagnitude]
  by_cases hzero : p = 0
  · subst hzero
    rfl
  · have hpos : 0 < p := Nat.pos_of_ne_zero hzero
    have hlog : p.log2 < 10 := (Nat.log2_lt hzero).mpr hp
    rw [if_neg hzero, if_pos hp, UnpackedFloat.normalize,
      Int.compare_eq_gt.mpr (Int.natCast_pos.mpr hpos)]
    show (UnpackedFloat.pack _ (UnpackedFloat.round _ .positive p (-24))).toNat = _
    rw [toNat_pack_round hpos (by omega) (by omega) (by omega)]
    omega

/-! ## The pattern -/

theorem wideMagnitude_lt {p : Nat} (hp : p < 0x8000) : wideMagnitude p < 2 ^ 31 := by
  unfold wideMagnitude
  split
  · decide
  rename_i hzero
  split
  · have hpos : 0 < p := Nat.pos_of_ne_zero hzero
    have hlog : p.log2 < 10 := (Nat.log2_lt hzero).mpr ‹_›
    have hbounds := shifted_bounds hpos (by omega)
    omega
  · split
    · omega
    · split <;> decide

/-- The sign of a half and its magnitude bits, as they are looked at. -/
theorem toNat_ofHalf (h : UInt16) : (ofHalf h).bits.toNat =
    h.toNat / 0x8000 * 2 ^ 31 + wideMagnitude (magnitude h) := by
  have hlt := h.toNat_lt
  have hmagnitude : magnitude h = h.toNat % 0x8000 := rfl
  have hw : (h.toUInt32 <<< 16).toNat = h.toNat * 2 ^ 16 := by
    rw [UInt32.toNat_shiftLeft, UInt16.toNat_toUInt32]
    show h.toNat <<< 16 % 2 ^ 32 = _
    rw [Nat.shiftLeft_eq]
    omega
  have htwice : (h.toUInt32 <<< 16 + h.toUInt32 <<< 16).toNat = magnitude h * 2 ^ 17 := by
    rw [UInt32.toNat_add, hw]
    omega
  have hsign : (h.toUInt32 <<< 16 &&& 0x80000000).toNat = (h.toNat / 0x8000) <<< 31 := by
    rw [UInt32.toNat_and, hw]
    show h.toNat * 2 ^ 16 &&& 2 ^ 31 = _
    have hbit : h.toNat * 2 ^ 16 / 2 ^ 31 = h.toNat / 0x8000 := by omega
    rw [Nat.and_two_pow, Nat.testBit_eq_decide_div_mod_eq, hbit, Nat.shiftLeft_eq]
    have hsign : h.toNat / 0x8000 = 0 ∨ h.toNat / 0x8000 = 1 := by omega
    rcases hsign with hbit | hbit <;> rw [hbit] <;> rfl
  have hbits (m : UInt32) (hm : m.toNat = wideMagnitude (magnitude h)) :
      (h.toUInt32 <<< 16 &&& 0x80000000 ||| m).toNat =
        h.toNat / 0x8000 * 2 ^ 31 + wideMagnitude (magnitude h) := by
    rw [UInt32.toNat_or, hsign, hm, ← Nat.shiftLeft_add_eq_or_of_lt (wideMagnitude_lt (by omega)),
      Nat.shiftLeft_eq]
  have hcutoff : h.toUInt32 <<< 16 + h.toUInt32 <<< 16 < 0x08000000 ↔ magnitude h < 0x400 := by
    rw [UInt32.lt_iff_toNat_lt, htwice]
    show _ < 0x08000000 ↔ _
    omega
  simp only [ofHalf]
  refine hbits _ ?_
  split
  · rename_i hsub
    have hp := hcutoff.mp hsub
    refine toNat_subnormal hp ?_
    rw [UInt32.toNat_or, UInt32.toNat_shiftRight, htwice, Nat.or_comm]
    show 126 <<< 23 ||| (magnitude h * 2 ^ 17) >>> 17 = _
    rw [Nat.shiftRight_eq_div_pow, Nat.mul_div_cancel _ (by decide),
      ← Nat.shiftLeft_add_eq_or_of_lt (by omega), Nat.shiftLeft_eq]
  · rename_i hsub
    rw [hcutoff] at hsub
    refine toNat_normal (by omega) (by omega) ?_
    rw [UInt32.toNat_add, UInt32.toNat_shiftRight, htwice]
    show ((magnitude h * 2 ^ 17) >>> 4 + 0x70000000) % 2 ^ 32 = _
    rw [Nat.shiftRight_eq_div_pow]
    omega

theorem magnitude_ofHalf (h : UInt16) :
    (ofHalf h).magnitude = wideMagnitude (magnitude h) := by
  have hlt := wideMagnitude_lt (p := magnitude h) (Nat.mod_lt _ (by decide))
  rw [Binary32.magnitude, toNat_ofHalf]
  omega

theorem isNegative_ofHalf (h : UInt16) : (ofHalf h).isNegative ↔ 0x8000 ≤ h.toNat := by
  have hlt := wideMagnitude_lt (p := magnitude h) (Nat.mod_lt _ (by decide))
  rw [isNegative, decide_eq_true_eq, toNat_ofHalf]
  omega

/-- Both ways to decode keep the value. -/
theorem wideUnits_wideMagnitude {p : Nat} (hp : p < 0x7c00) :
    wideMagnitude p < 0x7f800000 ∧ wideUnits (wideMagnitude p) = units p * 2 ^ 125 := by
  rw [wideMagnitude]
  by_cases hzero : p = 0
  · subst hzero
    decide
  rw [if_neg hzero]
  rcases Nat.lt_or_ge p 0x400 with hsub | hnormal
  · have hpos : 0 < p := Nat.pos_of_ne_zero hzero
    have hlog : p.log2 < 10 := (Nat.log2_lt hzero).mpr hsub
    have hbounds := shifted_bounds hpos (by omega)
    rw [if_pos hsub, units_of_lt hsub]
    refine ⟨by omega, ?_⟩
    -- the leading one of the fraction has become the implicit one
    have hm : 0x800000 + ((p.log2 + 102) * 2 ^ 23 + p <<< (23 - p.log2)) % 0x800000 =
        p <<< (23 - p.log2) := by omega
    have he : ((p.log2 + 102) * 2 ^ 23 + p <<< (23 - p.log2)) / 0x800000 - 1 = p.log2 + 102 := by
      omega
    rw [wideUnits, if_neg (by omega), hm, he, Nat.shiftLeft_eq, Nat.mul_assoc, ← Nat.pow_add,
      show 23 - p.log2 + (p.log2 + 102) = 125 by omega]
  · rw [if_neg (by omega), if_pos hp]
    refine ⟨by omega, ?_⟩
    have hm : 0x800000 + (p * 2 ^ 13 + 0x38000000) % 0x800000 = (0x400 + p % 0x400) * 2 ^ 13 := by
      omega
    have he : (p * 2 ^ 13 + 0x38000000) / 0x800000 - 1 = p / 0x400 - 1 + 112 := by omega
    rw [wideUnits, if_neg (by omega), hm, he, units_of_le hnormal, units_move]

/-- Every half is decoded to its value. -/
theorem exact_ofHalf : Exact ofHalf where
  nan {h} hnan := by
    rw [IsNaN] at hnan
    rw [Binary32.isNaN, decide_eq_true_eq, magnitude_ofHalf, wideMagnitude, if_neg (by omega),
      if_neg (by omega), if_neg (by omega), if_neg (by omega)]
    decide
  sign {h} _ := isNegative_ofHalf h
  infinity {h} hinfinity := by
    rw [magnitude_ofHalf, hinfinity]
    rfl
  units {h} hfinite := by
    rw [units_eq_wideUnits, magnitude_ofHalf]
    exact wideUnits_wideMagnitude hfinite

end Binary16

end BlockTensor
