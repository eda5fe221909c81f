import Mathlib.Algebra.Order.Field.Rat
import Mathlib.Tactic.FieldSimp
import Mathlib.Tactic.Ring
import BlockTensor.Float.Binary32

/-!
# Integers in single precision

An integer of at most 24 bits is a binary32 value: `Binary32.value?_ofInt` says that
the pattern nearest to it stands for the integer itself.

* `round_eq`: such a significand is shifted up to 24 bits, and loses none;
  `roundWithAccuracy_shiftLeft` drops what is only zeros below 24 bits.
* `toNat_packComponents`: a pattern is its sign, its exponent and its mantissa, one after the
  other; `toNat_pack_round` is the pattern of a number that is rounded to itself, and
  `bits_ofInt` that of an integer.
-/

namespace BlockTensor.Binary32

open Float.Model UnpackedFloat

/-- The number that a pattern stands for, if it is neither infinite nor a NaN. -/
def value? (x : Binary32) : Option ℚ :=
  if x.magnitude < 0x7f800000 then some (x.signed x.significand * 2 ^ x.exponent / 2 ^ 149)
  else none

/-- The exponent that a number should have, by the place of its leading one. -/
theorem targetExponent_eq (x : Int) : Format.binary32.targetExponent x = max (x - 24) (-149) := rfl

/-- The fields of a pattern as a number. -/
theorem toNat_packComponents (s : Sign) (e : BitVec 8) (m : BitVec 23) :
    (packComponents Format.binary32 s e m).toNat =
      s.toBitVec.toNat * 2 ^ 31 + e.toNat * 2 ^ 23 + m.toNat := by
  have he := e.isLt
  have hm := m.isLt
  rw [packComponents, BitVec.toNat_append, BitVec.toNat_append]
  show (s.toBitVec.toNat <<< 8 ||| e.toNat) <<< 23 ||| m.toNat = _
  rw [← Nat.shiftLeft_add_eq_or_of_lt he, ← Nat.shiftLeft_add_eq_or_of_lt hm, Nat.shiftLeft_eq,
    Nat.shiftLeft_eq]
  omega

/-- The zeros below a number are shifted out. -/
theorem shiftRight_shiftLeft (m k : Nat) :
    ExtendedMantissa.ofMantissaAndAccuracy (m <<< k) .exact >>> k = ⟨m, false, false⟩ := by
  show Nat.repeat ExtendedMantissa.shiftRightOne k ⟨m <<< k, false, false⟩ = _
  induction k generalizing m with
  | zero => rfl
  | succ k ih =>
    rw [Nat.repeat, Nat.shiftLeft_succ_inside, ih]
    simp [ExtendedMantissa.shiftRightOne]

theorem log2_shiftLeft {m : Nat} (hm : m ≠ 0) (k : Nat) : (m <<< k).log2 = m.log2 + k := by
  induction k with
  | zero => rfl
  | succ k ih =>
    have hne : m <<< k ≠ 0 := by simpa [Nat.shiftLeft_eq] using hm
    rw [Nat.shiftLeft_succ, Nat.log2_two_mul hne, ih, Nat.add_assoc]

section

variable {m : Nat} (hm : m.log2 = 23)

include hm

/-- A significand of full width is what is left of it and zeros below it. -/
theorem shiftToTargetExponent_shiftLeft {k : Nat} {x : Int} (hx : -149 ≤ x + k) :
    shiftToTargetExponent Format.binary32 (m <<< k) x .exact = (⟨m, false, false⟩, x + k) := by
  have hlog : (m <<< k).log2 = 23 + k := by
    rw [log2_shiftLeft (by rintro rfl; cases hm), hm]
  have htarget : Format.binary32.targetExponent (totalExponent (m <<< k) x) = x + k := by
    rw [targetExponent_eq, totalExponent, hlog]
    omega
  have hshift : (x + k - x).toNat = k := by omega
  simp only [shiftToTargetExponent, htarget, shiftToExponent, hshift, shiftRight_shiftLeft]

/-- Rounding drops the zeros below a significand. -/
theorem roundWithAccuracy_shiftLeft {k : Nat} {x : Int} (hx : -149 ≤ x + k) (s : Sign)
    (hp : 0 < m) :
    roundWithAccuracy Format.binary32 s (m <<< k) x .exact = .finite s m (x + k) hp := by
  have hrounded : ExtendedMantissa.roundedMantissa ⟨m, false, false⟩ = m := rfl
  have hkeep : shiftToTargetExponent Format.binary32 m (x + k) .exact =
      (⟨m, false, false⟩, x + k) := by
    simpa using shiftToTargetExponent_shiftLeft hm (k := 0) (x := x + k) (by simpa using hx)
  unfold roundWithAccuracy
  rw [shiftToTargetExponent_shiftLeft hm hx]
  dsimp only
  rw [hrounded, hkeep]
  exact dif_neg (Nat.ne_of_gt hp)

variable {x : Int} (hx : -149 ≤ x)

include hx

/-- A significand of full width is rounded to itself. -/
theorem roundWithAccuracy_eq (s : Sign) (hp : 0 < m) :
    roundWithAccuracy Format.binary32 s m x .exact = .finite s m x hp := by
  have hrounded := roundWithAccuracy_shiftLeft hm (k := 0) (x := x) (by simpa using hx) s hp
  rwa [Nat.shiftLeft_zero, Int.natCast_zero, Int.add_zero] at hrounded

/-- It is packed without its leading one. -/
theorem pack_eq (hfinite : x < 105) (s : Sign) (hp : 0 < m) :
    UnpackedFloat.pack Format.binary32 (.finite s m x hp) =
      packComponents Format.binary32 s (BitVec.ofNat 8 (x + 150).toNat) (BitVec.ofNat 23 m) := by
  have hbiased : (x + (127 : Nat) + (23 : Nat)).toNat = (x + 150).toNat := by omega
  show (if 2 ^ 8 ≤ (x + (127 : Nat) + (23 : Nat)).toNat + 1 then _ else
    if m.log2 + 1 = 24 then packComponents Format.binary32 s
      (BitVec.ofNat 8 (x + (127 : Nat) + (23 : Nat)).toNat) (BitVec.ofNat 23 m) else _) = _
  rw [hbiased, if_neg (by omega), if_pos (by omega)]

end

section

variable {k : Nat} (h0 : 0 < k) (h : k < 2 ^ 24)

include h0 h

theorem log2_lt_width : k.log2 < 24 := (Nat.log2_lt (Nat.ne_of_gt h0)).mpr h

/-- Shifted to the full width, a significand begins with its leading one. -/
theorem shifted_bounds : 2 ^ 23 ≤ k <<< (23 - k.log2) ∧ k <<< (23 - k.log2) < 2 ^ 24 := by
  have hl := log2_lt_width h0 h
  have hlo : 2 ^ k.log2 ≤ k := Nat.log2_self_le (Nat.ne_of_gt h0)
  have hhi : k < 2 ^ (k.log2 + 1) := Nat.lt_log2_self
  rw [Nat.shiftLeft_eq]
  constructor
  · calc 2 ^ 23 = 2 ^ k.log2 * 2 ^ (23 - k.log2) := by
          rw [← Nat.pow_add]
          congr 1
          omega
      _ ≤ k * 2 ^ (23 - k.log2) := Nat.mul_le_mul_right _ hlo
  · calc k * 2 ^ (23 - k.log2) < 2 ^ (k.log2 + 1) * 2 ^ (23 - k.log2) :=
          Nat.mul_lt_mul_of_pos_right hhi (Nat.two_pow_pos _)
      _ = 2 ^ 24 := by
          rw [← Nat.pow_add]
          congr 1
          omega

theorem log2_shifted : (k <<< (23 - k.log2)).log2 = 23 := by
  have hbounds := shifted_bounds h0 h
  exact (Nat.log2_eq_iff (by omega)).mpr hbounds

section

variable {x : Int} (hx : -126 ≤ k.log2 + x)

include hx

/-- Rounding shifts a significand up to the full width and drops no bit of it. -/
theorem round_eq : ∃ hp, UnpackedFloat.round Format.binary32 .positive k x =
    .finite .positive (k <<< (23 - k.log2)) (k.log2 - 23 + x) hp := by
  have hl := log2_lt_width h0 h
  have hlog := log2_shifted h0 h
  have hpos : 0 < k <<< (23 - k.log2) := Nat.lt_of_lt_of_le (by decide) (shifted_bounds h0 h).1
  have htarget : Format.binary32.targetExponent (totalExponent k x) = k.log2 - 23 + x := by
    rw [targetExponent_eq, totalExponent]
    omega
  have hshift : (x - (k.log2 - 23 + x)).toNat = 23 - k.log2 := by omega
  have hexponent : x - ((23 - k.log2 : Nat) : Int) = k.log2 - 23 + x := by omega
  have hdecrease : decreaseExponent k x (k.log2 - 23 + x) =
      (k <<< (23 - k.log2), k.log2 - 23 + x) := by
    simp only [decreaseExponent, hshift, hexponent]
  refine ⟨hpos, ?_⟩
  unfold UnpackedFloat.round
  rw [htarget]
  dsimp only
  rw [hdecrease]
  exact roundWithAccuracy_eq hlog (by omega) .positive hpos

/-- The pattern of a rounded number. Its leading one adds to the exponent field. -/
theorem toNat_pack_round (hfinite : k.log2 + x < 128) :
    (UnpackedFloat.pack Format.binary32 (UnpackedFloat.round Format.binary32 .positive k x)).toNat =
      (k.log2 + x + 126).toNat * 2 ^ 23 + k <<< (23 - k.log2) := by
  have hl := log2_lt_width h0 h
  obtain ⟨hlo, hhi⟩ := shifted_bounds h0 h
  obtain ⟨hp, hround⟩ := round_eq h0 h hx
  have hsign : Sign.positive.toBitVec.toNat = 0 := rfl
  rw [hround, pack_eq (log2_shifted h0 h) (by omega) (by omega), toNat_packComponents,
    BitVec.toNat_ofNat, BitVec.toNat_ofNat, hsign]
  omega

end

theorem toBits_toFloat32 :
    k.toUInt64.toFloat32.toBits.toNat = (k.log2 + 126) * 2 ^ 23 + k <<< (23 - k.log2) := by
  have hl := log2_lt_width h0 h
  have hk : k.toUInt64.toNat = k := by
    show k % 2 ^ 64 = k
    omega
  have hunpacked : UnpackedFloat.ofUInt64 Format.binary32 k.toUInt64 =
      UnpackedFloat.round Format.binary32 .positive k 0 := by
    rw [UnpackedFloat.ofUInt64, UnpackedFloat.ofNat, UnpackedFloat.ofInt,
      UnpackedFloat.normalize, hk, Int.compare_eq_gt.mpr (Int.natCast_pos.mpr h0)]
    rfl
  have hbits : k.toUInt64.toFloat32.toBits = UInt32.ofBitVec (UnpackedFloat.pack Format.binary32
      (UnpackedFloat.ofUInt64 Format.binary32 k.toUInt64)) := rfl
  rw [hbits, hunpacked]
  show (UnpackedFloat.pack _ _).toNat = _
  rw [toNat_pack_round h0 h (by omega) (by omega)]
  omega

end

/-- The sign bit is added to a pattern that lacks it. -/
theorem toNat_xor_sign {u : UInt32} (h : u.toNat < 2 ^ 31) :
    (u ^^^ 0x80000000).toNat = 2 ^ 31 + u.toNat := by
  have hsign : (0x80000000 : UInt32).toNat = 2 ^ 31 := rfl
  have hlow := Nat.xor_mod_two_pow (a := u.toNat) (b := 2 ^ 31) (n := 31)
  have hhigh := Nat.xor_div_two_pow (a := u.toNat) (b := 2 ^ 31) (n := 31)
  rw [Nat.mod_self, Nat.xor_zero, Nat.mod_eq_of_lt h] at hlow
  rw [Nat.div_eq_of_lt h, Nat.div_self (by decide), Nat.zero_xor] at hhigh
  rw [UInt32.toNat_xor, hsign]
  omega

section

variable {n : Int} (h0 : n ≠ 0) (h : n.natAbs < 2 ^ 24)

include h0 h

/-- The pattern of an integer, with its sign. -/
theorem bits_ofInt : (ofInt n).bits.toNat = (if n < 0 then 2 ^ 31 else 0) +
    ((n.natAbs.log2 + 126) * 2 ^ 23 + n.natAbs <<< (23 - n.natAbs.log2)) := by
  have hk := Int.natAbs_pos.mpr h0
  have hl := log2_lt_width hk h
  have hbounds := shifted_bounds hk h
  have hbits : (ofFloat n.natAbs.toUInt64.toFloat32).bits.toNat = _ := toBits_toFloat32 hk h
  unfold ofInt
  dsimp only
  split
  · rw [toNat_xor_sign (by omega), hbits]
  · rw [hbits, Nat.zero_add]

theorem isNegative_ofInt : (ofInt n).isNegative = decide (n < 0) := by
  have hk := Int.natAbs_pos.mpr h0
  have hl := log2_lt_width hk h
  have hbounds := shifted_bounds hk h
  rw [isNegative, bits_ofInt h0 h, decide_eq_decide]
  split <;> omega

theorem magnitude_ofInt : (ofInt n).magnitude =
    (n.natAbs.log2 + 126) * 2 ^ 23 + n.natAbs <<< (23 - n.natAbs.log2) := by
  have hk := Int.natAbs_pos.mpr h0
  have hl := log2_lt_width hk h
  have hbounds := shifted_bounds hk h
  rw [magnitude, bits_ofInt h0 h]
  split <;> omega

end

/-- An integer of at most 24 bits is rounded to itself. -/
theorem value?_ofInt {n : Int} (h : n.natAbs < 2 ^ 24) : (ofInt n).value? = some (n : ℚ) := by
  rcases eq_or_ne n 0 with rfl | h0
  · rw [show ofInt 0 = ⟨0⟩ from rfl]
    simp [value?, signed, significand, magnitude, exponent]
  have hk := Int.natAbs_pos.mpr h0
  have hl := log2_lt_width hk h
  have hbounds := shifted_bounds hk h
  have hmagnitude := magnitude_ofInt h0 h
  have hsignificand : (ofInt n).significand = n.natAbs <<< (23 - n.natAbs.log2) := by
    rw [significand, if_neg (by omega)]
    omega
  have hexponent : (ofInt n).exponent = n.natAbs.log2 + 126 := by
    rw [exponent, Nat.shiftRight_eq_div_pow]
    omega
  have hsigned : (ofInt n).signed (ofInt n).significand = n * 2 ^ (23 - n.natAbs.log2) := by
    simp only [signed, isNegative_ofInt h0 h, hsignificand, Nat.shiftLeft_eq, decide_eq_true_eq]
    rw [Int.natCast_mul, Nat.cast_pow, Nat.cast_ofNat]
    split
    · rw [Int.ofNat_natAbs_of_nonpos (by omega), Int.neg_mul, Int.neg_neg]
    · rw [Int.natAbs_of_nonneg (by omega)]
  have hpow : (2 : ℚ) ^ (23 - n.natAbs.log2) * 2 ^ (n.natAbs.log2 + 126) = 2 ^ 149 := by
    rw [← pow_add]
    congr 1
    omega
  rw [value?, if_pos (by omega), hsigned, hexponent, Int.cast_mul, Int.cast_pow, Int.cast_ofNat,
    mul_assoc, hpow, mul_div_cancel_right₀ _ (by positivity)]

end BlockTensor.Binary32
