import Mathlib.Data.Nat.Bitwise
import BlockTensor.Float.Binary32

/-!
# Rounding to brain floats

`NearestEven n k q` says that `q` units of `2 ^ k` are as near to `n` as any number of
them is, and that `q` is even if another number is as near. There is one such `q`, and it
is what `roundEven` gives (`nearestEven_iff`).

A brain float is narrowed by adding a little less than half a unit to the magnitude and
dropping sixteen bits, which is `roundEven` (`roundEven_sixteen`). So the carry out of the
fraction ends up in the exponent, as it should (`Brain.narrow_rounds`).
-/

namespace BlockTensor

/-! ## The nearest multiple of a power of two -/

/-- How far `q` units of `2 ^ k` are from `n`. -/
def gap (n k q : Nat) : Nat := (n - q * 2 ^ k) + (q * 2 ^ k - n)

/-- `q` units of `2 ^ k` are nearest to `n`; of two nearest numbers it is the even one. -/
structure NearestEven (n k q : Nat) : Prop where
  nearest (p : Nat) : gap n k q ≤ gap n k p
  even {p : Nat} : p ≠ q → gap n k p = gap n k q → q % 2 = 0

theorem NearestEven.unique {n k p q : Nat} (hp : NearestEven n k p) (hq : NearestEven n k q) :
    p = q := by
  wlog hle : p ≤ q generalizing p q
  · exact (this hq hp (Nat.le_of_not_le hle)).symm
  by_contra hne
  have hgap : gap n k p = gap n k q := Nat.le_antisymm (hp.nearest q) (hq.nearest p)
  have hpe := hp.even (Ne.symm hne) hgap.symm
  have hqe := hq.even hne hgap
  -- both are even, so a number between them is nearer than they are
  have hfar : (p + 2) * 2 ^ k ≤ q * 2 ^ k := Nat.mul_le_mul_right _ (by omega)
  have hmid := hp.nearest (p + 1)
  have hunit : 0 < 2 ^ k := Nat.two_pow_pos k
  simp only [gap, Nat.add_mul] at *
  omega

/-- A multiple of a unit is one of the two around `n` or a unit away from them. -/
theorem place_of_multiple (n p u : Nat) :
    p = n / u ∨ p = n / u + 1 ∨ (p < n / u ∧ p * u + u ≤ n / u * u) ∨
      (n / u + 1 < p ∧ n / u * u + 2 * u ≤ p * u) := by
  rcases Nat.lt_trichotomy p (n / u) with h | h | h
  · exact .inr (.inr (.inl ⟨h, Nat.succ_mul p u ▸ Nat.mul_le_mul_right u h⟩))
  · exact .inl h
  rcases Nat.eq_or_lt_of_le h with h' | h'
  · exact .inr (.inl h'.symm)
  · exact .inr (.inr (.inr ⟨h', Nat.add_mul (n / u) 2 u ▸ Nat.mul_le_mul_right u h'⟩))

theorem roundEven_nearestEven (n k : Nat) : NearestEven n k (roundEven n k) := by
  have hn := Nat.div_add_mod' n (2 ^ k)
  have hr := Nat.mod_lt n (Nat.two_pow_pos k)
  simp only [roundEven, Nat.one_shiftLeft]
  split
  · refine ⟨fun p => ?_, fun {p} hne hgap => ?_⟩
    · rcases place_of_multiple n p (2 ^ k) with rfl | rfl | ⟨-, hle⟩ | ⟨-, hle⟩ <;>
        simp only [gap, Nat.add_mul] <;> omega
    · rcases place_of_multiple n p (2 ^ k) with rfl | rfl | ⟨-, hle⟩ | ⟨-, hle⟩ <;>
        simp only [gap, Nat.add_mul] at hgap <;> omega
  · refine ⟨fun p => ?_, fun {p} hne hgap => ?_⟩
    · rcases place_of_multiple n p (2 ^ k) with rfl | rfl | ⟨-, hle⟩ | ⟨-, hle⟩ <;>
        simp only [gap, Nat.add_mul] <;> omega
    · rcases place_of_multiple n p (2 ^ k) with rfl | rfl | ⟨-, hle⟩ | ⟨-, hle⟩ <;>
        simp only [gap, Nat.add_mul] at hgap <;> omega

/-- There is one nearest multiple, with the even one of two. -/
theorem nearestEven_iff {n k q : Nat} : NearestEven n k q ↔ q = roundEven n k :=
  ⟨fun h => h.unique (roundEven_nearestEven n k), fun h => h ▸ roundEven_nearestEven n k⟩

/-- Rounding off sixteen bits, without a case distinction. -/
theorem roundEven_sixteen (n : Nat) :
    roundEven n 16 = (n + 0x7fff + n / 0x10000 % 2) / 0x10000 := by
  simp only [roundEven, Nat.one_shiftLeft]
  split <;> omega

/-! ## Fields of bits -/

/-- The `w` bits from bit `k` on. -/
theorem and_field (a w k : Nat) :
    a &&& ((2 ^ w - 1) <<< k) = a / 2 ^ k % 2 ^ w * 2 ^ k := by
  rw [← Nat.shiftLeft_eq]
  apply Nat.eq_of_testBit_eq
  intro i
  simp only [Nat.testBit_and, Nat.testBit_shiftLeft, Nat.testBit_two_pow_sub_one,
    Nat.testBit_mod_two_pow, Nat.testBit_div_two_pow]
  by_cases hi : k ≤ i
  · simp [hi, Bool.and_comm]
  · simp [hi]

namespace Binary32

/-- The sign of `x` in a 16-bit pattern. -/
def signBit (x : Binary32) : Nat := if x.isNegative then 0x8000 else 0

theorem signBit_eq (x : Binary32) : x.signBit = x.bits.toNat / 0x80000000 * 0x8000 := by
  have hlt := x.bits.toNat_lt
  simp only [signBit, isNegative, decide_eq_true_eq]
  split <;> omega

end Binary32

namespace Brain

variable (x : Binary32)

/-- The sum that is rounded off does not overflow. -/
theorem toNat_biased :
    (biased x.bits).toNat = x.magnitude + 0x7fff + x.bits.toNat / 0x10000 % 2 := by
  have hmagnitude : (x.bits &&& 0x7fffffff).toNat = x.magnitude :=
    (UInt32.toNat_and ..).trans (Nat.and_two_pow_sub_one_eq_mod _ 31)
  have hkept : ((x.bits >>> 16) &&& 1).toNat = x.bits.toNat / 0x10000 % 2 := by
    rw [UInt32.toNat_and, UInt32.toNat_shiftRight]
    exact (Nat.and_two_pow_sub_one_eq_mod _ 1).trans (by rw [Nat.shiftRight_eq_div_pow]; rfl)
  have hlt : x.magnitude < 0x80000000 := Nat.mod_lt _ (by decide)
  have hhalf : (0x7fff : UInt32).toNat = 0x7fff := rfl
  rw [biased, UInt32.toNat_add, UInt32.toNat_add, hmagnitude, hkept, hhalf]
  omega

/-- What is left of the sum is the rounded magnitude. -/
theorem toNat_magnitude :
    (biased x.bits >>> 16).toUInt16.toNat = roundEven x.magnitude 16 := by
  have hlt : x.magnitude < 0x80000000 := Nat.mod_lt _ (by decide)
  have hkept : x.magnitude / 0x10000 % 2 = x.bits.toNat / 0x10000 % 2 := by
    rw [Binary32.magnitude]
    omega
  have hshift : (16 : UInt32).toNat % 32 = 16 := rfl
  rw [UInt32.toNat_toUInt16, UInt32.toNat_shiftRight, hshift, Nat.shiftRight_eq_div_pow,
    toNat_biased, roundEven_sixteen, hkept]
  omega

theorem toNat_upper : (x.bits >>> 16).toUInt16.toNat = x.bits.toNat / 0x10000 := by
  have hlt := x.bits.toNat_lt
  have hshift : (16 : UInt32).toNat % 32 = 16 := rfl
  rw [UInt32.toNat_toUInt16, UInt32.toNat_shiftRight, hshift, Nat.shiftRight_eq_div_pow]
  omega

theorem toNat_sign : ((x.bits >>> 16).toUInt16 &&& 0x8000).toNat = x.signBit := by
  have hlt := x.bits.toNat_lt
  have hfield := and_field (x.bits.toNat / 0x10000) 1 15
  rw [UInt16.toNat_and, toNat_upper, x.signBit_eq]
  exact hfield.trans (by omega)

/-- The sign is put in front of a magnitude. -/
theorem toNat_sign_or {m : UInt16} (hm : m.toNat < 0x8000) :
    ((x.bits >>> 16).toUInt16 &&& 0x8000 ||| m).toNat = x.signBit + m.toNat := by
  have hsign : x.signBit = (x.bits.toNat / 0x80000000) <<< 15 := by
    rw [x.signBit_eq, Nat.shiftLeft_eq]
  rw [UInt16.toNat_or, toNat_sign, hsign]
  exact (Nat.shiftLeft_add_eq_or_of_lt hm _).symm

/-- The exponent of the infinities marks them and the values that are not numbers. -/
theorem exponent_eq_iff : x.bits &&& 0x7f800000 = 0x7f800000 ↔ 0x7f800000 ≤ x.magnitude := by
  have hfield := and_field x.bits.toNat 8 23
  rw [← UInt32.toNat_inj, UInt32.toNat_and, Binary32.magnitude]
  show x.bits.toNat &&& 0x7f800000 = 0x7f800000 ↔ _
  rw [show 0x7f800000 = (2 ^ 8 - 1) <<< 23 from rfl, hfield]
  omega

theorem fraction_eq_iff : x.bits &&& 0x7fffff = 0 ↔ x.magnitude % 0x800000 = 0 := by
  have hfield := Nat.and_two_pow_sub_one_eq_mod x.bits.toNat 23
  rw [← UInt32.toNat_inj, UInt32.toNat_and, Binary32.magnitude]
  show x.bits.toNat &&& (2 ^ 23 - 1) = 0 ↔ _
  rw [hfield]
  omega

theorem overflow_iff (m : UInt16) : m &&& 0x7f80 = 0x7f80 ↔ 0x7f80 ≤ m.toNat % 0x8000 := by
  have hfield := and_field m.toNat 8 7
  rw [← UInt16.toNat_inj, UInt16.toNat_and]
  show m.toNat &&& 0x7f80 = 0x7f80 ↔ _
  rw [show 0x7f80 = (2 ^ 8 - 1) <<< 7 from rfl, hfield]
  omega

/-! ## Narrowing -/

theorem narrow_nan {x : Binary32} (h : x.isNaN) :
    (narrow x.bits).toNat = x.signBit + nan.toNat := by
  have hlt : x.magnitude < 0x80000000 := Nat.mod_lt _ (by decide)
  have hnan : 0x7f800000 < x.magnitude := of_decide_eq_true h
  have hfraction : ¬x.bits &&& 0x7fffff = 0 := by
    rw [fraction_eq_iff]
    omega
  rw [narrow, if_pos ((exponent_eq_iff x).mpr hnan.le), if_neg hfraction]
  exact toNat_sign_or x (by decide)

theorem narrow_infinity {x : Binary32} (h : x.magnitude = 0x7f800000) :
    (narrow x.bits).toNat = x.signBit + 0x7f80 := by
  have hfraction : x.bits &&& 0x7fffff = 0 := by
    rw [fraction_eq_iff, h]
  rw [narrow, if_pos ((exponent_eq_iff x).mpr h.ge), if_pos hfraction]
  show (x.bits >>> 16).toUInt16.toNat = _
  rw [toNat_upper, x.signBit_eq]
  rw [Binary32.magnitude] at h
  omega

theorem narrow_finite {x : Binary32} (h : x.magnitude < 0x7f800000) :
    (narrow x.bits).toNat = x.signBit +
      if roundEven x.magnitude 16 < 0x7f80 then roundEven x.magnitude 16 else nan.toNat := by
  have hle : roundEven x.magnitude 16 ≤ 0x7f80 := by
    rw [roundEven_sixteen]
    omega
  have hm : (biased x.bits >>> 16).toUInt16.toNat < 0x8000 := by
    rw [toNat_magnitude]
    omega
  rw [narrow, if_neg (by rw [exponent_eq_iff]; omega)]
  by_cases hlt : roundEven x.magnitude 16 < 0x7f80
  · rw [if_neg (by rw [overflow_iff, toNat_magnitude]; omega), if_pos hlt, toNat_sign_or x hm,
      toNat_magnitude]
  · rw [if_pos (by rw [overflow_iff, toNat_magnitude]; omega), if_neg hlt]
    exact toNat_sign_or x (by decide)

theorem toNat_widen (b : UInt16) : (widen b).toNat = b.toNat * 0x10000 := by
  have hlt := b.toNat_lt
  have hshift : (16 : UInt32).toNat % 32 = 16 := rfl
  rw [widen, UInt32.toNat_shiftLeft, UInt16.toNat_toUInt32, hshift, Nat.shiftLeft_eq]
  omega

/-- What is widened is narrowed to itself, unless it is not a number. -/
theorem narrow_widen {b : UInt16} (h : b.toNat % 0x8000 ≤ 0x7f80) : narrow (widen b) = b := by
  let x : Binary32 := ⟨widen b⟩
  have hlt := b.toNat_lt
  have hmagnitude : x.magnitude = b.toNat % 0x8000 * 0x10000 := by
    rw [Binary32.magnitude, toNat_widen]
    omega
  have hsign : x.signBit = b.toNat / 0x8000 * 0x8000 := by
    rw [x.signBit_eq, toNat_widen]
    omega
  apply UInt16.toNat_inj.mp
  show (narrow x.bits).toNat = b.toNat
  rcases Nat.lt_or_eq_of_le h with hfinite | hinfinity
  · have hround : roundEven x.magnitude 16 = b.toNat % 0x8000 := by
      rw [hmagnitude]
      exact (congrArg (roundEven · 16) (Nat.shiftLeft_eq _ 16).symm).trans
        (roundEven_shiftLeft _ 16)
    rw [narrow_finite (by omega), hround, if_pos hfinite, hsign]
    omega
  · rw [narrow_infinity (by omega), hsign]
    omega

/-- A finite value is narrowed to the nearest brain float, the even one of two, or to a
value that is not a number where the nearest one is an infinity. Infinities are kept, and
so is every brain float that has been widened. -/
theorem narrow_rounds :
    (∀ x : Binary32, (biased x.bits).toNat =
        x.magnitude + 0x7fff + x.bits.toNat / 0x10000 % 2 ∧
      ∃ q, (∀ p, NearestEven x.magnitude 16 p ↔ p = q) ∧
        (x.magnitude < 0x7f800000 →
          (narrow x.bits).toNat = x.signBit + (if q < 0x7f80 then q else nan.toNat) ∧
          (narrow x.bits).toNat % 0x8000 ≠ 0x7f80) ∧
        (x.magnitude = 0x7f800000 → (narrow x.bits).toNat = x.signBit + 0x7f80) ∧
        (x.isNaN → (narrow x.bits).toNat = x.signBit + nan.toNat)) ∧
    ∀ b : UInt16, b.toNat % 0x8000 ≤ 0x7f80 → narrow (widen b) = b := by
  refine ⟨fun x => ⟨toNat_biased x, roundEven x.magnitude 16, fun p => nearestEven_iff,
    fun h => ⟨narrow_finite h, ?_⟩, narrow_infinity, narrow_nan⟩, fun b => narrow_widen⟩
  have hnan : nan.toNat = 0x7f81 := rfl
  rw [narrow_finite h, x.signBit_eq]
  split <;> omega

/-- The carry goes into the exponent: what is just below two is narrowed to two. -/
theorem narrow_rounds_carry :
    let x : Binary32 := ⟨0x3fffffff⟩
    x.magnitude < 0x7f800000 ∧ NearestEven x.magnitude 16 0x4000 ∧
      (narrow x.bits).toNat = x.signBit + 0x4000 ∧ narrow (widen 0x4000) = 0x4000 := by
  intro x
  have hfinite : x.magnitude < 0x7f800000 := by decide
  have hnearest : NearestEven x.magnitude 16 0x4000 := nearestEven_iff.mpr (by decide)
  obtain ⟨hall, hwidened⟩ := narrow_rounds
  obtain ⟨-, q, hq, hnarrow, -, -⟩ := hall x
  obtain rfl := (hq 0x4000).mp hnearest
  exact ⟨hfinite, hnearest, (hnarrow hfinite).1, hwidened 0x4000 (by decide)⟩

end Brain

end BlockTensor
