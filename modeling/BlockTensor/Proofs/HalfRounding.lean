import Mathlib.Order.Monotone.Basic
import BlockTensor.Proofs.BrainRounding

/-!
# Rounding to halves

A half counts in units of `2 ^ -24`, a binary32 value in units of `2 ^ -149`
(`Binary16.units`, `Binary32.units`). Counted so, the infinity of the halves stands for the
number after the largest half, which is where rounding to nearest puts its boundary.

A way to decode halves is `Exact` if each value is that of its half, and a way to encode
values `Rounds` if it is to nearest, ties to even; both keep what is not a number. Then every
half comes back from the value that it is decoded to (`Rounds.narrow_exact`). The encoder of
this library rounds (`rounds_narrow`).
-/

namespace BlockTensor

/-- The magnitude of a finite value in units of `2 ^ -149`. -/
def Binary32.units (x : Binary32) : Nat := x.significand * 2 ^ x.exponent

namespace Binary16

/-- The magnitude bits of a half. -/
def magnitude (h : UInt16) : Nat := h.toNat % 0x8000

/-- The pattern of a half that is no number. -/
def IsNaN (h : UInt16) : Prop := 0x7c00 < magnitude h

/-- What magnitude bits count in units of `2 ^ -24`. -/
def units (p : Nat) : Nat :=
  if p < 0x400 then p else (0x400 + p % 0x400) * 2 ^ (p / 0x400 - 1)

/-- Two halves are the same up to the payload of what is no number. -/
def Same (h h' : UInt16) : Prop := h = h' ∨ IsNaN h ∧ IsNaN h'

/-- The magnitude bits `q` are nearest to `n` units of `2 ^ -149` among those of all halves
and of the infinity; of two nearest it is the even one. -/
structure Nearest (n q : Nat) : Prop where
  le : q ≤ 0x7c00
  nearest {p : Nat} : p ≤ 0x7c00 → gap n 125 (units q) ≤ gap n 125 (units p)
  even {p : Nat} : p ≤ 0x7c00 → p ≠ q → gap n 125 (units p) = gap n 125 (units q) → q % 2 = 0

/-- Each value is that of its half; what is not a number stays none. -/
structure Exact (widen : UInt16 → Binary32) : Prop where
  nan {h : UInt16} : IsNaN h → (widen h).isNaN
  sign {h : UInt16} : ¬IsNaN h → ((widen h).isNegative ↔ 0x8000 ≤ h.toNat)
  infinity {h : UInt16} : magnitude h = 0x7c00 → (widen h).magnitude = 0x7f800000
  units {h : UInt16} : magnitude h < 0x7c00 →
    (widen h).magnitude < 0x7f800000 ∧ (widen h).units = units (magnitude h) * 2 ^ 125

/-- Each half is nearest to its value, of two nearest the even one; what is not a number
stays none. -/
structure Rounds (narrow : Binary32 → UInt16) : Prop where
  nan {x : Binary32} : x.isNaN → IsNaN (narrow x)
  sign {x : Binary32} : ¬x.isNaN → (0x8000 ≤ (narrow x).toNat ↔ x.isNegative)
  infinity {x : Binary32} : x.magnitude = 0x7f800000 → magnitude (narrow x) = 0x7c00
  nearest {x : Binary32} : x.magnitude < 0x7f800000 → Nearest x.units (magnitude (narrow x))

/-! ## Magnitudes in order -/

theorem units_of_lt {p : Nat} (h : p < 0x400) : units p = p := if_pos h

theorem units_of_le {p : Nat} (h : 0x400 ≤ p) :
    units p = (0x400 + p % 0x400) * 2 ^ (p / 0x400 - 1) := if_neg (Nat.not_lt.mpr h)

theorem units_of_le_one {p : Nat} (h : p ≤ 0x400) : units p = p := by
  rcases Nat.lt_or_eq_of_le h with h | rfl
  · exact units_of_lt h
  · rfl

/-- The magnitude after a normal one is a unit of its exponent away, at the end of the
exponent too. -/
theorem units_succ {p : Nat} (h : 0x400 ≤ p) :
    units (p + 1) = (0x400 + p % 0x400 + 1) * 2 ^ (p / 0x400 - 1) := by
  rw [units_of_le (by omega)]
  by_cases hlast : p % 0x400 = 0x3ff
  · have hm : (p + 1) % 0x400 = 0 := by omega
    have he : (p + 1) / 0x400 - 1 = (p / 0x400 - 1) + 1 := by omega
    rw [hlast, hm, he, Nat.pow_succ, Nat.mul_comm (2 ^ _), ← Nat.mul_assoc]
  · have hm : (p + 1) % 0x400 = p % 0x400 + 1 := by omega
    have he : (p + 1) / 0x400 = p / 0x400 := by omega
    rw [hm, he, Nat.add_assoc]

theorem units_lt_succ (p : Nat) : units p < units (p + 1) := by
  rcases Nat.lt_or_ge p 0x400 with h | h
  · rw [units_of_lt h, units_of_le_one h]
    exact Nat.lt_succ_self p
  · rw [units_of_le h, units_succ h]
    exact Nat.mul_lt_mul_of_pos_right (Nat.lt_succ_self _) (Nat.two_pow_pos _)

theorem units_strictMono : StrictMono units := strictMono_nat_of_lt_succ units_lt_succ

/-- A pattern whose magnitude is met exactly is the nearest one. -/
theorem Nearest.eq_of_exact {n p q : Nat} (h : Nearest n q) (hp : p ≤ 0x7c00)
    (hn : n = units p * 2 ^ 125) : q = p := by
  have hgap := h.nearest hp
  refine units_strictMono.injective (Nat.eq_of_mul_eq_mul_right (Nat.two_pow_pos 125) ?_)
  simp only [gap, hn] at hgap
  omega

/-- Every half comes back from the value that it is decoded to. -/
theorem Rounds.narrow_exact {narrow : Binary32 → UInt16} (hn : Rounds narrow)
    {widen : UInt16 → Binary32} (hw : Exact widen) (h : UInt16) : Same (narrow (widen h)) h := by
  by_cases hnan : IsNaN h
  · exact .inr ⟨hn.nan (hw.nan hnan), hnan⟩
  have hle : magnitude h ≤ 0x7c00 := Nat.not_lt.mp hnan
  have hlt := h.toNat_lt
  have hlt' := (narrow (widen h)).toNat_lt
  have hmagnitude : (widen h).magnitude ≤ 0x7f800000 ∧
      magnitude (narrow (widen h)) = magnitude h := by
    rcases Nat.lt_or_eq_of_le hle with hfinite | hinfinity
    · obtain ⟨hwide, hunits⟩ := hw.units hfinite
      exact ⟨hwide.le, (hn.nearest hwide).eq_of_exact hle hunits⟩
    · have hwide := hw.infinity hinfinity
      exact ⟨hwide.le, (hn.infinity hwide).trans hinfinity.symm⟩
  have hnumber : ¬(widen h).isNaN := by
    rw [Binary32.isNaN, decide_eq_true_eq]
    omega
  have hsign := (hn.sign hnumber).trans (hw.sign hnan)
  refine .inl (UInt16.toNat_inj.mp ?_)
  have heq := hmagnitude.2
  simp only [magnitude] at heq
  omega

/-! ## Units -/

/-- The value of a binary32 magnitude. -/
def wideUnits (n : Nat) : Nat :=
  (if n < 0x800000 then n else 0x800000 + n % 0x800000) * 2 ^ (n / 0x800000 - 1)

theorem units_eq_wideUnits (x : Binary32) : x.units = wideUnits x.magnitude := by
  simp only [Binary32.units, Binary32.significand, Binary32.exponent, wideUnits,
    Nat.shiftRight_eq_div_pow]

/-- A normal half in the units of the binary32 value with its exponent. -/
theorem units_move (c e : Nat) : c * 2 ^ e * 2 ^ 125 = c * 2 ^ 13 * 2 ^ (e + 112) := by
  rw [Nat.mul_assoc, Nat.mul_assoc, ← Nat.pow_add, ← Nat.pow_add,
    show 13 + (e + 112) = e + 125 by omega]

/-! ## Narrowing -/

/-- Between two consecutive magnitudes the nearer one is nearest, and of two the even one. -/
theorem nearest_of_between {n p : Nat} (hp : p < 0x7c00) (hlo : units p * 2 ^ 125 ≤ n)
    (hhi : n ≤ units (p + 1) * 2 ^ 125) :
    let below := n - units p * 2 ^ 125
    let above := units (p + 1) * 2 ^ 125 - n
    Nearest n (if above < below ∨ (below = above ∧ p % 2 = 1) then p + 1 else p) := by
  intro below above
  -- every other magnitude lies beyond one of the two
  have hother (r : Nat) : r = p ∨ r = p + 1 ∨ units r * 2 ^ 125 < units p * 2 ^ 125 ∨
      units (p + 1) * 2 ^ 125 < units r * 2 ^ 125 := by
    rcases Nat.lt_trichotomy r p with h | h | h
    · exact .inr (.inr (.inl (Nat.mul_lt_mul_of_pos_right (units_strictMono h)
        (Nat.two_pow_pos 125))))
    · exact .inl h
    rcases Nat.eq_or_lt_of_le (show p + 1 ≤ r from h) with h | h
    · exact .inr (.inl h.symm)
    · exact .inr (.inr (.inr (Nat.mul_lt_mul_of_pos_right (units_strictMono h)
        (Nat.two_pow_pos 125))))
  simp only [below, above]
  split
  · refine ⟨hp, fun {r} _ => ?_, fun {r} _ hne hgap => ?_⟩
    · rcases hother r with rfl | rfl | h | h <;> simp only [gap] <;> omega
    · rcases hother r with rfl | rfl | h | h <;> simp only [gap] at hgap <;> omega
  · refine ⟨hp.le, fun {r} _ => ?_, fun {r} _ hne hgap => ?_⟩
    · rcases hother r with rfl | rfl | h | h <;> simp only [gap] <;> omega
    · rcases hother r with rfl | rfl | h | h <;> simp only [gap] at hgap <;> omega

/-- The largest of some multiples below `n` is the nearest. -/
theorem gap_le_gap {n k p q : Nat} (hpq : p ≤ q) (hq : q * 2 ^ k ≤ n) :
    gap n k q ≤ gap n k p := by
  have hle := Nat.mul_le_mul_right (2 ^ k) hpq
  simp only [gap]
  omega

/-- Beyond the largest half the infinity is nearest. -/
theorem nearest_infinity {n : Nat} (h : units 0x7c00 * 2 ^ 125 ≤ n) : Nearest n 0x7c00 :=
  ⟨Nat.le_refl _, fun hp => gap_le_gap (units_strictMono.monotone hp) h, fun _ _ _ => rfl⟩

/-- A significand whose unit is that of the halves around it is rounded to the nearest of
them. -/
theorem nearest_roundEven {s k j p : Nat} (hp : p < 0x7c00)
    (hlo : units p * 2 ^ 125 = s / 2 ^ k * 2 ^ k * 2 ^ j)
    (hhi : units (p + 1) * 2 ^ 125 = (s / 2 ^ k + 1) * 2 ^ k * 2 ^ j)
    (heven : p % 2 = s / 2 ^ k % 2) : Nearest (s * 2 ^ j) (p + (roundEven s k - s / 2 ^ k)) := by
  have hs := Nat.div_add_mod' s (2 ^ k)
  have hr := Nat.mod_lt s (Nat.two_pow_pos k)
  have hle : s / 2 ^ k * 2 ^ k ≤ s := Nat.div_mul_le_self ..
  have hle' : s ≤ (s / 2 ^ k + 1) * 2 ^ k := by
    rw [Nat.succ_mul]
    omega
  have hbelow : s * 2 ^ j - units p * 2 ^ 125 = s % 2 ^ k * 2 ^ j := by
    rw [hlo, ← Nat.sub_mul]
    congr 1
    omega
  have habove : units (p + 1) * 2 ^ 125 - s * 2 ^ j = (2 ^ k - s % 2 ^ k) * 2 ^ j := by
    rw [hhi, ← Nat.sub_mul, Nat.succ_mul]
    congr 1
    omega
  have hnear := nearest_of_between hp (hlo ▸ Nat.mul_le_mul_right _ hle)
    (hhi ▸ Nat.mul_le_mul_right _ hle')
  simp only [hbelow, habove, Nat.mul_lt_mul_right (Nat.two_pow_pos j),
    Nat.mul_left_inj (Nat.two_pow_pos j).ne'] at hnear
  convert hnear using 1
  simp only [roundEven, Nat.one_shiftLeft]
  split <;> split <;> omega

/-- The carry out of the fraction goes into the exponent, up to that of the infinity. -/
theorem nearest_normal {n : Nat} (hlo : 0x38800000 ≤ n) :
    Nearest (wideUnits n) (min 0x7c00 (roundEven (n - 0x38000000) 13)) := by
  let p := (n - 0x38000000) / 0x2000
  let s := 0x800000 + n % 0x800000
  have hp : 0x400 ≤ p := by omega
  have hs : s / 2 ^ 13 = 0x400 + p % 0x400 := by omega
  have hj : n / 0x800000 - 1 = (p / 0x400 - 1) + 112 := by omega
  have hn : wideUnits n = s * 2 ^ (p / 0x400 - 1 + 112) := by
    rw [wideUnits, if_neg (by omega), hj]
  have hround : roundEven (n - 0x38000000) 13 = p + (roundEven s 13 - s / 2 ^ 13) := by
    simp only [roundEven, Nat.one_shiftLeft]
    split <;> split <;> omega
  have hbelow : units p * 2 ^ 125 = s / 2 ^ 13 * 2 ^ 13 * 2 ^ (p / 0x400 - 1 + 112) := by
    rw [units_of_le hp, units_move, hs]
  have habove : units (p + 1) * 2 ^ 125 =
      (s / 2 ^ 13 + 1) * 2 ^ 13 * 2 ^ (p / 0x400 - 1 + 112) := by
    rw [units_succ hp, units_move, hs]
  rw [hn]
  rcases Nat.lt_or_ge p 0x7c00 with hlt | hge
  · have hnear := nearest_roundEven hlt hbelow habove (by omega)
    rwa [← hround, ← Nat.min_eq_right hnear.le] at hnear
  · rw [Nat.min_eq_left (by omega)]
    refine nearest_infinity
      (Nat.le_trans (Nat.mul_le_mul_right _ (units_strictMono.monotone hge)) ?_)
    rw [hbelow]
    exact Nat.mul_le_mul_right _ (Nat.div_mul_le_self ..)

theorem div_le_roundEven (n k : Nat) : n / 2 ^ k ≤ roundEven n k := by
  simp only [roundEven, Nat.one_shiftLeft]
  split <;> omega

/-- A subnormal half counts the units that are rounded to. -/
theorem nearest_subnormal {n : Nat} (hlo : 101 ≤ n / 0x800000) (hhi : n / 0x800000 < 113) :
    Nearest (wideUnits n) (roundEven (0x800000 + n % 0x800000) (126 - n / 0x800000)) := by
  let s := 0x800000 + n % 0x800000
  let k := 126 - n / 0x800000
  have hp : s / 2 ^ k < 0x400 := by
    refine Nat.div_lt_of_lt_mul ?_
    have hk : 2 ^ 14 ≤ 2 ^ k := Nat.pow_le_pow_right (by decide) (by omega)
    omega
  have hunit (c : Nat) : c * 2 ^ 125 = c * 2 ^ k * 2 ^ (n / 0x800000 - 1) := by
    rw [Nat.mul_assoc, ← Nat.pow_add, show k + (n / 0x800000 - 1) = 125 by omega]
  have hnear := nearest_roundEven (s := s) (k := k) (Nat.lt_trans hp (by decide))
    ((congrArg (· * 2 ^ 125) (units_of_lt hp)).trans (hunit _))
    ((congrArg (· * 2 ^ 125) (units_of_le_one hp)).trans (hunit _)) rfl
  rwa [Nat.add_sub_cancel' (div_le_roundEven s k),
    show s * 2 ^ (n / 0x800000 - 1) = wideUnits n by rw [wideUnits, if_neg (by omega)]] at hnear

/-- What is less than half of the least half is rounded to zero. -/
theorem nearest_zero {n : Nat} (h : n / 0x800000 < 101) : Nearest (wideUnits n) 0 := by
  have hlt : wideUnits n < 2 ^ 24 * 2 ^ 99 := by
    refine Nat.lt_of_lt_of_le (m := 2 ^ 24 * 2 ^ (n / 0x800000 - 1)) ?_ ?_
    · refine Nat.mul_lt_mul_of_pos_right ?_ (Nat.two_pow_pos _)
      split <;> omega
    · exact Nat.mul_le_mul_left _ (Nat.pow_le_pow_right (by decide) (by omega))
  have hnear := nearest_of_between (n := wideUnits n) (p := 0) (by decide)
    (by rw [units_of_lt (by decide)]; omega) (by rw [units_of_lt (by decide)]; omega)
  simp only [units_of_lt (show 0 < 0x400 by decide), units_of_lt (show 0 + 1 < 0x400 by decide)]
    at hnear
  rwa [if_neg (by omega)] at hnear

theorem narrowMagnitude_nearest {n : Nat} (h : n < 0x7f800000) :
    Nearest (wideUnits n) (narrowMagnitude n) := by
  have he : n >>> 23 = n / 0x800000 := Nat.shiftRight_eq_div_pow ..
  simp only [narrowMagnitude, he]
  rw [if_neg (by omega)]
  split
  · exact nearest_normal (by omega)
  rename_i hnormal
  split
  · exact nearest_subnormal ‹_› (by omega)
  · exact nearest_zero (by omega)

theorem narrowMagnitude_nan {n : Nat} (h : 0x7f800000 < n) (hn : n < 0x80000000) :
    0x7c00 < narrowMagnitude n ∧ narrowMagnitude n < 0x8000 := by
  have he : n >>> 23 = n / 0x800000 := Nat.shiftRight_eq_div_pow ..
  have hm : (n % 0x800000) >>> 13 = n % 0x800000 / 0x2000 := Nat.shiftRight_eq_div_pow ..
  simp only [narrowMagnitude, he, hm]
  rw [if_pos (by omega), if_neg (by omega)]
  exact ⟨Nat.lt_of_lt_of_le (by decide) Nat.left_le_or,
    Nat.or_lt_two_pow (n := 15) (by decide) (by omega)⟩

theorem narrowMagnitude_infinity : narrowMagnitude 0x7f800000 = 0x7c00 := by decide

theorem narrowMagnitude_lt {n : Nat} (h : n < 0x80000000) : narrowMagnitude n < 0x8000 := by
  rcases Nat.lt_trichotomy n 0x7f800000 with hlt | rfl | hgt
  · exact Nat.lt_of_le_of_lt (narrowMagnitude_nearest hlt).le (by decide)
  · decide
  · exact (narrowMagnitude_nan hgt h).2

theorem toNat_narrow (x : Binary32) :
    (narrow x.bits).toNat = x.signBit + narrowMagnitude x.magnitude := by
  have hlt := x.bits.toNat_lt
  have hbound : narrowMagnitude x.magnitude < 0x8000 :=
    narrowMagnitude_lt (Nat.mod_lt _ (by decide))
  rw [x.signBit_eq]
  simp only [narrow, Nat.shiftRight_eq_div_pow, Nat.shiftLeft_eq]
  rw [UInt16.toNat_ofNat', ← Binary32.magnitude]
  omega

section

variable (x : Binary32)

theorem magnitude_narrow : magnitude (narrow x.bits) = narrowMagnitude x.magnitude := by
  have hbound : narrowMagnitude x.magnitude < 0x8000 :=
    narrowMagnitude_lt (Nat.mod_lt _ (by decide))
  show (narrow x.bits).toNat % 0x8000 = _
  rw [toNat_narrow, x.signBit_eq]
  omega

theorem isNegative_narrow : 0x8000 ≤ (narrow x.bits).toNat ↔ x.isNegative := by
  have hbound : narrowMagnitude x.magnitude < 0x8000 :=
    narrowMagnitude_lt (Nat.mod_lt _ (by decide))
  rw [toNat_narrow, Binary32.signBit]
  by_cases hn : x.isNegative
  · rw [if_pos hn]
    exact iff_of_true (Nat.le_add_right ..) hn
  · rw [if_neg hn, Nat.zero_add]
    exact iff_of_false (Nat.not_le.mpr hbound) hn

end

/-- The encoder that the engine runs with. -/
theorem rounds_narrow : Rounds fun x => narrow x.bits where
  nan {x} hnan := by
    rw [IsNaN, magnitude_narrow]
    exact (narrowMagnitude_nan (of_decide_eq_true hnan) (Nat.mod_lt _ (by decide))).1
  sign {x} _ := isNegative_narrow x
  infinity {x} hinfinity := by
    rw [magnitude_narrow, hinfinity, narrowMagnitude_infinity]
  nearest {x} hfinite := by
    rw [magnitude_narrow, units_eq_wideUnits]
    exact narrowMagnitude_nearest hfinite

end Binary16

end BlockTensor
