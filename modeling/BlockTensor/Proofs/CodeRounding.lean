import Mathlib.Tactic.FieldSimp
import Mathlib.Tactic.Linarith
import BlockTensor.Proofs.Rational

/-!
# Rounding to codes

A block codec divides the values of a block by a scale and rounds the quotients to
integers, the codes. The scale is such that the values span a fixed number of its steps
(`Spans`): 127 for bytes and 8 for nibbles. Of the rounding, `CodeRounding` says how far
a value may be from its code times the scale (`close_mul`), and that a code times the
scale has the same code again (`again_mul`).

* `Q8.codeRounding`: bytes are rounded to nearest, so a value is at most half a step off.
* `Q4.codeRounding`: so are nibbles, but for the values that are nearest to eight steps.
  These are stored as seven, which may be a whole step off.
* `Q8.greatest_spec`, `Q4.dominant_spec`: the values of which the scales are made.
-/

namespace BlockTensor

/-! ## Integers near a number -/

theorem intCast_eq_of_abs_lt {m n : ℤ} (h : |(m : ℚ) - n| < 1) : m = n := by
  have h : |m - n| < 1 := by exact_mod_cast h
  rw [abs_lt] at h
  omega

theorem floor_intCast_add_half (n : ℤ) : ⌊(n : ℚ) + 1 / 2⌋ = n := by
  rw [Int.floor_intCast_add]
  norm_num [Int.floor_eq_iff]

theorem abs_nearestInt_sub_le (a : ℚ) : |(nearestInt a : ℚ) - a| ≤ 1 / 2 := by
  unfold nearestInt
  split
  · have hle := Int.floor_le (a + 1 / 2)
    have hlt := Int.lt_floor_add_one (a + 1 / 2)
    rw [abs_le]
    constructor <;> linarith
  · have hle := Int.floor_le (-a + 1 / 2)
    have hlt := Int.lt_floor_add_one (-a + 1 / 2)
    rw [Int.cast_neg, abs_le]
    constructor <;> linarith

@[simp] theorem nearestInt_intCast (n : ℤ) : nearestInt n = n := by
  refine intCast_eq_of_abs_lt ?_
  have h := abs_nearestInt_sub_le n
  linarith

/-- The nearest integer, of two the greater one, but no more than seven. -/
def Q4.nearestCode (x : ℚ) : ℤ := min 7 ⌊x + 1 / 2⌋

theorem Q4.nearestCode_le (x : ℚ) : nearestCode x ≤ 7 := min_le_left ..

theorem Q4.nearestCode_intCast {n : ℤ} (h : n ≤ 7) : nearestCode n = n := by
  rw [nearestCode, floor_intCast_add_half, min_eq_right h]

/-! ## Scales -/

/-- A scale of which the values `v` span `limit` steps: none of them is further from
zero, and one is as far. -/
structure Spans (limit : ℤ) (v : Nat → ℚ) (s : ℚ) : Prop where
  bounded (j : Nat) : |v j| ≤ limit * |s|
  attained : s = 0 ∨ ∃ j, |v j| = limit * |s|

/-- A rounding of what lies within `limit` of zero to codes that do so too. It is off
by at most `error`, and keeps its own codes. -/
structure CodeRounding (limit : ℤ) (error : ℚ) (round : ℚ → ℤ) : Prop where
  pos : 0 < limit
  zero : round 0 = 0
  bounded {x : ℚ} : |x| ≤ limit → |round x| ≤ limit
  close {x : ℚ} : |x| ≤ limit → |(round x : ℚ) - x| ≤ error
  again {x : ℚ} : |x| ≤ limit → round (round x) = round x

namespace Spans

variable {limit : ℤ} {v : Nat → ℚ} {s s' : ℚ}

theorem eq_zero_of_scale (h : Spans limit v 0) (j : Nat) : v j = 0 := by
  have hle := h.bounded j
  rw [abs_zero, mul_zero] at hle
  exact abs_nonpos_iff.mp hle

theorem scale_eq_zero (hlimit : 0 < limit) (h : Spans limit v s) (hv : ∀ j, v j = 0) : s = 0 := by
  rcases h.attained with hs | ⟨j, hj⟩
  · exact hs
  · rw [hv, abs_zero, zero_eq_mul] at hj
    rcases hj with hj | hj
    · exact absurd (Int.cast_eq_zero.mp hj) hlimit.ne'
    · exact abs_eq_zero.mp hj

theorem abs_le_abs (hlimit : 0 < limit) (h : Spans limit v s) (h' : Spans limit v s') :
    |s| ≤ |s'| := by
  have hpos : (0 : ℚ) < limit := Int.cast_pos.mpr hlimit
  rcases h.attained with rfl | ⟨j, hj⟩
  · rw [abs_zero]
    exact abs_nonneg s'
  · have hle := h'.bounded j
    rw [hj] at hle
    exact le_of_mul_le_mul_left hle hpos

/-- The values determine their scale up to its sign. -/
theorem abs_eq_abs (hlimit : 0 < limit) (h : Spans limit v s) (h' : Spans limit v s') :
    |s| = |s'| :=
  le_antisymm (h.abs_le_abs hlimit h') (h'.abs_le_abs hlimit h)

end Spans

namespace CodeRounding

variable {limit : ℤ} {error : ℚ} {round : ℚ → ℤ} {v : Nat → ℚ} {s : ℚ}

-- a block of zeros has scale zero; its quotients are zero, as is any quotient by zero
theorem abs_div_le (h : CodeRounding limit error round) (hv : Spans limit v s) (j : Nat) :
    |v j / s| ≤ limit := by
  have hpos : (0 : ℚ) < limit := Int.cast_pos.mpr h.pos
  by_cases hs : s = 0
  · rw [hs, div_zero, abs_zero]
    exact hpos.le
  · rw [abs_div, div_le_iff₀ (abs_pos.mpr hs)]
    exact hv.bounded j

/-- A value is its code times the scale, but for the error of the rounding. -/
theorem close_mul (h : CodeRounding limit error round) (hv : Spans limit v s) (j : Nat) :
    |round (v j / s) * s - v j| ≤ error * |s| := by
  by_cases hs : s = 0
  · subst hs
    simp [hv.eq_zero_of_scale j]
  · have hmul : round (v j / s) * s - v j = (round (v j / s) - v j / s) * s := by
      field_simp
    rw [hmul, abs_mul]
    exact mul_le_mul_of_nonneg_right (h.close (h.abs_div_le hv j)) (abs_nonneg s)

/-- The code of a code times the scale is this code. -/
theorem again_mul (h : CodeRounding limit error round) (hv : Spans limit v s) (j : Nat) :
    round (round (v j / s) * s / s) = round (v j / s) := by
  by_cases hs : s = 0
  · simp [hs]
  · rw [mul_div_cancel_right₀ _ hs]
    exact h.again (h.abs_div_le hv j)

/-- Codes times the scale span as many steps of it as the values do, if one of the
values has the greatest code. -/
theorem spans_mul (h : CodeRounding limit error round) (hv : Spans limit v s)
    (hex : s = 0 ∨ ∃ j, |round (v j / s)| = limit) :
    Spans limit (fun j => round (v j / s) * s) s where
  bounded j := by
    rw [abs_mul]
    refine mul_le_mul_of_nonneg_right ?_ (abs_nonneg s)
    exact_mod_cast h.bounded (h.abs_div_le hv j)
  attained := hex.imp_right fun ⟨j, hj⟩ => ⟨j, by rw [abs_mul, ← hj, Int.cast_abs]⟩

end CodeRounding

theorem Q8.codeRounding : CodeRounding 127 (1 / 2) nearestInt where
  pos := by decide
  zero := nearestInt_intCast 0
  bounded {x} hx := by
    have hlt : |((nearestInt x : ℤ) : ℚ)| < (128 : ℤ) := by
      have hclose := abs_nearestInt_sub_le x
      have hsub := abs_sub_abs_le_abs_sub (nearestInt x : ℚ) x
      push_cast at *
      linarith
    have hlt : |nearestInt x| < 128 := by exact_mod_cast hlt
    omega
  close _ := abs_nearestInt_sub_le _
  again _ := nearestInt_intCast _

theorem Q4.codeRounding : CodeRounding 8 1 nearestCode where
  pos := by decide
  zero := nearestCode_intCast (by decide : (0 : ℤ) ≤ 7)
  bounded {x} hx := by
    have hx := abs_le.mp hx
    push_cast at hx
    have hlow : -8 ≤ ⌊x + 1 / 2⌋ := Int.le_floor.mpr (by push_cast; linarith)
    unfold nearestCode
    rw [abs_le]
    omega
  close {x} hx := by
    have hx := abs_le.mp hx
    push_cast at hx
    have hle := Int.floor_le (x + 1 / 2)
    have hlt := Int.lt_floor_add_one (x + 1 / 2)
    unfold nearestCode
    rw [abs_le]
    rcases Int.le_total 7 ⌊x + 1 / 2⌋ with h | h
    · -- what lies between seven and a half steps and eight is stored as seven
      have h7 : (7 : ℚ) ≤ ⌊x + 1 / 2⌋ := by exact_mod_cast h
      rw [min_eq_left h]
      constructor <;> push_cast <;> linarith
    · rw [min_eq_right h]
      constructor <;> linarith
  again _ := nearestCode_intCast (nearestCode_le _)

/-! ## The codecs -/

theorem Q8.toInt_clamp {n : ℤ} (h : |n| ≤ 127) : (clamp n).toInt = n := by
  have h := abs_le.mp h
  rw [clamp, max_eq_right (by omega), min_eq_right h.2]
  refine Int8.toInt_ofInt_of_le ?_ ?_
  · show -128 ≤ n
    omega
  · show n < 128
    omega

variable [Narrowing]

theorem Scalar.larger_eq_max (a b : ℚ) : larger a b = max a b := by
  show (if decide (a < b) then b else a) = max a b
  by_cases h : a < b
  · simp [h, h.le]
  · simp [h, not_lt.mp h]

theorem Scalar.foldl_larger (xs : List ℚ) (m : ℚ) :
    let g := xs.foldl (fun m x => larger m (abs x)) m
    m ≤ g ∧ (∀ x ∈ xs, |x| ≤ g) ∧ (g = m ∨ ∃ x ∈ xs, |x| = g) := by
  induction xs generalizing m with
  | nil => simp
  | cons x xs ih =>
    obtain ⟨hle, hall, hex⟩ := ih (max m |x|)
    have hstep : larger m (abs x) = max m |x| := larger_eq_max m |x|
    simp only [List.foldl_cons, hstep]
    refine ⟨le_of_max_le_left hle, List.forall_mem_cons.mpr ⟨le_of_max_le_right hle, hall⟩, ?_⟩
    rcases hex with hex | ⟨y, hy, hex⟩
    · rcases max_choice m |x| with h | h
      · exact .inl (hex.trans h)
      · exact .inr ⟨x, List.mem_cons_self, (hex.trans h).symm⟩
    · exact .inr ⟨y, List.mem_cons_of_mem _ hy, hex⟩

theorem Q4.foldl_dominant (xs : List ℚ) (m : ℚ) :
    let r := xs.foldl (fun m v => if Scalar.lt (Scalar.abs m) (Scalar.abs v) then v else m) m
    |m| ≤ |r| ∧ (∀ x ∈ xs, |x| ≤ |r|) ∧ (r = m ∨ r ∈ xs) := by
  induction xs generalizing m with
  | nil => simp
  | cons x xs ih =>
    obtain ⟨hle, hall, hex⟩ := ih (if |m| < |x| then x else m)
    have hstep : (if Scalar.lt (Scalar.abs m) (Scalar.abs x) then x else m) =
        if |m| < |x| then x else m := by
      show (if decide (|m| < |x|) then x else m) = _
      simp
    simp only [List.foldl_cons, hstep]
    by_cases hlt : |m| < |x|
    · rw [if_pos hlt] at hle hall hex ⊢
      refine ⟨hlt.le.trans hle, List.forall_mem_cons.mpr ⟨hle, hall⟩, .inr ?_⟩
      rcases hex with hex | hex
      · rw [hex]
        exact List.mem_cons_self
      · exact List.mem_cons_of_mem _ hex
    · rw [if_neg hlt] at hle hall hex ⊢
      exact ⟨hle, List.forall_mem_cons.mpr ⟨(not_lt.mp hlt).trans hle, hall⟩,
        hex.imp_right (List.mem_cons_of_mem _)⟩

omit [Narrowing] in
theorem getD_of_size_le {values : Array ℚ} {j : Nat} (h : values.size ≤ j) :
    values.getD j 0 = 0 := by
  simp [Array.getD, h]

/-- The greatest magnitude of some values. -/
theorem Q8.greatest_spec (values : Array ℚ) :
    let g := Scalar.greatest values.toList
    0 ≤ g ∧ (∀ j, |values.getD j 0| ≤ g) ∧ (g = 0 ∨ ∃ j, |values.getD j 0| = g) := by
  obtain ⟨hzero, hall, hex⟩ := Scalar.foldl_larger values.toList 0
  have hget {j : Nat} (hj : j < values.size) : values.getD j 0 = values[j] := by
    simp [Array.getD, hj]
  refine ⟨hzero, fun j => ?_, hex.imp_right fun ⟨x, hx, h⟩ => ?_⟩
  · by_cases hj : j < values.size
    · rw [hget hj]
      exact hall _ (by simp)
    · rw [getD_of_size_le (not_lt.mp hj), abs_zero]
      exact hzero
  · obtain ⟨j, hj, rfl⟩ := List.getElem_of_mem hx
    exact ⟨j, (congrArg abs (hget (by simpa using hj))).trans h⟩

/-- The value of greatest magnitude in a block. -/
theorem Q4.dominant_spec {values : Array ℚ} (hsize : values.size ≤ blockSize) :
    let m := dominant ((List.range blockSize).map fun j => values.getD j 0)
    (∀ j, |values.getD j 0| ≤ |m|) ∧ (m = 0 ∨ ∃ j, values.getD j 0 = m) := by
  intro m
  obtain ⟨-, hall, hex⟩ := foldl_dominant ((List.range blockSize).map fun j => values.getD j 0) 0
  refine ⟨fun j => ?_, hex.imp_right fun h => ?_⟩
  · by_cases hj : j < blockSize
    · exact hall _ (List.mem_map_of_mem (List.mem_range.mpr hj))
    · rw [getD_of_size_le (by omega), abs_zero]
      exact abs_nonneg m
  · obtain ⟨j, -, hj⟩ := List.mem_map.mp h
    exact ⟨j, hj⟩

theorem Q8.scale_eq {m : ℚ} (hm : 0 ≤ m) : scale m = m / 127 := by
  show (if decide (0 < m) then m / ((127 : ℤ) : ℚ) else 0) = m / 127
  rcases hm.eq_or_lt with rfl | h
  · simp
  · simp [h]

theorem Q8.mul_inverseScale {m : ℚ} (hm : 0 ≤ m) (v : ℚ) : v * inverseScale m = v / scale m := by
  rw [scale_eq hm]
  show v * (if decide (0 < m) then ((127 : ℤ) : ℚ) / m else 0) = v / (m / 127)
  rcases hm.eq_or_lt with rfl | h
  · simp
  · simp [h]
    ring

theorem Q4.scale_eq (m : ℚ) : scale m = m / -8 := by
  show m / ((-8 : ℤ) : ℚ) = m / -8
  norm_num

theorem Q4.mul_inverseScale (s v : ℚ) : v * inverseScale s = v / s := by
  show v * (if decide (s = 0) then 0 else ((1 : ℤ) : ℚ) / s) = v / s
  by_cases h : s = 0
  · simp [h]
  · simp [h]
    ring

/-- A nibble holds the nearest code. -/
theorem Q4.signed_encodeNibble {x : ℚ} (h : |x| ≤ 8) :
    signed (encodeNibble x) = nearestCode x := by
  have hx := abs_le.mp h
  have hfloor : Scalar.floor (x + Scalar.ofInt 17 / Scalar.ofInt 2 : ℚ) = ⌊x + 1 / 2⌋ + 8 := by
    show ⌊x + ((17 : ℤ) : ℚ) / ((2 : ℤ) : ℚ)⌋ = _
    rw [← Int.floor_add_ofNat]
    congr 1
    push_cast
    ring
  have hnibble : encodeNibble x = UInt8.ofNat (max 0 (min 15 (⌊x + 1 / 2⌋ + 8))).toNat := by
    rw [← hfloor]
    rfl
  have hlow : -8 ≤ ⌊x + 1 / 2⌋ := Int.le_floor.mpr (by push_cast; linarith)
  rw [hnibble, signed, UInt8.toNat_ofNat', nearestCode]
  omega

end BlockTensor
