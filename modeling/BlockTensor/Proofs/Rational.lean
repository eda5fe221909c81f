import Mathlib.Data.Rat.Floor
import Mathlib.Algebra.Order.Ring.Abs
import BlockTensor.Proofs.Exact

/-!
# Rational arithmetic

The codecs over rational numbers: sums, products and quotients are exact, and
rounding to an integer does what it says. Which rationals the two 16-bit
encodings and the binary32 patterns stand for is left open, and whether the machine
multiplies and adds at once (`Narrowing`).

Zero rounds to zero (`ZeroScalar`), so both block codecs store it as the code zero
(`Q8.code_zero`, `Q4.encodeNibble_zero`), whatever the scale of its block, and
decode it to zero.
-/

namespace BlockTensor

/-- The values of 16-bit and 32-bit patterns, the patterns of values, and whether there is
a fused multiply-add. -/
class Narrowing where
  fused : Bool
  ofBits : UInt32 → ℚ
  half : UInt16 → ℚ
  toHalf : ℚ → UInt16
  brain : UInt16 → ℚ
  toBrain : ℚ → UInt16

/-- Patterns that stand for integers, on a machine with a fused multiply-add. -/
abbrev Narrowing.integers : Narrowing where
  fused := true
  ofBits u := u.toNat
  half u := u.toNat
  toHalf v := .ofNat ⌊v⌋.toNat
  brain u := u.toNat
  toBrain v := .ofNat ⌊v⌋.toNat

/-- The nearest integer, of two the one further from zero. -/
def nearestInt (a : ℚ) : ℤ := if 0 ≤ a then ⌊a + 1 / 2⌋ else -⌊-a + 1 / 2⌋

instance [n : Narrowing] : ExactScalar ℚ where
  mulAdd? := if n.fused then some fun a b c => a * b + c else none
  div a b := a / b
  lt a b := a < b
  isZero a := a = 0
  abs a := |a|
  ofInt n := n
  nearest := nearestInt
  floor a := ⌊a⌋
  ofBits := n.ofBits
  half := n.half
  toHalf := n.toHalf
  brain := n.brain
  toBrain := n.toBrain
  ofInt_eq _ := rfl
  mulAdd_eq {mulAdd} h a b c := by
    cases hfused : n.fused with
    | false => simp [hfused] at h
    | true =>
      obtain rfl : (fun a b c => a * b + c) = mulAdd := by simpa [hfused] using h
      rfl

/-- Zero rounds to zero, and eight and a half down to eight. -/
class ZeroScalar (α : Type) [ExactScalar α] : Prop where
  nearest_zero : Scalar.nearest (0 : α) = 0
  floor_half : Scalar.floor (Scalar.ofInt 17 / Scalar.ofInt 2 : α) = 8

instance [Narrowing] : ZeroScalar ℚ where
  nearest_zero := by
    show nearestInt 0 = 0
    norm_num [nearestInt]
  floor_half := by
    show ⌊((17 : ℤ) : ℚ) / ((2 : ℤ) : ℚ)⌋ = 8
    norm_num [Int.floor_eq_iff]

variable {α : Type} [ExactScalar α]

theorem Cell.decode_q8_zero (scale : α) : (Cell.q8 0 scale).decode = 0 := by
  simp [decode, ofInt_eq_cast]

theorem Cell.decode_q4_zero (scale : α) : (Cell.q4 8 scale).decode = 0 := by
  simp [decode, ofInt_eq_cast, Q4.signed]

variable [ZeroScalar α]

theorem Q8.code_zero (inverse : α) : code inverse 0 = 0 := by
  rw [code, zero_mul, ZeroScalar.nearest_zero]
  rfl

theorem Q4.encodeNibble_zero (inverse : α) : encodeNibble (0 * inverse) = 8 := by
  rw [encodeNibble, zero_mul, zero_add, ZeroScalar.floor_half]
  rfl

end BlockTensor
