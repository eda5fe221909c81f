/-!
# The arithmetic of full-precision values

Everything that computes with decoded elements is written over `Scalar`, the
operations that the codecs and kernels use and nothing else. The running
engine reads it as IEEE binary32 (`Float/Binary32.lean`); a law about the order
of additions or the error of a codec may read the same definitions over exact
numbers.

* `Scalar.sumFrom`, `Scalar.sum`: left-to-right sums. `sum` starts from `-0`,
  the neutral element of IEEE addition, so that a sum of one value is that
  value.
* `Scalar.Separable`: a fused multiply-add, if there is one, rounds as the two
  operations do.
* `Scalar.abs`, `Scalar.greatest`: magnitude, and the greatest magnitude of a
  list of values, which skips what compares with nothing.
-/

namespace BlockTensor

/-- The operations on full-precision values. `lt` is the numeric order (false
for incomparable values), `nearest` rounds halves away from zero, and both
roundings saturate and send what is not a number to zero. `half` and `brain`
decode the two 16-bit encodings; `toHalf` and `toBrain` encode them. `mulAdd?` is
`a * b + c` as the vector unit computes it at once, none where the machine has no
such instruction. -/
class Scalar (α : Type) extends Zero α, Add α, Mul α, Div α, Neg α where
  mulAdd? : Option (α → α → α → α)
  lt : α → α → Bool
  isZero : α → Bool
  abs : α → α
  ofInt : Int → α
  nearest : α → Int
  floor : α → Int
  ofBits : UInt32 → α
  half : UInt16 → α
  toHalf : α → UInt16
  brain : UInt16 → α
  toBrain : α → UInt16

namespace Scalar

variable {α : Type} [Scalar α]

/-- The left-to-right sum of `xs`, started at `a`. -/
def sumFrom (a : α) (xs : List α) : α :=
  xs.foldl (· + ·) a

/-- The left-to-right sum of `xs`, started at negative zero. -/
def sum (xs : List α) : α :=
  sumFrom (-0) xs

/-- The larger of two values; a second value that is not a number is skipped. -/
def larger (a b : α) : α :=
  if lt a b then b else a

/-- The greatest magnitude among `xs`, zero for none. -/
def greatest (xs : List α) : α :=
  xs.foldl (fun m x => larger m (abs x)) 0

/-- Multiplying and adding at once gives what the two give one after the other. On a
machine that cannot do them at once there is nothing to compare. -/
def Separable (α : Type) [Scalar α] : Prop :=
  ∀ mulAdd ∈ (mulAdd? : Option (α → α → α → α)), ∀ a b c, mulAdd a b c = a * b + c

theorem separable_of_none (h : (mulAdd? : Option (α → α → α → α)) = none) : Separable α := by
  intro mulAdd hmulAdd
  rw [h] at hmulAdd
  cases hmulAdd

end Scalar

end BlockTensor
