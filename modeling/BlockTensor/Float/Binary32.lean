import BlockTensor.Scalar
import BlockTensor.Machine
import BlockTensor.Float.Binary16
import BlockTensor.Float.Brain

/-!
# Binary32 values

`Binary32` is a 32-bit pattern, so that copying a value keeps the sign and
payload of a NaN. Its arithmetic is IEEE 754 to nearest even, through
`Float32`. The roundings to integers are read off the pattern and are exact.

* `Binary32.mulAdd` multiplies and adds with one rounding. A machine with fused
  vectors has it for the lanes of its kernels (`Binary32.scalarOn`).
* `Binary32.ofHalf` decodes a half by two operations on binary32 values.
-/

namespace BlockTensor

/-- An IEEE binary32 value, kept as its pattern. -/
structure Binary32 where
  bits : UInt32
  deriving DecidableEq, Inhabited

open Float.Model

namespace Binary32

def toFloat (x : Binary32) : Float32 := Float32.ofBits x.bits

def ofFloat (x : Float32) : Binary32 := ⟨x.toBits⟩

/-- The magnitude bits. -/
def magnitude (x : Binary32) : Nat := x.bits.toNat % 0x80000000

def isNegative (x : Binary32) : Bool := 0x80000000 ≤ x.bits.toNat

def isNaN (x : Binary32) : Bool := 0x7f800000 < x.magnitude

/-- The significand of a finite value, whose magnitude is
`significand * 2 ^ (exponent - 149)`. -/
def significand (x : Binary32) : Nat :=
  if x.magnitude < 0x800000 then x.magnitude else 0x800000 + x.magnitude % 0x800000

def exponent (x : Binary32) : Nat := (x.magnitude >>> 23) - 1

/-- The sign of `x` applied to a magnitude. -/
def signed (x : Binary32) (n : Nat) : Int := if x.isNegative then -(n : Int) else n

/-- The magnitude of a finite `x` as an integer, with `up` added to its units
of `2 ^ -149` before they are cut off. -/
def cut (x : Binary32) (up : Nat → Nat) : Nat :=
  if 149 ≤ x.exponent then x.significand <<< (x.exponent - 149)
  else
    let k := 149 - x.exponent
    (x.significand + up k) >>> k

/-- The integer that `round` assigns to a finite value, `±2 ^ 128` to an
infinity and zero to a NaN. -/
def toIntBy (round : Binary32 → Int) (x : Binary32) : Int :=
  if x.isNaN then 0
  else if x.magnitude = 0x7f800000 then x.signed (1 <<< 128)
  else round x

/-- To the nearest integer, halves away from zero. -/
def nearest : Binary32 → Int :=
  toIntBy fun x => x.signed (x.cut fun k => 1 <<< (k - 1))

/-- To the greatest integer that is no larger. -/
def floor : Binary32 → Int :=
  toIntBy fun x => x.signed (x.cut fun k => if x.isNegative then (1 <<< k) - 1 else 0)

/-- The value nearest to an integer. -/
def ofInt (n : Int) : Binary32 :=
  let m := ofFloat n.natAbs.toUInt64.toFloat32
  if n < 0 then ⟨m.bits ^^^ 0x80000000⟩ else m

/-- The number as which arithmetic reads a pattern. -/
def unpacked (x : Binary32) : UnpackedFloat :=
  UnpackedFloat.unpack Format.binary32
    (UnpackedFloat.pack Format.binary32 (UnpackedFloat.unpack Format.binary32 x.bits.toBitVec))

/-- The product of two numbers, not rounded where it is finite. -/
def product : UnpackedFloat → UnpackedFloat → UnpackedFloat
  | .finite s₁ m₁ e₁ h₁, .finite s₂ m₂ e₂ h₂ =>
    .finite (s₁ * s₂) (m₁ * m₂) (e₁ + e₂) (Nat.mul_pos h₁ h₂)
  | x, y => UnpackedFloat.mul Format.binary32 x y

/-- The sum of a product and a number, rounded. -/
def addProduct : UnpackedFloat → UnpackedFloat → UnpackedFloat
  -- addition returns the other operand of a zero as it is
  | .finite s m e _, .zero _ => UnpackedFloat.round Format.binary32 s m e
  | x, y => UnpackedFloat.add Format.binary32 x y

/-- `a * b + c`, rounded once. -/
def mulAdd (a b c : Binary32) : Binary32 :=
  ⟨.ofBitVec (UnpackedFloat.pack Format.binary32
    (addProduct (product a.unpacked b.unpacked) c.unpacked))⟩

/-- The value of a half. The fields of a normal one, and of one that is not
finite, are moved to their places under a larger exponent, and the number is
scaled back by `2 ^ -112`. The fraction of a subnormal one becomes that of a
number from `0.5` on, and `0.5` is taken off. -/
def ofHalf (h : UInt16) : Binary32 :=
  let w := h.toUInt32 <<< 16
  let sign := w &&& 0x80000000
  let twice := w + w
  let normal := Float32.ofBits ((twice >>> 4) + 0x70000000) * Float32.ofBits 0x07800000
  let subnormal := Float32.ofBits ((twice >>> 17) ||| 0x3f000000) - Float32.ofBits 0x3f000000
  ⟨sign ||| if twice < 0x08000000 then subnormal.toBits else normal.toBits⟩

/-- Binary32 arithmetic on a machine. -/
@[reducible] def scalarOn (m : Machine) : Scalar Binary32 where
  mulAdd? := if m.hasFusedVectors then some mulAdd else none
  zero := ⟨0⟩
  add a b := ofFloat (a.toFloat + b.toFloat)
  mul a b := ofFloat (a.toFloat * b.toFloat)
  div a b := ofFloat (a.toFloat / b.toFloat)
  neg a := ⟨a.bits ^^^ 0x80000000⟩
  lt a b := a.toFloat < b.toFloat
  isZero a := a.magnitude = 0
  abs a := ⟨a.bits &&& 0x7fffffff⟩
  ofInt := ofInt
  nearest := nearest
  floor := floor
  ofBits := Binary32.mk
  half := ofHalf
  toHalf a := Binary16.narrow a.bits
  brain b := ⟨Brain.widen b⟩
  toBrain a := Brain.narrow a.bits

/-- Without fused vectors there is no kernel that leaves out a rounding. -/
theorem separable_scalarOn {m : Machine} (h : m.hasFusedVectors = false) :
    letI := scalarOn m
    Scalar.Separable Binary32 := by
  let _ := scalarOn m
  refine Scalar.separable_of_none ?_
  show (if m.hasFusedVectors then some mulAdd else none) = none
  rw [h]
  rfl

/-- The arithmetic of every kernel on a machine without fused vectors. -/
instance : Scalar Binary32 := scalarOn (.scalar "x86_64" "linux")

example : nearest ⟨0x40200000⟩ = 3 ∧ nearest ⟨0xc0200000⟩ = -3 ∧ nearest ⟨0x3effffff⟩ = 0 := by
  decide

example : ofHalf 0x3c00 = ⟨0x3f800000⟩ ∧ ofHalf 0x0001 = ⟨0x33800000⟩ ∧
    ofHalf 0x83ff = ⟨0xb87fc000⟩ := by
  decide +kernel

example : floor ⟨0xbf000000⟩ = -1 ∧ floor ⟨0x40200000⟩ = 2 ∧ floor ⟨0x4b000001⟩ = 8388609 := by
  decide

end Binary32

end BlockTensor
