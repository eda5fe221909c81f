/-!
# Machines

What is known of a machine, and what follows from it: the width of the portable
kernels, the name of the best tier, the flags of native kernel calls.
-/

namespace BlockTensor

/-- The widest usable vector register. -/
inductive VectorWidth
  | none
  | w128
  | w256
  | w512
  deriving DecidableEq, Inhabited

namespace VectorWidth

def bits : VectorWidth → Nat
  | none => 0
  | w128 => 128
  | w256 => 256
  | w512 => 512

/-- Full-precision values per register. -/
def lanes (w : VectorWidth) : Nat := max 1 (w.bits / 32)

def name : VectorWidth → String
  | none => "none"
  | w => s!"{w.bits}-bit"

end VectorWidth

/-- A machine. -/
structure Machine where
  width : VectorWidth
  arch : String
  os : String
  avx2 : Bool
  avx512f : Bool
  fma : Bool
  f16c : Bool
  neon : Bool
  deriving DecidableEq

namespace Machine

/-- A machine without vector units. -/
def scalar (arch os : String) : Machine :=
  ⟨.none, arch, os, false, false, false, false, false⟩

/-- The width of the portable kernels, which use no wider registers than 256
bits. -/
def kernelWidth (m : Machine) : VectorWidth :=
  match m.width with
  | .w512 => .w256
  | w => w

def hasVectors (m : Machine) : Bool := m.width ≠ .none

/-- The best tier of the portable kernels. -/
def tier (m : Machine) : String :=
  if m.avx2 then "AVX2"
  else if m.neon then "NEON"
  else if m.hasVectors then "SSE2"
  else "scalar"

def hasFusedVectors (m : Machine) : Bool := m.avx2 && m.fma

/-- The flags of every native kernel call: 2 for half conversion in hardware, 4
for 512-bit registers, 8 for Apple silicon. -/
def nativeFlags (m : Machine) : Nat :=
  (if m.f16c then 2 else 0) + (if m.width = .w512 then 4 else 0)
    + (if m.os = "macos" ∧ m.arch = "aarch64" then 8 else 0)

/-- The one-line description. -/
def summary (m : Machine) : String :=
  s!"{m.tier} ({m.os}/{m.arch}, vector width {m.width.name}, kernels {m.kernelWidth.name})"

theorem kernelWidth_bits (m : Machine) : m.kernelWidth.bits = min m.width.bits 256 := by
  unfold kernelWidth
  cases m.width <;> rfl

end Machine

end BlockTensor
