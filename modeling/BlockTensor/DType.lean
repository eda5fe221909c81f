/-!
# Element encodings

A tensor stores its elements in one of five encodings: three floats, and two
block encodings in which 32 consecutive elements share one scale. Every
encoding is a block encoding with `DType.blockSize` elements to a block; a
float encoding has blocks of one.

* `DType.blocksFor n` is the least number of blocks that hold `n` elements.
* `DType.tag` is the one tag of an encoding in weight files, and `ofTag?_tag`
  says that it reads back. `DType.parse` (`Outcome.lean`) reads either case.
-/

namespace BlockTensor

/-- Elements that share one scale in the quantized encodings. -/
def blockSize : Nat := 32

/-- Packed bytes of one block of 4-bit elements. -/
def q4BlockBytes : Nat := blockSize / 2

/-- The number of blocks of 32 that hold `n` elements. -/
def blocksOf (n : Nat) : Nat := (n + 31) / 32

/-- How the elements of a tensor are encoded. -/
inductive DType
  /-- IEEE binary32. -/
  | f32
  /-- IEEE binary16 patterns. -/
  | f16
  /-- Brain-float patterns. -/
  | bf16
  /-- Signed bytes, 32 to a scale. -/
  | q8
  /-- Nibbles, 32 to a scale. -/
  | q4
  deriving DecidableEq, Inhabited, Repr

namespace DType

def all : List DType := [f32, f16, bf16, q8, q4]

def isQuantized : DType → Bool
  | f32 | f16 | bf16 => false
  | q8 | q4 => true

/-- Elements per block. -/
def blockSize (d : DType) : Nat :=
  if d.isQuantized then BlockTensor.blockSize else 1

/-- Bytes of one element of a float encoding, packed bytes of one block of a
quantized one. -/
def unitBytes : DType → Nat
  | f32 => 4
  | f16 | bf16 => 2
  | q8 => BlockTensor.blockSize
  | q4 => q4BlockBytes

/-- The number of blocks that hold `n` elements. -/
def blocksFor (d : DType) (n : Nat) : Nat :=
  if d.isQuantized then blocksOf n else n

/-- Bytes of encoded data for `n` elements, scales excluded. -/
def dataBytes (d : DType) (n : Nat) : Nat :=
  d.blocksFor n * d.unitBytes

/-- Bytes of the scales for `n` elements. -/
def scaleBytes (d : DType) (n : Nat) : Nat :=
  if d.isQuantized then d.blocksFor n * 4 else 0

/-- Bytes that back `n` elements, scales included. -/
def storageBytes (d : DType) (n : Nat) : Nat :=
  d.dataBytes n + d.scaleBytes n

/-- The tag of the encoding in weight files. -/
def tag : DType → String
  | f32 => "F32"
  | f16 => "F16"
  | bf16 => "BF16"
  | q8 => "I8"
  | q4 => "Q4"

/-- The display name. -/
def name : DType → String
  | f32 => "f32"
  | f16 => "f16"
  | bf16 => "bf16"
  | q8 => "q8"
  | q4 => "q4"

instance : ToString DType := ⟨name⟩

/-- The encoding of an upper-case tag; `Q8` is another name of `I8`. -/
def ofTag? : String → Option DType
  | "F32" => some f32
  | "F16" => some f16
  | "BF16" => some bf16
  | "I8" | "Q8" => some q8
  | "Q4" => some q4
  | _ => none

/-- An ASCII lower-case letter as its capital, any other character itself. -/
def upperAscii (s : String) : String :=
  s.map fun c => if 'a' ≤ c ∧ c ≤ 'z' then Char.ofNat (c.toNat - 32) else c

theorem blocksFor_le (d : DType) (n : Nat) : n ≤ d.blocksFor n * d.blockSize := by
  cases d <;> simp [blocksFor, blockSize, isQuantized, blocksOf, BlockTensor.blockSize] <;> omega

/-- Whole blocks hold just their elements. -/
theorem blocksFor_mul_of_mod {d : DType} {n : Nat} (h : n % d.blockSize = 0) :
    d.blocksFor n * d.blockSize = n := by
  cases d <;> simp_all [blocksFor, blockSize, isQuantized, blocksOf, BlockTensor.blockSize] <;>
    omega

theorem ofTag?_tag (d : DType) : ofTag? d.tag = some d := by
  cases d <;> rfl

end DType

end BlockTensor
