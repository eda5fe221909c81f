import BlockTensor.Codec.Q8
import BlockTensor.Codec.Q4

/-!
# Encoded elements

`Elements α` is a run of elements in one encoding: the contents of a tensor, or
of a part of one. Quantized elements keep packed codes and scales in separate
buffers, and their capacity is whatever the codes hold.

* `Elements.get i` is the full-precision value of element `i`, and
  `Elements.read start n` the values of a range.
* `Elements.slice start n` is a sub-range. In a quantized encoding it starts on
  a block and runs to the end of the block it ends in.
* `Elements.zeros` decodes to zeros; its nibbles hold eight, the code zero.
-/

namespace BlockTensor

/-- A run of elements in one encoding. -/
inductive Elements (α : Type)
  | f32 (data : Array α)
  | f16 (data : Array UInt16)
  | bf16 (data : Array UInt16)
  | q8 (data : Array Int8) (scales : Array α)
  | q4 (data : Array UInt8) (scales : Array α)
  deriving DecidableEq

/-- The range of `len` elements from `start` on stays within `held` elements. -/
def checkRange (start len held : Nat) : Outcome Unit := do
  let stop ← Word.add start len
  if stop ≤ held then return () else .stop (.rangeEscapes start stop held)

/-- An offset is a multiple of the block size. -/
def checkAligned (offset : Nat) : Outcome Unit :=
  if offset % blockSize = 0 then .ok () else .fail (.blockMisaligned offset blockSize)

/-- A buffer of `bytes` bytes may exist. -/
def checkCapacity (bytes : Nat) : Outcome Unit :=
  if bytes < 0x8000000000000000 then .ok () else .stop .capacity

namespace Elements

variable {α : Type}

def dtype : Elements α → DType
  | f32 _ => .f32
  | f16 _ => .f16
  | bf16 _ => .bf16
  | q8 .. => .q8
  | q4 .. => .q4

/-- The number of elements that fit. -/
def size : Elements α → Nat
  | f32 data => data.size
  | f16 data | bf16 data => data.size
  | q8 data _ => data.size
  | q4 data _ => data.size * 2

/-- Bytes held, scales included. -/
def nbytes : Elements α → Nat
  | f32 data => data.size * 4
  | f16 data | bf16 data => data.size * 2
  | q8 data scales => data.size + scales.size * 4
  | q4 data scales => data.size + scales.size * 4

/-- The pattern of a packed byte whose two codes are zero. -/
def zeroNibbles : UInt8 := 0x88

/-- `n` elements that decode to zero, in whole blocks. -/
def zeros [Zero α] (d : DType) (n : Nat) : Elements α :=
  match d with
  | .f32 => f32 (.replicate n 0)
  | .f16 => f16 (.replicate n 0)
  | .bf16 => bf16 (.replicate n 0)
  | .q8 => q8 (.replicate (blocksOf n * blockSize) 0) (.replicate (blocksOf n) 0)
  | .q4 => q4 (.replicate (blocksOf n * q4BlockBytes) zeroNibbles) (.replicate (blocksOf n) 0)

/-- `zeros` in a new buffer. -/
def fresh [Zero α] (d : DType) (n : Nat) : Outcome (Elements α) := do
  checkCapacity (d.storageBytes n)
  return zeros d n

theorem dtype_zeros [Zero α] (d : DType) (n : Nat) : (zeros d n : Elements α).dtype = d := by
  cases d <;> rfl

/-- Fresh zeros hold whole blocks. -/
theorem size_zeros [Zero α] (d : DType) (n : Nat) :
    (zeros d n : Elements α).size = d.blocksFor n * d.blockSize := by
  cases d <;>
    simp [zeros, size, DType.blocksFor, DType.blockSize, DType.isQuantized, q4BlockBytes, blockSize,
      Nat.mul_assoc]

/-- The sub-range of `len` elements from `start` on. -/
def slice (e : Elements α) (start len : Nat) : Outcome (Elements α) := do
  checkRange start len e.size
  let stop := start + len
  let first := start / blockSize
  let last := blocksOf stop
  match e with
  | f32 data => return f32 (← Buffer.cut data start stop)
  | f16 data => return f16 (← Buffer.cut data start stop)
  | bf16 data => return bf16 (← Buffer.cut data start stop)
  | q8 data scales =>
    checkAligned start
    let data ← Buffer.cut data (first * blockSize) (last * blockSize)
    return q8 data (← Buffer.cut scales first last)
  | q4 data scales =>
    checkAligned start
    let data ← Buffer.cut data (first * q4BlockBytes) (last * q4BlockBytes)
    return q4 data (← Buffer.cut scales first last)

/-- The first `n` elements, in whole blocks. -/
def take (e : Elements α) (n : Nat) : Outcome (Elements α) :=
  match e with
  | f32 data => return f32 (← Buffer.cut data 0 n)
  | f16 data => return f16 (← Buffer.cut data 0 n)
  | bf16 data => return bf16 (← Buffer.cut data 0 n)
  | q8 data scales => do
    let data ← Buffer.cut data 0 (blocksOf n * blockSize)
    return q8 data (← Buffer.cut scales 0 (blocksOf n))
  | q4 data scales => do
    let data ← Buffer.cut data 0 (blocksOf n * q4BlockBytes)
    return q4 data (← Buffer.cut scales 0 (blocksOf n))

/-- The values of full-precision elements. -/
def asF32 (e : Elements α) : Outcome (Array α) :=
  match e with
  | f32 data => .ok data
  | e => .fail (.dtypeMismatch .f32 e.dtype)

variable [Scalar α]

/-- The full-precision value of element `i`. -/
def get (e : Elements α) (i : Nat) : Outcome α :=
  match e with
  | f32 data => Buffer.read data i
  | f16 data => return Scalar.half (← Buffer.read data i)
  | bf16 data => return Scalar.brain (← Buffer.read data i)
  | q8 data scales => Q8.value data scales i
  | q4 data scales => Q4.value data scales i

/-- The values of the `len` elements from `start` on. -/
def read (e : Elements α) (start len : Nat) : Outcome (Array α) := do
  let stop ← Word.add start len
  match e with
  | f32 data => Buffer.cut data start stop
  | f16 data => return (← Buffer.cut data start stop).map Scalar.half
  | bf16 data => return (← Buffer.cut data start stop).map Scalar.brain
  | q8 data scales => Buffer.generate start len (Q8.value data scales)
  | q4 data scales => Buffer.generate start len (Q4.value data scales)

end Elements

end BlockTensor
