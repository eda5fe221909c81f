import BlockTensor.Backend.Descriptor
import BlockTensor.Backend.Vector.Lanes
import BlockTensor.Elements.Basic

/-!
# Vector kernels

Dot products of encoded windows, by the kernels on values and on integer codes.

* `Kernel.dotCodes` sums the products of integer codes, as integers and lane by lane.
* `Kernel.dotBlocks` multiplies two quantized windows block by block: the integer
  dot product of the codes times both scales.
* `Kernel.dot` picks the kernel for a pair of encodings, and has none for a pair
  outside `Kernel.pairs`. A quantized window that does not start on a block is
  decoded first.
-/

namespace BlockTensor.Kernel

/-- The pairs of encodings with a kernel, each in either order. -/
def pairs : List (DType × DType) :=
  [(.f32, .f32), (.f32, .f16), (.f32, .bf16), (.f16, .f16), (.bf16, .bf16),
   (.f32, .q8), (.f32, .q4), (.q8, .q8), (.q8, .q4)]

def supports (a b : DType) : Bool := Descriptor.covers pairs a b

/-- Elements that are decoded at a time. -/
def run : Nat := 4 * blockSize

/-- The sum that lane `l` of `whole` steps accumulates. -/
def codeLane (a b : Array Int8) (whole l : Nat) : Int :=
  (List.range whole).foldl
    (fun acc k => acc + (a.getD (k * lanes + l) 0).toInt * (b.getD (k * lanes + l) 0).toInt) 0

/-- The integer dot product of two blocks of codes. -/
def dotCodes (a b : Array Int8) : Int :=
  ((List.range lanes).map (codeLane a b (a.size / lanes))).foldl (· + ·) 0

/-- The 32 codes packed in 16 bytes. -/
def unpack (bytes : Array UInt8) : Array Int8 :=
  Array.ofFn fun j : Fin blockSize =>
    if j < q4BlockBytes then (bytes.getD j 0 &&& (0x0f : UInt8)).toInt8 - 8
    else (bytes.getD (j - q4BlockBytes) 0 >>> 4).toInt8 - 8

variable {α : Type} [Scalar α]

/-- The codes and the scale of block `b` of quantized elements. -/
def block (q : Elements α) (b : Nat) : Outcome (Array Int8 × α) :=
  match q with
  | .q8 data scales => do
    let codes ← Buffer.cut data (b * blockSize) ((b + 1) * blockSize)
    return (codes, ← Buffer.read scales b)
  | .q4 data scales => do
    let bytes ← Buffer.cut data (b * q4BlockBytes) ((b + 1) * q4BlockBytes)
    return (unpack bytes, ← Buffer.read scales b)
  | _ => .stop .assertion

/-- The dot product of a signed-byte window and a quantized one, both from a
block on. The last block of the windows may be a part of one. -/
def dotBlocks (data : Array Int8) (scales : Array α) (aStart : Nat) (b : Elements α)
    (bStart len : Nat) : Outcome α := do
  let full := len / blockSize
  let head ← (List.range full).foldlM (fun acc k => do
    let x ← block (.q8 data scales) (aStart / blockSize + k)
    let y ← block b (bStart / blockSize + k)
    return acc + Scalar.ofInt (dotCodes x.1 y.1) * x.2 * y.2) 0
  (List.range' (full * blockSize) (len - full * blockSize)).foldlM (fun acc i => do
    let x ← Q8.value data scales (aStart + i)
    let y ← b.get (bStart + i)
    return acc + x * y) head

/-- The dot product of values and a quantized window that starts on a block. -/
def dotQuantized (x : Array α) (q : Elements α) (qStart : Nat) : Outcome α :=
  (List.range (blocksOf x.size)).foldlM (fun acc k => do
    let values := Buffer.chunk x blockSize k
    let decoded ← q.read ((qStart / blockSize + k) * blockSize) values.size
    return acc + dotValues values decoded) 0

/-- The dot product of two windows, decoded run by run. -/
def dotDecoded (a : Elements α) (aStart : Nat) (b : Elements α) (bStart len : Nat) : Outcome α :=
  (List.range ((len + (run - 1)) / run)).foldlM (fun acc k => do
    let n := min run (len - k * run)
    let x ← a.read (aStart + k * run) n
    let y ← b.read (bStart + k * run) n
    return acc + dotValues x y) 0

/-- The dot product of two windows of a supported pair. -/
def dotSupported (a : Elements α) (aStart : Nat) (b : Elements α) (bStart len : Nat) :
    Outcome α :=
  let aligned (start : Nat) : Bool := start % blockSize = 0
  match a, b with
  | .f32 x, .f32 y => do
    let x ← Buffer.cut x aStart (aStart + len)
    return dotValues x (← Buffer.cut y bStart (bStart + len))
  | .q8 data scales, b =>
    match b with
    | .q8 .. | .q4 .. =>
      if aligned aStart ∧ aligned bStart then dotBlocks data scales aStart b bStart len
      else dotDecoded a aStart b bStart len
    | .f32 x =>
      if aligned aStart then do dotQuantized (← Buffer.cut x bStart (bStart + len)) a aStart
      else dotDecoded a aStart b bStart len
    | _ => dotDecoded a aStart b bStart len
  | .q4 .., b =>
    match b with
    | .q8 data scales =>
      if aligned aStart ∧ aligned bStart then dotBlocks data scales bStart a aStart len
      else dotDecoded a aStart b bStart len
    | .f32 x =>
      if aligned aStart then do dotQuantized (← Buffer.cut x bStart (bStart + len)) a aStart
      else dotDecoded a aStart b bStart len
    | _ => dotDecoded a aStart b bStart len
  | .f32 x, b =>
    if b.dtype.isQuantized ∧ aligned bStart then do
      dotQuantized (← Buffer.cut x aStart (aStart + len)) b bStart
    else dotDecoded a aStart b bStart len
  | a, b => dotDecoded a aStart b bStart len

/-- The dot product of two windows, none for a pair without a kernel. -/
def dot (a : Elements α) (aStart : Nat) (b : Elements α) (bStart len : Nat) :
    Outcome (Option α) := do
  if supports a.dtype b.dtype then return some (← dotSupported a aStart b bStart len)
  else return none

end BlockTensor.Kernel
