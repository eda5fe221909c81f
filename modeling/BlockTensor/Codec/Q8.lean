import BlockTensor.Scalar
import BlockTensor.Buffer

/-!
# The signed-byte block codec

A block is 32 signed codes and one scale; element `i` is code times scale. The
scale is the block's greatest magnitude divided by 127, so the codes span
`-127 … 127`. A block of zeros has scale zero.

* `Q8.encodeBlock` encodes up to 32 values and pads the block with zero codes.
* `Q8.quantize` fills whole buffers, and needs room for the source in the scales
  and for the scales' blocks in the data.
-/

namespace BlockTensor.Q8

variable {α : Type} [Scalar α]

/-- A code, clamped to `-127 … 127`. -/
def clamp (n : Int) : Int8 := Int8.ofInt (max (-127) (min 127 n))

/-- The scale of a block with greatest magnitude `m`. -/
def scale (m : α) : α :=
  if Scalar.lt 0 m then m / Scalar.ofInt 127 else 0

/-- What a value is multiplied by to get its code. -/
def inverseScale (m : α) : α :=
  if Scalar.lt 0 m then Scalar.ofInt 127 / m else 0

/-- The code of `v` under an inverse scale. -/
def code (inverse v : α) : Int8 := clamp (Scalar.nearest (v * inverse))

/-- The codes and the scale of one block. -/
def encodeBlock (values : Array α) : Array Int8 × α :=
  let m := Scalar.greatest values.toList
  (Array.ofFn fun i : Fin blockSize =>
    match values[i.val]? with
    | some v => code (inverseScale m) v
    | none => 0,
   scale m)

/-- `data` and `scales` with block `b` of `src` encoded into them. -/
def writeBlock (src : Array α) (buffers : Array Int8 × Array α) (b : Nat) :
    Array Int8 × Array α :=
  let block := encodeBlock (Buffer.chunk src blockSize b)
  (Buffer.blit buffers.1 (b * blockSize) block.1, buffers.2.setIfInBounds b block.2)

/-- Encode `src` into as many blocks as there are scales. -/
def quantize (src : Array α) (data : Array Int8) (scales : Array α) :
    Outcome (Array Int8 × Array α) :=
  if src.size ≤ scales.size * blockSize ∧ scales.size * blockSize ≤ data.size then
    .ok ((List.range scales.size).foldl (writeBlock src) (data, scales))
  else .stop .assertion

/-- Element `i`. -/
def value (data : Array Int8) (scales : Array α) (i : Nat) : Outcome α := do
  let q ← Buffer.read data i
  let s ← Buffer.read scales (i / blockSize)
  return Scalar.ofInt q.toInt * s

/-- The first `n` elements. -/
def dequantize (data : Array Int8) (scales : Array α) (n : Nat) : Outcome (Array α) :=
  Buffer.generate 0 n (value data scales)

theorem size_encodeBlock (values : Array α) : (encodeBlock values).1.size = blockSize := by
  simp [encodeBlock]

end BlockTensor.Q8
