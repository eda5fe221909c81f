import BlockTensor.Scalar
import BlockTensor.Buffer

/-!
# The nibble block codec

A block is 16 bytes and one scale. Value `j < 16` of a block is the low nibble
of byte `j`, value `j + 16` the high nibble of the same byte. A nibble holds
`q + 8` for a code `q` in `-8 … 7`; element `i` is code times scale.

The scale is the block's value of greatest magnitude divided by `-8`, so that
value encodes exactly, as `-8`.

* `Q4.get` and `Q4.set` read and write one code; `set` clamps.
* `Q4.encodeBlock` encodes up to 32 values and pads the block with zeros.
* `Q4.quantize` fills whole buffers.
-/

namespace BlockTensor.Q4

variable {α : Type} [Scalar α]

/-- Where in its block an element sits. -/
def slot (i : Nat) : Nat := i % blockSize

/-- The byte that holds element `i`. -/
def byteOf (i : Nat) : Nat := i / blockSize * q4BlockBytes + slot i % q4BlockBytes

/-- Whether element `i` is the low nibble of its byte. -/
def isLow (i : Nat) : Bool := slot i < q4BlockBytes

/-- The bits of the low nibble. -/
def lowMask : UInt8 := 0x0f

/-- The nibble of element `i` in its byte. -/
def nibble (i : Nat) (byte : UInt8) : UInt8 :=
  if isLow i then byte &&& lowMask else byte >>> 4

/-- The byte with the nibble of element `i` replaced. -/
def withNibble (i : Nat) (byte n : UInt8) : UInt8 :=
  if isLow i then (byte &&& ~~~lowMask) ||| n else (byte &&& lowMask) ||| (n <<< 4)

/-- The code of a nibble. -/
def signed (n : UInt8) : Int := n.toNat - 8

/-- The nibble of a code, clamped to `-8 … 7`. -/
def unsigned (q : Int) : UInt8 := UInt8.ofNat (max (-8) (min 7 q) + 8).toNat

/-- The code of element `i`. -/
def get (data : Array UInt8) (i : Nat) : Outcome Int := do
  let byte ← Buffer.read data (byteOf i)
  return signed (nibble i byte)

/-- `data` with the code of element `i` replaced. -/
def set (data : Array UInt8) (i : Nat) (q : Int) : Outcome (Array UInt8) := do
  let byte ← Buffer.read data (byteOf i)
  return data.setIfInBounds (byteOf i) (withNibble i byte (unsigned q))

/-- The value of greatest magnitude, the first of several, zero for none. -/
def dominant (values : List α) : α :=
  values.foldl (fun m v => if Scalar.lt (Scalar.abs m) (Scalar.abs v) then v else m) 0

/-- The scale of a block with dominant value `m`. -/
def scale (m : α) : α := m / Scalar.ofInt (-8)

/-- What a value is multiplied by to get its code. -/
def inverseScale (s : α) : α :=
  if Scalar.isZero s then 0 else Scalar.ofInt 1 / s

/-- The nibble of a scaled value: `x + 8` rounded to nearest, within `0 … 15`. -/
def encodeNibble (x : α) : UInt8 :=
  UInt8.ofNat (max 0 (min 15 (Scalar.floor (x + Scalar.ofInt 17 / Scalar.ofInt 2)))).toNat

/-- The packed bytes and the scale of one block. -/
def encodeBlock (values : Array α) : Array UInt8 × α :=
  let value := fun j : Nat => values.getD j 0
  let s := scale (dominant ((List.range blockSize).map value))
  let inverse := inverseScale s
  (Array.ofFn fun j : Fin q4BlockBytes =>
    encodeNibble (value j * inverse) ||| (encodeNibble (value (j + q4BlockBytes) * inverse) <<< 4),
   s)

/-- `data` and `scales` with block `b` of `src` encoded into them. -/
def writeBlock (src : Array α) (buffers : Array UInt8 × Array α) (b : Nat) :
    Array UInt8 × Array α :=
  let block := encodeBlock (Buffer.chunk src blockSize b)
  (Buffer.blit buffers.1 (b * q4BlockBytes) block.1, buffers.2.setIfInBounds b block.2)

/-- Encode `src` into as many blocks as there are scales. -/
def quantize (src : Array α) (data : Array UInt8) (scales : Array α) :
    Outcome (Array UInt8 × Array α) :=
  if src.size ≤ scales.size * blockSize ∧ scales.size * q4BlockBytes ≤ data.size then
    .ok ((List.range scales.size).foldl (writeBlock src) (data, scales))
  else .stop .assertion

/-- Element `i`. -/
def value (data : Array UInt8) (scales : Array α) (i : Nat) : Outcome α := do
  let q ← get data i
  let s ← Buffer.read scales (i / blockSize)
  return Scalar.ofInt q * s

/-- The first `n` elements. -/
def dequantize (data : Array UInt8) (scales : Array α) (n : Nat) : Outcome (Array α) :=
  Buffer.generate 0 n (value data scales)

theorem size_encodeBlock (values : Array α) : (encodeBlock values).1.size = q4BlockBytes := by
  simp [encodeBlock]

end BlockTensor.Q4
