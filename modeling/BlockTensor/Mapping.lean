import BlockTensor.Elements.Basic

/-!
# Mapped elements

Weights may stay in the byte image of a file. A `Mapping` names the region of
the image that holds the data of a number of elements and, for a quantized
encoding, the region of their scales; words are little-endian.

* `Mapping.make` checks that the regions lie inside the image and are aligned to
  the size of their words (the image itself starts on a page).
* `Mapping.load` cuts the regions out of the image and casts them to words, and
  aborts where it cannot.
* `Mapping.elements` decodes the regions; on a checked mapping nothing is out of
  bounds, and it is what `load` gives.
-/

namespace BlockTensor

/-- Elements inside a byte image. -/
structure Mapping where
  bytes : Array UInt8
  dtype : DType
  count : Nat
  dataOffset : Nat
  scalesOffset : Option Nat

namespace Mapping

/-- Byte `i` of an image. -/
def byte (bytes : Array UInt8) (i : Nat) : UInt8 := bytes.getD i 0

/-- The little-endian 16-bit word at byte `i`. -/
def word16 (bytes : Array UInt8) (i : Nat) : UInt16 :=
  (byte bytes i).toUInt16 ||| ((byte bytes (i + 1)).toUInt16 <<< 8)

/-- The little-endian 32-bit word at byte `i`. -/
def word32 (bytes : Array UInt8) (i : Nat) : UInt32 :=
  (word16 bytes i).toUInt32 ||| ((word16 bytes (i + 2)).toUInt32 <<< 16)

/-- The region of `len` bytes from `offset` on lies inside the image. -/
def checkRegion (bytes : Array UInt8) (offset len : Nat) : Outcome Unit := do
  let stop ← Word.add offset len
  if stop ≤ bytes.size then return ()
  else .fail (.invalidShape (.mappedRegion offset len bytes.size))

/-- A region starts at a multiple of its word size. -/
def checkWord (offset size : Nat) : Outcome Unit :=
  if offset % size = 0 then .ok () else .fail (.invalidShape .mappedUnaligned)

/-- The size of the words in the data region. -/
def wordSize : DType → Nat
  | .f32 => 4
  | .f16 | .bf16 => 2
  | .q8 | .q4 => 1

/-- The mapping of `count` elements, if its regions are sound. -/
def make (bytes : Array UInt8) (dtype : DType) (count dataOffset : Nat)
    (scalesOffset : Option Nat) : Outcome Mapping := do
  if dtype.isQuantized ∧ scalesOffset = none then
    .fail (.invalidShape (.missingScales dtype))
  if ¬dtype.isQuantized ∧ scalesOffset ≠ none then
    .fail (.invalidShape (.unwantedScales dtype))
  let blocks := dtype.blocksFor count
  let len ← Word.mul blocks dtype.unitBytes
  checkRegion bytes dataOffset len
  if let some offset := scalesOffset then
    let len ← Word.mul blocks 4
    checkRegion bytes offset len
  checkWord dataOffset (wordSize dtype)
  if let some offset := scalesOffset then
    checkWord offset 4
  return ⟨bytes, dtype, count, dataOffset, scalesOffset⟩

variable (m : Mapping)

/-- Bytes that back the mapping, scales included. -/
def nbytes : Nat := m.dtype.storageBytes m.count

/-- `n` bytes from `offset` on. -/
def data8 (offset n : Nat) : Array UInt8 :=
  (Array.range n).map fun i => byte m.bytes (offset + i)

def data16 : Array UInt16 :=
  (Array.range m.count).map fun i => word16 m.bytes (m.dataOffset + 2 * i)

variable {α : Type} [Scalar α]

/-- `n` full-precision values from byte `offset` on. -/
def data32 (offset n : Nat) : Array α :=
  (Array.range n).map fun i => Scalar.ofBits (word32 m.bytes (offset + 4 * i))

/-- The scales, one to a block. -/
def scales : Array α :=
  m.data32 (m.scalesOffset.getD 0) (m.dtype.blocksFor m.count)

/-- The decoded regions. -/
def elements : Elements α :=
  match m.dtype with
  | .f32 => .f32 (m.data32 m.dataOffset m.count)
  | .f16 => .f16 m.data16
  | .bf16 => .bf16 m.data16
  | .q8 => .q8 ((m.data8 m.dataOffset (blocksOf m.count * blockSize)).map (·.toInt8)) m.scales
  | .q4 => .q4 (m.data8 m.dataOffset (blocksOf m.count * q4BlockBytes)) m.scales

/-- The `len` bytes from `offset` on, cut out of an image. -/
def region (bytes : Array UInt8) (offset len : Nat) : Outcome (Array UInt8) := do
  Buffer.cut bytes offset (← Word.add offset len)

/-- A region that starts at `offset`, as words of `size` bytes: it must start at a
multiple of their size and hold a whole number of them. -/
def words {β : Type} (size : Nat) (word : Array UInt8 → Nat → β) (offset : Nat)
    (region : Array UInt8) : Outcome (Array β) :=
  if offset % size = 0 ∧ region.size % size = 0 then
    .ok ((Array.range (region.size / size)).map fun i => word region (size * i))
  else .stop .assertion

/-- The full-precision value at byte `i`. -/
def float (bytes : Array UInt8) (i : Nat) : α := Scalar.ofBits (word32 bytes i)

/-- The scales, read through a checked region and a cast. -/
def loadScales : Outcome (Array α) :=
  match m.scalesOffset with
  | none => .ok #[]
  | some offset => do
    words 4 float offset (← region m.bytes offset (← Word.mul (m.dtype.blocksFor m.count) 4))

/-- The elements, read through checked regions and casts. -/
def load : Outcome (Elements α) := do
  let len ← Word.mul (m.dtype.blocksFor m.count) m.dtype.unitBytes
  let data ← region m.bytes m.dataOffset len
  let scales ← m.loadScales
  match m.dtype with
  | .f32 => return .f32 (← words 4 float m.dataOffset data)
  | .f16 => return .f16 (← words 2 word16 m.dataOffset data)
  | .bf16 => return .bf16 (← words 2 word16 m.dataOffset data)
  | .q8 => return .q8 (data.map (·.toInt8)) scales
  | .q4 => return .q4 data scales

end Mapping

end BlockTensor
