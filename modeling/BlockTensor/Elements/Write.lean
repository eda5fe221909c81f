import BlockTensor.Elements.Basic

/-!
# Writing elements

Writes encode values into a range of elements, copies move encoded elements
without decoding them.

* `Elements.write start values` encodes `values` from element `start` on. A
  quantized write decodes each block it touches, replaces the written values and
  encodes the block again, so the other values of the block may shift by up to
  one step; a block it does not touch keeps its codes and its scale.
* `Elements.copyRaw` moves codes and scales between elements of one encoding,
  whole blocks at a time in a quantized one.
* `Elements.encode` writes values into fresh zeros.
-/

namespace BlockTensor.Elements

variable {α : Type}

/-- Replace full-precision element `i`. -/
def store (i : Nat) (v : α) : Update (Elements α) Unit := fun e =>
  match e with
  | f32 data =>
    if i < data.size then .ok () (f32 (data.setIfInBounds i v))
    else .error (.abort .outOfBounds) e
  | e => .error (.error (.dtypeMismatch .f32 e.dtype)) e

/-- Zero every element. -/
def fillZero [Zero α] : Elements α → Elements α
  | f32 data => f32 (.replicate data.size 0)
  | f16 data => f16 (.replicate data.size 0)
  | bf16 data => bf16 (.replicate data.size 0)
  | q8 data scales => q8 (.replicate data.size 0) (.replicate scales.size 0)
  | q4 data scales => q4 (.replicate data.size zeroNibbles) (.replicate scales.size 0)

/-- The offsets and the length of a copy of quantized elements are whole
blocks. -/
def checkSpan (start source len : Nat) : Outcome Unit := do
  checkAligned start
  checkAligned source
  checkAligned (start + len)

/-- Write a run of scales over others; both runs must exist. -/
def copyScales (scales : Array α) (start : Nat) (src : Array α) (source n : Nat) :
    Outcome (Array α) := do
  let _ ← Buffer.cut scales start (start + n)
  return Buffer.blit scales start (← Buffer.cut src source (source + n))

/-- Copy `len` encoded elements of `src` from `source` on, to `start` and after. -/
def copyRaw (start : Nat) (src : Elements α) (source len : Nat) :
    Update (Elements α) Unit := fun e =>
  let ready : Outcome Unit := do
    if src.dtype ≠ e.dtype then .fail (.dtypeMismatch e.dtype src.dtype) else pure ()
    checkRange start len e.size
    checkRange source len src.size
    if e.dtype.isQuantized then checkSpan start source len else pure ()
  match ready with
  | .error f => .error f e
  | .ok _ =>
    let blocks := len / blockSize
    match e, src with
    | f32 data, f32 new =>
      .ok () (f32 (Buffer.blit data start (new.extract source (source + len))))
    | f16 data, f16 new =>
      .ok () (f16 (Buffer.blit data start (new.extract source (source + len))))
    | bf16 data, bf16 new =>
      .ok () (bf16 (Buffer.blit data start (new.extract source (source + len))))
    | q8 data scales, q8 new newScales =>
      let data := Buffer.blit data start (new.extract source (source + len))
      match copyScales scales (start / blockSize) newScales (source / blockSize) blocks with
      | .ok scales => .ok () (q8 data scales)
      | .error f => .error f (q8 data scales)
    | q4 data scales, q4 new newScales =>
      let data := Buffer.blit data (start / 2) (new.extract (source / 2) ((source + len) / 2))
      match copyScales scales (start / blockSize) newScales (source / blockSize) blocks with
      | .ok scales => .ok () (q4 data scales)
      | .error f => .error f (q4 data scales)
    | e, _ => .ok () e

variable [Scalar α]

/-- The values of a block that starts at element `base`, with those of `src`,
which start at element `start`, in place of the old ones. -/
def mergeBlock (base start : Nat) (src old : Array α) : Array α :=
  old.mapIdx fun j v => if start ≤ base + j then src.getD (base + j - start) v else v

/-- Replace block `b` of quantized elements by 32 values. -/
def setBlock (b : Nat) (values : Array α) : Elements α → Elements α
  | q8 data scales =>
    let block := Q8.encodeBlock values
    q8 (Buffer.blit data (b * blockSize) block.1) (scales.setIfInBounds b block.2)
  | q4 data scales =>
    let block := Q4.encodeBlock values
    q4 (Buffer.blit data (b * q4BlockBytes) block.1) (scales.setIfInBounds b block.2)
  | e => e

/-- Read block `b`, replace what `src` covers of it, and encode it again. -/
def writeBlock (start : Nat) (src : Array α) (b : Nat) : Update (Elements α) Unit := fun e =>
  match e.read (b * blockSize) blockSize with
  | .error f => .error f e
  | .ok old => .ok () (e.setBlock b (mergeBlock (b * blockSize) start src old))

/-- The blocks that the `len` elements from `start` on touch. -/
def touchedBlocks (start len : Nat) : List Nat :=
  if len = 0 then []
  else List.range' (start / blockSize) (blocksOf (start + len) - start / blockSize)

/-- Encode `src` into the elements from `start` on. -/
def write (start : Nat) (src : Array α) : Update (Elements α) Unit := fun e =>
  match checkRange start src.size e.size with
  | .error f => .error f e
  | .ok _ =>
    match e with
    | f32 data => .ok () (f32 (Buffer.blit data start src))
    | f16 data => .ok () (f16 (Buffer.blit data start (src.map Scalar.toHalf)))
    | bf16 data => .ok () (bf16 (Buffer.blit data start (src.map Scalar.toBrain)))
    | e => (touchedBlocks start src.size).forM (writeBlock start src) e

/-- Encode one value as element `i`. -/
def set (i : Nat) (v : α) : Update (Elements α) Unit := write i #[v]

/-- `values` in encoding `d`. -/
def encode (d : DType) (values : Array α) : Outcome (Elements α) :=
  match write 0 values (zeros d values.size) with
  | .ok _ e => .ok e
  | .error f _ => .error f

end BlockTensor.Elements
