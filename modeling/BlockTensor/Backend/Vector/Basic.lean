import BlockTensor.Backend.Vector.Kernel
import BlockTensor.Backend.Reference
import BlockTensor.Pool.Basic

/-!
# The vectorized operations

Dot products go through the vector kernels, and rows and runs of elements are
spread over the workers of a pool. Full-precision destinations are updated in
place; other encodings are decoded, updated and encoded as the reference
operations do it.

* `Vector.batchDotProduct` computes a row of results at a time, in parallel where
  the row is long.
* `Vector.quantize` encodes the blocks of a tensor independently, in whatever
  order the pool runs them.
-/

namespace BlockTensor.Vector

variable {α : Type} [Scalar α]

/-- Shorter windows run on the calling thread. -/
def parallelMin : Nat := 4096

/-- The backend has a kernel for a pair. -/
def checkSupported (op : String) (a b : DType) : Outcome Unit :=
  if Kernel.supports a b then .ok () else .fail (.unsupportedCombination op a b)

/-- A kernel's result, or the refusal of its pair. -/
def orUnsupported {β : Type} (op : String) (a b : DType) : Option β → Outcome β
  | some v => .ok v
  | none => .fail (.unsupportedCombination op a b)

/-- The dot product of two windows of flattened operands. -/
def dotProduct (a b : View α) (aOffset bOffset len : Nat) : Outcome α := do
  checkWindow "dot_product" a.size aOffset len
  checkWindow "dot_product" b.size bOffset len
  let x ← a.contiguous
  let y ← b.contiguous
  orUnsupported "dot_product" a.dtype b.dtype (← Kernel.dot x aOffset y bOffset len)

/-- Entry `r` of a run of results: the dot product with row `row` of `b`. -/
def setDot (a : Elements α) (aStart : Nat) (b : View α) (w : BatchWindow) (row r : Nat) :
    Update (Array α) Unit := do
  let d ← Update.ofOutcome (do
    let d ← Kernel.dot a aStart b.elems (row * b.shape.last + w.bColumn) w.columns
    orUnsupported "batch_dot_product" a.dtype b.dtype d)
  modify fun run => run.setIfInBounds r d

/-- A run of results for the rows of `b` from `start` of the window on. -/
def rowRun (a : Elements α) (aStart : Nat) (b : View α) (w : BatchWindow) (start : Nat) :
    Update (Array α) Unit := fun run =>
  (List.range run.size).forM (fun r => setDot a aStart b w (w.bRow + start + r) r) run

/-- One row of results. -/
def batchRow (p : Pool) (a : Elements α) (aStart : Nat) (b : View α) (w : BatchWindow) :
    Update (Array α) Unit := fun row =>
  if parallelMin ≤ row.size * w.columns then p.updateChunks (rowRun a aStart b w) row
  else rowRun a aStart b w 0 row

/-- Row `i` of the results into the elements of the destination. -/
def batchRowInto (p : Pool) (result : Shape) (a b : View α) (w : BatchWindow) (i : Nat) :
    Update (Elements α) Unit := fun e =>
  let start := i * result.last + w.rColumn
  let row := batchRow p a.elems (i * a.shape.last + w.aColumn) b w
  match e with
  | .f32 data =>
    match row (data.extract start (start + w.rowChunk)) with
    | .ok v run => .ok v (.f32 (Buffer.blit data start run))
    | .error f run => .error f (.f32 (Buffer.blit data start run))
  | e =>
    match row (.replicate w.rowChunk 0) with
    | .ok _ run => Elements.write start run e
    | .error f _ => .error f e

/-- The window of dot products of rows of `a` and rows of `b`. -/
def batchDotProduct (p : Pool) (a b : View α) (w : BatchWindow) (result : Shape) :
    Update (Elements α) Unit := do
  Update.ofOutcome (checkBatch result a b w)
  Update.ofOutcome (checkSupported "batch_dot_product" a.dtype b.dtype)
  (List.range a.shape.first).forM (batchRowInto p result a b w)

/-- `f` of a run of full-precision elements in its place. -/
def updateRun (start len : Nat) (f : Array α → Outcome (Array α)) :
    Update (Elements α) Unit := fun e =>
  match e with
  | .f32 data =>
    match f (data.extract start (start + len)) with
    | .ok run => .ok () (.f32 (Buffer.blit data start run))
    | .error fault => .error fault e
  | e => .error (.abort .assertion) e

/-- Combine a window of each row with the same columns of the source, the rows
in the order of the pool. -/
def combineRows (p : Pool) (op : String) (f : α → α → α) (src : View α) (offset len : Nat)
    (dst : Shape) : Update (Elements α) Unit := fun e =>
  if e.dtype = .f32 then
    (do
      let broadcast ← Update.ofOutcome (checkRows op dst src offset len)
      (p.schedule.order dst.rowCount).forM fun row =>
        let base := (if broadcast then 0 else row * dst.last) + offset
        updateRun (row * dst.last + offset) len fun run =>
          return Kernel.zip f run (← src.elems.read base len)) e
  else Reference.combineRows op f src offset len dst e

/-- Add the source to the destination. -/
def accumulate (p : Pool) (src : View α) (offset len : Nat) (dst : Shape) :
    Update (Elements α) Unit :=
  combineRows p "accumulate" (· + ·) src offset len dst

/-- Multiply the destination by the source. -/
def maccumulate (p : Pool) (src : View α) (offset len : Nat) (dst : Shape) :
    Update (Elements α) Unit :=
  combineRows p "maccumulate" (· * ·) src offset len dst

/-- Multiply a window of each row by a factor. -/
def scale (p : Pool) (factor : α) (offset len : Nat) (x : Shape) :
    Update (Elements α) Unit := fun e =>
  if e.dtype = .f32 then
    (do
      Update.ofOutcome (checkWindow "scale" x.last offset len)
      (p.schedule.order x.rowCount).forM fun row =>
        updateRun (row * x.last + offset) len fun run => return Kernel.scale factor run) e
  else Reference.scale factor offset len x e

/-- Each run of a buffer by `f first run`, in parallel where it is long. -/
def mapRun (p : Pool) (f : Nat → Array α → Array α) (run : Array α) : Array α :=
  if parallelMin ≤ run.size then p.mapChunks run f else f 0 run

/-- A kernel on a window of `y` and the same entries of a window of `x`. -/
def combinePair (p : Pool) (op : String) (kernel : Array α → Array α → Array α) (x : View α)
    (xOffset yOffset limit : Nat) (y : Shape) : Update (Elements α) Unit := do
  let xs ← Update.ofOutcome (Reference.checkPair op x y xOffset yOffset limit)
  updateRun yOffset limit fun run => do
    let values ← xs.read xOffset limit
    return mapRun p (fun first chunk =>
      kernel chunk (values.extract first (first + chunk.size))) run

/-- `y + alpha * x` in place of `y`. -/
def saxpy (p : Pool) (alpha : α) (x : View α) (xOffset yOffset limit : Nat) (y : Shape) :
    Update (Elements α) Unit := fun e =>
  if e.dtype = .f32 then
    combinePair p "saxpy" (Kernel.axpy alpha) x xOffset yOffset limit y e
  else Reference.saxpy alpha x xOffset yOffset limit y e

/-- `x + beta * y` in place of `y`. -/
def sxpby (p : Pool) (beta : α) (x : View α) (xOffset yOffset limit : Nat) (y : Shape) :
    Update (Elements α) Unit := fun e =>
  if e.dtype = .f32 then
    combinePair p "sxpby" (Kernel.xpby beta) x xOffset yOffset limit y e
  else Reference.sxpby beta x xOffset yOffset limit y e

/-- Values encoded block by block, the blocks in the order of the pool. -/
def encodeBlocks (p : Pool) (d : DType) (values : Array α) : Outcome (Elements α) :=
  let order := p.schedule.order (blocksOf values.size)
  match (Elements.zeros d values.size : Elements α) with
  | .q8 data scales =>
    let (data, scales) := order.foldl (Q8.writeBlock values) (data, scales)
    .ok (.q8 data scales)
  | .q4 data scales =>
    let (data, scales) := order.foldl (Q4.writeBlock values) (data, scales)
    .ok (.q4 data scales)
  | e =>
    match Elements.write 0 values e with
    | .ok _ e => .ok e
    | .error f _ => .error f

/-- A view's columns inside a window in encoding `d`, zeros outside it. -/
def quantize (p : Pool) (t : View α) (d : DType) (offset len : Nat) : Outcome (Tensor α) := do
  let values ← maskedValues t offset len
  Tensor.ofElements (← encodeBlocks p d values) t.shape

/-- The sum of every value: of a contiguous full-precision view, the sums of its
runs are added. -/
def sum (t : View α) : Outcome α :=
  match t.elems, t.isContiguous with
  | .f32 data, true => do
    let values ← Buffer.cut data 0 t.size
    let runs := List.range ((values.size + (parallelMin - 1)) / parallelMin)
    return Scalar.sum (runs.map fun k => Scalar.sum (Buffer.chunk values parallelMin k).toList)
  | _, _ => Reference.sum t

end BlockTensor.Vector
