import BlockTensor.Backend.Window

/-!
# The reference operations

Scalar loops for every pair of encodings: operands are decoded element by
element, results encoded element by element. Every other backend is measured
against these.

* `Reference.dotProduct` and `batchDotProduct` sum products from left to right,
  started at zero.
* `Reference.updateWindow` decodes a range, changes each value and encodes the
  range again; the elementwise operations are one such update, or one per row.
-/

namespace BlockTensor.Reference

variable {α : Type} [Scalar α]

/-- The sum of the products of two runs of `len` elements. -/
def dotElements (a : Elements α) (aStart : Nat) (b : Elements α) (bStart len : Nat) : Outcome α :=
  (List.range len).foldlM
    (fun acc i => do
      let x ← a.get (aStart + i)
      let y ← b.get (bStart + i)
      return acc + x * y) 0

/-- The dot product of two windows of flattened operands. -/
def dotProduct (a b : View α) (aOffset bOffset len : Nat) : Outcome α := do
  checkWindow "dot_product" a.size aOffset len
  checkWindow "dot_product" b.size bOffset len
  let x ← a.contiguous
  let y ← b.contiguous
  dotElements x aOffset y bOffset len

/-- Column `r` of the window of row `i` of the result. -/
def batchElement (result : Shape) (a b : View α) (w : BatchWindow) (i r : Nat) :
    Update (Elements α) Unit := do
  let d ← Update.ofOutcome (dotElements a.elems (i * a.shape.last + w.aColumn) b.elems
    ((w.bRow + r) * b.shape.last + w.bColumn) w.columns)
  Elements.set (i * result.last + w.rColumn + r) d

/-- The window of dot products of rows of `a` and rows of `b`. -/
def batchDotProduct (a b : View α) (w : BatchWindow) (result : Shape) :
    Update (Elements α) Unit := do
  Update.ofOutcome (checkBatch result a b w)
  (List.range a.shape.first).forM fun i =>
    (List.range w.rowChunk).forM fun r => batchElement result a b w i r

/-- `f i v` for value `v` of each element `i` of a range, encoded in its place. -/
def updateWindow (start len : Nat) (f : Nat → α → Outcome α) : Update (Elements α) Unit := fun e =>
  match (do (← e.read start len).mapIdxM f) with
  | .error fault => .error fault e
  | .ok values => Elements.write start values e

/-- Combine a window of each row with the same columns of the source. -/
def combineRows (op : String) (f : α → α → α) (src : View α) (offset len : Nat) (dst : Shape) :
    Update (Elements α) Unit := do
  let broadcast ← Update.ofOutcome (checkRows op dst src offset len)
  (List.range dst.rowCount).forM fun row =>
    let base := (if broadcast then 0 else row * dst.last) + offset
    updateWindow (row * dst.last + offset) len fun i v => return f v (← src.elems.get (base + i))

/-- Add the source to the destination. -/
def accumulate (src : View α) (offset len : Nat) (dst : Shape) : Update (Elements α) Unit :=
  combineRows "accumulate" (· + ·) src offset len dst

/-- Multiply the destination by the source. -/
def maccumulate (src : View α) (offset len : Nat) (dst : Shape) : Update (Elements α) Unit :=
  combineRows "maccumulate" (· * ·) src offset len dst

/-- Multiply a window of each row by a factor. -/
def scale (factor : α) (offset len : Nat) (x : Shape) : Update (Elements α) Unit := do
  Update.ofOutcome (checkWindow "scale" x.last offset len)
  (List.range x.rowCount).forM fun row =>
    updateWindow (row * x.last + offset) len fun _ v => return v * factor

/-- The windows of the flattened operands of `op`, and the elements of `x`. -/
def checkPair (op : String) (x : View α) (y : Shape) (xOffset yOffset limit : Nat) :
    Outcome (Elements α) := do
  checkWindow op x.size xOffset limit
  checkWindow op y.size yOffset limit
  x.contiguous

/-- `alpha * x + y` in place of `y`. -/
def saxpy (alpha : α) (x : View α) (xOffset yOffset limit : Nat) (y : Shape) :
    Update (Elements α) Unit := do
  let xs ← Update.ofOutcome (checkPair "saxpy" x y xOffset yOffset limit)
  updateWindow yOffset limit fun i v => return alpha * (← xs.get (xOffset + i)) + v

/-- `x + beta * y` in place of `y`. -/
def sxpby (beta : α) (x : View α) (xOffset yOffset limit : Nat) (y : Shape) :
    Update (Elements α) Unit := do
  let xs ← Update.ofOutcome (checkPair "sxpby" x y xOffset yOffset limit)
  updateWindow yOffset limit fun i v => return (← xs.get (xOffset + i)) + beta * v

/-- A view's columns inside a window in encoding `d`, zeros outside it. -/
def quantize (t : View α) (d : DType) (offset len : Nat) : Outcome (Tensor α) := do
  Tensor.ofValues d t.shape (← maskedValues t offset len)

/-- The sum of every value. -/
def sum (t : View α) : Outcome α := return Scalar.sum (← t.values).toList

end BlockTensor.Reference
