import BlockTensor.Tensor.Transform

/-!
# Windows and their checks

Compute operations act on windows: ranges of the flattened operands, column
ranges of every row, or the two-dimensional window of a batched dot product.
Every operation checks its windows before it writes.

* `BatchWindow` names the columns and rows of a batched dot product, `full` all
  of them, `chunk` the same rows of `b` as columns of the result.
* `checkBatch` and `checkRows` accept exactly the operands of the batched and
  the row-wise operations.
* `maskedValues` are a view's values with the columns outside a window zeroed.
-/

namespace BlockTensor

/-- The window of a batched dot product. For each row `i` of `a` and each `j` in
the `rowChunk` rows of `b` from `bRow` on, the dot product of `columns` columns
of both, from `aColumn` and `bColumn` on, goes to column `rColumn + (j - bRow)`
of row `i` of the result. -/
structure BatchWindow where
  aColumn : Nat
  bColumn : Nat
  columns : Nat
  rColumn : Nat
  bRow : Nat
  rowChunk : Nat
  deriving DecidableEq

namespace BatchWindow

/-- All columns of all rows. -/
def full (columns rows : Nat) : BatchWindow := ⟨0, 0, columns, 0, 0, rows⟩

/-- One window of columns, and some rows of `b` as the same columns of the
result. -/
def chunk (column columns row rowChunk : Nat) : BatchWindow :=
  ⟨column, column, columns, row, row, rowChunk⟩

end BatchWindow

/-- Rows of `x` combined by a batched multiply-add, and where their weights are. -/
structure RowSpan where
  alphaOffset : Nat
  xRow : Nat
  rows : Nat
  deriving DecidableEq

/-- The window of `len` elements from `offset` on stays within `size`. -/
def checkWindow (op : String) (size offset len : Nat) : Outcome Unit := do
  let stop ← Word.add offset len
  if stop ≤ size then return () else .fail (.invalidShape (.window op offset len size))

variable {α : Type}

/-- An operand of a batched dot product is a matrix. -/
def checkMatrix (operand : String) (shape : Shape) : Outcome Unit :=
  if shape.rank = 2 then .ok ()
  else .fail (.invalidShape (.batchRank operand shape.dims))

/-- The operands of a batched dot product fit together and its windows lie
inside them. -/
def checkBatch (result : Shape) (a b : View α) (w : BatchWindow) : Outcome Unit := do
  checkMatrix "result" result
  checkMatrix "a" a.shape
  checkMatrix "b" b.shape
  if a.shape.first ≠ result.first then
    .fail (.shapeMismatch [a.shape.first, result.last] result.dims)
  let _ ← a.contiguous
  let _ ← b.contiguous
  checkWindow "batch_dot_product" a.shape.last w.aColumn w.columns
  checkWindow "batch_dot_product" b.shape.last w.bColumn w.columns
  checkWindow "batch_dot_product" b.shape.first w.bRow w.rowChunk
  checkWindow "batch_dot_product" result.last w.rColumn w.rowChunk

/-- The source of a row-wise operation has the rows of the destination, or one
row for all of them: whether it is the latter. -/
def checkRows (op : String) (dst : Shape) (src : View α) (offset len : Nat) :
    Outcome Bool := do
  let _ ← src.contiguous
  let sameRows : Bool := src.shape.rowCount = dst.rowCount
  if src.shape.last ≠ dst.last ∨ ¬(sameRows ∨ src.shape.rowCount = 1) then
    .fail (.shapeMismatch dst.dims src.shape.dims)
  checkWindow op dst.last offset len
  return !sameRows

/-- The values of a view, zero in the columns outside the window. -/
def maskedValues [Scalar α] (v : View α) (offset len : Nat) : Outcome (Array α) := do
  let columns := v.shape.last
  checkWindow "quantize" columns offset len
  let values ← v.values
  return values.mapIdx fun i x =>
    if offset ≤ i % columns ∧ i % columns < offset + len then x else 0

end BlockTensor
