import BlockTensor.Tensor.Basic

/-!
# Tensors made of tensors

* `View.toTensor` is a contiguous tensor of a view's shape and encoding. A
  contiguous view keeps its codes and scales; a strided one, always of a float
  encoding, is decoded and encoded again.
* `Tensor.transpose` permutes axes: a strided view of a float tensor, a new
  tensor of a quantized one.
* `Tensor.split` cuts a tensor into equal parts along a dimension,
  `Tensor.splitViews` along the first without copying.
* `Tensor.quantize` is the tensor in another encoding.
-/

namespace BlockTensor

variable {α : Type} [Scalar α]

/-- The contiguous tensor of a view's elements. -/
def View.toTensor (v : View α) : Outcome (Tensor α) := do
  let elems ← if v.isContiguous then v.elems.take v.size
    else Elements.encode v.dtype (← v.values)
  return .owning v.shape elems

/-- A tensor with its axes permuted. -/
inductive Transposed (α : Type)
  | view (v : View α)
  | tensor (t : Tensor α)

namespace Transposed

def isMaterialized : Transposed α → Bool
  | view _ => false
  | tensor _ => true

def toView : Transposed α → Outcome (View α)
  | view v => .ok v
  | tensor t => t.view

def toTensor : Transposed α → Outcome (Tensor α)
  | view v => v.toTensor
  | tensor t => .ok t

end Transposed

namespace Tensor

/-- A quantized tensor decoded, permuted and encoded again. -/
def transposeQuantized (t : Tensor α) (perm : List Nat) : Outcome (Tensor α) := do
  let decoded ← new (← t.values) t.shape
  let permuted ← (← decoded.view).transpose perm
  return owning permuted.shape (← Elements.encode t.dtype (← permuted.values))

/-- The tensor with its axes in the order `perm`. -/
def transpose (t : Tensor α) (perm : List Nat) : Outcome (Transposed α) := do
  if t.dtype.isQuantized then return .tensor (← t.transposeQuantized perm)
  else return .view (← (← t.view).transpose perm)

/-- The length of each of `count` equal parts of dimension `dim`. -/
def chunkLength (t : Tensor α) (count dim : Nat) : Outcome Nat := do
  if t.shape.rank ≤ dim then .fail (.invalidAxis dim t.shape.rank)
  let size ← t.shape.dim dim
  if count = 0 ∨ size % count ≠ 0 then .fail (.invalidShape (.chunks dim size count))
  return size / count

/-- The parts along the leading dimension, as views. -/
def splitViews (t : Tensor α) (count : Nat) : Outcome (List (View α)) := do
  let chunk ← t.chunkLength count 0
  let view ← t.view
  (List.range count).mapM fun c => view.narrow (c * chunk) chunk

/-- Part `c` of length `chunk` along `dim`, in the shape of a part. -/
def splitPart (t : Tensor α) (view : View α) (shape : Shape) (dim chunk c : Nat) :
    Outcome (Tensor α) := do
  let values ← shape.visit fun index => view.get (index.modify dim (· + c * chunk))
  ofValues t.dtype shape values

/-- The parts along `dim`, as tensors. A quantized tensor is cut along its
leading dimension only, at block boundaries. -/
def split (t : Tensor α) (count dim : Nat) : Outcome (List (Tensor α)) := do
  let chunk ← t.chunkLength count dim
  if dim = 0 then (← t.splitViews count).mapM View.toTensor
  else if t.dtype.isQuantized then .fail (.unsupportedDType (.splitQuantized t.dtype dim))
  else
    let shape ← t.shape.withDim dim chunk
    let view ← t.view
    (List.range count).mapM (t.splitPart view shape dim chunk)

/-- The tensor in encoding `d`. -/
def quantize (t : Tensor α) (d : DType) : Outcome (Tensor α) := do
  if d = t.dtype then (← t.view).toTensor
  else ofValues d t.shape (← t.values)

end Tensor

end BlockTensor
