import BlockTensor.Shape
import BlockTensor.Elements.Segment

/-!
# Views

A `View` reads elements as a tensor of a given shape under given strides; it is
contiguous when they are the strides of row-major order. A `Target` writes to
one: it is a shape over a segment of the owner's elements, always contiguous.

* `View.get` reads at an index vector; `View.values` lists all values in
  row-major order, at once if the view is contiguous and index by index if not.
* `View.sliceAt`, `narrow`, `reshape` and `transpose` make views of the same
  elements: fixing leading indices, keeping some leading rows, reading them in
  another shape, permuting the axes.
* `Target.slice` and `Target.rows` are the parts along the leading dimension,
  and `Target.copyFrom` moves encoded elements.
-/

namespace BlockTensor

/-- Elements read as a tensor. -/
structure View (α : Type) where
  shape : Shape
  strides : List Nat
  elems : Elements α

/-- A shape over writable elements. -/
structure Target (α : Type) where
  shape : Shape
  segment : Segment α

/-- The shape needs no more elements than are held. -/
def checkHolds (shape : Shape) (held : Nat) : Outcome Unit := do
  let n ← shape.numel
  if n ≤ held then return () else .stop (.viewTooLarge shape.dims n held)

/-- The window of `len` elements from `offset` on stays within `size`. -/
def checkCopyWindow (size offset len : Nat) : Outcome Unit := do
  let stop ← Word.add offset len
  if stop ≤ size then return () else .fail (.indexOutOfRange stop 0 size)

namespace View

variable {α : Type}

/-- The contiguous view of `elems` in a shape. -/
def of (shape : Shape) (elems : Elements α) : Outcome (View α) := do
  checkHolds shape elems.size
  return ⟨shape, shape.strides, elems⟩

def dtype (v : View α) : DType := v.elems.dtype

/-- The number of elements. -/
def size (v : View α) : Nat := v.shape.size

def isContiguous (v : View α) : Bool := v.shape.isContiguous v.strides

/-- The elements of a contiguous view. -/
def contiguous (v : View α) : Outcome (Elements α) :=
  if v.isContiguous then .ok v.elems
  else .fail (.notContiguous (.stridedView v.shape.dims v.strides))

/-- The position of `index`, which may be shorter than `dims`: the sum of its
entries times the strides, each below its dimension. -/
def startOf (axis acc : Nat) : (dims strides index : List Nat) → Outcome Nat
  | d :: dims, t :: strides, i :: index =>
    if d ≤ i then .fail (.indexOutOfRange i axis d)
    else startOf (axis + 1) (acc + i * t) dims strides index
  | _, _, _ => .ok acc

/-- The view left by fixing the leading indices. -/
def sliceAt (v : View α) (index : List Nat) : Outcome (View α) := do
  let elems ← v.contiguous
  let sub ← v.shape.drop index.length
  let start ← startOf 0 0 v.shape.dims v.strides index
  let elems ← elems.slice start sub.size
  of sub elems

/-- The view at index `i` of the leading dimension. -/
def slice (v : View α) (i : Nat) : Outcome (View α) := v.sliceAt [i]

/-- Rows `start` up to `start + count` of the leading dimension. -/
def narrow (v : View α) (start count : Nat) : Outcome (View α) := do
  let elems ← v.contiguous
  let first := v.shape.first
  let stop ← Word.add start count
  if count = 0 ∨ first < stop then .fail (.indexOutOfRange stop 0 first)
  let shape ← v.shape.withDim 0 count
  let elems ← elems.slice (start * v.strides.headD 0) shape.size
  of shape elems

/-- The elements of a contiguous view in another shape of the same size. -/
def reshape (v : View α) (shape : Shape) : Outcome (View α) := do
  let n ← shape.numel
  if n ≠ v.size then .fail (.shapeMismatch v.shape.dims shape.dims)
  let elems ← v.contiguous
  of shape elems

/-- The view with its axes in the order `perm`. Quantized elements have no
strides. -/
def transpose (v : View α) (perm : List Nat) : Outcome (View α) := do
  if v.dtype.isQuantized then .fail (.unsupportedDType (.stridedQuantized v.dtype))
  let shape ← v.shape.permute perm
  return ⟨shape, Shape.permuted perm v.strides, v.elems⟩

variable [Scalar α]

/-- The value at an index vector. -/
def get (v : View α) (index : List Nat) : Outcome α := do
  let offset ← v.shape.offset v.strides index
  v.elems.get offset

/-- The position of an index vector: the sum of its entries times the strides. -/
def position (strides index : List Nat) : Nat :=
  (List.zipWith (· * ·) index strides).foldl (· + ·) 0

/-- Every value, in row-major order. -/
def values (v : View α) : Outcome (Array α) :=
  if v.isContiguous then v.elems.read 0 v.size
  else v.shape.visit fun index => v.elems.get (position v.strides index)

end View

namespace Target

variable {α : Type}

/-- A shape over a segment that holds it. -/
def of (shape : Shape) (segment : Segment α) : Outcome (Target α) := do
  checkHolds shape segment.elems.size
  return ⟨shape, segment⟩

def dtype (t : Target α) : DType := t.segment.elems.dtype

def elems (t : Target α) : Elements α := t.segment.elems

def size (t : Target α) : Nat := t.shape.size

/-- The elements as they are now, to be read. -/
def view (t : Target α) : Outcome (View α) := View.of t.shape t.elems

/-- The part at index `i` of the leading dimension. -/
def slice (t : Target α) (i : Nat) : Outcome (Target α) := do
  let first := t.shape.first
  if first ≤ i then .fail (.indexOutOfRange i 0 first)
  let sub ← t.shape.drop 1
  let segment ← t.segment.narrow (i * sub.size) sub.size
  of sub segment

/-- `count` parts of shape `sub`, one after the other; the last one is all that
is left of the segment. -/
def rowsFrom (sub : Shape) : (count : Nat) → Segment α → Outcome (List (Target α))
  | 0, _ => .ok []
  | 1, rest => return [← of sub rest]
  | count + 2, rest => do
    let (row, rest) ← rest.splitAt sub.size
    let row ← of sub row
    return row :: (← rowsFrom sub (count + 1) rest)

/-- The parts along the leading dimension. -/
def rows (t : Target α) : Outcome (List (Target α)) := do
  let sub ← t.shape.drop 1
  rowsFrom sub t.shape.first t.segment

/-- The target with a written part in its place; the part starts where its
segment does. -/
def put (t part : Target α) : Target α :=
  let inner : Segment α := ⟨part.segment.start - t.segment.start, part.segment.elems⟩
  ⟨t.shape, ⟨t.segment.start, t.segment.elems.put inner⟩⟩

/-- Store a value at an index vector. -/
def set [Scalar α] (v : α) (index : List Nat) : Update (Target α) Unit := fun t =>
  match t.shape.offsetOf index with
  | .error f => .error f t
  | .ok offset =>
    match Segment.update (Elements.set offset v) t.segment with
    | .ok v s => .ok v ⟨t.shape, s⟩
    | .error f s => .error f ⟨t.shape, s⟩

/-- Copy `len` encoded elements of `src` from `source` on, to `start` and after. In a
quantized encoding the copy moves whole blocks; only where both windows end with
their tensors may the last block be a partial one, since padding follows it. -/
def copyFrom [Scalar α] (src : View α) (source start len : Nat) : Update (Target α) Unit := fun t =>
  let elems : Outcome (Elements α) := do
    checkCopyWindow t.size start len
    checkCopyWindow src.size source len
    src.contiguous
  match elems with
  | .error f => .error f t
  | .ok elems =>
    let atEnd := t.dtype.isQuantized ∧ start + len = t.size ∧ source + len = src.size
    let len := if atEnd then blocksOf len * blockSize else len
    match Segment.update (Elements.copyRaw start elems source len) t.segment with
    | .ok v s => .ok v ⟨t.shape, s⟩
    | .error f s => .error f ⟨t.shape, s⟩

/-- A way from a target to a part of it along the leading dimension. -/
inductive Step
  /-- The part at an index. -/
  | slice (i : Nat)
  /-- One of the rows into which the target is split. -/
  | row (i : Nat)
  deriving DecidableEq

/-- The part one step away. -/
def follow (t : Target α) : Step → Outcome (Target α)
  | .slice i => t.slice i
  | .row i => do Buffer.read (← t.rows).toArray i

/-- The part at the end of a path. -/
def followAll (t : Target α) (path : List Step) : Outcome (Target α) :=
  path.foldlM follow t

/-- Update the elements, given the shape. -/
def update {β : Type} (u : Shape → Update (Elements α) β) : Update (Target α) β := fun t =>
  match Segment.update (u t.shape) t.segment with
  | .ok v s => .ok v ⟨t.shape, s⟩
  | .error f s => .error f ⟨t.shape, s⟩

end Target

end BlockTensor
