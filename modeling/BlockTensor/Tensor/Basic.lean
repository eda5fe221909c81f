import BlockTensor.Tensor.View
import BlockTensor.Mapping

/-!
# Tensors

A tensor is a shape over storage that it owns, shares or maps; only owned
storage may be written.

* `Tensor.new`, `zeros`, `ones`, `ofValues`, `ofElements` and `ofMapping` make
  tensors whose storage holds the elements of the shape.
* `Tensor.view` reads a tensor; `Tensor.target` writes to one, and `Tensor.put`
  puts a written part back.
* `Tensor.set`, `clear` and `copyFrom` update a tensor, and report read-only
  storage.
-/

namespace BlockTensor

/-- What a tensor's elements are kept in. -/
inductive Storage (α : Type)
  /-- Owned by one tensor. -/
  | owned (elems : Elements α)
  /-- Shared between tensors, read-only. -/
  | shared (elems : Elements α)
  /-- A region of a file, read-only. -/
  | mapped (mapping : Mapping)

namespace Storage

variable {α : Type}

def dtype : Storage α → DType
  | owned e | shared e => e.dtype
  | mapped m => m.dtype

def nbytes : Storage α → Nat
  | owned e | shared e => e.nbytes
  | mapped m => m.nbytes

def isReadOnly : Storage α → Bool
  | owned _ => false
  | _ => true

def elements [Scalar α] : Storage α → Elements α
  | owned e | shared e => e
  | mapped m => m.elements

/-- The elements of owned storage. -/
def writable : Storage α → Outcome (Elements α)
  | owned e => .ok e
  | shared _ => .fail (.readOnly .sharedWeights)
  | mapped _ => .fail (.readOnly .mappedFile)

end Storage

/-- A shape over stored elements. -/
structure Tensor (α : Type) where
  shape : Shape
  storage : Storage α

namespace Tensor

variable {α : Type}

/-- A tensor that owns its elements. -/
def owning (shape : Shape) (elems : Elements α) : Tensor α := ⟨shape, .owned elems⟩

/-- Full-precision values as a tensor; there must be one for each element. -/
def new (values : Array α) (shape : Shape) : Outcome (Tensor α) := do
  let n ← shape.numel
  if values.size = n then return owning shape (.f32 values) else .stop .assertion

/-- The tensor over existing elements, which must be exactly those of the
shape. -/
def ofElements (elems : Elements α) (shape : Shape) : Outcome (Tensor α) := do
  let n ← shape.numel
  let expected ← Word.mul (elems.dtype.blocksFor n) elems.dtype.blockSize
  if elems.size = expected then return owning shape elems
  else .fail (.shapeMismatch shape.dims [elems.size])

/-- The tensor over a region of a byte image. -/
def ofMapping (bytes : Array UInt8) (d : DType) (shape : Shape) (dataOffset : Nat)
    (scalesOffset : Option Nat) : Outcome (Tensor α) := do
  let n ← shape.numel
  return ⟨shape, .mapped (← Mapping.make bytes d n dataOffset scalesOffset)⟩

def dtype (t : Tensor α) : DType := t.storage.dtype

def nbytes (t : Tensor α) : Nat := t.storage.nbytes

def isReadOnly (t : Tensor α) : Bool := t.storage.isReadOnly

/-- The tensor with its storage read-only, so that clones may share it. -/
def share (t : Tensor α) : Tensor α :=
  match t.storage with
  | .owned e => ⟨t.shape, .shared e⟩
  | _ => t

/-- The owned elements, if there are any. -/
def owned? (t : Tensor α) : Option (Elements α) :=
  match t.storage with
  | .owned e => some e
  | _ => none

/-- The same storage in another shape of the same size. -/
def reshape (t : Tensor α) (shape : Shape) : Outcome (Tensor α) := do
  let n ← shape.numel
  if t.shape.size = n then return ⟨shape, t.storage⟩
  else .fail (.shapeMismatch t.shape.dims shape.dims)

/-- All elements, to be written. -/
def target (t : Tensor α) : Outcome (Target α) := do
  let elems ← t.storage.writable
  Target.of t.shape elems.whole

/-- The tensor with a written part in its place. -/
def put (t : Tensor α) (part : Target α) : Tensor α :=
  match t.storage with
  | .owned e => ⟨t.shape, .owned (e.put part.segment)⟩
  | _ => t

/-- Update the elements of owned storage. -/
def update {β : Type} (u : Update (Elements α) β) : Update (Tensor α) β := fun t =>
  match t.storage.writable with
  | .error f => .error f t
  | .ok elems =>
    match u elems with
    | .ok v e => .ok v (owning t.shape e)
    | .error f e => .error f (owning t.shape e)

variable [Scalar α]

/-- A tensor of zeros. -/
def zeros (d : DType) (shape : Shape) : Outcome (Tensor α) := do
  return owning shape (← Elements.fresh d (← shape.numel))

/-- A full-precision tensor of ones. -/
def ones (shape : Shape) : Outcome (Tensor α) := do
  let n ← shape.numel
  checkCapacity (DType.f32.storageBytes n)
  new (.replicate n (Scalar.ofInt 1)) shape

/-- Values encoded as a tensor; there must be one for each element. -/
def ofValues (d : DType) (shape : Shape) (values : Array α) : Outcome (Tensor α) := do
  let n ← shape.numel
  if values.size ≠ n then .fail (.shapeMismatch shape.dims [values.size])
  return owning shape (← Elements.encode d values)

def elements (t : Tensor α) : Elements α := t.storage.elements

/-- The contiguous view of all elements. -/
def view (t : Tensor α) : Outcome (View α) := View.of t.shape t.elements

/-- Every value, in row-major order. -/
def values (t : Tensor α) : Outcome (Array α) := do (← t.view).values

/-- The values of a full-precision tensor. -/
def asF32 (t : Tensor α) : Outcome (Array α) := do
  Buffer.cut (← t.elements.asF32) 0 t.shape.size

/-- The value at an index vector. -/
def get (t : Tensor α) (index : List Nat) : Outcome α := do
  t.elements.get (← t.shape.offsetOf index)

/-- Store a value at an index vector. -/
def set (v : α) (index : List Nat) : Update (Tensor α) Unit := fun t =>
  match t.shape.offsetOf index with
  | .error f => .error f t
  | .ok offset => update (Elements.set offset v) t

/-- Zero every element. -/
def clear : Update (Tensor α) Unit := update (modify Elements.fillZero)

/-- Copy `len` encoded elements of `src` from `source` on, to `start` and after. -/
def copyFrom (src : View α) (source start len : Nat) : Update (Tensor α) Unit := fun t =>
  match t.target with
  | .error f => .error f t
  | .ok part =>
    match Target.copyFrom src source start len part with
    | .ok v part => .ok v (t.put part)
    | .error f part => .error f (t.put part)

end Tensor

end BlockTensor
