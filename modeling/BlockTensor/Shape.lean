import BlockTensor.Outcome

/-!
# Shapes and row-major order

A shape has at least one dimension and no empty one. Its elements are laid out
row by row, the last dimension running fastest.

* `Shape.rowMajor dims` are the strides: each is the product of the dimensions
  to its right.
* `Shape.offset` is the position of an index vector under given strides, and
  refuses vectors of the wrong length or out of range.
* `Shape.advance` steps an index vector to its row-major successor and says
  whether there was one; `Shape.visit` runs through all of them from the first.
* `Shape.size` is the number of elements as a number, `Shape.numel` the same
  count as a machine word.
-/

namespace BlockTensor

/-- The dimensions of a tensor. -/
structure Shape where
  dims : List Nat
  nonempty : dims ≠ []
  pos : ∀ d ∈ dims, 0 < d
  deriving DecidableEq

namespace Shape

/-- The product of a list of dimensions. -/
def volume (dims : List Nat) : Nat := dims.foldr (· * ·) 1

/-- The strides of row-major order: the products of the dimensions to the
right. -/
def rowMajor : List Nat → List Nat
  | [] => []
  | _ :: ds => volume ds :: rowMajor ds

@[simp] theorem volume_nil : volume [] = 1 := rfl

@[simp] theorem volume_cons (d : Nat) (ds : List Nat) : volume (d :: ds) = d * volume ds := rfl

theorem length_rowMajor (dims : List Nat) : (rowMajor dims).length = dims.length := by
  induction dims with
  | nil => rfl
  | cons d ds ih => simp [rowMajor, ih]

/-- The shape with dimensions known to be positive, if its strides fit in
words. The first of them is the greatest. -/
def ofPositive (dims : List Nat) (nonempty : dims ≠ []) (pos : ∀ d ∈ dims, 0 < d) :
    Outcome Shape := do
  let _ ← Word.check (volume dims.tail)
  return ⟨dims, nonempty, pos⟩

/-- The shape with the given dimensions, which may be anything. -/
def ofDims (dims : List Nat) : Outcome Shape :=
  if nonempty : dims = [] then .fail (.invalidShape .noDimension)
  else if pos : ∀ d ∈ dims, 0 < d then ofPositive dims nonempty pos
  else .fail (.invalidShape (.zeroDimension (dims.findIdx (· == 0)) dims))

/-- The shape with dimensions that are asserted to be those of a shape. -/
def assert (dims : List Nat) : Outcome Shape :=
  if h : dims ≠ [] ∧ ∀ d ∈ dims, 0 < d then ofPositive dims h.1 h.2
  else .stop (.invalidShape dims)

variable (s : Shape)

def rank : Nat := s.dims.length

/-- The number of elements. -/
def size : Nat := volume s.dims

/-- The number of elements as a machine word. -/
def numel : Outcome Nat := Word.check s.size

def strides : List Nat := rowMajor s.dims

/-- The leading dimension. -/
def first : Nat := s.dims.head s.nonempty

/-- The innermost dimension. -/
def last : Nat := s.dims.getLast s.nonempty

/-- The number of rows of the innermost dimension. -/
def rowCount : Nat := s.size / s.last

/-- `rowCount` computed in machine words. -/
def rows : Outcome Nat := do
  return (← s.numel) / s.last

/-- Dimension `axis`, which must exist. -/
def dim (axis : Nat) : Outcome Nat :=
  match s.dims[axis]? with
  | some d => .ok d
  | none => .stop .outOfBounds

/-- Whether the strides are those of row-major order. -/
def isContiguous (strides : List Nat) : Bool := strides == s.strides

/-- The position of `index` under `strides`, from dimension `axis` on and added
to `acc`; each index must lie below its dimension. -/
def offsetFrom (axis acc : Nat) : (dims strides index : List Nat) → Outcome Nat
  | d :: dims, t :: strides, i :: index =>
    if d ≤ i then .fail (.indexOutOfRange i axis d)
    else do
      let term ← Word.mul i t
      let acc ← Word.add acc term
      offsetFrom (axis + 1) acc dims strides index
  | _, _, _ => .ok acc

/-- The position of an index vector under `strides`. -/
def offset (strides index : List Nat) : Outcome Nat :=
  if index.length ≠ s.rank then .fail (.invalidShape (.indexCount s.rank index.length))
  else offsetFrom 0 0 s.dims strides index

/-- The row-major position of an index vector. -/
def offsetOf (index : List Nat) : Outcome Nat := s.offset s.strides index

/-- The shape left by fixing the `n` leading dimensions. -/
def drop (n : Nat) : Outcome Shape :=
  if s.rank ≤ n then .fail (.invalidShape (.tooManyFixed n s.rank))
  else assert (s.dims.drop n)

/-- The shape with dimension `axis` replaced. -/
def withDim (axis value : Nat) : Outcome Shape :=
  if s.rank ≤ axis then .fail (.invalidAxis axis s.rank)
  else ofDims (s.dims.set axis value)

/-- The first entry of `perm` that is no axis below `rank` or repeats one of
`seen` or of the entries before it. -/
def badAxis? (rank : Nat) (seen : List Nat) : (perm : List Nat) → Option Nat
  | [] => none
  | a :: perm => if rank ≤ a ∨ a ∈ seen then some a else badAxis? rank (a :: seen) perm

/-- A list read in the order that `perm` names its positions. -/
def permuted (perm xs : List Nat) : List Nat := perm.map fun a => xs.getD a 0

/-- The shape with its axes in the order `perm`, which must be a permutation of
them. -/
def permute (perm : List Nat) : Outcome Shape :=
  if perm.length ≠ s.rank then .fail (.invalidShape (.permutationLength perm s.rank))
  else match badAxis? s.rank [] perm with
    | some axis => .fail (.invalidAxis axis s.rank)
    | none => assert (permuted perm s.dims)

/-- The successor of an index vector in row-major order and whether it has one;
after the last vector comes the first. -/
def advanceDims : (dims cursor : List Nat) → Outcome (Bool × List Nat)
  | d :: dims, c :: cursor => do
    match ← advanceDims dims cursor with
    | (true, cursor) => return (true, c :: cursor)
    | (false, cursor) =>
      let next ← Word.add c 1
      return if next < d then (true, next :: cursor) else (false, 0 :: cursor)
  | _, _ => .ok (false, [])

/-- `advanceDims` on an index vector of the right length. -/
def advance (cursor : List Nat) : Outcome (Bool × List Nat) :=
  if cursor.length ≠ s.rank then .stop .assertion else advanceDims s.dims cursor

/-- The first index vector. -/
def origin : List Nat := List.replicate s.rank 0

/-- `f` at `cursor` and the index vectors after it, at most `fuel` of them,
pushed onto `acc`. -/
def visitFrom {β : Type} (f : List Nat → Outcome β) :
    (fuel : Nat) → (cursor : List Nat) → (acc : Array β) → Outcome (Array β)
  | 0, _, acc => .ok acc
  | fuel + 1, cursor, acc => do
    let v ← f cursor
    match ← s.advance cursor with
    | (true, next) => visitFrom f fuel next (acc.push v)
    | (false, _) => return acc.push v

/-- `f` at every index vector, in row-major order. -/
def visit {β : Type} (f : List Nat → Outcome β) : Outcome (Array β) :=
  s.visitFrom f s.size s.origin #[]

instance : ToString Shape := ⟨fun s => bracketed s.dims⟩

end Shape

end BlockTensor
