import BlockTensor.Backend.Native.Basic

/-!
# Compute backends

A backend is one of three ways to do the same operations: the reference loops,
the vectorized kernels over a pool, or a native kernel library with the
vectorized kernels beside it.

* `Backend.dotProductWithFallback` and `batchDotProductWithFallback` decode the
  second operand and try again where a backend has no kernel for a pair.
* `Backend.saxpyRows` and `dotProductBatchChunk` are sequences of the other
  operations; they end at the first that fails.
* `Tensor.matmul` multiplies matrices on a backend.
-/

namespace BlockTensor

/-- A way to do the compute operations. -/
inductive Backend (α : Type)
  | reference
  | vector (pool : Pool)
  | native (native : Native α)

namespace Backend

variable {α : Type}

def descriptor : Backend α → Descriptor
  | reference => ⟨"reference", .none, Descriptor.allPairs⟩
  | vector _ => ⟨"simd", .vectorUnit, Kernel.pairs⟩
  | native _ => ⟨"native", .nativeLibrary, Kernel.pairs⟩

/-- The number of runs into which callers should cut a range of rows. -/
def splitSize : Backend α → Nat
  | reference => 1
  | vector pool => pool.threads
  | native n => n.pool.threads

variable [Scalar α] (be : Backend α)

/-- The dot product of two windows of flattened operands. -/
def dotProduct (a b : View α) (aOffset bOffset len : Nat) : Outcome α :=
  match be with
  | reference => Reference.dotProduct a b aOffset bOffset len
  | _ => Vector.dotProduct a b aOffset bOffset len

/-- The window of dot products of rows of `a` and rows of `b`, and the native
kernel calls that computed it. -/
def batchDotProduct (a b : View α) (w : BatchWindow) (result : Shape) :
    Update (Elements α) (List GemmCall) :=
  match be with
  | reference => do Reference.batchDotProduct a b w result; return []
  | vector pool => do Vector.batchDotProduct pool a b w result; return []
  | native n => n.batchDotProduct a b w result

/-- The pool of a backend that has one. -/
def pool? : Backend α → Option Pool
  | reference => none
  | vector pool => some pool
  | native n => some n.pool

/-- Add the source to a window of each row. -/
def accumulate (src : View α) (offset len : Nat) (dst : Shape) : Update (Elements α) Unit :=
  match be.pool? with
  | none => Reference.accumulate src offset len dst
  | some p => Vector.accumulate p src offset len dst

/-- Multiply a window of each row by the source. -/
def maccumulate (src : View α) (offset len : Nat) (dst : Shape) : Update (Elements α) Unit :=
  match be.pool? with
  | none => Reference.maccumulate src offset len dst
  | some p => Vector.maccumulate p src offset len dst

/-- Multiply a window of each row by a factor. -/
def scale (factor : α) (offset len : Nat) (x : Shape) : Update (Elements α) Unit :=
  match be.pool? with
  | none => Reference.scale factor offset len x
  | some p => Vector.scale p factor offset len x

/-- `alpha * x + y` in place of `y`. -/
def saxpy (alpha : α) (x : View α) (xOffset yOffset limit : Nat) (y : Shape) :
    Update (Elements α) Unit :=
  match be.pool? with
  | none => Reference.saxpy alpha x xOffset yOffset limit y
  | some p => Vector.saxpy p alpha x xOffset yOffset limit y

/-- `x + beta * y` in place of `y`. -/
def sxpby (beta : α) (x : View α) (xOffset yOffset limit : Nat) (y : Shape) :
    Update (Elements α) Unit :=
  match be.pool? with
  | none => Reference.sxpby beta x xOffset yOffset limit y
  | some p => Vector.sxpby p beta x xOffset yOffset limit y

/-- A view's columns inside a window in encoding `d`, zeros outside it. -/
def quantize (t : View α) (d : DType) (offset len : Nat) : Outcome (Tensor α) :=
  match be.pool? with
  | none => Reference.quantize t d offset len
  | some p => Vector.quantize p t d offset len

/-- The sum of every value. -/
def sum (t : View α) : Outcome α :=
  match be with
  | reference => Reference.sum t
  | _ => Vector.sum t

/-- Row `r` of a batched multiply-add. -/
def saxpyRow (alphas : Elements α) (x : View α) (xOffset yOffset limit : Nat) (rows : RowSpan)
    (y : Shape) (r : Nat) : Update (Elements α) Unit := do
  let row ← Update.ofOutcome (x.slice (rows.xRow + r))
  let alpha ← Update.ofOutcome (alphas.get (rows.alphaOffset + r))
  be.saxpy alpha row xOffset yOffset limit y

/-- Add to `y` the given rows of `x`, each times its weight. -/
def saxpyRows (alpha x : View α) (xOffset yOffset limit : Nat) (rows : RowSpan) (y : Shape) :
    Update (Elements α) Unit := do
  let alphas ← Update.ofOutcome (do
    checkWindow "saxpy_rows" alpha.size rows.alphaOffset rows.rows
    checkWindow "saxpy_rows" x.shape.first rows.xRow rows.rows
    alpha.contiguous)
  (List.range rows.rows).forM (be.saxpyRow alphas x xOffset yOffset limit rows y)

/-- `batchDotProduct` for the same rows of `b` and columns of the result. -/
def dotProductChunk (a b : View α) (column columns row rowChunk : Nat) (result : Shape) :
    Update (Elements α) (List GemmCall) :=
  be.batchDotProduct a b (.chunk column columns row rowChunk) result

/-- `dotProductChunk` for each pair of a result and a `b`, up to the first that
fails. -/
def chunkEach (a : View α) (column columns row rowChunk : Nat) :
    List (Target α × View α) → Outcome Unit × List (Target α)
  | [] => (.ok (), [])
  | (r, b) :: rest =>
    match (Target.update (be.dotProductChunk a b column columns row rowChunk)).exec r with
    | (.error f, r) => (.error f, r :: rest.map Prod.fst)
    | (.ok _, r) =>
      let (outcome, done) := chunkEach a column columns row rowChunk rest
      (outcome, r :: done)

/-- `dotProductChunk` for several results, each with its own `b`. -/
def dotProductBatchChunk (results : List (Target α)) (a : View α) (bs : List (View α))
    (column columns row rowChunk : Nat) : Outcome Unit × List (Target α) :=
  if results.length ≠ bs.length then
    (.fail (.shapeMismatch [bs.length] [results.length]), results)
  else be.chunkEach a column columns row rowChunk (results.zip bs)

/-- Whether a fault is a gap in the supported pairs. -/
def isUnsupported : Fault → Bool
  | .error e => e.isUnsupported
  | .abort _ => false

/-- `dotProduct`, with the window of `b` decoded where its pair is not
supported. -/
def dotProductWithFallback (a b : View α) (aOffset bOffset len : Nat) : Outcome α :=
  match be.dotProduct a b aOffset bOffset len with
  | .error f =>
    if isUnsupported f then do
      checkWindow "dot_product" b.size bOffset len
      let values ← (← b.contiguous).read bOffset len
      let decoded ← Tensor.new values (← Shape.assert [len])
      be.dotProduct a (← decoded.view) aOffset 0 len
    else .error f
  | .ok v => .ok v

/-- `batchDotProduct`, with `b` decoded where its pair is not supported. -/
def batchDotProductWithFallback (a b : View α) (w : BatchWindow) (result : Shape) :
    Update (Elements α) (List GemmCall) := fun e =>
  match be.batchDotProduct a b w result e with
  | .error f e =>
    if isUnsupported f then
      (do
        let decoded ← Update.ofOutcome (do (← Tensor.new (← b.values) b.shape).view)
        be.batchDotProduct a decoded w result) e
    else .error f e
  | .ok calls e => .ok calls e

end Backend

/-- The matrix product. -/
def Tensor.matmul {α : Type} [Scalar α] (be : Backend α) (a other : Tensor α) :
    Outcome (Tensor α) := do
  if a.shape.rank ≠ 2 ∨ other.shape.rank ≠ 2 then .fail (.invalidShape .matmulRank)
  let m ← a.shape.dim 0
  let k ← a.shape.dim 1
  let k' ← other.shape.dim 0
  let n ← other.shape.dim 1
  if k ≠ k' then .fail (.shapeMismatch [k, n] [k', n])
  let shape ← Shape.assert [m, n]
  -- transposing a matrix only ever aborts, and so does this: their order does not show
  let out ← Tensor.zeros .f32 shape
  let b ← (← other.transpose [1, 0]).toTensor
  let aView ← a.view
  let bView ← b.view
  match (Tensor.update (be.batchDotProduct aView bView (.full k n) shape)).exec out with
  | (.ok _, out) => return out
  | (.error f, _) => .error f

end BlockTensor
