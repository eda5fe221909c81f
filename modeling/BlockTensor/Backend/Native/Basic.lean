import BlockTensor.Backend.Native.Gemm
import BlockTensor.Backend.Vector.Basic

/-!
# The native operations

Batched dot products for which a kernel library has a kernel go through it, one
call per run of rows of `b`; everything else is left to the vectorized
operations.

* `Native.batchDotProduct` has the kernel calls that it made as its result, none
  where the vectorized operations did the work.
* `Library.load` resolves the kernels of a library.
-/

namespace BlockTensor

/-- Entry points of a kernel library. -/
def kernelSymbols : List String :=
  ["gemm_f32", "gemm_f32_q4", "gemm_q8_q4", "gemm_f32_bf16", "gemm_bf16"]

/-- A kernel library as the loader finds it. -/
inductive Library (α : Type)
  /-- No library can be opened. -/
  | missing (path : String)
  /-- A library that exports some symbols. -/
  | present (symbols : List String) (table : KernelTable α)

/-- The kernels of a library, which must export every one. -/
def Library.load {α : Type} : Library α → Outcome (KernelTable α)
  | missing path => .fail (.nativeLibrary (.text s!"{path}: cannot be opened"))
  | present symbols table =>
    match kernelSymbols.find? fun s => s ∉ symbols with
    | some s => .fail (.nativeLibrary (.text s!"missing symbol {s}"))
    | none => .ok table

/-- The one-line description of a table. -/
def KernelTable.summary {α : Type} (t : KernelTable α) : String :=
  "NativeKernels \x7b loaded: " ++ toString t.loaded ++ ", .. \x7d"

/-- A kernel library in use: its kernels, the flags of every call, and the pool
that spreads the calls. -/
structure Native (α : Type) where
  table : KernelTable α
  flags : Int
  pool : Pool

namespace Native

variable {α : Type} [Scalar α] (n : Native α)

/-- The calls of a kernel, in the order in which the pool makes them. -/
def calls (g : Gemm) (result : DType) (layout : GemmLayout) (w : BatchWindow) : List GemmCall :=
  let chunk := (n.pool.plan w.rowChunk).chunk
  (n.pool.order w.rowChunk).map fun t => layout.call g result n.flags (w.bRow + t * chunk) chunk

/-- The destination can take results of a kernel. -/
def checkDestination (a r : DType) : Outcome Unit :=
  if r = .f32 ∨ r = .bf16 then .ok ()
  else .fail (.unsupportedCombination "batch_dot_product" a r)

/-- The window of dot products of rows of `a` and rows of `b`, and the kernel
calls that computed it. -/
def batchDotProduct (a b : View α) (w : BatchWindow) (result : Shape) :
    Update (Elements α) (List GemmCall) := fun e =>
  match checkBatch result a b w with
  | .error f => .error f e
  | .ok _ =>
    match Gemm.plan a.dtype b.dtype e.dtype a.shape.last b.shape.last w with
    | none => (do Vector.batchDotProduct n.pool a b w result; return []) e
    | some g =>
      let layout : Outcome GemmLayout := do
        let layout ← GemmLayout.of result a b w
        checkDestination a.dtype e.dtype
        return layout
      match layout with
      | .error f => .error f e
      | .ok layout =>
        let calls := n.calls g e.dtype layout w
        .ok calls (calls.foldl (fun r c => n.table.run c a.elems b.elems r) e)

end Native

end BlockTensor
