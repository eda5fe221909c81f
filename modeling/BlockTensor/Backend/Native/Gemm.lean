import BlockTensor.Backend.Window

/-!
# Matrix kernels

A kernel library multiplies matrices for some pairings of encodings. One call
computes, for each row `i < rows` of `a` and each row `j` of `b` from `first` up
to `first + count`, the dot product of `depth` columns of both, and stores it at
position `rStride * i + j - rOffset` of the result.

* `Gemm.plan` is the kernel for a pairing and a window, if the library has one
  and the layout obeys its rules.
* `GemmCall` holds the integers of a call. Offsets and strides count elements,
  those of nibbles count bytes; a scale stride counts the scales of a row.
* `KernelTable.elementwise` computes each result as a sum from left to right,
  started at zero, and so does what every table must do.
-/

namespace BlockTensor

/-- The kernels of a library, by the encodings of `a` and `b`. -/
inductive Gemm
  | f32
  | f32Q4
  | q8Q4
  | f32Bf16
  | bf16
  deriving DecidableEq

namespace Gemm

/-- The kernel for a pair of encodings. -/
def ofPair? : DType → DType → Option Gemm
  | .f32, .f32 => some f32
  | .f32, .q4 => some f32Q4
  | .q8, .q4 => some q8Q4
  | .f32, .bf16 => some f32Bf16
  | .bf16, .bf16 => some bf16
  | _, _ => none

/-- The kernel can store results in encoding `r`. -/
def stores : Gemm → DType → Bool
  | f32Bf16, r | bf16, r => r = .f32 ∨ r = .bf16
  | _, r => r = .f32

/-- Rows of `rowLength` elements and windows from `offset` on are whole blocks. -/
def layoutFits (d : DType) (rowLength offset : Nat) : Bool :=
  !d.isQuantized || (rowLength % blockSize = 0 && offset % blockSize = 0)

/-- The kernel for `a` times `b` into `r`, with rows of the given lengths. -/
def plan (a b r : DType) (aRow bRow : Nat) (w : BatchWindow) : Option Gemm :=
  if w.columns = 0 ∨ w.columns % blockSize ≠ 0 then none
  else match ofPair? a b with
    | none => none
    | some g =>
      if g.stores r && layoutFits a aRow w.aColumn && layoutFits b bRow w.bColumn then some g
      else none

end Gemm

/-- The integers of one kernel call. -/
structure GemmCall where
  kernel : Gemm
  result : DType
  flags : Int
  aOffset : Int
  bOffset : Int
  rOffset : Int
  rows : Int
  first : Int
  count : Int
  depth : Int
  aStride : Int
  aScaleStride : Option Int
  bStride : Int
  bScaleStride : Option Int
  rStride : Int
  deriving DecidableEq

/-- The rows of `b` and the result columns of a call are left open. -/
structure GemmLayout where
  rows : Nat
  depth : Nat
  aStride : Nat
  bStride : Nat
  rStride : Nat
  aOffset : Nat
  bOffset : Nat
  bRow : Nat
  rColumn : Nat
  deriving DecidableEq

namespace GemmLayout

/-- A number that a kernel's integers can hold. -/
def checkKernelRange (n : Nat) : Outcome Unit :=
  if n < 0x80000000 then .ok () else .fail (.invalidShape (.kernelRange n))

/-- The layout of a batched dot product, if a kernel's integers can hold it. -/
def of {α : Type} (result : Shape) (a b : View α) (w : BatchWindow) : Outcome GemmLayout := do
  checkKernelRange a.shape.first
  checkKernelRange w.columns
  checkKernelRange a.shape.last
  checkKernelRange b.shape.last
  checkKernelRange result.last
  checkKernelRange w.aColumn
  checkKernelRange w.bColumn
  checkKernelRange w.bRow
  checkKernelRange w.rColumn
  checkKernelRange (w.bRow + w.rowChunk)
  return ⟨a.shape.first, w.columns, a.shape.last, b.shape.last, result.last, w.aColumn, w.bColumn,
    w.bRow, w.rColumn⟩

/-- The call of a kernel on rows `first` up to `first + count` of `b`. -/
def call (l : GemmLayout) (g : Gemm) (result : DType) (flags : Int) (first count : Nat) :
    GemmCall :=
  let bytes := g = .f32Q4 ∨ g = .q8Q4
  { kernel := g
    result
    flags
    aOffset := l.aOffset
    bOffset := if bytes then (l.bOffset / 2 : Nat) else l.bOffset
    rOffset := (l.bRow : Int) - l.rColumn
    rows := l.rows
    first
    count
    depth := l.depth
    aStride := l.aStride
    aScaleStride := if g = .q8Q4 then some (l.aStride / blockSize : Nat) else none
    bStride := if bytes then (l.bStride / 2 : Nat) else l.bStride
    bScaleStride := if bytes then some (l.bStride / blockSize : Nat) else none
    rStride := l.rStride }

end GemmLayout

/-- The kernels of a library: what a call makes of the result, given the
operands. -/
structure KernelTable (α : Type) where
  loaded : Bool
  run : GemmCall → (a b result : Elements α) → Elements α

namespace GemmCall

/-- The name of the entry that a call takes, with the encoding of the results
where the kernel leaves a choice. -/
def entry (c : GemmCall) : String :=
  match c.kernel with
  | .f32 => "f32"
  | .f32Q4 => "f32_q4"
  | .q8Q4 => "q8_q4"
  | .f32Bf16 => s!"f32_bf16->{c.result.name}"
  | .bf16 => s!"bf16->{c.result.name}"

/-- The integers of a call in the order of the kernel's parameters; a kernel
without a scale stride has no parameter for it. -/
def arguments (c : GemmCall) : List Int :=
  [c.flags, c.aOffset, c.bOffset, c.rOffset, c.rows, c.first, c.count, c.depth, c.aStride]
    ++ c.aScaleStride.toList ++ [c.bStride] ++ c.bScaleStride.toList ++ [c.rStride]

variable {α : Type} [Scalar α]

/-- The value at element `pos`, under the scale at `scalePos`. -/
def operand (e : Elements α) (pos scalePos : Int) : α :=
  let i := pos.toNat
  match e with
  | .f32 data => data.getD i 0
  | .f16 data => Scalar.half (data.getD i 0)
  | .bf16 data => Scalar.brain (data.getD i 0)
  | .q8 data scales => Scalar.ofInt (data.getD i 0).toInt * scales.getD scalePos.toNat 0
  | .q4 data scales =>
    Scalar.ofInt (Q4.signed (Q4.nibble i (data.getD (Q4.byteOf i) 0)))
      * scales.getD scalePos.toNat 0

/-- Elements per unit of the offset and stride of `b`. -/
def bUnit (c : GemmCall) : Int :=
  if c.kernel = .f32Q4 ∨ c.kernel = .q8Q4 then 2 else 1

/-- Where column `t` of the window of row `i` of `a` is. -/
def aPos (c : GemmCall) (i t : Int) : Int := c.aStride * i + c.aOffset + t

def aScalePos (c : GemmCall) (i t : Int) : Int :=
  c.aScaleStride.getD 0 * i + (c.aOffset + t) / blockSize

/-- Where column `t` of the window of row `j` of `b` is. -/
def bPos (c : GemmCall) (j t : Int) : Int := c.bUnit * (c.bStride * j + c.bOffset) + t

def bScalePos (c : GemmCall) (j t : Int) : Int :=
  c.bScaleStride.getD 0 * j + (c.bUnit * c.bOffset + t) / blockSize

/-- Where the result for row `i` of `a` and row `j` of `b` goes. -/
def rPos (c : GemmCall) (i j : Int) : Int := c.rStride * i + j - c.rOffset

/-- The dot product of row `i` of `a` and row `j` of `b`. -/
def dot (c : GemmCall) (a b : Elements α) (i j : Int) : α :=
  (List.range c.depth.toNat).foldl (fun acc (t : Nat) =>
    acc + operand a (c.aPos i t) (c.aScalePos i t) * operand b (c.bPos j t) (c.bScalePos j t)) 0

/-- Store a result in the encoding of the destination. -/
def store (pos : Int) (v : α) : Elements α → Elements α
  | .f32 data => .f32 (data.setIfInBounds pos.toNat v)
  | .bf16 data => .bf16 (data.setIfInBounds pos.toNat (Scalar.toBrain v))
  | e => e

/-- The rows of `a` and of `b` that a call pairs. -/
def tiles (c : GemmCall) : List (Int × Int) :=
  (List.range c.rows.toNat).flatMap fun (i : Nat) =>
    (List.range c.count.toNat).map fun (j : Nat) => ((i : Int), c.first + j)

end GemmCall

/-- The table whose kernels compute one result after the other. -/
def KernelTable.elementwise {α : Type} [Scalar α] : KernelTable α where
  loaded := true
  run c a b result :=
    c.tiles.foldl (fun r ij => GemmCall.store (c.rPos ij.1 ij.2) (c.dot a b ij.1 ij.2) r) result

end BlockTensor
