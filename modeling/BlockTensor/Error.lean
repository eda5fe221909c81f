import BlockTensor.DType

/-!
# What goes wrong

An operation that refuses its arguments reports a `TensorError`: the kind of
refusal and, where the kind leaves it open, a `Reason`. `TensorError.message`
is the only place that words them.

An operation whose preconditions are broken does not report, it stops: an
`Abort` names the assertion or the machine limit that stopped it.
-/

namespace BlockTensor

/-- A list of numbers as text, in brackets and separated by commas. -/
def bracketed (ns : List Nat) : String :=
  "[" ++ ", ".intercalate (ns.map toString) ++ "]"

/-- What an error with a free text is about. -/
inductive Reason
  | text (s : String)
  | noDimension
  | zeroDimension (axis : Nat) (dims : List Nat)
  | tooManyFixed (count rank : Nat)
  | permutationLength (perm : List Nat) (rank : Nat)
  | indexCount (expected got : Nat)
  | window (op : String) (offset length size : Nat)
  | batchRank (operand : String) (dims : List Nat)
  | chunks (dim size count : Nat)
  | matmulRank
  | kernelRange (value : Nat)
  | missingScales (dtype : DType)
  | unwantedScales (dtype : DType)
  | mappedRegion (offset length size : Nat)
  | mappedUnaligned
  | stridedView (dims strides : List Nat)
  | stridedQuantized (dtype : DType)
  | splitQuantized (dtype : DType) (dim : Nat)
  | sharedWeights
  | mappedFile
  | unknownPreference (name : String)
  | badNumber (key shown why : String)
  | poolConfigured (threads : Nat)
  deriving DecidableEq

namespace Reason

def message : Reason → String
  | text s => s
  | noDimension => "rank must be >= 1"
  | zeroDimension axis dims => s!"dimension {axis} of {bracketed dims} is zero"
  | tooManyFixed count rank => s!"cannot fix {count} leading dimensions of a rank-{rank} shape"
  | permutationLength perm rank => s!"permutation {bracketed perm} does not match rank {rank}"
  | indexCount expected got => s!"expected {expected} indices, got {got}"
  | window op offset length size =>
    s!"{op}: window [{offset}, {offset + length}) exceeds {size} elements"
  | batchRank operand dims =>
    s!"batch_dot_product: {operand} must be rank 2, got {bracketed dims}"
  | chunks dim size count =>
    s!"dimension {dim} of size {size} does not split into {count} chunks"
  | matmulRank => "matmul requires 2D tensors"
  | kernelRange value => s!"{value} exceeds native kernel index range"
  | missingScales dtype => s!"{dtype} mapping requires a scales region"
  | unwantedScales dtype => s!"{dtype} mapping does not take a scales region"
  | mappedRegion offset length size =>
    s!"mapped region [{offset}, {offset + length}) exceeds file of {size} bytes"
  | mappedUnaligned => "mapped region: TargetAlignmentGreaterAndInputNotAligned"
  | stridedView dims strides => s!"view {bracketed dims} with strides {bracketed strides}"
  | stridedQuantized dtype => s!"strided {dtype} view; transpose the owning tensor instead"
  | splitQuantized dtype dim => s!"split of {dtype} along dimension {dim}"
  | sharedWeights => "shared weight storage"
  | mappedFile => "memory-mapped storage"
  | unknownPreference name => "unknown backend preference '" ++ name ++ "'"
  | badNumber key shown why => s!"{key}={shown}: {why}"
  | poolConfigured threads => s!"execution pool already configured with {threads} threads"

end Reason

/-- Why an operation refused its arguments. -/
inductive TensorError
  | shapeMismatch (expected got : List Nat)
  | invalidShape (reason : Reason)
  | indexOutOfRange (index dim size : Nat)
  | invalidAxis (axis ndim : Nat)
  | notContiguous (reason : Reason)
  | blockMisaligned (offset size : Nat)
  | dtypeMismatch (expected got : DType)
  | unsupportedDType (reason : Reason)
  | unsupportedCombination (op : String) (a b : DType)
  | readOnly (reason : Reason)
  | nativeLibrary (reason : Reason)
  | poolAlreadyStarted
  | poolBuild (reason : Reason)
  | invalidConfig (reason : Reason)
  | io (reason : Reason)
  deriving DecidableEq

namespace TensorError

def message : TensorError → String
  | shapeMismatch expected got =>
    s!"shape mismatch: expected {bracketed expected}, got {bracketed got}"
  | invalidShape r => s!"invalid shape: {r.message}"
  | indexOutOfRange index dim size =>
    s!"index {index} out of range for dimension {dim} of size {size}"
  | invalidAxis axis ndim => s!"invalid axis {axis} for tensor with {ndim} dimensions"
  | notContiguous r => s!"tensor is not contiguous: {r.message}"
  | blockMisaligned offset size => s!"offset {offset} is not aligned to block size {size}"
  | dtypeMismatch expected got => s!"dtype mismatch: expected {expected}, got {got}"
  | unsupportedDType r => s!"unsupported dtype: {r.message}"
  | unsupportedCombination op a b => s!"{op}: unsupported combination {a} x {b}"
  | readOnly r => s!"write to read-only tensor: {r.message}"
  | nativeLibrary r => s!"native kernel library: {r.message}"
  | poolAlreadyStarted => "execution pool already started"
  | poolBuild r => s!"failed to build execution pool: {r.message}"
  | invalidConfig r => s!"invalid config: {r.message}"
  | io r => s!"IO error: {r.message}"

/-- Gaps in what an encoding or a pair of them supports, which a caller handles
by another pairing. -/
def isUnsupported : TensorError → Bool
  | unsupportedCombination .. | unsupportedDType _ => true
  | _ => false

end TensorError

/-- The broken precondition that stopped an operation. -/
inductive Abort
  /-- A shape with no dimension or a zero one was asserted to be a shape. -/
  | invalidShape (dims : List Nat)
  /-- A range leaves the storage that it is a range of. -/
  | rangeEscapes (start stop held : Nat)
  /-- A view needs more elements than its storage holds. -/
  | viewTooLarge (dims : List Nat) (needed held : Nat)
  /-- An index or slice leaves a buffer. -/
  | outOfBounds
  /-- A count does not fit in a machine word. -/
  | overflow
  /-- A buffer larger than the address space. -/
  | capacity
  /-- Another assertion. -/
  | assertion
  deriving DecidableEq

namespace Abort

def message : Abort → String
  | invalidShape dims =>
    s!"invalid shape {bracketed dims}: rank must be >= 1 and every dimension positive"
  | rangeEscapes start stop held =>
    s!"range [{start}, {stop}) escapes storage of {held} elements"
  | viewTooLarge dims needed held =>
    s!"view of shape {bracketed dims} needs {needed} elements, storage holds {held}"
  | outOfBounds => "index out of bounds"
  | overflow => "arithmetic overflow"
  | capacity => "capacity overflow"
  | assertion => "assertion failed"

end Abort

end BlockTensor
