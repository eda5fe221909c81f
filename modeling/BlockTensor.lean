import BlockTensor.Float.Binary32
import BlockTensor.Proofs.Agreement
import BlockTensor.Proofs.CacheInvariant
import BlockTensor.Proofs.CacheTransparency
import BlockTensor.Proofs.Frame
import BlockTensor.Proofs.NativeBatch
import BlockTensor.Proofs.QuantizedBatch
import BlockTensor.Proofs.ViewChain
import BlockTensor.Select
import BlockTensor.Cache
import BlockTensor.Proofs.Elementwise
import BlockTensor.Proofs.ElementwiseAgreement
import BlockTensor.Proofs.Refusal
import BlockTensor.Proofs.Workspace
import BlockTensor.Proofs.Representation
import BlockTensor.Proofs.Padding
import BlockTensor.Proofs.Copy
import BlockTensor.Proofs.ViewRange
import BlockTensor.Proofs.PaddedWrites
import BlockTensor.Proofs.WorkspacePadding
import BlockTensor.Proofs.KernelDot
import BlockTensor.Proofs.DotFallback
import BlockTensor.Proofs.ReferenceBatch
import BlockTensor.Proofs.RowWrite
import BlockTensor.Proofs.MappedElements
import BlockTensor.Proofs.TensorCopy
import BlockTensor.Proofs.Readable
import BlockTensor.Proofs.RoundTrip
import BlockTensor.Proofs.QuantizedWrite
import BlockTensor.Proofs.BrainRounding
import BlockTensor.Proofs.HalfRounding
import BlockTensor.Proofs.Split
import BlockTensor.Proofs.MatrixProduct
import BlockTensor.Proofs.SaxpyRows
import BlockTensor.Proofs.QuantizeAgreement
import BlockTensor.Proofs.PoolCoverage
import BlockTensor.Proofs.UntrustedNumbers
import BlockTensor.Proofs.RowMajor
import BlockTensor.Proofs.EngineChoice
import BlockTensor.Proofs.PoolLifeCycle
import BlockTensor.Proofs.WindowBounds
import BlockTensor.Proofs.NibblePacking
