import TensorKernel.Kernel
import TensorKernel.Serial.Forms
import TensorKernel.Serial.Reader
import TensorKernel.Serial.Writer
import TensorKernel.Tree.Compose
import TensorKernel.Tree.Residue
import TensorKernel.Proofs.Program.CopyElimination
import TensorKernel.Proofs.Index.Dims
import TensorKernel.Proofs.Index.Point
import TensorKernel.Proofs.Success
import TensorKernel.Proofs.Tree.Induction
import TensorKernel.Proofs.Tree.Order
import TensorKernel.Proofs.Tree.Binary
import TensorKernel.Proofs.Tree.Meaning
import TensorKernel.Proofs.Tree.Resolution
import TensorKernel.Proofs.Gemm.Numbering
import TensorKernel.Proofs.Formula.Basic
import TensorKernel.Proofs.Formula.Folding
import TensorKernel.Proofs.Formula.Statement
import TensorKernel.Proofs.Tree.Passes
import TensorKernel.Proofs.Program.Segment
import TensorKernel.Proofs.Program.Lowering
import TensorKernel.Proofs.Execution
import TensorKernel.Proofs.Kernel
import TensorKernel.Proofs.Pattern.Support
import TensorKernel.Proofs.Pattern.Reading
import TensorKernel.Proofs.Tree.Everywhere
import TensorKernel.Proofs.Tree.Resolving
import TensorKernel.Proofs.Tree.Construction
import TensorKernel.Proofs.Tree.Sparsity
import TensorKernel.Proofs.Tree.Preparation
import TensorKernel.Proofs.Layout.Cover
import TensorKernel.Proofs.Tree.Shape
import TensorKernel.Proofs.Tree.Refusal
import TensorKernel.Proofs.Tree.Progress
import TensorKernel.Proofs.Tree.Written
import TensorKernel.Proofs.Tree.Storage
import TensorKernel.Proofs.Tree.Finalized
import TensorKernel.Proofs.Tree.Assembly
import TensorKernel.Proofs.Tree.Resolved
import TensorKernel.Proofs.Tree.Operability
import TensorKernel.Proofs.Emission
import TensorKernel.Proofs.Program.Steps
import TensorKernel.Proofs.Program.WellFormed
import TensorKernel.Proofs.Tree.Prefetch
import TensorKernel.Proofs.Prefetch
import TensorKernel.Proofs.Tree.Bracketing
import TensorKernel.Proofs.Tree.Idempotence
import TensorKernel.Proofs.Program.Stages
import TensorKernel.Proofs.Program.Staging
import TensorKernel.Proofs.Gemm.Loops
import TensorKernel.Proofs.Tree.Arithmetic
import TensorKernel.Proofs.Pattern.Exactness
import TensorKernel.Proofs.Pattern.Transposition
import TensorKernel.Proofs.Pattern.Shortcut
import TensorKernel.Proofs.Layout.Permutation
import TensorKernel.Proofs.Tree.Permutation
import TensorKernel.Proofs.Tree.Acceptance
import TensorKernel.Proofs.Tree.Summation
import TensorKernel.Proofs.Tree.Fixity
import TensorKernel.Proofs.Tree.Alignment
import TensorKernel.Proofs.Gemm.Operands
import TensorKernel.Proofs.Tree.Selection
import TensorKernel.Proofs.Gemm.Natural
import TensorKernel.Proofs.Pattern.Counting
import TensorKernel.Proofs.Tree.Counting
import TensorKernel.Proofs.Layout.Addressing
import TensorKernel.Proofs.Program.Analysis
import TensorKernel.Proofs.Program.SummationOrder
import TensorKernel.Proofs.Program.Correspondence
import TensorKernel.Proofs.Program.Groups
import TensorKernel.Proofs.Formula.Normal
import TensorKernel.Proofs.Index.Obtained
import TensorKernel.Proofs.Pattern.Bounds
import TensorKernel.Proofs.Layout.Transposition
import TensorKernel.Proofs.Layout.Enclosure
import TensorKernel.Proofs.Pattern.Listing
import TensorKernel.Proofs.Pattern.Descriptors
import TensorKernel.Proofs.Tree.Merging
import TensorKernel.Proofs.Layout.Fusion
import TensorKernel.Proofs.Gemm.StorageOrder
import TensorKernel.Proofs.Gemm.Subscript
import TensorKernel.Proofs.Gemm.Description
