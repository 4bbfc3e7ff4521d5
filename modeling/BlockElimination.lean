import BlockElimination.BlockMatrix.Inverse
import BlockElimination.BlockMatrix.Printer
import BlockElimination.Factor.Solve
import BlockElimination.Kernel.Indexed
import BlockElimination.Kernel.Workspace
import BlockElimination.LinearMap.Printer
import BlockElimination.MatrixBuilder
import BlockElimination.Proofs.Exact
import BlockElimination.Proofs.Yields
import BlockElimination.Proofs.Mirrors
import BlockElimination.Proofs.LinearMap.Sizes
import BlockElimination.Proofs.LinearMap.Transposed
import BlockElimination.Proofs.LinearMap.Action
import BlockElimination.Proofs.LinearMap.Written
import BlockElimination.Proofs.Kernel.SymmetricInverse
import BlockElimination.Proofs.Kernel.Workspace
import BlockElimination.Proofs.Kernel.LowerTriangle
import BlockElimination.Proofs.Kernel.LeadingMinors
import BlockElimination.Proofs.Kernel.Indexed
import BlockElimination.Proofs.LinearMap.Arithmetic
import BlockElimination.Proofs.LinearMap.Sums
import BlockElimination.Proofs.LinearMap.Entrywise
import BlockElimination.Proofs.LinearMap.Product
import BlockElimination.Proofs.LinearMap.Inverse
import BlockElimination.Proofs.LinearMap.Alike
import BlockElimination.Proofs.LinearMap.Upright
import BlockElimination.Proofs.LinearMap.Materialized
import BlockElimination.Proofs.LinearMap.Symmetric
import BlockElimination.Proofs.LinearMap.Marks
import BlockElimination.Proofs.LinearMap.Storage
import BlockElimination.Proofs.LinearMap.Columns
import BlockElimination.Proofs.LinearMap.Storable
import BlockElimination.Proofs.MatrixBuilder.Cells
import BlockElimination.Proofs.MatrixBuilder.Writes
import BlockElimination.Proofs.MatrixBuilder.Reachable
import BlockElimination.Proofs.MatrixBuilder.Setters
import BlockElimination.Proofs.BlockMatrix.Blocks
import BlockElimination.Proofs.BlockMatrix.Arithmetic
import BlockElimination.Proofs.BlockMatrix.Meetings
import BlockElimination.Proofs.BlockMatrix.Looks
import BlockElimination.Proofs.BlockMatrix.Contents
import BlockElimination.Proofs.BlockMatrix.Pattern
import BlockElimination.Proofs.BlockMatrix.Reachable
import BlockElimination.Proofs.BlockMatrix.InsertionOrder
import BlockElimination.Proofs.BlockMatrix.Matched
import BlockElimination.Proofs.BlockMatrix.Symmetric
import BlockElimination.Proofs.BlockMatrix.Storable
import BlockElimination.Proofs.BlockMatrix.Product
import BlockElimination.Proofs.BlockMatrix.Transpose
import BlockElimination.Proofs.BlockMatrix.Inverse
import BlockElimination.Proofs.BlockMatrix.Diagonal
import BlockElimination.Proofs.BlockMatrix.TransposedTwice
import BlockElimination.Proofs.LinearMap.Equality
import BlockElimination.Proofs.LinearMap.Lengths
import BlockElimination.Proofs.LinearMap.Overwrite
import BlockElimination.Proofs.BlockMatrix.Identity
import BlockElimination.Proofs.Factor.Pivot
import BlockElimination.Proofs.Factor.Step
import BlockElimination.Proofs.Factor.Pattern
import BlockElimination.Proofs.Factor.Progress
import BlockElimination.Proofs.Factor.LeastFill
import BlockElimination.Proofs.Factor.Update
import BlockElimination.Proofs.Factor.FillBounds
import BlockElimination.Proofs.Factor.Removal
import BlockElimination.Proofs.Factor.FillPath
import BlockElimination.Proofs.Factor.Mirrored
import BlockElimination.Proofs.Factor.Triangle
import BlockElimination.Proofs.Factor.Elimination
import BlockElimination.Proofs.Factor.Factorization
import BlockElimination.Proofs.Factor.Sweep
import BlockElimination.Proofs.Factor.Solve
import BlockElimination.Proofs.Factor.Solution
import BlockElimination.Proofs.Factor.Storable
import BlockElimination.Proofs.Factor.Dimensions
import BlockElimination.Proofs.Factor.Decoupled
import BlockElimination.Proofs.Factor.Definite
import BlockElimination.Proofs.Factor.Gram
import BlockElimination.Proofs.Factor.Announced
import BlockElimination.Proofs.BlockVector.InPlace
