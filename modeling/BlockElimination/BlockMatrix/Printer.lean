import BlockElimination.BlockMatrix.Basic
import BlockElimination.LinearMap.Printer

/-!
# Text of block matrices
-/
namespace BlockElimination.BlockMatrix

variable {F : Type} [Arith F] [HasBinaryValue F]

/-- The size, and a line for every block. -/
def text (A : BlockMatrix F) : Except Fault String := do
  let m ← A.rowCount
  let n ← A.colCount
  let lines ← A.blocks.mapM fun (row, col, a) => do
    let body ← a.text
    return s!"\n({row}, {col}) {body}"
  return s!"block matrix {m} x {n}" ++ String.join lines

end BlockElimination.BlockMatrix
