import BlockElimination.BlockMatrix.Basic
import BlockElimination.LinearMap.Inverse

/-!
# Inverses of block-diagonal matrices

Every column has one block, and no two of them share a row name; the names of rows and columns may be matched
in any way. The inverse of the block `(i, j)` is the block `(j, i)` of the inverse.
-/
namespace BlockElimination.BlockMatrix

variable {F : Type}

/-- The row name of the only block of each column, if every column has just one. -/
def onlyRows? (A : BlockMatrix F) : Option (List String) :=
  A.columns.values.mapM fun column =>
    match column.keys with
    | [row] => some row
    | _ => none

/-- Every column has one block, and no two of them share a row. -/
def isBlockDiagonal (A : BlockMatrix F) : Bool :=
  match A.onlyRows? with
  | some rows => decide rows.Nodup
  | none => false

variable [Scalar F]

def inverse (A : BlockMatrix F) (eps : F) : Outcome BlockError (BlockMatrix F) := do
  let m ← A.rowCount
  let n ← A.colCount
  if m ≠ n then
    .report (.blockInverseNotSquare m n)
    .error (.notSquare m n)
  else if A.isBlockDiagonal then
    A.blocks.foldlM
      (fun C (row, col, a) => do
        let inv ← (a.inverse eps).mapError (fun _ => []) .linearMap
        C.insertOrAdd col row inv)
      empty
  else
    .report .blockInverseNotDiagonal
    .error .notBlockDiagonal

end BlockElimination.BlockMatrix
