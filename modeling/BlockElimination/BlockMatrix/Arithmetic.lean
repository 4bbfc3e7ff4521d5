import BlockElimination.BlockMatrix.Basic
import BlockElimination.BlockVector
import BlockElimination.Outcome

/-!
# Arithmetic of block matrices

Results are collected block by block through insertion, so blocks that meet in one place add up.
-/
namespace BlockElimination.BlockMatrix

variable {F : Type} [Arith F]

/-- The block-diagonal identity with the given names and dimensions. -/
def identity (dims : List (String × Nat)) : Except Fault (BlockMatrix F) :=
  empty.insertAll (dims.map fun (key, dim) => (key, key, .identity dim))

/-- The identity `I` with `I A = A`. -/
def leftIdentity (A : BlockMatrix F) : Except Fault (BlockMatrix F) := do
  let _ ← A.blocks.mapM fun (_, _, a) => a.rowCount
  let dims ← A.rowHeads.entries.mapM fun (row, a) => (row, ·) <$> a.rowCount
  identity dims

/-- The identity `I` with `A I = A`. -/
def rightIdentity (A : BlockMatrix F) : Except Fault (BlockMatrix F) := do
  let dims ← A.colHeads.mapM fun (col, a) => (col, ·) <$> a.colCount
  identity dims

def scale (alpha : F) (A : BlockMatrix F) : Except Fault (BlockMatrix F) :=
  empty.insertAll (A.blocks.map fun (row, col, a) => (row, col, a.scale alpha))

def neg (A : BlockMatrix F) : Except Fault (BlockMatrix F) := A.scale (-1)

/-- The block `(j, i)` of the transpose is the transposed block `(i, j)`. -/
def transpose (A : BlockMatrix F) : Except Fault (BlockMatrix F) :=
  empty.insertAll (A.blocks.map fun (row, col, a) => (col, row, a.transpose))

/-- `A + α B`. Blocks of `B` are multiplied by `α` also where `A` has none. -/
def addScaled (alpha : F) (A B : BlockMatrix F) : Except Fault (BlockMatrix F) :=
  A.insertAll (B.blocks.map fun (row, col, b) => (row, col, b.scale alpha))

def add (A B : BlockMatrix F) : Except Fault (BlockMatrix F) := addScaled 1 A B

def sub (A B : BlockMatrix F) : Except Fault (BlockMatrix F) := addScaled (-1) A B

variable {ε : Type}

/-- The pairs of blocks `(i, k)` of `A` and `(k, j)` of `B`, in the order of the blocks of `B`. -/
def meetings (A B : BlockMatrix F) : List ((String × String × String) × LinearMap F × LinearMap F) :=
  B.blocks.flatMap fun (k, j, b) =>
    match A.column? k with
    | some column => column.entries.map fun (i, a) => ((i, k, j), a, b)
    | none => []

/-- The product. Every pair of blocks that meet is reported before it is multiplied. -/
def mul (A B : BlockMatrix F) : Outcome ε (BlockMatrix F) :=
  (meetings A B).foldlM
    (fun C ((i, k, j), a, b) => do
      .reportIfTold (return .blockProduct i k j (← a.size) (← b.size))
      let product ← a.mul b
      C.insertOrAdd i j product)
    empty

/-- `A x`. Segments without a column of the matrix contribute nothing. -/
def apply (A : BlockMatrix F) (x : BlockVector F) : Outcome ε (BlockVector F) := do
  .report .blockAction
  x.segments.entries.foldlM
    (fun y (key, segment) =>
      match A.column? key with
      | some column =>
        column.entries.foldlM
          (fun y (row, a) => do
            let product ← a.apply segment
            y.insertOrAdd row product) y
      | none => pure y)
    BlockVector.empty

end BlockElimination.BlockMatrix
