import BlockElimination.BlockMatrix.Arithmetic
import BlockElimination.Factor.Fill
import BlockElimination.LinearMap.Inverse

/-!
# Elimination

`A = (I + L) D (I + L)ᵀ` for a block-symmetric `A`, one name at a time. Eliminating `k` with the diagonal block
`D` and the off-diagonal column `V` adds `V D⁻¹` to `L` and subtracts `V D⁻¹ Vᵀ` from what is left of `A`.
There are as many steps as `A` has columns. Where the pattern of `A` is not symmetric, an update may bring an
eliminated name back, and the order then repeats it.
-/
namespace BlockElimination

structure FactorParameters (F : Type) where
  /-- The largest absolute value that counts as zero when a diagonal block is inverted. -/
  tolerance : F
  rule : PivotRule

namespace FactorParameters

variable {F : Type}

def default [Scalar F] : FactorParameters F := ⟨Scalar.defaultTolerance, .minFill⟩

instance [Arith F] : BEq (FactorParameters F) :=
  ⟨fun p q => p.tolerance == q.tolerance && decide (p.rule = q.rule)⟩

end FactorParameters

/-- The names in the order of elimination with the dimensions of their diagonal blocks, `L`, `Lᵀ` and `D⁻¹`. -/
structure Factor (F : Type) where
  order : List String
  dims : List Nat
  lower : BlockMatrix F
  upper : BlockMatrix F
  diagInv : BlockMatrix F

namespace Factor

/-- What is left of the matrix, and the parts of the factor so far. -/
structure State (F : Type) where
  rest : BlockMatrix F
  lower : BlockMatrix F
  diagInv : BlockMatrix F
  order : List String
  dims : List Nat

variable {F : Type}

def State.start (A : BlockMatrix F) : State F := ⟨A, .empty, .empty, [], []⟩

/-- The matrix without the column of a name, and without the blocks of its row at the transposed places. -/
def eraseKey (A : BlockMatrix F) (key : String) : BlockMatrix F :=
  let rows := match A.column? key with
    | some column => column.keys
    | none => []
  rows.foldl (fun A row => if row = key then A.erase row key else (A.erase row key).erase key row) A

section Arith
variable [Arith F]

/-- The column of a name without its diagonal block. -/
def offDiagonal (A : BlockMatrix F) (key : String) : Except Fault (BlockMatrix F) :=
  BlockMatrix.empty.insertAll ((offDiagonalEntries A key).map fun (row, a) => (row, key, a))

/-- Takes the block of a row out of the column of a name. Off the diagonal it goes to the column that is returned, and
the block at the transposed place is dropped. -/
def removeRow (key : String) (s : BlockMatrix F × BlockMatrix F) (row : String) :
    Except Fault (BlockMatrix F × BlockMatrix F) := do
  let (A, V) := s
  let rest := A.erase row key
  if row = key then return (rest, V)
  else
    let V ←
      match A.get? row key with
      | some a => V.insertOrAdd row key a
      | none => pure V
    return (rest.erase key row, V)

/-- Removes a name in place, row by row of its column: what is left, and the column without its diagonal block. -/
def removeKey (A : BlockMatrix F) (key : String) : Except Fault (BlockMatrix F × BlockMatrix F) :=
  let rows := match A.column? key with
    | some column => column.keys
    | none => []
  rows.foldlM (removeRow key) (A, .empty)

end Arith

variable [Scalar F]

/-- The inverse of the diagonal block of a name. -/
def pivotInverse (tolerance : F) (A : BlockMatrix F) (key : String) : Outcome BlockError (LinearMap F) := do
  let a ← diagonal A key
  (a.inverse tolerance).mapError (fun e => [.pivotFailed key e]) (.pivot key)

/-- Eliminates one name. -/
def step (par : FactorParameters F) (s : State F) : Outcome BlockError (State F) := do
  let (key, fill) ← nextPivot par.rule s.rest
  .report (.eliminating key fill)
  let inv ← pivotInverse par.tolerance s.rest key
  let dim ← inv.colCount
  let d ← BlockMatrix.empty.insertOrAdd key key inv
  let v ← offDiagonal s.rest key
  let vd ← v.mul d
  let lower ← s.lower.add vd
  let diagInv ← s.diagInv.add d
  let vt ← v.transpose
  let update ← vd.mul vt
  let rest ← (eraseKey s.rest key).sub update
  return ⟨rest, lower, diagInv, s.order ++ [key], s.dims ++ [dim]⟩

def steps (par : FactorParameters F) : Nat → State F → Outcome BlockError (State F)
  | 0, s => .ok s
  | n + 1, s => do
    let s ← step par s
    steps par n s

/-- Factors a matrix, whose own size may be out of range. The parameters are the one thing that is not reported. -/
def compute (par : FactorParameters F) (A : BlockMatrix F) : Outcome BlockError (Factor F) := do
  let count := A.colKeys.length
  .reportIfTold (return .factoring count (← A.rowCount) (← A.colCount))
  let s ← steps par count (.start A)
  let upper ← s.lower.transpose
  .report (.factored s.order)
  return ⟨s.order, s.dims, s.lower, upper, s.diagInv⟩

end Factor

end BlockElimination
