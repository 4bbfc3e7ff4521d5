import BlockElimination.BlockMatrix.Basic
import BlockElimination.Outcome

/-!
# Fill and the choice of pivots

Eliminating the name `k` with the off-diagonal column `V` subtracts `V D⁻¹ Vᵀ`, where `D` is the diagonal
block. The fill of `k` estimates the nonzeros of that update from the kinds and the row counts of the blocks
alone. The pivot of least fill is a local choice; of equal ones the first name is taken.
-/
namespace BlockElimination

/-- How the next name is chosen: by least fill, or by name alone. -/
inductive PivotRule
  | minFill
  | natural
  deriving DecidableEq

def PivotRule.name : PivotRule → String
  | minFill => "MinFill"
  | natural => "Natural"

namespace Factor

/-- The sum over all ordered pairs of off-diagonal blocks, where `pivot` is the kind of the diagonal block. -/
def fillOfColumn (pivot : Kind) (column : List (Kind × Nat)) : Except Fault Nat :=
  (column.flatMap fun p => column.map fun q => (p, q)).foldlM
    (fun total (p, q) => do
      let nonzeros ← ((p.1.ofProduct pivot).ofProduct q.1).nonzeros p.2 q.2
      Size.add total nonzeros) 0

variable {F : Type}

/-- The blocks of a column off the diagonal, by row name. -/
def offDiagonalEntries (A : BlockMatrix F) (key : String) : List (String × LinearMap F) :=
  match A.column? key with
  | some column => column.entries.filter (·.1 != key)
  | none => []

def diagonal (A : BlockMatrix F) (key : String) : Outcome BlockError (LinearMap F) :=
  match A.get? key key with
  | some a => .ok a
  | none => do
    .report (.noDiagonal key)
    .error (.missingDiagonal key)

def fill (A : BlockMatrix F) (key : String) : Outcome BlockError Nat := do
  let pivot ← diagonal A key
  let column ← (offDiagonalEntries A key).mapM fun (_, a) => (a.kind, ·) <$> a.rowCount
  fillOfColumn pivot.kind column

/-- The better of a choice so far and a further name. -/
def betterPivot (best : Option (String × Nat)) (key : String) (fill : Nat) : Option (String × Nat) :=
  match best with
  | some (_, least) => if least ≤ fill then best else some (key, fill)
  | none => some (key, fill)

/-- The name of least fill, with its fill. -/
def leastFill? (A : BlockMatrix F) : Outcome BlockError (Option (String × Nat)) :=
  A.colKeys.foldlM
    (fun best key => do
      let f ← fill A key
      .report (.fill key f)
      return betterPivot best key f)
    none

def nextPivot (rule : PivotRule) (A : BlockMatrix F) : Outcome BlockError (String × Nat) := do
  let best ←
    match rule with
    | .minFill => leastFill? A
    | .natural => pure (A.colKeys.head?.map fun key => (key, 0))
  match best with
  | some pivot => return pivot
  | none =>
    .report .noColumn
    .error .emptyPivot

end Factor

end BlockElimination
