import BlockElimination.LinearMap.Basic
import BlockElimination.Text.Scientific

/-!
# Building dense maps

A builder holds the cells of a general matrix, or of the upper triangle of a symmetric one, column by column.
A position of a symmetric matrix and the transposed position share a cell. Positions outside the matrix are refused.
-/
namespace BlockElimination

inductive Shape
  | general (rows cols : Nat)
  | packed (n : Nat)
  deriving DecidableEq

namespace Shape

def rows : Shape → Nat
  | general m _ => m
  | packed n => n

def cols : Shape → Nat
  | general _ n => n
  | packed n => n

/-- The number of cells. -/
def cellCount : Shape → Nat
  | general m n => m * n
  | packed n => n * (n + 1) / 2

/-- The number of cells, if it can be computed within the range of sizes. -/
def length : Shape → Except Fault Nat
  | general m n => Size.mul m n
  | packed n => do
    let next ← Size.add n 1
    let twice ← Size.mul n next
    return twice / 2

/-- The cell of row `r` and column `c`. -/
def cell (s : Shape) (r c : Nat) : Except Fault Nat :=
  if r < s.rows ∧ c < s.cols then
    match s with
    | general m _ => do
      let start ← Size.mul c m
      Size.add start r
    | packed _ => do
      let next ← Size.add (max r c) 1
      let twice ← Size.mul (max r c) next
      Size.add (twice / 2) (min r c)
  else .error .outOfRange

def columnMajor (s : Shape) : List (Nat × Nat) :=
  (List.range (s.rows * s.cols)).map fun p => (p % s.rows, p / s.rows)

def rowMajor (s : Shape) : List (Nat × Nat) :=
  (List.range (s.rows * s.cols)).map fun p => (p / s.cols, p % s.cols)

/-- One position per cell: all positions column by column, or those on and above the diagonal. -/
def positions : Shape → List (Nat × Nat)
  | general m n => (general m n).columnMajor
  | packed n => (List.range n).flatMap fun c => (List.range (c + 1)).map fun r => (r, c)

theorem length_eq_ok {s : Shape} {n : Nat} (h : s.length = .ok n) : n = s.cellCount := by
  cases s with
  | general m k => exact (Size.mul_eq_ok_iff.mp h).2
  | packed k =>
    simp only [length, bind, Except.bind] at h
    split at h
    · contradiction
    case h_2 next hnext =>
      split at h
      · contradiction
      case h_2 twice htwice =>
        obtain ⟨_, rfl⟩ := Size.add_eq_ok_iff.mp hnext
        obtain ⟨_, rfl⟩ := Size.mul_eq_ok_iff.mp htwice
        simpa [pure, Except.pure, cellCount, eq_comm] using h

end Shape

structure MatrixBuilder (F : Type) where
  shape : Shape
  cells : Array F
  size_cells : cells.size = shape.cellCount

namespace MatrixBuilder

variable {F : Type} [Arith F]

/-- A matrix of zeros. -/
def zero (shape : Shape) : Except Fault (MatrixBuilder F) := do
  let len ← shape.length
  Size.storable len
  return { shape, cells := Array.replicate shape.cellCount 0, size_cells := by simp }

def get (b : MatrixBuilder F) (r c : Nat) : Except Fault F := do
  let i ← b.shape.cell r c
  if h : i < b.cells.size then return b.cells[i] else .error .outOfRange

def set (b : MatrixBuilder F) (r c : Nat) (value : F) : Except Fault (MatrixBuilder F) := do
  let i ← b.shape.cell r c
  if h : i < b.cells.size then
    return { b with cells := b.cells.set i value, size_cells := by simpa using b.size_cells }
  else .error .outOfRange

/-- Writes one value after the other, so that of two writes to one cell the later one stays. -/
def write (b : MatrixBuilder F) (writes : List ((Nat × Nat) × F)) : Except Fault (MatrixBuilder F) :=
  writes.foldlM (fun b w => b.set w.1.1 w.1.2 w.2) b

/-- Sets the cells one by one; `f k r c` is what the `k`-th call answers for row `r` and column `c`. -/
def setByFunction (b : MatrixBuilder F) (f : Nat → Nat → Nat → F) : Except Fault (MatrixBuilder F) :=
  b.write (b.shape.positions.mapIdx fun k p => (p, f k p.1 p.2))

/-- Calls the function for one position and stores its answer there. -/
def setByCall {σ : Type} (f : Nat → Nat → σ → F × σ) (state : MatrixBuilder F × σ) (p : Nat × Nat) :
    Except Fault (MatrixBuilder F × σ) := do
  let answer := f p.1 p.2 state.2
  let b ← state.1.set p.1 p.2 answer.1
  return (b, answer.2)

/-- Sets the cells one by one by a function that may change its state with every call. -/
def setByCalls {σ : Type} (b : MatrixBuilder F) (f : Nat → Nat → σ → F × σ) (start : σ) :
    Except Fault (MatrixBuilder F × σ) :=
  b.shape.positions.foldlM (setByCall f) (b, start)

/-- Sets positions column by column until the values run out. -/
def setColumnMajor (b : MatrixBuilder F) (values : List F) : Except Fault (MatrixBuilder F) :=
  b.write (b.shape.columnMajor.zip values)

/-- Sets positions row by row until the values run out. -/
def setRowMajor (b : MatrixBuilder F) (values : List F) : Except Fault (MatrixBuilder F) :=
  b.write (b.shape.rowMajor.zip values)

def scale (alpha : F) (b : MatrixBuilder F) : MatrixBuilder F :=
  { b with cells := Kernel.scale alpha b.cells, size_cells := by simpa using b.size_cells }

/-- All elements, column by column, with both triangles of a symmetric matrix. -/
def toColumnMajor (b : MatrixBuilder F) : Except Fault (Array F) := do
  let values ← b.shape.columnMajor.mapM fun p => b.get p.1 p.2
  return values.toArray

def toLinearMap (b : MatrixBuilder F) : Except Fault (LinearMap F) := do
  let a ← b.toColumnMajor
  LinearMap.ofArray b.shape.rows b.shape.cols a

variable [HasBinaryValue F]

/-- The ends of a row, or its only element. -/
def rowText (b : MatrixBuilder F) (r : Nat) : Except Fault String := do
  let n := b.shape.cols
  let first ← b.get r 0
  let last ← b.get r (n - 1)
  let gap := if 2 < n then " ..." else ""
  let tail := if 1 < n then " " ++ Scientific.text last else ""
  return Scientific.text first ++ gap ++ tail

/-- The corners, the size and the shape. -/
def text (b : MatrixBuilder F) : Except Fault String := do
  let m := b.shape.rows
  let n := b.shape.cols
  let name := match b.shape with
    | .general .. => "General"
    | .packed _ => "Symmetric Packed"
  let body ←
    if m = 0 ∨ n = 0 then pure "[ ]"
    else do
      let top ← b.rowText 0
      let bottom ← b.rowText (m - 1)
      let gap := if 2 < m then "\n  ..." else ""
      let tail := if 1 < m then "\n  " ++ bottom else ""
      pure ("[ " ++ top ++ gap ++ tail ++ " ]")
  return body ++ s!" ({m} x {n}) " ++ name

end MatrixBuilder

end BlockElimination
