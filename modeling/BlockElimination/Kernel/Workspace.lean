import BlockElimination.Kernel.SymmetricInverse

/-!
# Inversion in place

The decomposition is kept in a workspace that is lent by the caller and may hold anything before: the pivots, and after
them `L` column by column. The array of the matrix is read until the decomposition is complete. Then it is overwritten
by the inverse, column by column, each of which is solved for where it stands.
-/
namespace BlockElimination.Kernel

variable {F : Type}

/-- Overwrites `len` elements from `start` on in turn, each by what `value` makes of the array at that time. -/
def overwrite (start len : Nat) (value : Nat → Array F → F) (a : Array F) : Array F :=
  Nat.fold len (fun i _ a => a.setIfInBounds (start + i) (value i a)) a

/-- The pivots of a decomposition, and the columns of `L` one after the other. -/
structure Workspace (F : Type) where
  pivots : Array F
  lower : Array F

namespace Workspace

/-- The parts of a work array that serve an `n` by `n` matrix. -/
def ofArray (n : Nat) (work : Array F) : Workspace F where
  pivots := work.extract 0 n
  lower := work.extract n (n + n * n)

variable [Scalar F]

def clear (w : Workspace F) : Workspace F := { w with lower := w.lower.map fun _ => 0 }

/-- Writes the pivot `j` and the column `j` of `L`. Only the lower triangle of `mat` is read. -/
def factorColumn (n : Nat) (mat : Array F) (eps : F) (w : Workspace F) (j : Nat) : Option (Workspace F) :=
  let d := descendingFrom (storedEntry false n mat j j) j fun k =>
    storedEntry false n w.lower j k * storedEntry false n w.lower j k * coord w.pivots k
  if Scalar.isLe (Scalar.abs d) eps then none
  else
    let pivots := w.pivots.setIfInBounds j d
    let below := fun p l =>
      let i := j + 1 + p
      descendingFrom (storedEntry false n mat i j) j
        (fun k => storedEntry false n l i k * storedEntry false n l j k * coord pivots k) / d
    some ⟨pivots, overwrite (j * n + (j + 1)) (n - (j + 1)) below (w.lower.setIfInBounds (j * n + j) 1)⟩

/-- Writes the first `j` columns. -/
def decompose (n : Nat) (mat : Array F) (eps : F) (w : Workspace F) : Nat → Option (Workspace F)
  | 0 => some w
  | j + 1 => do
    let w ← decompose n mat eps w j
    w.factorColumn n mat eps j

/-- Takes the multiple of column `j` of `L` away that clears what is below coordinate `j` of a right side. -/
def clearBelow (n : Nat) (w : Workspace F) (j : Nat) (x : Array F) : Array F :=
  let xj := coord x j
  overwrite (j + 1) (n - (j + 1)) (fun p x => coord x (j + 1 + p) - storedEntry false n w.lower (j + 1 + p) j * xj) x

/-- `L⁻¹ x`. -/
def solveLower (n : Nat) (w : Workspace F) (x : Array F) : Array F := Nat.fold n (fun j _ x => w.clearBelow n j x) x

/-- `D⁻¹ x`. -/
def divide (n : Nat) (w : Workspace F) (x : Array F) : Array F :=
  overwrite 0 n (fun i x => coord x i / coord w.pivots i) x

/-- Solves for coordinate `j`, given those after it. -/
def solveAbove (n : Nat) (w : Workspace F) (j : Nat) (x : Array F) : Array F :=
  x.setIfInBounds j (descendingFrom (coord x j) (n - (j + 1)) fun p =>
    storedEntry false n w.lower (j + 1 + p) j * coord x (j + 1 + p))

/-- `L⁻ᵀ x`. -/
def solveUpper (n : Nat) (w : Workspace F) (x : Array F) : Array F :=
  Nat.foldRev n (fun j _ x => w.solveAbove n j x) x

/-- `(L D Lᵀ)⁻¹ x`. -/
def solve (n : Nat) (w : Workspace F) (x : Array F) : Array F := w.solveUpper n (w.divide n (w.solveLower n x))

/-- Overwrites column `c` by column `c` of the inverse. -/
def invertColumn (n : Nat) (w : Workspace F) (c : Nat) (mat : Array F) : Array F :=
  let unit := overwrite 0 n (fun i _ => if i = c then 1 else 0) (mat.extract (c * n) (c * n + n))
  let x := w.solve n unit
  overwrite (c * n) n (fun i _ => coord x i) mat

end Workspace

variable [Scalar F]

/-- Overwrites `mat` by the inverse of the symmetric matrix with its lower triangle, unless a pivot fails. -/
def invertInPlace (n : Nat) (mat : Array F) (eps : F) (work : Array F) : Option (Array F) := do
  let w ← (Workspace.ofArray n work).clear.decompose n mat eps n
  return Nat.fold n (fun c _ mat => w.invertColumn n c mat) mat

/-- The length of workspace that `invertSymmetric` asks for. -/
def workLength (n : Nat) : Except Fault Nat := do
  let square ← Size.mul n n
  Size.add n square

/-- The inverse in place, with all lengths checked; `none` if a pivot fails. -/
def invertSymmetric (n : Nat) (mat : Array F) (eps : F) (work : Array F) : Except Fault (Option (Array F)) := do
  let len ← Size.mul n n
  requireLengths (mat.size = len)
  let need ← workLength n
  if need ≤ work.size then return invertInPlace n mat eps work else throw .workspace

end BlockElimination.Kernel
