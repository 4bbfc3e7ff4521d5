import BlockElimination.LinearMap.Basic
import BlockElimination.Text.Scientific

/-!
# Text of linear maps

A dense map shows its corners, a diagonal one its ends. The sizes and the kind follow.
-/
namespace BlockElimination.LinearMap

variable {F : Type} [Arith F] [HasBinaryValue F]

open Scientific in
/-- The corners of a dense map, first along the first row and then along the last. -/
def cornersText (d : Dense F) : String :=
  let m := d.height
  let n := d.width
  if m = 0 ∨ n = 0 then "[ ]"
  else
    let corners := [d.entry 0 0] ++ (if 1 < n then [d.entry 0 (n - 1)] else []) ++
      (if 1 < m then d.entry (m - 1) 0 :: (if 1 < n then [d.entry (m - 1) (n - 1)] else []) else [])
    "[ " ++ " ... ".intercalate (corners.map text) ++ " ]"

open Scientific in
def diagonalText (d : Array F) : String :=
  match d.toList with
  | [] => "diag[ ]"
  | [x] => s!"diag[ {text x} ]"
  | x :: rest => s!"diag[ {text x} ... {text (rest.getLastD x)} ]"

def text : LinearMap F → Except Fault String
  | dense d => do
    let (m, n) ← (dense d).size
    let corners := cornersText d
    return s!"{corners} ({m} x {n}) Dense"
  | kron a b => do
    let (m, n) ← (kron a b).size
    let left ← a.text
    let right ← b.text
    return s!"( {left} ) (x) ( {right} ) ({m} x {n}) Kron"
  | diag d => do
    let (m, n) ← (diag d).size
    let ends := diagonalText d.value
    return s!"{ends} ({m} x {n}) Diag"
  | scalar n alpha => do
    let (m, n) ← (scalar n alpha).size
    let factor := Scientific.text alpha.value
    return s!"{factor} I ({m} x {n}) Scalar"

end BlockElimination.LinearMap
