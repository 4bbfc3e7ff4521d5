/-!
# Faults

A fault is a misuse of the library by its caller: operands whose shapes do not fit, a position outside a
matrix, or sizes that leave the range of sizes. An assertion of the library on its own results would be one too,
if it failed. A fault ends the computation in which it arises, and it is apart from the errors that a well-posed
question may have for an answer, such as a singular matrix.
-/
namespace BlockElimination

inductive Fault
  /-- A size, a length or a sum of sizes leaves its range. -/
  | overflow
  /-- Vectors or arrays do not have the lengths that an operation asks for. -/
  | lengthMismatch
  /-- A row or a column is outside the matrix. -/
  | outOfRange
  /-- The workspace is too short. -/
  | workspace
  /-- Kronecker products whose factors do not fit each other pairwise. -/
  | unchained
  /-- A result has another kind than the operation is known to give. -/
  | unexpectedKind
  /-- An `m` by `k` map on the left of an `l` by `n` map. -/
  | productShape (m k l n : Nat)
  | sumShape (left right : Nat × Nat)
  | segmentLength (given : Nat) (key : String) (present : Nat)
  | columnCount (given : Nat) (column : String) (present : Nat)
  | rightSideLength (key : String) (given dim : Nat)
  deriving DecidableEq

/-- A pair of sizes in messages. -/
def shapeText (s : Nat × Nat) : String := s!"({s.1}, {s.2})"

namespace Fault

/-- The explanation, for the faults that have one. -/
def message? : Fault → Option String
  | overflow | lengthMismatch | outOfRange | workspace | unchained | unexpectedKind => none
  | productShape m k l n => some s!"multiplying {m} x {k} by {l} x {n}"
  | sumShape left right => some s!"adding {shapeText right} to {shapeText left}"
  | segmentLength given key present => some s!"adding {given} elements to {key} of {present}"
  | columnCount given column present => some s!"inserting {given} columns to {column} of {present}"
  | rightSideLength key given dim => some s!"{key} has {given} elements, not {dim}"

end Fault

end BlockElimination
