import BlockElimination.Error
import BlockElimination.Fault
import BlockElimination.Kind
import BlockElimination.Text.Quoted

/-!
# Events

What a computation reports while it runs. An event is data; its level and its text are functions of it.
-/
namespace BlockElimination

inductive Level
  | trace
  | debug
  | error
  deriving DecidableEq

def Level.name : Level → String
  | trace => "TRACE"
  | debug => "DEBUG"
  | error => "ERROR"

inductive Event
  | inverseNotSquare (m n : Nat)
  | inverseFailed (kind : Kind) (m n : Nat) (error : InversionError)
  | factoringDense (m n : Nat)
  | blockInverseNotSquare (m n : Nat)
  | blockInverseNotDiagonal
  /-- The block `(i, j)` of a product gains the product of the blocks `(i, k)` and `(k, j)`. -/
  | blockProduct (i k j : String) (left right : Nat × Nat)
  | blockAction
  | factoring (keys m n : Nat)
  | fill (key : String) (fill : Nat)
  | eliminating (key : String) (fill : Nat)
  | noDiagonal (key : String)
  | pivotFailed (key : String) (error : InversionError)
  | noColumn
  | factored (order : List String)
  deriving DecidableEq

namespace Event

def level : Event → Level
  | blockProduct .. | blockAction | fill .. => .trace
  | factoringDense .. | factoring .. | eliminating .. | factored .. => .debug
  | inverseNotSquare .. | inverseFailed .. | blockInverseNotSquare .. | blockInverseNotDiagonal
  | noDiagonal .. | pivotFailed .. | noColumn => .error

def message : Event → String
  | inverseNotSquare m n => s!"inverting non-square {m} x {n}"
  | inverseFailed kind m n e => s!"inverting {kind.name} {m} x {n}: {e.message}"
  | factoringDense m n => s!"factoring {m} x {n}"
  | blockInverseNotSquare m n => s!"inverting non-square block matrix {m} x {n}"
  | blockInverseNotDiagonal => "inverting block matrix which is not block diagonal"
  | blockProduct i k j left right =>
    s!"C({i}, {j}) += A({i}, {k}) {shapeText left} * B({k}, {j}) {shapeText right}"
  | blockAction => "block matrix-vector product"
  | factoring keys m n => s!"factoring {keys} keys, {m} x {n}"
  | fill key f => s!"fill of {key}: {f}"
  | eliminating key f => s!"eliminating {key} (fill {f})"
  | noDiagonal key => s!"no diagonal block ({key}, {key})"
  | pivotFailed key e => s!"diagonal block ({key}, {key}) {e.message}"
  | noColumn => "no column left to pivot"
  | factored order => s!"factored, order {Quoted.listText order}"

def text (e : Event) : String := s!"{e.level.name} {e.message}"

end Event

end BlockElimination
