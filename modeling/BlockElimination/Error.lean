/-!
# Errors of inversion and factorization

Both types name causes. The wording, and the error behind an error, are functions of the cause.
-/
namespace BlockElimination

/-- Why a linear map has no inverse. -/
inductive InversionError
  | notSquare (m n : Nat)
  | singular
  deriving DecidableEq

def InversionError.message : InversionError → String
  | notSquare m n => s!"NotSquare: cannot invert {m} x {n} map"
  | singular => "Singular: map is not invertible"

/-- Why a block matrix has no inverse or no factorization. -/
inductive BlockError
  | emptyPivot
  | missingDiagonal (key : String)
  | pivot (key : String) (cause : InversionError)
  | notBlockDiagonal
  | notSquare (m n : Nat)
  | linearMap (cause : InversionError)
  deriving DecidableEq

namespace BlockError

def message : BlockError → String
  | emptyPivot => "EmptyPivot: no column left to pivot"
  | missingDiagonal key => s!"MissingDiagonal: no diagonal block ({key}, {key})"
  | pivot key cause => s!"Pivot: diagonal block of {key} failed, {cause.message}"
  | notBlockDiagonal => "NotBlockDiagonal: unable to invert"
  | notSquare m n => s!"NotSquare: cannot invert {m} x {n} block matrix"
  | linearMap cause => s!"LinMap: {cause.message}"

/-- The failure of a single linear map behind the error. -/
def source? : BlockError → Option InversionError
  | pivot _ cause | linearMap cause => some cause
  | _ => none

end BlockError

end BlockElimination
