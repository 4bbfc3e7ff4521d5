import BlockElimination.Event
import BlockElimination.Kernel.Vector
import BlockElimination.Outcome

/-!
# Diagonals

Arithmetic on the diagonals of diagonal maps.
-/
namespace BlockElimination.Diagonal

variable {F : Type}

section Arith
variable [Arith F]

def mul (a b : Array F) : Except Fault (Array F) := do
  Kernel.requireLengths (a.size = b.size)
  return tabulate a.size fun i => coord a i * coord b i

/-- The sum, whose second operand is multiplied by one before it is added. -/
def add (a b : Array F) : Except Fault (Array F) := Kernel.add 1 b a

end Arith

/-- The reciprocals, unless an entry is at most `eps` in absolute value. -/
def inverse [Scalar F] (d : Array F) (eps : F) : Except InversionError (Array F) :=
  if d.any fun x => Scalar.isLe (Scalar.abs x) eps then .error .singular else .ok (d.map Scalar.recip)

end BlockElimination.Diagonal
