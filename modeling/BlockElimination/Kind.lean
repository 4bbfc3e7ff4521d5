import BlockElimination.Size

/-!
# Kinds of linear maps

A linear map is dense, a Kronecker product, diagonal, or a multiple of an identity. The kind of the result
of an operation is a function of the kinds of its operands alone, which lets fill-in be ranked before
anything is computed.
-/
namespace BlockElimination

inductive Kind
  | dense
  | kron
  | diag
  | scalar
  deriving DecidableEq

namespace Kind

def name : Kind → String
  | dense => "Dense"
  | kron => "Kron"
  | diag => "Diag"
  | scalar => "Scalar"

/-- The kind of a product: a scalar map keeps the kind of the other factor, two diagonal maps and two
Kronecker products keep theirs, and all else is dense. Two Kronecker products whose factors do not fit
pairwise are multiplied densely, although this still answers `kron`. -/
def ofProduct : Kind → Kind → Kind
  | scalar, t | t, scalar => t
  | diag, diag => diag
  | kron, kron => kron
  | _, _ => dense

@[simp] theorem scalar_ofProduct (t : Kind) : scalar.ofProduct t = t := by cases t <;> rfl

@[simp] theorem ofProduct_scalar (t : Kind) : t.ofProduct scalar = t := by cases t <;> rfl

/-- The kind of a sum: scalar and diagonal maps stay as special as both operands are. -/
def ofSum : Kind → Kind → Kind
  | scalar, scalar => scalar
  | scalar, diag | diag, scalar | diag, diag => diag
  | _, _ => dense

/-- An estimate of the nonzero entries of an `m` by `n` map, which grows from `scalar` to `dense`. -/
def nonzeros (kind : Kind) (m n : Nat) : Except Fault Nat :=
  match kind with
  | dense => Size.mul m n
  | kron => do
    let all ← Size.mul m n
    return max (all / 2) (min m n)
  | diag | scalar => .ok (min m n)

end Kind

/-- The operations on linear maps whose result has a kind that is known beforehand. -/
inductive Operation
  | multiply
  | add
  | transpose
  | inverse
  deriving DecidableEq

/-- The kind of the result; the unary operations ignore the second operand. -/
def Operation.resultKind : Operation → Kind → Kind → Kind
  | multiply, a, b => a.ofProduct b
  | add, a, b => a.ofSum b
  | transpose, a, _ | inverse, a, _ => a

end BlockElimination
