import BlockElimination.LinearMap.Basic
import BlockElimination.LinearMap.Diagonal

/-!
# Inverses of linear maps

The inverse has the kind of the map. A dense map is taken to be symmetric. A Kronecker product inverts its
factors, and is singular if one of them has no inverse, whatever the reason. Every failing map reports itself
after its factors have.
-/
namespace BlockElimination.LinearMap

variable {F : Type} [Scalar F]

/-- The inverse of a multiple of an identity; without rows there is always one. -/
def inverseScalar (n : Nat) (alpha eps : F) : Except InversionError (LinearMap F) :=
  if 0 < n ∧ Scalar.isLe (Scalar.abs alpha) eps then .error .singular
  else .ok (ofScalar n (Scalar.recip alpha))

/-- Inverts a square map by `invert`, and reports that a map is not square or that `invert` has failed. The inverse is
asserted to have the kind of the map. -/
def reportInversion (K : LinearMap F) (invert : Outcome InversionError (LinearMap F)) :
    Outcome InversionError (LinearMap F) := do
  let (m, n) ← K.size
  if m ≠ n then
    .report (.inverseNotSquare m n)
    .error (.notSquare m n)
  else
    let inv ← invert.mapError (fun e => [.inverseFailed K.kind m n e]) id
    let inv ← inv.expectKind [Operation.inverse.resultKind K.kind K.kind]
    return inv

/-- The inverse of a Kronecker product from those of its factors. -/
def inverseKron (a b : LinearMap F) (invertA invertB : Outcome InversionError (LinearMap F)) :
    Outcome InversionError (LinearMap F) := do
  let (m, n) ← (kron a b).size
  if m ≠ n then .error (.notSquare m n)
  else do
    let aInv ← invertA.mapError (fun _ => []) fun _ => .singular
    let bInv ← invertB.mapError (fun _ => []) fun _ => .singular
    return kron aInv bInv

/-- The inverse, with `eps` for the largest absolute value that counts as zero. -/
def inverse (eps : F) : LinearMap F → Outcome InversionError (LinearMap F)
  | dense d => reportInversion (dense d) (dense <$> d.inverse eps)
  | kron a b => reportInversion (kron a b) (inverseKron a b (a.inverse eps) (b.inverse eps))
  | diag d => reportInversion (diag d) (Outcome.ofResult (ofDiagonal <$> Diagonal.inverse d.value eps))
  | scalar n alpha => reportInversion (scalar n alpha) (Outcome.ofResult (inverseScalar n alpha.value eps))

/-- The inverse as the representation computes it, without the reports on the map itself. -/
def inverseOnly (eps : F) : LinearMap F → Outcome InversionError (LinearMap F)
  | dense d => dense <$> d.inverse eps
  | kron a b => inverseKron a b (a.inverse eps) (b.inverse eps)
  | diag d => Outcome.ofResult (ofDiagonal <$> Diagonal.inverse d.value eps)
  | scalar n alpha => Outcome.ofResult (inverseScalar n alpha.value eps)

end BlockElimination.LinearMap
