import BlockElimination.LinearMap.Action
import BlockElimination.LinearMap.Diagonal

/-!
# Products and sums of linear maps

The result has the kind that `Kind.ofProduct` and `Kind.ofSum` name, except that Kronecker products whose
factors do not fit pairwise have a dense product. This is asserted of every result, also of the products of
factors.
-/
namespace BlockElimination.LinearMap

variable {F : Type} [Arith F]

/-- The product written out. It runs over the columns of the right factor, unless that is a Kronecker
product: then over the rows of the left factor, as columns of the transposed product. -/
def denseProduct (lhs rhs : LinearMap F) : Except Fault (LinearMap F) := do
  let m := lhs.rows
  let k := lhs.cols
  let n := rhs.cols
  Size.storable (m * n)
  if m = 0 ∨ n = 0 ∨ k = 0 then return dense (.zeros m n)
  else
    match lhs, rhs with
    | dense a, dense b =>
      let c ← a.mulInto b (Kernel.zeros (m * n))
      ofArray m n c
    | _, kron _ _ =>
      let _ ← lhs.toColumnMajor
      let lines ← (List.range m).mapM fun i =>
        rhs.transposeActOn 1 (tabulate k fun l => lhs.entry i l) 0 (Kernel.zeros n)
      let c ← Kernel.transposeGeneral n m (Kernel.joined n m lines.toArray) (Kernel.zeros (m * n))
      ofArray m n c
    | _, _ =>
      let _ ← rhs.toColumnMajor
      let columns ← (List.range n).mapM fun j =>
        lhs.actOn 1 (tabulate k fun l => rhs.entry l j) 0 (Kernel.zeros m)
      ofArray m n (Kernel.joined m n columns.toArray)

/-- Whether the factors of `A ⊗ B` and `C ⊗ D` fit pairwise, so that the product is `A C ⊗ B D`. -/
def Chains (a b c d : LinearMap F) : Prop := a.cols = c.rows ∧ b.cols = d.rows

instance (a b c d : LinearMap F) : Decidable (Chains a b c d) := by
  unfold Chains
  infer_instance

def mul (lhs rhs : LinearMap F) : Except Fault (LinearMap F) := do
  let (m, k) ← lhs.size
  let (l, n) ← rhs.size
  if k ≠ l then .error (.productShape m k l n)
  else
    let product ←
      match lhs, rhs with
      | scalar _ s, _ => pure (rhs.scale s.value)
      | _, scalar _ s => pure (lhs.scale s.value)
      | diag a, diag b => ofDiagonal <$> Diagonal.mul a.value b.value
      | kron a b, kron c d =>
        if Chains a b c d then do
          let left ← a.mul c
          let right ← b.mul d
          pure (kron left right)
        else denseProduct lhs rhs
      | _, _ => denseProduct lhs rhs
    product.expectKind [Operation.multiply.resultKind lhs.kind rhs.kind, .dense]

def add (lhs rhs : LinearMap F) : Except Fault (LinearMap F) := do
  let left ← lhs.size
  let right ← rhs.size
  if left ≠ right then .error (.sumShape left right)
  else
    let sum ←
      match lhs, rhs with
      | scalar n a, scalar _ b => pure (ofScalar n (a.value + b.value))
      | diag a, diag b => ofDiagonal <$> Diagonal.add a.value b.value
      | diag a, scalar n b => ofDiagonal <$> Diagonal.add a.value (Array.replicate n b.value)
      | scalar n a, diag b => ofDiagonal <$> Diagonal.add (Array.replicate n a.value) b.value
      | _, _ => do
        let a ← lhs.toColumnMajor
        let b ← rhs.toColumnMajor
        let c ← Kernel.add 1 b a
        pure (dense (.ofColumnMajor lhs.rows lhs.cols (coord c)))
    sum.expectKind [Operation.add.resultKind lhs.kind rhs.kind]

def sub (lhs rhs : LinearMap F) : Except Fault (LinearMap F) := lhs.add rhs.neg

/-- The diagonal of `α I`, written out. -/
def scalarDiagonal (n : Nat) (alpha : F) : Except Fault (Array F) := do
  Size.storable n
  return Array.replicate n alpha

/-- Whether the factors fit pairwise, with the sizes checked that are compared. -/
def chains (a b c d : LinearMap F) : Except Fault Bool := do
  if (← a.colCount) = (← c.rowCount) then return (← b.colCount) = (← d.rowCount) else return false

/-- The product of `A ⊗ B` and `C ⊗ D`, factor by factor. -/
def kronMul (a b c d : LinearMap F) : Except Fault (LinearMap F) := do
  if ← chains a b c d then return kron (← a.mul c) (← b.mul d) else throw .unchained

end BlockElimination.LinearMap
