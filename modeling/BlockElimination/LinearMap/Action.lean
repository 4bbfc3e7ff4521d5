import BlockElimination.LinearMap.Basic

/-!
# The action of a linear map

`α K x + β y` as each representation computes it, with the lengths that it asks for. A Kronecker product `A ⊗ B` takes
`x` for the columns of a matrix `X`. It forms `T = B X` column by column in a buffer, and then `α T Aᵀ + β Y` row by row,
so that the product is never written out. `action` is what comes out of operands of the right lengths.
-/
namespace BlockElimination.LinearMap

variable {F : Type} [Arith F]

/-- The row count of the map, or of its transpose if `flip`. -/
def outer (flip : Bool) (K : LinearMap F) : Nat := if flip then K.cols else K.rows

/-- The column count of the map, or of its transpose if `flip`. -/
def inner (flip : Bool) (K : LinearMap F) : Nat := if flip then K.rows else K.cols

/-- `α K x + β y`, or with `Kᵀ` if `flip`, where each representation checks what it is given. Only a Kronecker product
computes sizes and allocates. -/
def checkedAction (flip : Bool) : LinearMap F → F → Array F → F → Array F → Except Fault (Array F)
  | dense d, alpha, x, beta, y => do
    Kernel.requireLengths (d.Takes flip x.size y.size)
    return d.action flip alpha x beta y
  | kron a b, alpha, x, beta, y => do
    let _ ← (kron a b).size
    let ma := a.outer flip
    let na := a.inner flip
    let mb := b.outer flip
    let nb := b.inner flip
    Kernel.requireLengths (x.size = na * nb)
    Kernel.requireLengths (y.size = ma * mb)
    if ma = 0 ∨ na = 0 ∨ mb = 0 ∨ nb = 0 then return Kernel.scale beta y
    else
      Size.storable (mb * na)
      let t ← (List.range na).mapM fun c =>
        b.checkedAction flip 1 (tabulate nb fun q => coord x (c * nb + q)) 0 (Kernel.zeros mb)
      let lines ← (List.range mb).mapM fun r =>
        a.checkedAction flip alpha (tabulate na fun c => coord (t.toArray.getD c #[]) r) beta
          (tabulate ma fun c => coord y (c * mb + r))
      return tabulate (ma * mb) fun p => coord (lines.toArray.getD (p % mb) #[]) (p / mb)
  | diag d, alpha, x, beta, y => Kernel.transformDiagonal alpha d.value x beta y
  | scalar n s, alpha, x, beta, y => do
    Kernel.requireLengths (x.size = n)
    if beta == 0 then
      let copied ← Kernel.copy x y
      return Kernel.scale (alpha * s.value) copied
    else Kernel.add (alpha * s.value) x (Kernel.scale beta y)

/-- `α K x + β y`. -/
def actOn (K : LinearMap F) (alpha : F) (x : Array F) (beta : F) (y : Array F) : Except Fault (Array F) :=
  K.checkedAction false alpha x beta y

/-- `α Kᵀ x + β y`. -/
def transposeActOn (K : LinearMap F) (alpha : F) (x : Array F) (beta : F) (y : Array F) :
    Except Fault (Array F) :=
  K.checkedAction true alpha x beta y

/-- `K x`. -/
def apply (K : LinearMap F) (x : Array F) : Except Fault (Array F) := do
  let (m, n) ← K.size
  Kernel.requireLengths (x.size = n)
  Size.storable m
  K.actOn 1 x 0 (Kernel.zeros m)

/-- `α K x + β y`, or with `Kᵀ` if `flip`, for operands of the right lengths. -/
def action (flip : Bool) : LinearMap F → F → Array F → F → Array F → Array F
  | dense d, alpha, x, beta, y => d.action flip alpha x beta y
  | kron a b, alpha, x, beta, y =>
    let ma := a.outer flip
    let na := a.inner flip
    let mb := b.outer flip
    let nb := b.inner flip
    if ma = 0 ∨ na = 0 ∨ mb = 0 ∨ nb = 0 then Kernel.scale beta y
    else
      let t := tabulate na fun c =>
        b.action flip 1 (tabulate nb fun q => coord x (c * nb + q)) 0 (Kernel.zeros mb)
      let lines := tabulate mb fun r =>
        a.action flip alpha (tabulate na fun c => coord (t.getD c #[]) r) beta
          (tabulate ma fun c => coord y (c * mb + r))
      tabulate (ma * mb) fun p => coord (lines.getD (p % mb) #[]) (p / mb)
  | diag d, alpha, x, beta, y => Kernel.diagonalAction alpha d.value x beta y
  | scalar _ s, alpha, x, beta, y =>
    if beta == 0 then Kernel.scale (alpha * s.value) x
    else Kernel.accumulate (alpha * s.value) x (Kernel.scale beta y)

end BlockElimination.LinearMap
