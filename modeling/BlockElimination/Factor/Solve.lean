import BlockElimination.Factor.Elimination

/-!
# Solving with a factor

`A x = b` by `(I + L) y = b`, `z = D⁻¹ y` and `(I + L)ᵀ x = z`, on the segments in the order of elimination.
Names that were not eliminated are ignored, and missing segments are zero.
-/
namespace BlockElimination.Factor

variable {F : Type} [Arith F]

/-- The segments of a right-hand side have the dimensions of the eliminated names. -/
def checkRightSide (f : Factor F) (b : BlockVector F) : Except Fault Unit :=
  (f.order.zip f.dims).forM fun (key, dim) =>
    match b.get? key with
    | some s => if s.size = dim then .ok () else .error (.rightSideLength key s.size dim)
    | none => Size.storable dim

/-- The right-hand side at the eliminated names. -/
def rightSide (f : Factor F) (b : BlockVector F) : Array (String × Array F) :=
  ((f.order.zip f.dims).map fun (key, dim) => (key, (b.get? key).getD (Kernel.zeros dim))).toArray

/-- For each pair of positions `(i, j)` in turn, subtracts from segment `i` the block at the names of `i` and
`j` times segment `j`. -/
def sweep (blocks : BlockMatrix F) (pairs : List (Nat × Nat)) (xs : Array (String × Array F)) :
    Except Fault (Array (String × Array F)) :=
  pairs.foldlM
    (fun xs (i, j) =>
      match xs[i]?, xs[j]? with
      | some (row, target), some (col, source) =>
        match blocks.get? row col with
        | some a => do
          let y ← a.actOn (-1) source 1 target
          return xs.setIfInBounds i (row, y)
        | none => .ok xs
      | _, _ => .ok xs)
    xs

/-- All `(i, j)` with `j < i < n`, by increasing `j` and then increasing `i`. -/
def forwardPairs (n : Nat) : List (Nat × Nat) :=
  (List.range n).flatMap fun j => (List.range (n - (j + 1))).map fun p => (j + 1 + p, j)

/-- All `(i, j)` with `i < j < n`, by decreasing `j` and then decreasing `i`. -/
def backwardPairs (n : Nat) : List (Nat × Nat) :=
  (List.range n).reverse.flatMap fun j => (List.range j).reverse.map fun i => (i, j)

/-- Applies the inverse of each diagonal block to its segment. -/
def scaleByDiagonal (f : Factor F) (xs : Array (String × Array F)) : Except Fault (Array (String × Array F)) :=
  xs.mapM fun (key, x) =>
    match f.diagInv.get? key key with
    | some d => (key, ·) <$> d.apply x
    | none => .ok (key, x)

/-- The solution, with all eliminated names. Segments of a name that repeats in the order add up. -/
def solve (f : Factor F) (b : BlockVector F) : Except Fault (BlockVector F) := do
  checkRightSide f b
  let start := rightSide f b
  let y ← sweep f.lower (forwardPairs start.size) start
  let z ← scaleByDiagonal f y
  let x ← sweep f.upper (backwardPairs start.size) z
  BlockVector.empty.insertAll x.toList

end BlockElimination.Factor
