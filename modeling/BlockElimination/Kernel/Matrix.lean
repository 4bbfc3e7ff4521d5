import BlockElimination.Kernel.Vector

/-!
# Matrix kernels

Matrices are column-major arrays. A flag tells whether an array is read as the matrix it stores or as the
transpose of that. Every entry of a product is an ascending sum that is scaled only afterwards.
-/
namespace BlockElimination.Kernel

theorem columnMajor_lt {m n i j : Nat} (hi : i < m) (hj : j < n) : j * m + i < m * n := by
  calc j * m + i < j * m + m := by omega
    _ = (j + 1) * m := by rw [Nat.succ_mul]
    _ ≤ n * m := Nat.mul_le_mul_right m hj
    _ = m * n := Nat.mul_comm n m

theorem columnMajor_mod {m i : Nat} (hi : i < m) (j : Nat) : (j * m + i) % m = i :=
  Nat.mul_add_mod_of_lt hi

theorem columnMajor_div {m i : Nat} (hi : i < m) (j : Nat) : (j * m + i) / m = j := by
  rw [Nat.add_comm, Nat.add_mul_div_right _ _ (by omega), Nat.div_eq_of_lt hi, Nat.zero_add]

variable {F : Type} [Arith F]

/-- The entry `(r, c)` of an array with `rows` stored rows, or of its transpose. -/
def storedEntry (flipped : Bool) (rows : Nat) (a : Array F) (r c : Nat) : F :=
  if flipped then coord a (r * rows + c) else coord a (c * rows + r)

/-- `α A x + β y`, where the rows of `A` are as many as `y` has coordinates. -/
def matrixAction (flipped : Bool) (rows : Nat) (alpha : F) (a x : Array F) (beta : F) (y : Array F) : Array F :=
  tabulate y.size fun r =>
    alpha * ascendingSum x.size (fun c => storedEntry flipped rows a r c * coord x c) + beta * coord y r

/-- The stored row count of a factor that is read as `outer` by `inner`. -/
def storedRows (flipped : Bool) (outer inner : Nat) : Nat := if flipped then inner else outer

/-- `α A B + β C`, where `A` is `m` by `k`, `B` is `k` by `n` and `C` is `m` by `n`. -/
def matrixProduct (flipA flipB : Bool) (m n k : Nat) (alpha : F) (a b : Array F) (beta : F) (c : Array F) :
    Array F :=
  let entryA := storedEntry flipA (storedRows flipA m k) a
  let entryB := storedEntry flipB (storedRows flipB k n) b
  tabulate (m * n) fun p =>
    alpha * ascendingSum k (fun l => entryA (p % m) l * entryB l (p / m)) + beta * coord c p

/-- The transpose of a `rows` by `cols` array. -/
def transposed (rows cols : Nat) (a : Array F) : Array F :=
  tabulate (rows * cols) fun p => coord a (p % cols * rows + p / cols)

/-- The array of `cols` columns with `rows` coordinates each. -/
def joined (rows cols : Nat) (columns : Array (Array F)) : Array F :=
  tabulate (rows * cols) fun p => coord (columns.getD (p / rows) #[]) (p % rows)

/-- `α A x + β y` with all lengths checked, where `A` is stored `rows` by `cols`. -/
def transformGeneral (flipped : Bool) (rows cols : Nat) (alpha : F) (a x : Array F) (beta : F) (y : Array F) :
    Except Fault (Array F) := do
  let len ← Size.mul rows cols
  requireLengths
    (a.size = len ∧ x.size = (if flipped then rows else cols) ∧ y.size = (if flipped then cols else rows))
  return matrixAction flipped rows alpha a x beta y

/-- `α A B + β C` with all lengths checked. -/
def multiplyGeneral (flipA flipB : Bool) (m n k : Nat) (alpha : F) (a b : Array F) (beta : F) (c : Array F) :
    Except Fault (Array F) := do
  let lenA ← Size.mul m k
  requireLengths (a.size = lenA)
  let lenB ← Size.mul k n
  requireLengths (b.size = lenB)
  let lenC ← Size.mul m n
  requireLengths (c.size = lenC)
  return matrixProduct flipA flipB m n k alpha a b beta c

/-- Overwrites `out` by the transpose of a `rows` by `cols` array. -/
def transposeGeneral (rows cols : Nat) (a out : Array F) : Except Fault (Array F) := do
  let len ← Size.mul rows cols
  requireLengths (a.size = len ∧ out.size = len)
  return transposed rows cols a

@[simp] theorem size_matrixAction (flipped : Bool) (rows : Nat) (alpha : F) (a x : Array F) (beta : F)
    (y : Array F) : (matrixAction flipped rows alpha a x beta y).size = y.size := by
  simp [matrixAction]

@[simp] theorem size_matrixProduct (flipA flipB : Bool) (m n k : Nat) (alpha : F) (a b : Array F) (beta : F)
    (c : Array F) : (matrixProduct flipA flipB m n k alpha a b beta c).size = m * n := by
  simp [matrixProduct]

@[simp] theorem size_transposed (rows cols : Nat) (a : Array F) :
    (transposed rows cols a).size = rows * cols := by
  simp [transposed]

@[simp] theorem size_joined (rows cols : Nat) (columns : Array (Array F)) :
    (joined rows cols columns).size = rows * cols := by
  simp [joined]

theorem coord_joined {rows cols p : Nat} (columns : Array (Array F)) (hp : p < rows * cols) :
    coord (joined rows cols columns) p = coord (columns.getD (p / rows) #[]) (p % rows) := by
  simp only [joined, coord_tabulate, hp, if_true]

/-- The columns of the transpose are its rows. -/
theorem coord_transposed_joined {rows cols p : Nat} (columns : Array (Array F)) (hp : p < cols * rows) :
    coord (transposed rows cols (joined rows cols columns)) p = coord (columns.getD (p % cols) #[]) (p / cols) := by
  have hcol : p % cols < cols := Nat.mod_lt p (Nat.pos_of_mul_pos_right (Nat.zero_lt_of_lt hp))
  have hrow : p / cols < rows := Nat.div_lt_of_lt_mul hp
  have hp : p < rows * cols := Nat.mul_comm cols rows ▸ hp
  rw [transposed, coord_tabulate, if_pos hp, coord_joined columns (columnMajor_lt hrow hcol), columnMajor_div hrow,
    columnMajor_mod hrow]

end BlockElimination.Kernel
