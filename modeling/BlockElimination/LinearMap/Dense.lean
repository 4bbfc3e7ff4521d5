import BlockElimination.Event
import BlockElimination.Kernel.SymmetricInverse
import BlockElimination.Outcome
import BlockElimination.Storage

/-!
# Dense maps

A dense map is a column-major array together with a flag that reads it transposed, so that transposition
copies nothing.
-/
namespace BlockElimination

/-- `rows` and `cols` are those of the array, before it is flipped. -/
structure Dense (F : Type) where
  rows : Nat
  cols : Nat
  array : Stored (Array F)
  flipped : Bool := false
  size_array : array.value.size = rows * cols

namespace Dense

variable {F : Type}

/-- A dense map of an array whose length is checked. -/
def ofArray (rows cols : Nat) (a : Array F) : Except Fault (Dense F) :=
  if rows * cols < Size.bound then
    if h : a.size = rows * cols then .ok { rows, cols, array := { value := a }, size_array := h }
    else .error .lengthMismatch
  else .error .overflow

def ofColumnMajor (m n : Nat) (f : Nat → F) : Dense F where
  rows := m
  cols := n
  array := { value := tabulate (m * n) f }
  size_array := by simp

/-- The dense map with the given entries. -/
def ofEntries (m n : Nat) (entry : Nat → Nat → F) : Dense F :=
  ofColumnMajor m n fun p => entry (p % m) (p / m)

/-- The number of rows of the map. -/
def height (d : Dense F) : Nat := if d.flipped then d.cols else d.rows

/-- The number of columns of the map. -/
def width (d : Dense F) : Nat := if d.flipped then d.rows else d.cols

def transpose (d : Dense F) : Dense F := { d with flipped := !d.flipped }

/-- Marks the storage of the array, if it has no mark. -/
def share (d : Dense F) (next : Nat) : Dense F × Nat :=
  ({ d with array := (d.array.share next).1, size_array := by simpa using d.size_array }, (d.array.share next).2)

@[simp] theorem height_transpose (d : Dense F) : d.transpose.height = d.width := by
  cases h : d.flipped <;> simp [height, width, transpose, h]

@[simp] theorem width_transpose (d : Dense F) : d.transpose.width = d.height := by
  cases h : d.flipped <;> simp [height, width, transpose, h]

@[simp] theorem transpose_transpose (d : Dense F) : d.transpose.transpose = d := by simp [transpose]

@[simp] theorem height_ofEntries (m n : Nat) (entry : Nat → Nat → F) : (ofEntries m n entry).height = m := rfl

@[simp] theorem width_ofEntries (m n : Nat) (entry : Nat → Nat → F) : (ofEntries m n entry).width = n := rfl

variable [Arith F]

def zeros (m n : Nat) : Dense F where
  rows := m
  cols := n
  array := { value := Kernel.zeros (m * n) }
  size_array := by simp [Kernel.zeros]

def entry (d : Dense F) (i j : Nat) : F := Kernel.storedEntry d.flipped d.rows d.array.value i j

def scale (alpha : F) (d : Dense F) : Dense F :=
  { d with
    array := { value := Kernel.scale alpha d.array.value }
    size_array := by simpa using d.size_array }

@[simp] theorem entry_transpose (d : Dense F) (i j : Nat) : d.transpose.entry i j = d.entry j i := by
  cases h : d.flipped <;> simp [entry, transpose, Kernel.storedEntry, h]

theorem entry_ofEntries {m n : Nat} (f : Nat → Nat → F) {i j : Nat} (hi : i < m) (hj : j < n) :
    (ofEntries m n f).entry i j = f i j := by
  simp [entry, ofEntries, ofColumnMajor, Kernel.storedEntry, Kernel.columnMajor_lt hi hj,
    Kernel.columnMajor_mod hi, Kernel.columnMajor_div hi]

@[simp] theorem entry_zeros (m n i j : Nat) : (zeros m n : Dense F).entry i j = 0 := by
  simp [entry, zeros, Kernel.storedEntry]

@[simp] theorem height_scale (alpha : F) (d : Dense F) : (d.scale alpha).height = d.height := rfl

@[simp] theorem width_scale (alpha : F) (d : Dense F) : (d.scale alpha).width = d.width := rfl

/-- `α D x + β y`, or with `Dᵀ` if `flip`. A map without rows or without columns only scales `y`. -/
def action (flip : Bool) (d : Dense F) (alpha : F) (x : Array F) (beta : F) (y : Array F) : Array F :=
  if 0 < d.rows ∧ 0 < d.cols then
    Kernel.matrixAction (flip ^^ d.flipped) d.rows alpha d.array.value x beta y
  else Kernel.scale beta y

/-- The lengths of `x` and `y` that `action` takes. A map without rows or without columns takes any. -/
def Takes (flip : Bool) (d : Dense F) (x y : Nat) : Prop :=
  d.rows = 0 ∨ d.cols = 0 ∨
    (x = (if flip then d.height else d.width) ∧ y = (if flip then d.width else d.height))

instance (flip : Bool) (d : Dense F) (x y : Nat) : Decidable (d.Takes flip x y) := by
  unfold Takes
  infer_instance

/-- The entries of the product, before any shape is checked. -/
def product (a b : Dense F) (c : Array F) : Array F :=
  Kernel.matrixProduct a.flipped b.flipped a.height b.width a.width 1 a.array.value b.array.value 0 c

/-- Overwrites `c` by the product. If there is nothing to sum, `c` is scaled by zero whatever its length. -/
def mulInto (a b : Dense F) (c : Array F) : Except Fault (Array F) := do
  Kernel.requireLengths (a.width = b.height)
  if 0 < a.height ∧ 0 < b.width ∧ 0 < a.width then
    Kernel.multiplyGeneral a.flipped b.flipped a.height b.width a.width 1 a.array.value b.array.value 0 c
  else return Kernel.scale 0 c

/-- Equality: one storage read the same way, or else numerically equal entries. -/
def beq (a b : Dense F) : Bool :=
  if a.height = b.height ∧ a.width = b.width then
    if a.flipped = b.flipped then a.array.sameStorage b.array || a.array.value == b.array.value
    else (List.range (a.height * a.width)).all fun p =>
      a.entry (p % a.height) (p / a.height) == b.entry (p % a.height) (p / a.height)
  else false

end Dense

/-- The inverse of a dense map that is taken to be symmetric: only the lower triangle of its array is read. -/
def Dense.inverse {F : Type} [Scalar F] (d : Dense F) (eps : F) : Outcome InversionError (Dense F) :=
  if d.height = d.width then do
    .report (.factoringDense d.height d.width)
    match Kernel.symmetricInverse? d.height d.array.value eps with
    | some a => .ok (.ofColumnMajor d.height d.height (coord a))
    | none => .error .singular
  else .error (.notSquare d.height d.width)

end BlockElimination
