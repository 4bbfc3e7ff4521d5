import BlockElimination.LinearMap.Dense

/-!
# Linear maps

A linear map is dense, a Kronecker product of two maps, diagonal, or a multiple of an identity. Its meaning
is the matrix of its entries, which `entry` reads off the representation and `toColumnMajor` writes out.
-/
namespace BlockElimination

inductive LinearMap (F : Type)
  | dense (d : Dense F)
  | kron (left right : LinearMap F)
  | diag (d : Stored (Array F))
  | scalar (n : Nat) (alpha : Stored F)

namespace LinearMap

variable {F : Type}

def kind : LinearMap F → Kind
  | dense _ => .dense
  | kron _ _ => .kron
  | diag _ => .diag
  | scalar _ _ => .scalar

/-- Asserts that a result has one of the kinds that it is known to have. -/
def expectKind (kinds : List Kind) (K : LinearMap F) : Except Fault (LinearMap F) :=
  if K.kind ∈ kinds then .ok K else .error .unexpectedKind

/-- An assertion that holds changes nothing, whether there is a result or not. -/
theorem bind_expectKind {kinds : List Kind} {e : Except Fault (LinearMap F)}
    (h : ∀ K, e = .ok K → K.kind ∈ kinds) : (e >>= expectKind kinds) = e := by
  cases e with
  | ok K => exact if_pos (h K rfl)
  | error f => rfl

def rows : LinearMap F → Nat
  | dense d => d.height
  | kron a b => a.rows * b.rows
  | diag d => d.value.size
  | scalar n _ => n

def cols : LinearMap F → Nat
  | dense d => d.width
  | kron a b => a.cols * b.cols
  | diag d => d.value.size
  | scalar n _ => n

/-- The sizes of the map and of all maps that it is made of are in range. -/
def Fits : LinearMap F → Prop
  | dense d => d.height < Size.bound ∧ d.width < Size.bound
  | kron a b => a.Fits ∧ b.Fits ∧ a.rows * b.rows < Size.bound ∧ a.cols * b.cols < Size.bound
  | diag d => d.value.size < Size.bound
  | scalar n _ => n < Size.bound

instance decidableFits : (K : LinearMap F) → Decidable K.Fits
  | dense d => inferInstanceAs (Decidable (d.height < Size.bound ∧ d.width < Size.bound))
  | kron a b =>
    have := decidableFits a
    have := decidableFits b
    inferInstanceAs (Decidable
      (a.Fits ∧ b.Fits ∧ a.rows * b.rows < Size.bound ∧ a.cols * b.cols < Size.bound))
  | diag d => inferInstanceAs (Decidable (d.value.size < Size.bound))
  | scalar n _ => inferInstanceAs (Decidable (n < Size.bound))

/-- The row count and the column count. -/
def size (K : LinearMap F) : Except Fault (Nat × Nat) :=
  if K.Fits then .ok (K.rows, K.cols) else .error .overflow

def rowCount (K : LinearMap F) : Except Fault Nat := Prod.fst <$> K.size

def colCount (K : LinearMap F) : Except Fault Nat := Prod.snd <$> K.size

theorem size_eq_ok_iff {K : LinearMap F} {s : Nat × Nat} :
    K.size = .ok s ↔ K.Fits ∧ s = (K.rows, K.cols) := by
  unfold size
  split <;> grind

theorem size_of_fits {K : LinearMap F} (h : K.Fits) : K.size = .ok (K.rows, K.cols) := by simp [size, h]

/-- Where a size is computed and not used, only its range matters. -/
theorem size_bind {α : Type} (K : LinearMap F) (e : Except Fault α) :
    (K.size >>= fun _ => e) = if K.Fits then e else .error .overflow := by
  unfold size
  split <;> rfl

theorem rowCount_of_fits {K : LinearMap F} (h : K.Fits) : K.rowCount = .ok K.rows := by
  rw [rowCount, size_of_fits h]
  rfl

theorem colCount_of_fits {K : LinearMap F} (h : K.Fits) : K.colCount = .ok K.cols := by
  rw [colCount, size_of_fits h]
  rfl

@[simp] theorem fits_kron {a b : LinearMap F} :
    (kron a b).Fits ↔ a.Fits ∧ b.Fits ∧ a.rows * b.rows < Size.bound ∧ a.cols * b.cols < Size.bound := Iff.rfl

/-- A dense map of a column-major array. -/
def ofArray (rows cols : Nat) (a : Array F) : Except Fault (LinearMap F) := dense <$> Dense.ofArray rows cols a

def ofEntries (m n : Nat) (entry : Nat → Nat → F) : LinearMap F := dense (.ofEntries m n entry)

def ofDiagonal (d : Array F) : LinearMap F := diag { value := d }

def ofScalar (n : Nat) (alpha : F) : LinearMap F := scalar n { value := alpha }

def identity [One F] (n : Nat) : LinearMap F := ofScalar n 1

/-- Marks the storage of every part that has no mark, with marks from `next` on. -/
def share : LinearMap F → Nat → LinearMap F × Nat
  | dense d, next => (dense (d.share next).1, (d.share next).2)
  | kron a b, next =>
    let left := a.share next
    let right := b.share left.2
    (kron left.1 right.1, right.2)
  | diag d, next => (diag (d.share next).1, (d.share next).2)
  | scalar n alpha, next => (scalar n (alpha.share next).1, (alpha.share next).2)

/-- Diagonal and scalar maps are their own transposes; a dense map keeps its array. -/
def transpose : LinearMap F → LinearMap F
  | dense d => dense d.transpose
  | kron a b => kron a.transpose b.transpose
  | diag d => diag d
  | scalar n alpha => scalar n alpha

@[simp] theorem rows_transpose (K : LinearMap F) : K.transpose.rows = K.cols := by
  induction K with
  | dense d => simp [transpose, rows, cols]
  | kron a b iha ihb => simp [transpose, rows, cols, iha, ihb]
  | diag d => rfl
  | scalar n alpha => rfl

@[simp] theorem cols_transpose (K : LinearMap F) : K.transpose.cols = K.rows := by
  induction K with
  | dense d => simp [transpose, rows, cols]
  | kron a b iha ihb => simp [transpose, rows, cols, iha, ihb]
  | diag d => rfl
  | scalar n alpha => rfl

@[simp] theorem kind_transpose (K : LinearMap F) : K.transpose.kind = K.kind := by cases K <;> rfl

@[simp] theorem transpose_transpose (K : LinearMap F) : K.transpose.transpose = K := by
  induction K with
  | dense d => simp [transpose]
  | kron a b iha ihb => simp [transpose, iha, ihb]
  | diag d => rfl
  | scalar n alpha => rfl

theorem fits_transpose {K : LinearMap F} : K.transpose.Fits ↔ K.Fits := by
  induction K with
  | dense d => simp [transpose, Fits, and_comm]
  | kron a b iha ihb =>
    simp only [transpose, fits_kron, iha, ihb, rows_transpose, cols_transpose]
    grind
  | diag d => rfl
  | scalar n alpha => rfl

@[simp] theorem kind_share (K : LinearMap F) (next : Nat) : (K.share next).1.kind = K.kind := by cases K <;> rfl

variable [Arith F]

def entry : LinearMap F → Nat → Nat → F
  | dense d, i, j => d.entry i j
  | kron a b, i, j => a.entry (i / b.rows) (j / b.cols) * b.entry (i % b.rows) (j % b.cols)
  | diag d, i, j => if i = j then coord d.value i else 0
  | scalar _ alpha, i, j => if i = j then alpha.value else 0

/-- The column-major array of all entries. -/
def entries (K : LinearMap F) : Array F :=
  tabulate (K.rows * K.cols) fun p => K.entry (p % K.rows) (p / K.rows)

/-- The map and all maps that it is made of can be written out as arrays. -/
def Writable : LinearMap F → Prop
  | dense _ => True
  | kron a b => (kron a b).Fits ∧ a.Writable ∧ b.Writable ∧ (a.rows * b.rows) * (a.cols * b.cols) < Size.capacity
  | diag d => d.value.size * d.value.size < Size.capacity
  | scalar n _ => n * n < Size.capacity

instance decidableWritable : (K : LinearMap F) → Decidable K.Writable
  | dense _ => inferInstanceAs (Decidable True)
  | kron a b =>
    have := decidableWritable a
    have := decidableWritable b
    inferInstanceAs (Decidable
      ((kron a b).Fits ∧ a.Writable ∧ b.Writable ∧ (a.rows * b.rows) * (a.cols * b.cols) < Size.capacity))
  | diag d => inferInstanceAs (Decidable (d.value.size * d.value.size < Size.capacity))
  | scalar n _ => inferInstanceAs (Decidable (n * n < Size.capacity))

/-- Writes the map out. -/
def toColumnMajor (K : LinearMap F) : Except Fault (Array F) :=
  if K.Writable then .ok K.entries else .error .overflow

/-- Multiplies by a number. A Kronecker product multiplies its left factor and keeps the right one. -/
def scale (alpha : F) : LinearMap F → LinearMap F
  | dense d => dense (d.scale alpha)
  | kron a b => kron (a.scale alpha) b
  | diag d => ofDiagonal (Kernel.scale alpha d.value)
  | scalar n a => ofScalar n (alpha * a.value)

def neg (K : LinearMap F) : LinearMap F := K.scale (-1)

@[simp] theorem entry_transpose (K : LinearMap F) (i j : Nat) : K.transpose.entry i j = K.entry j i := by
  induction K generalizing i j with
  | dense d => simp [transpose, entry]
  | kron a b iha ihb => simp [transpose, entry, iha, ihb]
  | diag d =>
    simp only [transpose, entry, eq_comm (a := i) (b := j)]
    split <;> simp_all
  | scalar n alpha => simp only [transpose, entry, eq_comm (a := i) (b := j)]

@[simp] theorem rows_scale (alpha : F) (K : LinearMap F) : (K.scale alpha).rows = K.rows := by
  induction K with
  | dense d => rfl
  | kron a b iha _ => simp [scale, rows, iha]
  | diag d => simp [scale, rows, ofDiagonal]
  | scalar n a => rfl

@[simp] theorem cols_scale (alpha : F) (K : LinearMap F) : (K.scale alpha).cols = K.cols := by
  induction K with
  | dense d => rfl
  | kron a b iha _ => simp [scale, cols, iha]
  | diag d => simp [scale, cols, ofDiagonal]
  | scalar n a => rfl

@[simp] theorem kind_scale (alpha : F) (K : LinearMap F) : (K.scale alpha).kind = K.kind := by cases K <;> rfl

@[simp] theorem size_entries (K : LinearMap F) : K.entries.size = K.rows * K.cols := by simp [entries]

/-- The written-out array holds the entry `(i, j)` at `j * rows + i`. -/
theorem coord_entries (K : LinearMap F) {i j : Nat} (hi : i < K.rows) (hj : j < K.cols) :
    coord K.entries (j * K.rows + i) = K.entry i j := by
  simp [entries, Kernel.columnMajor_lt hi hj, Kernel.columnMajor_mod hi, Kernel.columnMajor_div hi]

theorem toColumnMajor_eq_ok_iff {K : LinearMap F} {a : Array F} :
    K.toColumnMajor = .ok a ↔ K.Writable ∧ a = K.entries := by
  unfold toColumnMajor
  split <;> grind

end LinearMap

end BlockElimination
