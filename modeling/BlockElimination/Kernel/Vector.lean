import BlockElimination.Scalar
import BlockElimination.Size

/-!
# Vector kernels

Arrays are built by `tabulate` and read by `coord`; a sum runs upwards from zero. A kernel that asks for equal
lengths checks them first, and then computes a total function of its operands.
-/
namespace BlockElimination

def tabulate {α : Type} (n : Nat) (f : Nat → α) : Array α := Array.ofFn fun i : Fin n => f i

@[simp] theorem size_tabulate {α : Type} (n : Nat) (f : Nat → α) : (tabulate n f).size = n := by
  simp [tabulate]

@[simp] theorem getElem_tabulate {α : Type} (n : Nat) (f : Nat → α) (i : Nat) (h : i < (tabulate n f).size) :
    (tabulate n f)[i] = f i := by
  simp [tabulate]

theorem tabulate_congr {α : Type} {n : Nat} {f g : Nat → α} (h : ∀ i < n, f i = g i) :
    tabulate n f = tabulate n g := by
  apply Array.ext
  · simp
  · intro i hi _
    simpa using h i (by simpa using hi)

/-- The coordinate `i`, zero outside the array. -/
def coord {F : Type} [Zero F] (x : Array F) (i : Nat) : F := x.getD i 0

theorem coord_of_lt {F : Type} [Zero F] {x : Array F} {i : Nat} (h : i < x.size) : coord x i = x[i] := by
  simp [coord, h]

@[simp] theorem coord_tabulate {F : Type} [Zero F] (n : Nat) (f : Nat → F) (i : Nat) :
    coord (tabulate n f) i = if i < n then f i else 0 := by
  by_cases h : i < n <;> simp [coord, h, tabulate]

theorem eq_tabulate_coord {F : Type} [Zero F] (x : Array F) : x = tabulate x.size (coord x) := by
  apply Array.ext
  · simp
  · intro i hi _
    simp [coord_of_lt hi]

/-- `((0 + f 0) + f 1) + … + f (n - 1)`. -/
def ascendingSum {F : Type} [Zero F] [Add F] : Nat → (Nat → F) → F
  | 0, _ => 0
  | n + 1, f => ascendingSum n f + f n

theorem ascendingSum_congr {F : Type} [Zero F] [Add F] {n : Nat} {f g : Nat → F} (h : ∀ i < n, f i = g i) :
    ascendingSum n f = ascendingSum n g := by
  induction n with
  | zero => rfl
  | succ n ih => rw [ascendingSum, ascendingSum, ih fun i hi => h i (by omega), h n (by omega)]

namespace Kernel

variable {F : Type}

/-- Goes on only if the lengths are as an operation asks. -/
def requireLengths (p : Prop) [Decidable p] : Except Fault Unit :=
  if p then .ok () else .error .lengthMismatch

theorem requireLengths_bind {α : Type} (p : Prop) [Decidable p] (f : Unit → Except Fault α) :
    (requireLengths p >>= f) = if p then f () else .error .lengthMismatch := by
  unfold requireLengths
  split <;> rfl

theorem requireLengths_bind_pure_eq_ok_iff {α : Type} {p : Prop} [Decidable p] {value v : α} :
    (requireLengths p >>= fun _ => pure value) = .ok v ↔ p ∧ v = value := by
  rw [requireLengths_bind]
  split <;> simp_all [pure, Except.pure, eq_comm]

variable [Arith F]

def zeros (n : Nat) : Array F := Array.replicate n 0

@[simp] theorem coord_zeros (n i : Nat) : coord (zeros n : Array F) i = 0 := by
  by_cases h : i < n <;> simp [coord, zeros, h]

/-- `α x`. -/
def scale (alpha : F) (x : Array F) : Array F := x.map (alpha * ·)

/-- `y + α x`. -/
def accumulate (alpha : F) (x y : Array F) : Array F :=
  tabulate y.size fun i => coord y i + alpha * coord x i

/-- `α D x + β y`, where `d` is the diagonal of `D`. -/
def diagonalAction (alpha : F) (d x : Array F) (beta : F) (y : Array F) : Array F :=
  tabulate y.size fun i => alpha * coord d i * coord x i + beta * coord y i

/-- `xᵀ y`, over the coordinates of `x`. -/
def innerProduct (x y : Array F) : F := ascendingSum x.size fun i => coord x i * coord y i

def norm [SquareRoot F] (x : Array F) : F := SquareRoot.sqrt (innerProduct x x)

def dot (x y : Array F) : Except Fault F := do
  requireLengths (x.size = y.size)
  return innerProduct x y

/-- Overwrites `y` by `x`. -/
def copy (x y : Array F) : Except Fault (Array F) := do
  requireLengths (x.size = y.size)
  return x

def add (alpha : F) (x y : Array F) : Except Fault (Array F) := do
  requireLengths (x.size = y.size)
  return accumulate alpha x y

def transformDiagonal (alpha : F) (d x : Array F) (beta : F) (y : Array F) : Except Fault (Array F) := do
  requireLengths (d.size = x.size ∧ d.size = y.size)
  return diagonalAction alpha d x beta y

@[simp] theorem size_scale (alpha : F) (x : Array F) : (scale alpha x).size = x.size := by simp [scale]

theorem scale_eq_tabulate (alpha : F) (x : Array F) : scale alpha x = tabulate x.size fun i => alpha * coord x i := by
  apply Array.ext
  · simp
  · intro i hi _
    have hx : i < x.size := by simpa using hi
    simp [scale, coord_of_lt hx]

@[simp] theorem size_accumulate (alpha : F) (x y : Array F) : (accumulate alpha x y).size = y.size := by
  simp [accumulate]

@[simp] theorem size_diagonalAction (alpha : F) (d x : Array F) (beta : F) (y : Array F) :
    (diagonalAction alpha d x beta y).size = y.size := by
  simp [diagonalAction]

end Kernel

end BlockElimination
