import BlockElimination.Kernel.Matrix

/-!
# Inverse of a symmetric matrix

`S = L D Lᵀ` with a unit lower triangular `L` and a diagonal `D`, found column by column from the lower
triangle of `S` alone. A pivot that is not larger than the tolerance ends the decomposition. The inverse is
solved for against each column of the identity, so its two triangles are computed independently.
-/
namespace BlockElimination.Kernel

variable {F : Type} [Scalar F]

/-- `((start - f 0) - f 1) - … - f (n - 1)`. -/
def descendingFrom (start : F) : Nat → (Nat → F) → F
  | 0, _ => start
  | n + 1, f => descendingFrom start n f - f n

theorem descendingFrom_congr {start start' : F} {n : Nat} {f g : Nat → F} (hstart : start = start')
    (h : ∀ i < n, f i = g i) : descendingFrom start n f = descendingFrom start' n g := by
  induction n with
  | zero => exact hstart
  | succ n ih => rw [descendingFrom, descendingFrom, ih fun i hi => h i (by omega), h n (by omega)]

/-- A pivot of `D` and the column of `L` that belongs to it. -/
structure FactorColumn (F : Type) where
  pivot : F
  lower : Array F

namespace FactorColumns

/-- The entry `(i, j)` of `L`. -/
def lower (cols : Array (FactorColumn F)) (i j : Nat) : F :=
  match cols[j]? with
  | some c => coord c.lower i
  | none => 0

def pivot (cols : Array (FactorColumn F)) (j : Nat) : F :=
  match cols[j]? with
  | some c => c.pivot
  | none => 0

end FactorColumns

open FactorColumns

/-- Column `j` of the decomposition of the `n` by `n` matrix `s`, from the columns before it. -/
def factorColumn (n : Nat) (s : Nat → Nat → F) (eps : F) (done : Array (FactorColumn F)) (j : Nat) :
    Option (FactorColumn F) :=
  let d := descendingFrom (s j j) j fun k => lower done j k * lower done j k * pivot done k
  if Scalar.isLe (Scalar.abs d) eps then none
  else some ⟨d, tabulate n fun i =>
    if i < j then 0
    else if i = j then 1
    else descendingFrom (s i j) j (fun k => lower done i k * lower done j k * pivot done k) / d⟩

/-- The first `j` columns of the decomposition. -/
def factorColumns (n : Nat) (s : Nat → Nat → F) (eps : F) : Nat → Option (Array (FactorColumn F))
  | 0 => some #[]
  | j + 1 => do
    let done ← factorColumns n s eps j
    let column ← factorColumn n s eps done j
    return done.push column

/-- The first `i` coordinates of `L⁻¹ e`. -/
def solveLower (cols : Array (FactorColumn F)) (e : Nat → F) : Nat → Array F
  | 0 => #[]
  | i + 1 =>
    let y := solveLower cols e i
    y.push (descendingFrom (e i) i fun j => lower cols i j * coord y j)

/-- The last `t` of the `n` coordinates of `L⁻ᵀ z`, the last one first. -/
def solveUpper (cols : Array (FactorColumn F)) (n : Nat) (z : Nat → F) : Nat → Array F
  | 0 => #[]
  | t + 1 =>
    let x := solveUpper cols n z t
    let j := n - (t + 1)
    x.push (descendingFrom (z j) t fun p => lower cols (j + 1 + p) j * coord x (t - 1 - p))

/-- `(L D Lᵀ)⁻¹ e`. -/
def solveFactored (cols : Array (FactorColumn F)) (n : Nat) (e : Nat → F) : Array F :=
  let y := solveLower cols e n
  let z := tabulate n fun i => coord y i / pivot cols i
  let x := solveUpper cols n (coord z) n
  tabulate n fun i => coord x (n - 1 - i)

/-- The inverse of the symmetric matrix whose lower triangle is that of the `n` by `n` array `a`, unless a
pivot is at most `eps` in absolute value. -/
def symmetricInverse? (n : Nat) (a : Array F) (eps : F) : Option (Array F) := do
  let cols ← factorColumns n (storedEntry false n a) eps n
  let solved := tabulate n fun c => solveFactored cols n fun i => if i = c then 1 else 0
  return tabulate (n * n) fun p => coord (solved.getD (p / n) #[]) (p % n)

end BlockElimination.Kernel
