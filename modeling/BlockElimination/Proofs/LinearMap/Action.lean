import BlockElimination.Proofs.Exact
import BlockElimination.Proofs.LinearMap.Sizes
import BlockElimination.Proofs.LinearMap.Transposed

/-!
# The matrix of a linear map

`matrix` reads a map of any representation as the matrix of its entries, and `coords` reads an array as a vector.
In exact arithmetic `action` is multiplication by that matrix. A Kronecker product never forms it: the two passes over
the columns and the rows of the operand add up to one sum over all positions.
-/
namespace BlockElimination

open Matrix

section Coordinates
variable {F : Type} [CommRing F]

def coords (n : ℕ) (x : Array F) : Fin n → F := fun i => coord x i

@[simp] theorem coords_apply (n : ℕ) (x : Array F) (i : Fin n) : coords n x i = coord x i := rfl

@[simp] theorem coords_ofFn {n : ℕ} (v : Fin n → F) : coords n (Array.ofFn v) = v := by
  funext i
  simp [coords, coord]

theorem ofFn_coords {n : ℕ} {x : Array F} (h : x.size = n) : Array.ofFn (coords n x) = x := by
  subst h
  apply Array.ext
  · simp
  · intro i hi _
    simp [coord_of_lt (x := x) (i := i) (by simpa using hi)]

end Coordinates

namespace LinearMap

variable {F : Type} [CommRing F]

variable [DecidableEq F]

/-- The entries of an `m` by `n` map. -/
def matrix (K : LinearMap F) (m n : ℕ) : Matrix (Fin m) (Fin n) F := .of fun i j => K.entry i j

@[simp] theorem matrix_apply (K : LinearMap F) {m n : ℕ} (i : Fin m) (j : Fin n) :
    K.matrix m n i j = K.entry i j := rfl

@[simp] theorem matrix_transpose (K : LinearMap F) (m n : ℕ) : K.transpose.matrix m n = (K.matrix n m)ᵀ := by
  ext i j
  simp

theorem entry_scale (alpha : F) (K : LinearMap F) (i j : ℕ) : (K.scale alpha).entry i j = alpha * K.entry i j := by
  induction K generalizing i j with
  | dense d => cases h : d.flipped <;> simp [scale, entry, Dense.entry, Dense.scale, Kernel.storedEntry, h, coord_scale]
  | kron a b iha _ => simp only [scale, entry, iha, mul_assoc]
  | diag d => by_cases h : i = j <;> simp [scale, entry, ofDiagonal, h, coord_scale]
  | scalar n s => by_cases h : i = j <;> simp [scale, entry, ofScalar, h]

@[simp] theorem matrix_scale (alpha : F) (K : LinearMap F) (m n : ℕ) :
    (K.scale alpha).matrix m n = alpha • K.matrix m n := by
  ext i j
  simp [entry_scale]

variable {alpha beta : F} {x y : Array F}

theorem coord_action_dense {d : Dense F} (hx : x.size = d.width) (hy : y.size = d.height) {r : ℕ}
    (hr : r < d.height) :
    coord (d.action false alpha x beta y) r =
      alpha * ∑ c : Fin d.width, d.entry r c * coord x c + beta * coord y r := by
  unfold Dense.action
  split
  case isTrue =>
    simp only [Kernel.matrixAction, coord_tabulate, hy, hr, if_true, Bool.false_xor, ascendingSum_eq_sum, hx]
    rfl
  case isFalse hzero =>
    -- Without columns there is nothing to sum, and without rows there is no `r`.
    have hw : d.width = 0 := by
      unfold Dense.height at hr
      unfold Dense.width
      split at hr <;> simp_all <;> omega
    have : IsEmpty (Fin d.width) := by rw [hw]; infer_instance
    simp [coord_scale]

/-- The first pass of a Kronecker product multiplies every column of the operand by the right factor. -/
theorem coord_firstPass {b : LinearMap F} {n c q : ℕ} (hc : c < n)
    (hb : ∀ {x y : Array F}, x.size = b.cols → y.size = b.rows →
      coord (b.action false 1 x 0 y) q = 1 * ∑ p : Fin b.cols, b.entry q p * coord x p + 0 * coord y q) :
    coord ((tabulate n fun c =>
      b.action false 1 (tabulate b.cols fun p => coord x (c * b.cols + p)) 0 (Kernel.zeros b.rows)).getD c #[]) q =
        ∑ p : Fin b.cols, b.entry q p * coord x (c * b.cols + p) := by
  rw [getD_tabulate _ _ hc, hb (size_tabulate _ _) (by simp [Kernel.zeros])]
  simp

/-- `α K x + β y`, coordinate by coordinate. -/
theorem coord_action {K : LinearMap F} (hx : x.size = K.cols) (hy : y.size = K.rows) {r : ℕ} (hr : r < K.rows) :
    coord (K.action false alpha x beta y) r =
      alpha * ∑ c : Fin K.cols, K.entry r c * coord x c + beta * coord y r := by
  induction K generalizing alpha beta x y r with
  | dense d => exact coord_action_dense hx hy hr
  | kron a b iha ihb =>
    simp only [rows] at hr hy
    have hmod : r % b.rows < b.rows := Nat.mod_lt r (Nat.pos_of_ne_zero fun h => by simp [h] at hr)
    have hdiv : r / b.rows < a.rows := Nat.div_lt_of_lt_mul (by rwa [Nat.mul_comm])
    simp only [action, outer, inner, Bool.false_eq_true, if_false]
    split
    case isTrue hzero =>
      have hw : (kron a b).cols = 0 := by
        rcases hzero with h | h | h | h
        · simp [h] at hr
        · simp [cols, h]
        · simp [h] at hr
        · simp [cols, h]
      have : IsEmpty (Fin (kron a b).cols) := by rw [hw]; infer_instance
      simp [coord_scale]
    case isFalse =>
      rw [coord_tabulate, if_pos hr, getD_tabulate _ _ hmod, iha (size_tabulate _ _) (size_tabulate _ _) hdiv,
        coord_tabulate, if_pos hdiv, Nat.div_add_mod']
      have hsum := sum_fin_mul a.cols b.cols fun p => (kron a b).entry r p * coord x p
      congr 2
      refine Eq.trans (Finset.sum_congr rfl fun c _ => ?_) hsum.symm
      rw [coord_tabulate, if_pos c.isLt, coord_firstPass c.isLt fun hx hy => ihb hx hy hmod, Finset.mul_sum]
      refine Finset.sum_congr rfl fun q _ => ?_
      rw [entry, Kernel.columnMajor_div q.isLt, Kernel.columnMajor_mod q.isLt, mul_assoc]
  | diag d =>
    have hsum := sum_onlyAt (show r < (diag d).cols from hr) (coord d.value r) (coord x)
    have hry : r < y.size := hy ▸ hr
    simp only [action, Kernel.diagonalAction, coord_tabulate, hry, if_true, entry, hsum, mul_assoc]
  | scalar n s =>
    have hsum := sum_onlyAt (show r < (scalar n s).cols from hr) s.value (coord x)
    simp only [action, entry, hsum]
    split
    case isTrue hbeta =>
      rw [coord_scale, eq_of_beq hbeta, zero_mul, add_zero, mul_assoc]
    case isFalse =>
      have hry : r < (Kernel.scale beta y).size := by rw [Kernel.size_scale, hy]; exact hr
      rw [coord_accumulate _ hry, coord_scale]
      ring

theorem coords_action {K : LinearMap F} {m n : ℕ} (hK : K.Sized m n) (hx : x.size = n) (hy : y.size = m) :
    coords m (K.action false alpha x beta y) = alpha • (K.matrix m n *ᵥ coords n x) + beta • coords m y := by
  obtain ⟨rfl, rfl⟩ := hK
  funext i
  simp only [coords_apply, coord_action hx hy i.isLt, Pi.add_apply, Pi.smul_apply, smul_eq_mul]
  rfl

theorem coords_image {K : LinearMap F} {m n : ℕ} (hK : K.Sized m n) (hx : x.size = n) :
    coords m (K.action false 1 x 0 (Kernel.zeros m)) = K.matrix m n *ᵥ coords n x := by
  have hzeros : (Kernel.zeros m : Array F).size = m := Array.size_replicate
  rw [coords_action hK hx hzeros, one_smul, zero_smul, add_zero]

theorem yields_actOn {K : LinearMap F} {m n : ℕ} (hK : K.Sized m n) (hx : x.size = n) (hy : y.size = m) :
    Yields (K.actOn alpha x beta y) fun z =>
      z.size = m ∧ coords m z = alpha • (K.matrix m n *ᵥ coords n x) + beta • coords m y := by
  refine (hK.yields_actOn hx hy).mono ?_
  rintro _ ⟨rfl, hsize⟩
  exact ⟨hsize, coords_action hK hx hy⟩

theorem yields_apply {K : LinearMap F} {m n : ℕ} (hK : K.Sized m n) (hx : x.size = n) :
    Yields (K.apply x) fun z => z.size = m ∧ coords m z = K.matrix m n *ᵥ coords n x := by
  refine (hK.yields_apply hx).mono ?_
  rintro _ ⟨rfl, hsize⟩
  exact ⟨hsize, coords_image hK hx⟩

theorem size_of_apply_eq_ok {K : LinearMap F} {m n : ℕ} (hK : K.Sized m n) {z : Array F} (h : K.apply x = .ok z) :
    x.size = n := by
  unfold apply at h
  cases hs : K.size with
  | error e =>
    rw [hs] at h
    cases h
  | ok s =>
    obtain rfl := (yields_size hK).of_eq_ok hs
    rw [hs] at h
    change (Kernel.requireLengths (x.size = n) >>= _) = _ at h
    rw [Kernel.requireLengths_bind] at h
    by_contra hne
    rw [if_neg hne] at h
    cases h

end LinearMap

end BlockElimination
