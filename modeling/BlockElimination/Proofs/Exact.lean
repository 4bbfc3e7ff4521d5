import Mathlib
import BlockElimination.Kernel.SymmetricInverse

/-!
# Exact arithmetic

A commutative ring has the operations that products and sums of maps need, and an ordered field those of elimination.
Over them a running sum is the sum, whatever its order.
-/
namespace BlockElimination

/-- The operations of a commutative ring. -/
instance Arith.exact {F : Type} [CommRing F] [DecidableEq F] : Arith F where
  toZero := inferInstance
  toOne := inferInstance
  toAdd := inferInstance
  toMul := inferInstance
  toNeg := inferInstance
  toBEq := inferInstance

/-- The operations of an ordered field. -/
instance Scalar.exact {F : Type} [Field F] [LinearOrder F] : Scalar F where
  toArith := Arith.exact
  toSub := inferInstance
  toDiv := inferInstance
  abs x := |x|
  isLe x y := decide (x ≤ y)

-- A ring or a field is asked for its own operations first.
attribute [instance (low)] Arith.toZero Arith.toOne Arith.toAdd Arith.toMul Arith.toNeg Arith.toBEq Scalar.toSub
  Scalar.toDiv

theorem getD_tabulate {α : Type} (f : ℕ → α) (d : α) {n i : ℕ} (h : i < n) : (tabulate n f).getD i d = f i := by
  simp [h]

section Ring
variable {F : Type} [CommRing F]

theorem ascendingSum_eq_sum (n : ℕ) (f : ℕ → F) : ascendingSum n f = ∑ i : Fin n, f i := by
  induction n with
  | zero => simp [ascendingSum]
  | succ n ih => rw [ascendingSum, ih, Fin.sum_univ_castSucc]; rfl

theorem sum_fin_mul (m n : ℕ) (f : ℕ → F) :
    ∑ p : Fin (m * n), f p = ∑ c : Fin m, ∑ q : Fin n, f (c * n + q) := by
  rw [← finProdFinEquiv.sum_comp, Fintype.sum_prod_type]
  refine Finset.sum_congr rfl fun c _ => Finset.sum_congr rfl fun q _ => ?_
  congr 1
  simp only [finProdFinEquiv_apply_val]
  ring

theorem sum_onlyAt {n r : ℕ} (hr : r < n) (a : F) (f : ℕ → F) :
    ∑ c : Fin n, (if r = c then a else 0) * f c = a * f r := by
  rw [Finset.sum_eq_single (⟨r, hr⟩ : Fin n)]
  · simp
  · intro c _ hc
    rw [if_neg fun h => hc (Fin.ext h.symm), zero_mul]
  · simp

theorem sum_range_split (f : ℕ → F) {n j : ℕ} (hj : j < n) :
    ∑ i ∈ Finset.range n, f i =
      ∑ i ∈ Finset.range j, f i + f j + ∑ p ∈ Finset.range (n - 1 - j), f (j + 1 + p) := by
  rw [← Finset.sum_range_succ, ← Finset.sum_range_add, show j + 1 + (n - 1 - j) = n by omega]

variable [DecidableEq F]

theorem coord_scale (alpha : F) (x : Array F) (i : ℕ) : coord (Kernel.scale alpha x) i = alpha * coord x i := by
  by_cases h : i < x.size <;> simp [coord, Kernel.scale, h]

theorem coord_accumulate (alpha : F) {x y : Array F} {i : ℕ} (h : i < y.size) :
    coord (Kernel.accumulate alpha x y) i = coord y i + alpha * coord x i := by
  simp [Kernel.accumulate, h]

end Ring

section Field
variable {F : Type} [Field F] [LinearOrder F]

@[simp] theorem Scalar.isLe_eq_true_iff (x y : F) : Scalar.isLe x y = true ↔ x ≤ y := by
  simp [Scalar.isLe]

@[simp] theorem Scalar.abs_eq (x : F) : Scalar.abs x = |x| := rfl

@[simp] theorem Scalar.recip_eq (x : F) : Scalar.recip x = x⁻¹ := one_div x

theorem descendingFrom_eq_sub_sum (start : F) (n : ℕ) (f : ℕ → F) :
    Kernel.descendingFrom start n f = start - ∑ i ∈ Finset.range n, f i := by
  induction n with
  | zero => simp [Kernel.descendingFrom]
  | succ n ih => rw [Kernel.descendingFrom, ih, Finset.sum_range_succ, sub_sub]

theorem dotProduct_self_nonneg [IsStrictOrderedRing F] {n : ℕ} (u : Fin n → F) : 0 ≤ dotProduct u u :=
  Finset.sum_nonneg fun p _ => mul_self_nonneg (u p)

end Field

end BlockElimination
