import BlockElimination.Proofs.Factor.Elimination
import BlockElimination.Proofs.Factor.Sweep

/-!
# The factorization

A run has as many steps as the matrix has columns, so it ends with nothing left, and the invariant says that what has
been collected are the factors. It can only end early if the matrix is not pivotable.
-/
namespace BlockElimination.Factor

open Matrix BlockMatrix

variable {F : Type} [Field F] [LinearOrder F] {A : BlockMatrix F} {dim : String → ℕ} {f : Factor F}

/-- `A = (I + L) D (I + L)ᵀ`, where `L` is strictly lower triangular in the order of elimination. -/
structure Factors (A : BlockMatrix F) (dim : String → ℕ) (f : Factor F) : Prop where
  nodup : f.order.Nodup
  mem_iff : ∀ k, k ∈ f.order ↔ k ∈ A.colKeys
  dims_eq : f.dims = f.order.map dim
  lower : f.lower.Conforms dim dim
  before : Descends f.lower f.order
  upper : f.upper.Conforms dim dim
  upper_eq : ∀ i j, f.upper.get? j i = (f.lower.get? i j).map LinearMap.transpose
  diagInv : f.diagInv.Conforms dim dim
  diagInv_contains : ∀ i j, f.diagInv.contains i j ↔ i = j ∧ j ∈ f.order
  isUnit : ∀ k ∈ f.order, IsUnit (f.diagInv.block dim dim k k)
  block_eq : ∀ i j, A.block dim dim i j = ∑ k ∈ f.order.toFinset,
    unitLower dim f.lower i k * pivotBlock dim f.diagInv k * (unitLower dim f.lower j k)ᵀ

theorem Invariant.factors {s : State F} (hs : Invariant A dim s) (hrest : s.rest.colKeys = []) {upper : BlockMatrix F}
    (hupper : upper.Conforms dim dim) (heq : ∀ i j, upper.get? j i = (s.lower.get? i j).map LinearMap.transpose) :
    Factors A dim ⟨s.order, s.dims, s.lower, upper, s.diagInv⟩ := by
  have hmem : ∀ k, k ∈ s.order ↔ k ∈ A.colKeys := fun k => by rw [hs.mem_iff, hrest]; simp
  constructor
  · exact hs.nodup
  · exact hmem
  · exact hs.dims_eq
  · exact hs.lower
  · intro i j hc
    obtain ⟨hi, p, hp, hnot⟩ := hs.before hc
    obtain ⟨q, hq⟩ := List.mem_iff_getElem?.mp ((hmem i).mpr hi)
    refine ⟨p, q, not_le.mp fun hqp => hnot ?_, hp, hq⟩
    rw [← List.getElem?_take_of_lt (Nat.lt_succ_of_le hqp)] at hq
    exact List.mem_of_getElem? hq
  · exact hupper
  · exact heq
  · exact hs.diagInv
  · exact hs.diagInv_contains
  · exact hs.isUnit
  · intro i j
    rw [hs.block_eq, block_of_not_mem (A := s.rest) (by simp [hrest]), add_zero]

variable [IsStrictOrderedRing F] {par : FactorParameters F}

theorem yields_steps (htol : 0 ≤ par.tolerance) {s : State F} (hs : Invariant A dim s) :
    (steps par s.rest.colKeys.length s).Yields (fun s' => Invariant A dim s' ∧ s'.rest.colKeys = [])
      fun _ => ¬Pivotable par.tolerance s.rest dim := by
  generalize hn : s.rest.colKeys.length = n
  induction n generalizing s with
  | zero => exact ⟨hs, List.length_eq_zero_iff.mp hn⟩
  | succ n ih =>
    have hstep : (step par s).Yields (fun s' => ∃ key ∈ s.rest.colKeys, ∃ P, s.rest.contains key key ∧
        s.rest.block dim dim key key * P = 1 ∧ Eliminates dim s key P s')
        fun _ => ¬Pivotable par.tolerance s.rest dim :=
      (yields_step htol hs.rest hs.lower hs.diagInv).mono (fun _ h => h) fun _ hstuck hpiv => by
        rcases hstuck with hnil | hstuck
        · simp [hnil] at hn
        · exact hpiv.not_stuck hs.rest hstuck
    refine hstep.bind ?_
    rintro s' ⟨key, hkey, P, -, hone, h⟩
    have hlength : s'.rest.colKeys.length = n := by
      have := h.length_rest hs.rest hkey
      omega
    exact (ih (hs.eliminates hkey hone h) hlength).mono (fun _ h => h) fun _ hnot hpiv =>
      hnot (h.pivotable hs.rest hone hpiv)

/-- The factorization yields the factors, and an error only where the matrix is not pivotable. -/
theorem yields_compute (htol : 0 ≤ par.tolerance) (hA : A.BlockSymmetric dim) :
    (compute par A).Yields (Factors A dim) fun _ => ¬Pivotable par.tolerance A dim := by
  refine Outcome.Yields.report_bind ?_
  refine (yields_steps htol (Invariant.start hA)).bind fun s ⟨hs, hrest⟩ => ?_
  refine Outcome.Yields.lift_bind hs.lower.yields_transpose fun upper hupper => ?_
  exact Outcome.Yields.report_bind (Outcome.Yields.pure_iff.mpr (hs.factors hrest hupper.1 hupper.2))

/-- What a factorization returns. `L` only has blocks whose column precedes their row in the order of elimination, its
transpose is stored block by block, `D⁻¹` has the diagonal blocks and no others, and `(I + L) D (I + L)ᵀ` is `A`. -/
theorem compute_factorization (htol : 0 ≤ par.tolerance) (hA : A.BlockSymmetric dim)
    (h : (compute par A).result = .ok f) :
    f.order.Nodup ∧ f.lower.Conforms dim dim ∧
    (∀ i j, f.lower.contains i j → ∃ p q : ℕ, p < q ∧ f.order[p]? = some j ∧ f.order[q]? = some i) ∧
    (∀ i j, f.upper.get? j i = (f.lower.get? i j).map LinearMap.transpose) ∧
    f.diagInv.Conforms dim dim ∧ (∀ i j, f.diagInv.contains i j ↔ i = j ∧ j ∈ f.order) ∧
    ∃ D : ∀ k, Matrix (Fin (dim k)) (Fin (dim k)) F,
      (∀ k ∈ f.order, f.diagInv.block dim dim k k * D k = 1 ∧ D k * f.diagInv.block dim dim k k = 1) ∧
      ∀ i j, ∑ k ∈ f.order.toFinset, unitLower dim f.lower i k * D k * (unitLower dim f.lower j k)ᵀ =
        A.block dim dim i j := by
  have hf : Factors A dim f := (yields_compute htol hA).of_result_eq_ok h
  refine ⟨hf.nodup, hf.lower, fun i j => hf.before, hf.upper_eq, hf.diagInv, hf.diagInv_contains,
    pivotBlock dim f.diagInv, fun k hk => ?_, fun i j => (hf.block_eq i j).symm⟩
  have hdet := (isUnit_iff_isUnit_det _).mp (hf.isUnit k hk)
  exact ⟨mul_nonsing_inv _ hdet, nonsing_inv_mul _ hdet⟩

/-- Two names of dimensions two and one, with blocks of three representations. -/
def arrow : BlockMatrix ℚ :=
  let row := LinearMap.ofEntries 1 2 fun _ q => (q : ℚ) + 1
  (((BlockMatrix.empty.set "a" "a" (.ofScalar 2 3)).set "b" "b" (.ofDiagonal #[5])).set "b" "a" row).set "a" "b"
    row.transpose

def arrowDim (k : String) : ℕ := if k = "a" then 2 else 1

theorem arrow_symmetric : arrow.BlockSymmetric arrowDim := by
  have ha := (BlockSymmetric.empty (F := ℚ) arrowDim).set_self (k := "a") (K := .ofScalar 2 3) ⟨rfl, rfl⟩
    (by rw [LinearMap.ofScalar, show arrowDim "a" = 2 from rfl, LinearMap.matrix_scalar]; exact isSymm_one.smul _)
  have hb := ha.set_self (k := "b") (K := .ofDiagonal #[5]) ⟨rfl, rfl⟩
    (by rw [LinearMap.ofDiagonal, LinearMap.matrix_diag]; exact isSymm_diagonal _)
  exact hb.set_pair (r := "b") (c := "a") (by decide) ⟨rfl, rfl⟩

theorem arrow_factorization : ∃ f, (compute ⟨0, .minFill⟩ arrow).result = .ok f ∧
    ∃ D : ∀ k, Matrix (Fin (arrowDim k)) (Fin (arrowDim k)) ℚ, ∀ i j, ∑ k ∈ f.order.toFinset,
      unitLower arrowDim f.lower i k * D k * (unitLower arrowDim f.lower j k)ᵀ = arrow.block arrowDim arrowDim i j := by
  obtain ⟨f, hf⟩ := exists_eq_ok (show (compute ⟨0, .minFill⟩ arrow).result.toBool = true by decide +kernel)
  obtain ⟨-, -, -, -, -, -, D, -, hD⟩ := compute_factorization le_rfl arrow_symmetric hf
  exact ⟨f, hf, D, hD⟩

end BlockElimination.Factor
