import BlockElimination.Proofs.Factor.Solve
import BlockElimination.Proofs.Factor.Storable

/-!
# Definite matrices

With the tolerance zero a semidefinite matrix is factored exactly if it is definite. A definite matrix is pivotable. In
the other direction the factors leave no vector but zero that is taken to zero, and in a semidefinite matrix every
vector at which the form vanishes is taken to zero.
-/
namespace BlockElimination

open Matrix

namespace BlockMatrix
variable {F : Type} [Field F] [LinearOrder F] {A : BlockMatrix F} {dim : String → ℕ}

def PositiveSemidefinite (A : BlockMatrix F) (dim : String → ℕ) : Prop :=
  ∀ x : ∀ k, Fin (dim k) → F, 0 ≤ A.quadratic dim x

def PositiveDefinite (A : BlockMatrix F) (dim : String → ℕ) : Prop :=
  ∀ x : ∀ k, Fin (dim k) → F, (∃ k ∈ A.colKeys, x k ≠ 0) → 0 < A.quadratic dim x

theorem BlockSymmetric.quadratic_add_smul (h : A.BlockSymmetric dim) (x y : ∀ k, Fin (dim k) → F) (t : F) :
    A.quadratic dim (fun k => x k + t • y k) = A.quadratic dim y * (t * t) +
      2 * (∑ i ∈ A.names, y i ⬝ᵥ ∑ k ∈ A.names, A.block dim dim i k *ᵥ x k) * t + A.quadratic dim x := by
  have hswap : ∑ i ∈ A.names, ∑ j ∈ A.names, x i ⬝ᵥ A.block dim dim i j *ᵥ y j =
      ∑ i ∈ A.names, ∑ j ∈ A.names, y i ⬝ᵥ A.block dim dim i j *ᵥ x j := by
    rw [Finset.sum_comm]
    refine Finset.sum_congr rfl fun i _ => Finset.sum_congr rfl fun j _ => ?_
    rw [h.transposed i j, dotProduct_mulVec, vecMul_transpose, dotProduct_comm]
  have hterm : ∀ i j, (x i + t • y i) ⬝ᵥ A.block dim dim i j *ᵥ (x j + t • y j) =
      t * t * (y i ⬝ᵥ A.block dim dim i j *ᵥ y j) + t * (y i ⬝ᵥ A.block dim dim i j *ᵥ x j) +
        t * (x i ⬝ᵥ A.block dim dim i j *ᵥ y j) + x i ⬝ᵥ A.block dim dim i j *ᵥ x j := fun i j => by
    simp only [mulVec_add, mulVec_smul, add_dotProduct, dotProduct_add, smul_dotProduct, dotProduct_smul, smul_eq_mul]
    ring
  simp only [quadratic, hterm, Finset.sum_add_distrib, ← Finset.mul_sum, hswap, dotProduct_sum]
  ring

variable [IsStrictOrderedRing F]

/-- Where the form of a semidefinite matrix vanishes, so does the image. -/
theorem PositiveSemidefinite.mulVec_eq_zero (hsemi : A.PositiveSemidefinite dim) (h : A.BlockSymmetric dim)
    {x : ∀ k, Fin (dim k) → F} (hx : A.quadratic dim x = 0) :
    ∀ i ∈ A.names, ∑ k ∈ A.names, A.block dim dim i k *ᵥ x k = 0 := by
  obtain ⟨y, hy⟩ : ∃ y : ∀ i, Fin (dim i) → F, y = fun i => ∑ k ∈ A.names, A.block dim dim i k *ᵥ x k := ⟨_, rfl⟩
  -- The form vanishes at zero on the line through `x` in the direction of the image, so it cannot have a slope there.
  have hline : ∀ t : F, 0 ≤ A.quadratic dim y * (t * t) + 2 * (∑ i ∈ A.names, y i ⬝ᵥ y i) * t + 0 := fun t => by
    have hpoly := h.quadratic_add_smul x y t
    simp only [hx, ← congrFun hy] at hpoly
    exact hpoly ▸ hsemi _
  have hsum : ∑ i ∈ A.names, y i ⬝ᵥ y i = 0 := by
    have hdiscrim := discrim_le_zero hline
    rw [discrim, mul_zero, sub_zero] at hdiscrim
    simpa using (pow_eq_zero_iff two_ne_zero).mp (le_antisymm hdiscrim (sq_nonneg _))
  intro i hi
  have hzero := (Finset.sum_eq_zero_iff_of_nonneg fun i _ => dotProduct_self_nonneg (y i)).mp hsum i hi
  rw [← congrFun hy i]
  exact dotProduct_self_eq_zero.mp hzero

end BlockMatrix

namespace Factor
open BlockMatrix

variable {F : Type} [Field F] [LinearOrder F] [IsStrictOrderedRing F] {A : BlockMatrix F} {dim : String → ℕ}

theorem pivotable_of_positiveDefinite (hA : A.BlockSymmetric dim) (hdim : ∀ k ∈ A.colKeys, 0 < dim k)
    (h : A.PositiveDefinite dim) : Pivotable 0 A dim := by
  constructor
  · intro k hk
    have hcontains : A.contains k k := by
      by_contra hnot
      have hform := h (vectorAt dim k (Pi.single ⟨0, hdim k hk⟩ 1)) ⟨k, hk, by simp [vectorAt]⟩
      rw [hA.quadratic_vectorAt, block_of_not_contains hnot, zero_mulVec, dotProduct_zero] at hform
      exact lt_irrefl 0 hform
    obtain ⟨K, hK⟩ := contains_iff.mp hcontains
    exact ⟨K, hK, fun _ => ⟨rfl, hdim k hk⟩⟩
  · rintro x ⟨k, hk, p, hp⟩
    have hne : x k ≠ 0 := fun e => by simp [e] at hp
    exact abs_pos.mpr (h x ⟨k, hk, hne⟩).ne'

/-- The factors of a semidefinite matrix show that it is definite. -/
theorem Factors.positiveDefinite {f : Factor F} (hf : Factors A dim f) (hA : A.BlockSymmetric dim)
    (hsemi : A.PositiveSemidefinite dim) : A.PositiveDefinite dim := by
  rintro x ⟨k, hk, hne⟩
  refine lt_of_le_of_ne (hsemi x) fun hzero => hne ?_
  exact hf.eq_zero (hsemi.mulVec_eq_zero hA hzero.symm) k (mem_names.mpr hk)

omit [IsStrictOrderedRing F] in
theorem compute_ne_overflow (hA : A.BlockSymmetric dim) (hdim : ∀ k ∈ A.colKeys, 0 < dim k)
    (hroom : (∑ k ∈ A.names, dim k) ^ 2 < Size.capacity) (par : FactorParameters F) :
    (compute par A).result ≠ .error (.fault .overflow) :=
  (answers_compute ⟨fun k hk => hdim k (mem_names.mp hk), hroom⟩ hA.within_names par).of_result_eq_fault

theorem exists_compute_eq_ok_iff {rule : PivotRule} (hA : A.BlockSymmetric dim) (hdim : ∀ k ∈ A.colKeys, 0 < dim k)
    (hsemi : A.PositiveSemidefinite dim) (hsize : (compute ⟨0, rule⟩ A).result ≠ .error (.fault .overflow)) :
    (∃ f, (compute ⟨0, rule⟩ A).result = .ok f) ↔ A.PositiveDefinite dim := by
  have hyields : (compute ⟨0, rule⟩ A).Yields (Factors A dim) fun _ => ¬Pivotable 0 A dim := yields_compute le_rfl hA
  constructor
  · rintro ⟨f, hf⟩
    exact (hyields.of_result_eq_ok hf).positiveDefinite hA hsemi
  · intro hdef
    have hpiv := pivotable_of_positiveDefinite hA hdim hdef
    obtain ⟨f, hf, -⟩ := (hyields.mono (fun _ h => h) fun _ hnot => hnot hpiv).exists_of_ne hsize
    exact ⟨f, hf⟩

/-- With the tolerance zero, factoring a semidefinite matrix succeeds by either rule exactly if it is definite. This is
so whenever an array can hold the matrix written out, and beyond that as long as no size leaves its range. -/
theorem compute_eq_ok_iff_positiveDefinite {rule : PivotRule} (hA : A.BlockSymmetric dim)
    (hdim : ∀ k ∈ A.colKeys, 0 < dim k) (hsemi : A.PositiveSemidefinite dim) :
    ((∑ k ∈ A.names, dim k) ^ 2 < Size.capacity →
      ((∃ f, (compute ⟨0, rule⟩ A).result = .ok f) ↔ A.PositiveDefinite dim)) ∧
    ((compute ⟨0, rule⟩ A).result ≠ .error (.fault .overflow) →
      ((∃ f, (compute ⟨0, rule⟩ A).result = .ok f) ↔ A.PositiveDefinite dim)) :=
  ⟨fun hroom => exists_compute_eq_ok_iff hA hdim hsemi (compute_ne_overflow hA hdim hroom _),
    exists_compute_eq_ok_iff hA hdim hsemi⟩

/-- One diagonal block with a zero in it. -/
def flat : BlockMatrix ℚ := BlockMatrix.empty.set "a" "a" (.ofDiagonal #[1, 0])

theorem flat_symmetric : flat.BlockSymmetric fun _ => 2 :=
  (BlockSymmetric.empty fun _ => 2).set_self ⟨rfl, rfl⟩
    (by rw [LinearMap.ofDiagonal, LinearMap.matrix_diag]; exact isSymm_diagonal _)

theorem quadratic_flat (x : String → Fin 2 → ℚ) : flat.quadratic (fun _ => 2) x = x "a" 0 * x "a" 0 := by
  have hnames : flat.names = {"a"} := by decide
  have hblock : flat.block (fun _ => 2) (fun _ => 2) "a" "a" = Matrix.diagonal ![1, 0] := by
    ext p q
    fin_cases p <;> fin_cases q <;> rfl
  rw [quadratic, hnames, Finset.sum_singleton, Finset.sum_singleton, hblock]
  simp [dotProduct, mulVec_diagonal]

theorem quadratic_arrow (x : ∀ k, Fin (arrowDim k) → ℚ) (u : Fin 2 → ℚ) (v : Fin 1 → ℚ) (hu : x "a" = u)
    (hv : x "b" = v) : arrow.quadratic arrowDim x =
      3 * (u 0 + v 0 / 3) ^ 2 + 3 * (u 1 + 2 * v 0 / 3) ^ 2 + 10 / 3 * v 0 ^ 2 := by
  have hnames : arrow.names = {"a", "b"} := by decide +kernel
  have haa : arrow.block arrowDim arrowDim "a" "a" = (!![3, 0; 0, 3] : Matrix (Fin 2) (Fin 2) ℚ) :=
    Matrix.ext fun (p : Fin 2) (q : Fin 2) => by fin_cases p <;> fin_cases q <;> decide +kernel
  have hab : arrow.block arrowDim arrowDim "a" "b" = (!![1; 2] : Matrix (Fin 2) (Fin 1) ℚ) :=
    Matrix.ext fun (p : Fin 2) (q : Fin 1) => by fin_cases q; fin_cases p <;> decide +kernel
  have hba : arrow.block arrowDim arrowDim "b" "a" = (!![1, 2] : Matrix (Fin 1) (Fin 2) ℚ) :=
    Matrix.ext fun (p : Fin 1) (q : Fin 2) => by fin_cases p; fin_cases q <;> decide +kernel
  have hbb : arrow.block arrowDim arrowDim "b" "b" = (!![5] : Matrix (Fin 1) (Fin 1) ℚ) :=
    Matrix.ext fun (p : Fin 1) (q : Fin 1) => by fin_cases p; fin_cases q; decide +kernel
  rw [quadratic, hnames, Finset.sum_pair (by decide), Finset.sum_pair (by decide), Finset.sum_pair (by decide), haa,
    hab, hba, hbb, hu, hv]
  change u ⬝ᵥ !![3, 0; 0, 3] *ᵥ u + u ⬝ᵥ !![1; 2] *ᵥ v + (v ⬝ᵥ !![1, 2] *ᵥ u + v ⬝ᵥ !![5] *ᵥ v) = _
  simp [dotProduct, mulVec, Fin.sum_univ_two]
  ring

/-- The factors by either rule show that one matrix is definite, and no factors show that the other one is not. -/
theorem arrow_factored : (∃ f, (compute ⟨0, .minFill⟩ arrow).result = .ok f) ∧
    (∃ f, (compute ⟨0, .natural⟩ arrow).result = .ok f) ∧ arrow.PositiveDefinite arrowDim ∧
    (¬∃ f, (compute ⟨0, .natural⟩ flat).result = .ok f) ∧ flat.PositiveSemidefinite (fun _ => 2) ∧
    ¬flat.PositiveDefinite fun _ => 2 := by
  have hfactored : ∀ rule ∈ [PivotRule.minFill, .natural], (compute ⟨0, rule⟩ arrow).result.toBool = true := by
    decide +kernel
  obtain ⟨f, hf⟩ := exists_eq_ok (hfactored .minFill (by simp))
  obtain ⟨g, hg⟩ := exists_eq_ok (hfactored .natural (by simp))
  have hsemi : arrow.PositiveSemidefinite arrowDim := fun x => by
    rw [quadratic_arrow x _ _ rfl rfl]
    positivity
  have hdef : arrow.PositiveDefinite arrowDim :=
    ((compute_eq_ok_iff_positiveDefinite arrow_symmetric (by decide +kernel) hsemi).1 (by decide +kernel)).mp ⟨f, hf⟩
  have hflat : flat.PositiveSemidefinite fun _ => 2 := fun x => by
    rw [quadratic_flat]
    exact mul_self_nonneg _
  have hnot : ¬flat.PositiveDefinite fun _ => 2 := fun hdef => by
    have := hdef (fun _ => ![0, 1]) ⟨"a", by decide, by decide⟩
    simp [quadratic_flat] at this
  have hsingular : (compute ⟨0, .natural⟩ flat).result = .error (.error (.pivot "a" .singular)) :=
    eq_error_of_map (by decide +kernel)
  have hsize : (compute ⟨0, .natural⟩ flat).result ≠ .error (.fault .overflow) := fun h => by
    cases hsingular.symm.trans h
  have hrefused := ((compute_eq_ok_iff_positiveDefinite flat_symmetric (fun _ _ => two_pos) hflat).2 hsize).not.mpr
    hnot
  exact ⟨⟨f, hf⟩, ⟨g, hg⟩, hdef, hrefused, hflat, hnot⟩

end Factor

end BlockElimination
