import BlockElimination.Proofs.BlockMatrix.Blocks

/-!
# Block-symmetric matrices and their quadratic forms

The pattern of a block-symmetric matrix is symmetric and its blocks are transposed pairwise, whatever their
representations. Eliminating one name splits the quadratic form into a term of that name and the form of the rest.
-/
namespace BlockElimination.BlockMatrix

open Matrix

variable {F : Type} [CommRing F] {A : BlockMatrix F} {dim : String → ℕ}

/-- The block `(i, k)` of the identity. -/
def unit (dim : String → ℕ) (i k : String) : Matrix (Fin (dim i)) (Fin (dim k)) F :=
  .of fun p q => if i = k ∧ (p : ℕ) = q then 1 else 0

@[simp] theorem unit_self (k : String) : (unit dim k k : Matrix _ _ F) = 1 := by
  ext p q
  simp [unit, one_apply, Fin.ext_iff]

theorem unit_of_ne {i k : String} (h : i ≠ k) : (unit dim i k : Matrix _ _ F) = 0 := by
  ext p q
  simp [unit, h]

theorem unit_transpose (i k : String) : (unit dim i k : Matrix _ _ F)ᵀ = unit dim k i := by
  ext p q
  simp [unit, eq_comm]

theorem sum_unit_mulVec {s : Finset String} {i : String} (hi : i ∈ s) (x : ∀ k, Fin (dim k) → F) :
    ∑ k ∈ s, unit dim i k *ᵥ x k = x i := by
  rw [Finset.sum_eq_single_of_mem i hi fun k _ hk => by rw [unit_of_ne hk.symm, zero_mulVec], unit_self, one_mulVec]

/-- The vector that is `u` at one name. -/
def vectorAt (dim : String → ℕ) (k : String) (u : Fin (dim k) → F) : ∀ i, Fin (dim i) → F := Function.update 0 k u

variable [DecidableEq F]

/-- A matrix of identities on its diagonal, as the products with an inverse are compared to. -/
theorem block_of_identity {I : BlockMatrix F} {keys : List String}
    (h : ∀ i j K, I.get? i j = some K ↔ i = j ∧ j ∈ keys ∧ K = .identity (dim j)) (i j : String) :
    I.block dim dim i j = if j ∈ keys then unit dim i j else 0 := by
  by_cases hplace : i = j ∧ j ∈ keys
  · obtain ⟨rfl, hi⟩ := hplace
    rw [block_of_get? ((h i i _).mpr ⟨rfl, hi, rfl⟩), LinearMap.identity, LinearMap.ofScalar, LinearMap.matrix_scalar,
      one_smul, if_pos hi, unit_self]
  · have hnot : ¬I.contains i j := fun hc => by
      obtain ⟨K, hK⟩ := contains_iff.mp hc
      obtain ⟨hij, hj, -⟩ := (h i j K).mp hK
      exact hplace ⟨hij, hj⟩
    rw [block_of_not_contains hnot]
    split
    case isTrue hj => exact (unit_of_ne fun hij => hplace ⟨hij, hj⟩).symm
    case isFalse => rfl

/-- There is one dimension per name, and the block `(j, i)` is the transpose of the block `(i, j)`. -/
structure BlockSymmetric (A : BlockMatrix F) (dim : String → ℕ) : Prop where
  conforms : A.Conforms dim dim
  contains_comm : ∀ {i j}, A.contains i j → A.contains j i
  transposed : ∀ i j, A.block dim dim j i = (A.block dim dim i j)ᵀ

theorem BlockSymmetric.isSymm (h : A.BlockSymmetric dim) (k : String) : (A.block dim dim k k).IsSymm :=
  (h.transposed k k).symm

theorem BlockSymmetric.row_mem (h : A.BlockSymmetric dim) {i j : String} (hc : A.contains i j) : i ∈ A.colKeys :=
  mem_colKeys_of_contains (h.contains_comm hc)

def names (A : BlockMatrix F) : Finset String := A.colKeys.toFinset

omit [CommRing F] [DecidableEq F] in
@[simp] theorem mem_names {k : String} : k ∈ A.names ↔ k ∈ A.colKeys := List.mem_toFinset

omit [CommRing F] [DecidableEq F] in
theorem card_names (A : BlockMatrix F) : A.names.card = A.colKeys.length :=
  List.toFinset_card_of_nodup (Keyed.nodup_keys A.columns)

theorem block_of_not_mem {i j : String} (h : j ∉ A.colKeys) : A.block dim dim i j = 0 :=
  block_of_not_contains fun hc => h (mem_colKeys_of_contains hc)

theorem BlockSymmetric.block_of_row_not_mem (h : A.BlockSymmetric dim) {i j : String} (hi : i ∉ A.colKeys) :
    A.block dim dim i j = 0 :=
  block_of_not_contains fun hc => hi (h.row_mem hc)

/-- `xᵀ A x`. -/
def quadratic (A : BlockMatrix F) (dim : String → ℕ) (x : ∀ k, Fin (dim k) → F) : F :=
  ∑ i ∈ A.names, ∑ j ∈ A.names, x i ⬝ᵥ A.block dim dim i j *ᵥ x j

theorem BlockSymmetric.quadratic_eq_sum (h : A.BlockSymmetric dim) {s : Finset String} (hs : A.names ⊆ s)
    (x : ∀ k, Fin (dim k) → F) : A.quadratic dim x = ∑ i ∈ s, ∑ j ∈ s, x i ⬝ᵥ A.block dim dim i j *ᵥ x j := by
  have hcol : ∀ i, ∑ j ∈ A.names, x i ⬝ᵥ A.block dim dim i j *ᵥ x j = ∑ j ∈ s, x i ⬝ᵥ A.block dim dim i j *ᵥ x j :=
    fun i => Finset.sum_subset hs fun j _ hj => by
      rw [block_of_not_mem (mt mem_names.mpr hj), zero_mulVec, dotProduct_zero]
  rw [quadratic, Finset.sum_congr rfl fun i _ => hcol i]
  refine Finset.sum_subset hs fun i _ hi => Finset.sum_eq_zero fun j _ => ?_
  rw [h.block_of_row_not_mem (mt mem_names.mpr hi), zero_mulVec, dotProduct_zero]

omit [DecidableEq F] in
/-- `W D Wᵀ` plus another family splits the quadratic form. -/
theorem sum_quadratic_add (s t : Finset String) {l : String → ℕ} {B C : ∀ i j, Matrix (Fin (dim i)) (Fin (dim j)) F}
    {W : ∀ i k, Matrix (Fin (dim i)) (Fin (l k)) F} {D : ∀ k, Matrix (Fin (l k)) (Fin (l k)) F}
    (h : ∀ i j, B i j = ∑ k ∈ t, W i k * D k * (W j k)ᵀ + C i j) (x : ∀ k, Fin (dim k) → F) :
    ∑ i ∈ s, ∑ j ∈ s, x i ⬝ᵥ B i j *ᵥ x j =
      ∑ k ∈ t, (∑ i ∈ s, (W i k)ᵀ *ᵥ x i) ⬝ᵥ D k *ᵥ (∑ i ∈ s, (W i k)ᵀ *ᵥ x i) +
        ∑ i ∈ s, ∑ j ∈ s, x i ⬝ᵥ C i j *ᵥ x j := by
  have hterm : ∀ i j k, x i ⬝ᵥ (W i k * D k * (W j k)ᵀ) *ᵥ x j =
      ((W i k)ᵀ *ᵥ x i) ⬝ᵥ D k *ᵥ ((W j k)ᵀ *ᵥ x j) := fun i j k => by
    rw [← mulVec_mulVec, ← mulVec_mulVec, dotProduct_mulVec, ← mulVec_transpose (W i k)]
  have hsum : ∀ k, (∑ i ∈ s, (W i k)ᵀ *ᵥ x i) ⬝ᵥ D k *ᵥ (∑ i ∈ s, (W i k)ᵀ *ᵥ x i) =
      ∑ i ∈ s, ∑ j ∈ s, x i ⬝ᵥ (W i k * D k * (W j k)ᵀ) *ᵥ x j := fun k => by
    rw [mulVec_sum, sum_dotProduct]
    refine Finset.sum_congr rfl fun i _ => ?_
    rw [dotProduct_sum]
    exact Finset.sum_congr rfl fun j _ => (hterm i j k).symm
  have hentry : ∀ i j, x i ⬝ᵥ B i j *ᵥ x j =
      ∑ k ∈ t, x i ⬝ᵥ (W i k * D k * (W j k)ᵀ) *ᵥ x j + x i ⬝ᵥ C i j *ᵥ x j := fun i j => by
    rw [h, add_mulVec, dotProduct_add, sum_mulVec, dotProduct_sum]
  simp only [hentry, hsum, Finset.sum_add_distrib]
  congr 1
  rw [Finset.sum_congr rfl fun i _ => Finset.sum_comm, Finset.sum_comm]

theorem BlockSymmetric.quadratic_vectorAt (h : A.BlockSymmetric dim) (k : String) (u : Fin (dim k) → F) :
    A.quadratic dim (vectorAt dim k u) = u ⬝ᵥ A.block dim dim k k *ᵥ u := by
  have hself : vectorAt dim k u k = u := Function.update_self ..
  have hother : ∀ i, i ≠ k → vectorAt dim k u i = 0 := fun i hi => Function.update_of_ne hi ..
  rw [h.quadratic_eq_sum (Finset.subset_insert k A.names), Finset.sum_eq_single_of_mem k (Finset.mem_insert_self ..),
    Finset.sum_eq_single_of_mem k (Finset.mem_insert_self ..), hself]
  · intro j _ hj
    rw [hother j hj, mulVec_zero, dotProduct_zero]
  · intro i _ hi
    simp [hother i hi]

section Construction
variable {K : LinearMap F}

theorem BlockSymmetric.empty (dim : String → ℕ) : (empty : BlockMatrix F).BlockSymmetric dim where
  conforms := .empty dim dim
  contains_comm h := nomatch contains_iff.mp h
  transposed _ _ := transpose_zero.symm

theorem BlockSymmetric.set_self (h : A.BlockSymmetric dim) {k : String} (hK : K.Sized (dim k) (dim k))
    (hsymm : (K.matrix (dim k) (dim k)).IsSymm) : (A.set k k K).BlockSymmetric dim where
  conforms := h.conforms.set hK
  contains_comm hc := by
    rw [contains_set] at hc ⊢
    exact hc.imp And.symm h.contains_comm
  transposed i j := by
    rw [block_set, block_set]
    by_cases hplace : i = k ∧ j = k
    · obtain ⟨rfl, rfl⟩ := hplace
      rw [if_pos ⟨rfl, rfl⟩, hsymm.eq]
    · rw [if_neg hplace, if_neg (mt And.symm hplace), h.transposed]

theorem BlockSymmetric.set_pair (h : A.BlockSymmetric dim) {r c : String} (hne : r ≠ c) (hK : K.Sized (dim r) (dim c)) :
    ((A.set r c K).set c r K.transpose).BlockSymmetric dim where
  conforms := (h.conforms.set hK).set hK.transpose
  contains_comm hc := by
    simp only [contains_set] at hc ⊢
    rcases hc with hc | hc | hc
    · exact .inr (.inl hc.symm)
    · exact .inl hc.symm
    · exact .inr (.inr (h.contains_comm hc))
  transposed i j := by
    simp only [block_set]
    by_cases hrc : i = r ∧ j = c
    · obtain ⟨rfl, rfl⟩ := hrc
      rw [if_pos ⟨rfl, rfl⟩, if_neg fun e => hne e.1, if_pos ⟨rfl, rfl⟩, LinearMap.matrix_transpose]
    · by_cases hcr : i = c ∧ j = r
      · obtain ⟨rfl, rfl⟩ := hcr
        rw [if_neg fun e => hne e.1, if_pos ⟨rfl, rfl⟩, if_pos ⟨rfl, rfl⟩, LinearMap.matrix_transpose,
          transpose_transpose]
      · rw [if_neg (mt And.symm hrc), if_neg (mt And.symm hcr), if_neg hcr, if_neg hrc, h.transposed]

end Construction

end BlockElimination.BlockMatrix
