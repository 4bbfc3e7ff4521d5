import BlockElimination.Proofs.Factor.Solve

/-!
# Gram matrices with an identity

`Gᵀ G + I` is block-symmetric and its quadratic form is `|G x|² + |x|²`. So it is pivotable for every tolerance below
one, and as a sum none of its diagonal blocks is a Kronecker product.
-/
namespace BlockElimination.Factor

open Matrix BlockMatrix

variable {F : Type} [Field F] [LinearOrder F] {ε : Type} {G A : BlockMatrix F} {m n : String → ℕ}

/-- `Gᵀ G + I`. -/
def gramPlusIdentity (G : BlockMatrix F) : Outcome ε (BlockMatrix F) := do
  let gt ← G.transpose
  let gram ← gt.mul G
  let id ← G.rightIdentity
  gram.add id

/-- `A` is `Gᵀ G + I`, where the sums run over the names of `rows`. -/
structure GramOf (m n : String → ℕ) (rows : Finset String) (G A : BlockMatrix F) : Prop where
  conforms : A.Conforms n n
  contains_iff : ∀ i j, A.contains i j ↔ (∃ r, G.contains r i ∧ G.contains r j) ∨ i = j ∧ j ∈ G.colKeys
  block_eq : ∀ i j, A.block n n i j =
    ∑ r ∈ rows, (G.block m n r i)ᵀ * G.block m n r j + if j ∈ G.colKeys then unit n i j else 0
  kind_ne : ∀ {k K}, A.get? k k = some K → K.kind ≠ .kron

theorem yields_gramPlusIdentity {q : ε → Prop} (hG : G.Conforms m n) :
    (gramPlusIdentity G : Outcome ε (BlockMatrix F)).Yields (fun A => ∃ rows, GramOf m n rows G A) q := by
  refine Outcome.Yields.lift_bind hG.yields_transpose fun gt ⟨hgt, hget⟩ => ?_
  refine (hgt.yields_mul hG (s := gt.names) fun k hk => mem_names.mpr hk).bind fun gram hgram => ?_
  refine Outcome.Yields.lift_bind hG.yields_rightIdentity fun I ⟨hI, hIget⟩ => ?_
  refine Outcome.Yields.lift ((hgram.conforms.yields_addScaled hI 1).mono fun A hA => ⟨gt.names, ?_⟩)
  have htranspose : ∀ i r, gt.contains i r ↔ G.contains r i := fun i r => by
    rw [contains_of_transpose hget]
  have hidentity : ∀ i j, I.contains i j ↔ i = j ∧ j ∈ G.colKeys := fun i j => by
    simp only [BlockMatrix.contains_iff, hIget]
    tauto
  constructor
  · exact hA.conforms
  · intro i j
    rw [hA.contains_iff, hgram.contains_iff, hidentity]
    simp only [htranspose]
  · intro i j
    rw [hA.block_eq, hgram.block_eq, one_smul]
    congr 1
    · exact Finset.sum_congr rfl fun r _ => by rw [block_of_transpose hget]
    · exact block_of_identity hIget i j
  · intro k K hK hkron
    have hk : k ∈ G.colKeys := by
      rcases (hA.contains_iff k k).mp (contains_iff.mpr ⟨K, hK⟩) with hc | hc
      · obtain ⟨r, -, hr⟩ := (hgram.contains_iff k k).mp hc
        exact mem_colKeys_of_contains hr
      · exact ((hidentity k k).mp hc).2
    obtain ⟨r, hr⟩ := hG.occupied k hk
    have hc : gram.contains k k := (hgram.contains_iff k k).mpr ⟨r, (htranspose k r).mpr hr, hr⟩
    exact (hA.kept hK hkron hc).2 ((hidentity k k).mpr ⟨rfl, hk⟩)

namespace GramOf
variable {rows : Finset String} (h : GramOf m n rows G A)
include h

theorem mem_colKeys {k : String} : k ∈ A.colKeys ↔ k ∈ G.colKeys := by
  rw [h.conforms.occupied.mem_colKeys]
  constructor
  · rintro ⟨i, hi⟩
    rcases (h.contains_iff i k).mp hi with ⟨r, -, hr⟩ | ⟨-, hk⟩
    · exact mem_colKeys_of_contains hr
    · exact hk
  · exact fun hk => ⟨k, (h.contains_iff k k).mpr (.inr ⟨rfl, hk⟩)⟩

theorem colKeys_eq : A.colKeys = G.colKeys := by
  refine Keyed.keys_eq_keys fun k => ?_
  rw [← Keyed.mem_keys, ← Keyed.mem_keys]
  exact h.mem_colKeys

theorem symmetric : A.BlockSymmetric n := by
  refine ⟨h.conforms, fun hc => ?_, fun i j => ?_⟩
  · rcases (h.contains_iff _ _).mp hc with ⟨r, hi, hj⟩ | ⟨rfl, hk⟩
    · exact (h.contains_iff _ _).mpr (.inl ⟨r, hj, hi⟩)
    · exact hc
  · rw [h.block_eq, h.block_eq, transpose_add, transpose_sum]
    simp only [transpose_mul, transpose_transpose]
    congr 1
    by_cases hij : i = j
    · subst hij
      split <;> simp
    · rw [unit_of_ne hij, unit_of_ne fun e => hij e.symm, ite_self, ite_self, transpose_zero]

/-- `|G x|² + |x|²`. -/
theorem quadratic_eq (x : ∀ k, Fin (n k) → F) : A.quadratic n x =
    ∑ r ∈ rows, (∑ i ∈ A.names, G.block m n r i *ᵥ x i) ⬝ᵥ (∑ i ∈ A.names, G.block m n r i *ᵥ x i) +
      ∑ i ∈ A.names, x i ⬝ᵥ x i := by
  have hsplit := sum_quadratic_add A.names rows (B := A.block n n) (W := fun i r => (G.block m n r i)ᵀ)
    (D := fun _ => 1) (C := fun i j => if j ∈ G.colKeys then unit n i j else 0)
    (fun i j => by rw [h.block_eq]; simp only [transpose_transpose, Matrix.mul_one]) x
  rw [quadratic, hsplit]
  simp only [transpose_transpose, one_mulVec]
  congr 1
  refine Finset.sum_congr rfl fun i hi => ?_
  rw [← dotProduct_sum]
  congr 1
  refine (Finset.sum_congr rfl fun j hj => ?_).trans (sum_unit_mulVec hi x)
  rw [if_pos ((h.mem_colKeys).mp (mem_names.mp hj))]

variable [IsStrictOrderedRing F] {tol : F}

theorem pivotable (htol : tol < 1) : Pivotable tol A n := by
  refine ⟨fun k hk => ?_, fun x ⟨k, hk, p, hp⟩ => ?_⟩
  · obtain ⟨K, hK⟩ := BlockMatrix.contains_iff.mp ((h.contains_iff k k).mpr (.inr ⟨rfl, h.mem_colKeys.mp hk⟩))
    exact ⟨K, hK, fun hkron => absurd hkron (h.kind_ne hK)⟩
  · have hone : x k p * x k p ≤ x k ⬝ᵥ x k :=
      Finset.single_le_sum (f := fun q => x k q * x k q) (fun q _ => mul_self_nonneg (x k q)) (Finset.mem_univ p)
    have hterm : x k ⬝ᵥ x k ≤ ∑ i ∈ A.names, x i ⬝ᵥ x i :=
      Finset.single_le_sum (f := fun i => x i ⬝ᵥ x i) (fun i _ => dotProduct_self_nonneg (x i)) (mem_names.mpr hk)
    calc tol < x k p * x k p := by rwa [hp, one_mul]
      _ ≤ ∑ i ∈ A.names, x i ⬝ᵥ x i := hone.trans hterm
      _ ≤ A.quadratic n x := by
        rw [h.quadratic_eq]
        exact le_add_of_nonneg_left (Finset.sum_nonneg fun r _ => dotProduct_self_nonneg _)
      _ ≤ |A.quadratic n x| := le_abs_self _

end GramOf

variable [IsStrictOrderedRing F] {par : FactorParameters F}

def wide : BlockMatrix ℚ :=
  (BlockMatrix.empty.set "r" "a" (.ofScalar 2 3)).set "r" "b" (.ofEntries 2 1 fun p _ => (p : ℚ) + 1)

def wideDim (k : String) : ℕ := if k = "b" then 1 else 2

theorem conforms_wide : wide.Conforms (fun _ => 2) wideDim :=
  ((Conforms.empty _ _).set ⟨rfl, rfl⟩).set ⟨rfl, rfl⟩

def coarse : FactorParameters ℚ := ⟨1 / 2, .natural⟩

/-- One segment is missing, and one is at a name that is ignored. -/
def wideRight : BlockVector ℚ := ⟨((∅ : Keyed (Array ℚ)).insert "a" #[1, -2]).insert "z" #[7, 7]⟩

end BlockElimination.Factor
