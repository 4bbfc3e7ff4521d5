import BlockElimination.Proofs.LinearMap.Inverse
import BlockElimination.Proofs.LinearMap.Written

/-!
# Inverses of symmetric maps

An inverse is made like the map that it inverts: each part has the kind and the size of its counterpart. So it fits
wherever the map fits, and it can be written out if the map can. A symmetric map and its inverse write out as a pair of
mutually inverse matrices.
-/
namespace BlockElimination.LinearMap

open Matrix

section Shapes
variable {F : Type} {J K : LinearMap F}

/-- Part by part, the kinds and the sizes agree. -/
inductive SameShape : LinearMap F → LinearMap F → Prop
  | dense {d e : Dense F} (height : d.height = e.height) (width : d.width = e.width) :
    SameShape (.dense d) (.dense e)
  | kron {a b c d : LinearMap F} (left : SameShape a c) (right : SameShape b d) : SameShape (.kron a b) (.kron c d)
  | diag {u v : Stored (Array F)} (size : u.value.size = v.value.size) : SameShape (.diag u) (.diag v)
  | scalar (n : ℕ) (s t : Stored F) : SameShape (.scalar n s) (.scalar n t)

namespace SameShape

theorem kind_eq (h : SameShape J K) : J.kind = K.kind := by cases h <;> rfl

theorem rows_eq (h : SameShape J K) : J.rows = K.rows := by
  induction h with
  | dense height _ => exact height
  | kron _ _ left right => rw [rows, rows, left, right]
  | diag size => exact size
  | scalar => rfl

theorem cols_eq (h : SameShape J K) : J.cols = K.cols := by
  induction h with
  | dense _ width => exact width
  | kron _ _ left right => rw [cols, cols, left, right]
  | diag size => exact size
  | scalar => rfl

theorem fits_iff (h : SameShape J K) : J.Fits ↔ K.Fits := by
  induction h with
  | dense height width => rw [Fits, Fits, height, width]
  | kron left right ihl ihr =>
    rw [fits_kron, fits_kron, ihl, ihr, left.rows_eq, left.cols_eq, right.rows_eq, right.cols_eq]
  | diag size => rw [Fits, Fits, size]
  | scalar => rfl

theorem writable_iff (h : SameShape J K) : J.Writable ↔ K.Writable := by
  induction h with
  | dense => rfl
  | kron left right ihl ihr =>
    rw [Writable, Writable, (kron left right).fits_iff, ihl, ihr, left.rows_eq, left.cols_eq, right.rows_eq,
      right.cols_eq]
  | diag size => rw [Writable, Writable, size]
  | scalar => rfl

theorem size_eq (h : SameShape J K) : J.size = K.size := by simp only [size, h.fits_iff, h.rows_eq, h.cols_eq]

end SameShape

variable [Scalar F]

theorem Fits.ends_inverse_of {eps : F} {p : LinearMap F → Prop} (hK : K.Fits)
    (h : K.rows = K.cols → (K.inverseOnly eps).Answers p) : (K.inverse eps).Answers p := by
  refine LinearMap.ends_inverse_of ?_ h fun _ => trivial
  rw [size_of_fits hK]
  exact rfl

/-- There is a verdict on every map that fits: inverting it needs no size that the map does not have. -/
theorem Fits.ends_inverse (eps : F) (hK : K.Fits) : (K.inverse eps).Answers (SameShape · K) := by
  induction K with
  | dense d =>
    refine hK.ends_inverse_of fun hsquare => ?_
    have hsquare : d.height = d.width := hsquare
    rw [inverseOnly, Dense.inverse, if_pos hsquare]
    cases Kernel.symmetricInverse? d.height d.array.value eps with
    | some a => exact .dense rfl hsquare
    | none => trivial
  | kron a b iha ihb =>
    refine hK.ends_inverse_of fun hsquare => ?_
    obtain ⟨ha, hb, -⟩ := fits_kron.mp hK
    rw [inverseOnly, inverseKron, size_of_fits hK]
    refine Outcome.Ends.bind (p := (· = ((kron a b).rows, (kron a b).cols))) rfl ?_
    rintro _ rfl
    dsimp only
    rw [if_neg (not_not.mpr hsquare)]
    refine Outcome.Ends.bind (Outcome.Ends.mapError (iha ha) fun _ _ => trivial) fun P hP => ?_
    refine Outcome.Ends.bind (Outcome.Ends.mapError (ihb hb) fun _ _ => trivial) fun Q hQ => ?_
    exact hP.kron hQ
  | diag d =>
    refine hK.ends_inverse_of fun _ => ?_
    rw [inverseOnly, Diagonal.inverse]
    split
    · trivial
    · exact .diag Array.size_map
  | scalar n alpha =>
    refine hK.ends_inverse_of fun _ => ?_
    rw [inverseOnly, inverseScalar]
    split
    · trivial
    · exact .scalar n _ _

end Shapes

variable {F : Type} [Field F] [LinearOrder F] [IsStrictOrderedRing F] {K : LinearMap F} {n : ℕ}

theorem separated_of_posDef {M : Matrix (Fin n) (Fin n) F} (h : ∀ u ≠ 0, 0 < u ⬝ᵥ M *ᵥ u) : Separated 0 M := by
  rintro u ⟨i, hi⟩
  have hne : u ≠ 0 := by
    rintro rfl
    exact zero_ne_one hi
  exact abs_pos.mpr (h u hne).ne'

/-- Whenever a map that writes out as a symmetric matrix has an inverse, this is made like the map and writes out as
the inverse on both sides, although only the factors of a Kronecker product are inverted and these need not be
symmetric. Where the matrix is positive definite, the tolerance zero leaves an inverse. -/
theorem inverse_of_symmetric {a : Array F} (hsize : K.size = .ok (n, n)) (ha : K.toColumnMajor = .ok a)
    (hsymm : (columnMajor n n a).IsSymm) :
    (∀ eps, 0 ≤ eps → ∀ J, (K.inverse eps).result = .ok J → J.size = .ok (n, n) ∧ J.kind = K.kind ∧
      SameShape J K ∧ ∃ c, J.toColumnMajor = .ok c ∧ columnMajor n n a * columnMajor n n c = 1 ∧
        columnMajor n n c * columnMajor n n a = 1) ∧
    (0 < n → (∀ u ≠ 0, 0 < u ⬝ᵥ columnMajor n n a *ᵥ u) → ∃ J, (K.inverse 0).result = .ok J) := by
  obtain ⟨hfits, hrc⟩ := size_eq_ok_iff.mp hsize
  have hK : K.Sized n n := ⟨(congrArg Prod.fst hrc).symm, (congrArg Prod.snd hrc).symm⟩
  have hmatrix := hK.columnMajor_eq ha
  rw [hmatrix] at hsymm ⊢
  constructor
  · intro eps heps J hJ
    have hshape : SameShape J K := (hfits.ends_inverse eps).of_result_eq_ok hJ
    have hinv := (yields_inverse heps hK).of_result_eq_ok hJ
    have hwritable : J.Writable := hshape.writable_iff.mpr (toColumnMajor_eq_ok_iff.mp ha).1
    have hc : J.toColumnMajor = .ok J.entries := toColumnMajor_eq_ok_iff.mpr ⟨hwritable, rfl⟩
    have hmul := hinv.mul_eq_one (.of_isSymm hsymm)
    rw [← hinv.sized.columnMajor_eq hc] at hmul
    exact ⟨hshape.size_eq.trans hsize, hshape.kind_eq, hshape, J.entries, hc, hmul, mul_eq_one_comm.mp hmul⟩
  · intro hn hpos
    have hends := hfits.ends_inverse (0 : F)
    have hrejected := yields_inverse le_rfl hK
    cases hresult : (K.inverse 0).result with
    | ok J => exact ⟨J, rfl⟩
    | error s =>
      cases s with
      | fault f => exact (Outcome.Ends.of_result_eq_fault hends hresult).elim
      | error e =>
        have hreason := Outcome.Ends.of_result_eq_error hrejected hresult
        exact absurd ⟨rfl, hn⟩ (hreason rfl hsymm (separated_of_posDef hpos)).2

/-- A positive definite product of two negative definite factors. -/
def negatives : LinearMap ℚ :=
  .kron (.ofScalar 1 (-2)) (.ofEntries 2 2 fun i j => if i = j then -2 else -1)

theorem negatives_inverse : ∃ a J c, negatives.toColumnMajor = .ok a ∧ (negatives.inverse 0).result = .ok J ∧
    SameShape J negatives ∧ J.toColumnMajor = .ok c ∧ columnMajor 2 2 a * columnMajor 2 2 c = 1 ∧
    columnMajor 2 2 c * columnMajor 2 2 a = 1 := by
  have hsized : negatives.Sized 2 2 := ⟨rfl, rfl⟩
  have hsize : negatives.size = .ok (2, 2) := size_of_fits (by decide)
  obtain ⟨a, ha⟩ := exists_eq_ok (show negatives.toColumnMajor.toBool = true by decide +kernel)
  have hmatrix : columnMajor 2 2 a = !![4, 2; 2, 4] := by
    rw [hsized.columnMajor_eq ha]
    ext i j
    fin_cases i <;> fin_cases j <;> decide +kernel
  have hsymm : (columnMajor 2 2 a).IsSymm := by
    rw [hmatrix]
    decide +kernel
  have hpos : ∀ u ≠ 0, 0 < u ⬝ᵥ columnMajor 2 2 a *ᵥ u := fun u hu => by
    have hform : u ⬝ᵥ columnMajor 2 2 a *ᵥ u = 2 * (u ⬝ᵥ u) + 2 * (u 0 + u 1) ^ 2 := by
      rw [hmatrix]
      simp [dotProduct, mulVec, Fin.sum_univ_two]
      ring
    have hself : 0 < u ⬝ᵥ u := (dotProduct_self_nonneg u).lt_of_ne' (dotProduct_self_eq_zero.not.mpr hu)
    rw [hform]
    positivity
  obtain ⟨hinverse, hdefinite⟩ := inverse_of_symmetric hsize ha hsymm
  obtain ⟨J, hJ⟩ := hdefinite two_pos hpos
  obtain ⟨-, -, hshape, c, hc, hleft, hright⟩ := hinverse 0 le_rfl J hJ
  exact ⟨a, J, c, ha, hJ, hshape, hc, hleft, hright⟩

end BlockElimination.LinearMap
